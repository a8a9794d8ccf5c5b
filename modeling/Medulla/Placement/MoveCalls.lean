import Medulla.Placement.MoveSteps

/-! # The calls of the move coordinator keep journal and row in agreement

Each call is put together from the writes of a move: whatever it does after its start, and wherever it
stops, its partition is free or held, and other partitions are left alone.

* the calls: `does_movePartition`, `does_abortMove_call`, `does_reconcileMove`. -/

namespace Medulla.Placement.MoveCalls

open Library.Checked Placement.Partition Catalog Moves MoveStates
open MoveSteps

variable {i : PartitionMoveJournal} {graphs : List String} {id : String}

structure SameMove (i j : PartitionMoveJournal) : Prop where
  moveId : i.moveId = j.moveId
  key : i.key = j.key
  source : i.source = j.source
  target : i.target = j.target
  originalEpoch : i.originalEpoch = j.originalEpoch
  graphs : i.graphs = j.graphs

theorem SameMove.refl (j : PartitionMoveJournal) : SameMove j j := ⟨rfl, rfl, rfl, rfl, rfl, rfl⟩

theorem SameMove.trans {h j : PartitionMoveJournal} (hi : SameMove h i) (hj : SameMove i j) :
    SameMove h j :=
  ⟨hi.moveId.trans hj.moveId, hi.key.trans hj.key, hi.source.trans hj.source,
    hi.target.trans hj.target, hi.originalEpoch.trans hj.originalEpoch, hi.graphs.trans hj.graphs⟩

theorem SameMove.observe {j : PartitionMoveJournal} (h : SameMove i j) (e : PlacementEntry) :
    PlacementFence.observe e i = PlacementFence.observe e j :=
  observe_congr h.source h.target h.originalEpoch

section
variable {N : Naming} {env : Environment} {c : PlacementCatalog}
  {k : PartitionKey} {j : PartitionMoveJournal} {o : Owner}

theorem stage_of_activeSource (h : Holding N c k j o)
    (hs : (PlacementFence.observe ⟨o, k⟩ j).activeSource = true) :
    j.stage = .planned ∨ j.stage = .aborting := by
  obtain ⟨⟨hsource, -⟩, hactive⟩ := activeSource_iff.mp hs
  have hmoving : (PlacementFence.observe ⟨o, k⟩ j).movingSource = false := by
    rw [← Bool.not_eq_true, movingSource_iff, hactive]
    exact fun hm => by cases hm.2
  have htarget : (PlacementFence.observe ⟨o, k⟩ j).activeTarget = false := by
    rw [← Bool.not_eq_true, activeTarget_iff]
    exact fun ht => Holding.source_ne_target h (hsource.symm.trans ht.1)
  have hfence := h.held.fence
  unfold stageMatchesFence at hfence
  rw [hmoving, htarget] at hfence
  cases hst : j.stage <;> simp [hst] at hfence ⊢

theorem does_journalEntry (h : Holding N c k j o) (hi : i.key = k) :
    Does N k (fun e t => e = ⟨o, k⟩ ∧ Holding N t k j o)
      (journalEntry i) c := by
  refine does_asks fun t ht e he u hu => ?_
  have hold := ht.holding h
  rw [hi] at he
  exact ⟨journalEntry_eq hold he, hu.holding hold⟩

/-! ### Transferring -/

theorem does_reshardGraph (h : Holding N c k j o) (graph : String) (target : ℕ) :
    Does N k (fun _ t => Holding N t k j o)
      (reshardGraph env graph target) c := by
  refine does_bind (P := fun _ t => Holding N t k j o)
    (does_asks fun t ht _ _ u hu => hu.holding (ht.holding h)) fun _ t ht => ?_
  exact does_lift fun _ _ u hu => hu.holding ht

theorem fence_transferring (hi : SameMove i j) (hst : i.stage = .transferring)
    (hs : (PlacementFence.observe ⟨o, k⟩ j).movingSource = true) : Fits i o := by
  refine fits_of_matches (k := k) ?_ (by rw [hst]; decide)
  rw [hst, hi.observe]
  exact hs

theorem does_transferGraphs :
    ∀ {graphs : List String} {c : PlacementCatalog} {j : PartitionMoveJournal},
      Holding N c k j o → j.stage = .transferring →
      (PlacementFence.observe ⟨o, k⟩ j).movingSource = true →
      Does N k
        (fun i t => Holding N t k i o ∧ i.stage = .transferring ∧ SameMove i j)
        (transferGraphs N env graphs j) c
  | [], _, j, h, hst, _ => does_pure fun _ hu => ⟨hu.holding h, hst, SameMove.refl j⟩
  | graph :: rest, c, j, h, hst, hs => by
    unfold transferGraphs
    split_ifs
    · exact does_transferGraphs h hst hs
    · refine does_bind (does_reshardGraph h graph j.target) fun _ t ht => ?_
      have hmove : SameMove
          { j with completedGraphs := sortDedup (j.completedGraphs ++ [graph]) } j :=
        ⟨rfl, rfl, rfl, rfl, rfl, rfl⟩
      refine does_bind (does_persist_held ht hmove.moveId h.held.key rfl h.held.unfinished
        (fence_transferring hmove hst hs)) fun _ t' ht' => ?_
      refine does_mono (does_transferGraphs ht' hst hs) fun i u hi => ?_
      exact ⟨hi.1, hi.2.1, hi.2.2.trans hmove⟩

theorem does_transferMoveGraphs
    (h : Holding N c k j o)
    (hs : (PlacementFence.observe ⟨o, k⟩ j).movingSource = true) :
    Does N k
      (fun i t => Holding N t k i o ∧ i.stage = .readyForCutover ∧ SameMove i j)
      (transferMoveGraphs N env j) c := by
  refine does_bind (does_persist_held (n := { j with stage := .transferring }) h rfl h.held.key
    rfl rfl (fits_of_matches (k := k) hs (fun h => by cases h))) fun _ t ht => ?_
  refine does_bind (does_transferGraphs ht rfl hs) ?_
  rintro i t' ⟨hold, -, hmove⟩
  have hready : SameMove { i with stage := .readyForCutover } j :=
    ⟨hmove.moveId, hmove.key, hmove.source, hmove.target, hmove.originalEpoch, hmove.graphs⟩
  have hfence : Fits { i with stage := .readyForCutover } o := by
    refine fits_of_matches (k := k) ?_ (fun h => by cases h)
    unfold stageMatchesFence
    rw [Bool.or_eq_true, hready.observe]
    exact Or.inl hs
  refine does_bind (does_persist_held (n := { i with stage := .readyForCutover }) hold rfl
    hold.held.key rfl rfl hfence) fun _ t'' ht'' => ?_
  refine does_bind (P := fun _ u => Holding N u k _ o)
    (does_lift fun _ _ u hu => hu.holding ht'') fun _ u hu => ?_
  exact does_pure fun v hv => ⟨hv.holding hu, rfl, hready⟩

/-! ### Driving -/

theorem does_startMoveIfActive
    (h : Holding N c k j o) (hna : j.stage ≠ .aborting) :
    Does N k
      (fun r t => ∃ o', Holding N t k r.1 o' ∧ r.2 = ⟨o', k⟩)
      (startMoveIfActive N env j ⟨o, k⟩) c := by
  unfold startMoveIfActive
  split_ifs with hs
  · exact does_pure fun t ht => ⟨o, ht.holding h, rfl⟩
  · rw [Bool.not_eq_false] at hs
    have hst := (stage_of_activeSource h hs).resolve_right hna
    have hstart := @does_startMove _ _ _ _ _ env h hst hs
    rw [← h.held.key] at hstart
    rw [← h.held.key]
    refine does_bind hstart fun _ t ht => ?_
    have hfence : Fits { j with stage := .moving } { o with state := .moving j.target } := by
      refine fits_of_matches (k := k) ?_ (fun h => by cases h)
      obtain ⟨hroute, -⟩ := activeSource_iff.mp hs
      exact movingSource_iff.mpr ⟨hroute, rfl⟩
    refine does_bind (does_persist_held (n := { j with stage := .moving }) ht rfl rfl rfl rfl
      hfence) fun _ t' ht' => ?_
    refine does_bind (does_journalEntry ht' rfl) ?_
    rintro e u ⟨rfl, hu⟩
    exact does_pure fun v hv => ⟨_, hv.holding hu, rfl⟩

theorem does_reload (h : Holding N c k j o) :
    Does N k (fun i t => i = j ∧ Holding N t k j o ∧
      j.stage = .readyForCutover) (reloadReadyForCutover N j.moveId) c := by
  refine does_bind (P := fun i t => i = some j ∧ Holding N t k j o)
    (does_asks fun t ht i hi u hu => ?_) ?_
  · have hold := ht.holding h
    rw [moveJournal_eq_ok hold.valid, hold.held.durable] at hi
    exact ⟨(Except.ok.inj hi).symm, hu.holding hold⟩
  · rintro i t ⟨rfl, hold⟩
    refine does_lift fun i hi u hu => ?_
    obtain ⟨i', hi', hcheck⟩ := unbind hi
    obtain rfl := Option.some.inj (okOr_eq_ok.mp hi')
    obtain ⟨hst, hpure⟩ := check_eq_ok.mp hcheck
    rw [rejectIf_eq_ok, not_not] at hst
    exact ⟨(pure_eq_ok.mp hpure).symm, hu.holding hold, hst⟩

def CutOver (N : Naming) (k : PartitionKey) (i : PartitionMoveJournal)
    (t : PlacementCatalog) : Prop :=
  ∃ o', Holding N t k i o' ∧ o'.state = .active

section
variable (h : Holding N c k j o)
include h

theorem does_recordCutover
    (hs : (PlacementFence.observe ⟨o, k⟩ j).activeTarget = true) {α : Type} (a : α) :
    Does N k (fun r t => CutOver N k r.1 t)
      (do
        persistMoveJournal N { j with stage := .cutoverCommitted }
        pure ({ j with stage := .cutoverCommitted }, a)) c := by
  refine does_bind (does_persist_held (n := { j with stage := .cutoverCommitted }) h rfl
    h.held.key rfl rfl (fits_of_matches (k := k) hs (fun h => by cases h))) fun _ t ht => ?_
  exact does_pure fun u hu => ⟨o, hu.holding ht, (activeTarget_iff.mp hs).2.2⟩

theorem does_cutOverMove : Does N k (fun r t => CutOver N k r.1 t)
      (cutOverMove N env j ⟨o, k⟩) c := by
  refine does_check fun hna t ht => ?_
  refine does_bind (does_startMoveIfActive (ht.holding h) (by simpa using hna)) ?_
  rintro ⟨i, e⟩ t' ⟨o', hold, rfl⟩
  refine does_check fun hmoving u hu => ?_
  have hs : (PlacementFence.observe ⟨o', k⟩ i).movingSource = true := by simpa using hmoving
  refine does_bind (does_transferMoveGraphs (hu.holding hold) hs) ?_
  rintro i' u' ⟨hready, hst, hmove⟩
  refine does_bind (does_reload hready) ?_
  rintro i'' v ⟨rfl, hreload, -⟩
  refine does_check fun _ w hw => ?_
  have hcut := @does_fenceCutover _ _ _ _ _ env (hw.holding hreload) hst
    (by rw [hmove.observe]; exact hs)
  rw [← hready.held.key] at hcut
  rw [← hready.held.key]
  refine does_bind hcut fun epoch x hx => ?_
  obtain ⟨o'', hheld, htarget⟩ := hx
  exact does_recordCutover hheld htarget epoch

theorem does_passCutover : Does N k (fun r t => CutOver N k r.1 t)
      (passCutover N env j ⟨o, k⟩) c := by
  unfold passCutover
  split_ifs with hs
  · exact does_recordCutover h hs o.epoch
  · exact does_cutOverMove h

/-- **Driving a move on.** -/
theorem does_driveMove : Does N k (fun _ _ => True) (driveMove N env j) c := by
  refine does_check fun _ t ht => ?_
  refine does_bind (does_journalEntry (ht.holding h) h.held.key) ?_
  rintro e t' ⟨rfl, hold⟩
  refine does_bind (does_passCutover hold) ?_
  rintro ⟨i, epoch⟩ u ⟨o', hcut, hactive⟩
  refine does_bind (P := fun _ v => Holding N v k i o')
    (does_lift fun _ _ v hv => hv.holding hcut) fun _ v hv => ?_
  refine does_bind (does_persist_finished (n := { i with stage := .completed }) hv rfl
    hv.held.key rfl hactive) fun _ _ _ => ?_
  exact does_pure fun _ _ => trivial

/-! ### Aborting -/

theorem does_driveThenFail (message : String) : Does N k (fun _ _ => True)
      (do
        let _ ← driveMove N env j
        (.lift (.error message) : Placing Unit)) c :=
  does_bind (does_driveMove h) fun _ _ _ => does_lift fun _ _ _ _ => trivial

theorem does_giveBack (hst : j.stage = .aborting) : Does N k (fun _ _ => True)
      (giveBack N env j (PlacementFence.observe ⟨o, k⟩ j)) c := by
  unfold giveBack
  split_ifs with htarget hmoving hsource
  · refine does_bind (does_persist_held (n := { j with stage := .cutoverCommitted }) h rfl
      h.held.key rfl rfl (fits_of_matches (k := k) htarget (fun h => by cases h))) fun _ t ht => ?_
    exact does_driveThenFail ht _
  · have habort := @does_abortMove _ _ _ _ _ env h hst hmoving
    rw [← h.held.key] at habort ⊢
    refine does_bind habort fun _ t ht => ?_
    exact does_persist_finished (n := { j with stage := .aborted }) ht rfl rfl rfl rfl
  · exact does_lift fun _ _ _ _ => trivial
  · rw [Bool.not_eq_false] at hsource
    exact does_persist_finished (n := { j with stage := .aborted }) h rfl h.held.key rfl
      (activeSource_iff.mp hsource).2

end

theorem fits_aborting (hfence : stageMatchesFence j.stage (.observe ⟨o, k⟩ j))
    (hpost : (PlacementFence.observe ⟨o, k⟩ j).activeTarget = false) :
    Fits { j with stage := .aborting } o := by
  refine ⟨?_, fun _ => hpost⟩
  unfold stageMatchesFence PlacementFence.sourceRoute
  rw [Bool.or_eq_true, Bool.or_eq_true, or_assoc]
  exact fence_cases hfence

theorem does_persistAborting
    (h : Holding N c k j o)
    (hpost : (PlacementFence.observe ⟨o, k⟩ j).activeTarget = false) :
    Does N k
      (fun i t => Holding N t k i o ∧ i.stage = .aborting)
      (persistAborting N j) c := by
  unfold persistAborting
  split_ifs with hst
  · refine does_bind (does_persist_held (n := { j with stage := .aborting }) h rfl h.held.key
      rfl rfl (fits_aborting h.held.fence hpost)) fun _ t ht => ?_
    exact does_pure fun u hu => ⟨hu.holding ht, rfl⟩
  · rw [not_not] at hst
    exact does_pure fun u hu => ⟨hu.holding h, hst⟩

theorem does_moveIsPostCutover (h : Holding N c k j o) :
    Does N k (fun post t => Holding N t k j o ∧
      post = (PlacementFence.observe ⟨o, k⟩ j).activeTarget) (moveIsPostCutover j) c := by
  refine does_bind (does_journalEntry h h.held.key) ?_
  rintro e t ⟨rfl, hold⟩
  exact does_pure fun u hu => ⟨hu.holding hold, rfl⟩

/-- **Aborting a move.** -/
theorem does_abortMoveUnlocked (h : Holding N c k j o) :
    Does N k (fun _ _ => True) (abortMoveUnlocked N env j) c := by
  refine does_check fun _ t ht => ?_
  refine does_bind (does_moveIsPostCutover (ht.holding h)) ?_
  rintro post t' ⟨hold, hpost⟩
  cases post with
  | true =>
    rw [if_pos rfl]
    unfold refuseAbort
    split_ifs
    · exact does_driveThenFail hold _
    · exact does_lift fun _ _ _ _ => trivial
  | false =>
    refine does_bind (does_persistAborting hold hpost.symm) ?_
    rintro i u ⟨hi, hst⟩
    refine does_bind (does_journalEntry hi hi.held.key) ?_
    rintro e v ⟨rfl, hv⟩
    exact does_giveBack hv hst

/-! ### The calls -/

theorem mem_insertName {name x : String} :
    ∀ {names : List String}, x ∈ insertName name names ↔ x = name ∨ x ∈ names
  | [] => by simp [insertName]
  | a :: rest => by
    unfold insertName
    split_ifs with h1 h2
    · exact List.mem_cons
    · subst h2
      simp
    · rw [List.mem_cons, List.mem_cons, mem_insertName]
      exact or_left_comm

theorem mem_sortDedup {x : String} : ∀ {names : List String}, x ∈ sortDedup names ↔ x ∈ names
  | [] => Iff.rfl
  | a :: rest => by
    rw [List.mem_cons, ← @mem_sortDedup _ rest]
    exact mem_insertName

theorem partitionGraphs_covered {registry : List String}
    (h : partitionGraphs registry k.tenant (keyRange k) = .ok graphs) :
    ∀ graph ∈ graphs, coversGraph k graph := by
  obtain ⟨-, h⟩ := check_eq_ok.mp h
  obtain ⟨-, h⟩ := check_eq_ok.mp h
  obtain rfl := pure_eq_ok.mp h
  exact fun graph hg => (List.mem_filter.mp (mem_sortDedup.mp hg)).2

theorem new_journal {e : PlacementEntry} {target : ℕ}
    (h : PartitionMoveJournal.new N e target graphs = .ok j) :
    j.key = e.key ∧ j.stage = .planned ∧ j.graphs = sortDedup graphs ∧
      (PlacementFence.observe e j).activeSource = true := by
  obtain ⟨hactive, h⟩ := check_eq_ok.mp h
  obtain ⟨-, h⟩ := check_eq_ok.mp h
  obtain ⟨-, h⟩ := check_eq_ok.mp h
  obtain rfl := pure_eq_ok.mp h
  rw [rejectIf_eq_ok, not_or, not_not] at hactive
  refine ⟨rfl, rfl, rfl, ?_⟩
  exact activeSource_iff.mpr ⟨⟨rfl, rfl⟩, hactive.2⟩

theorem does_chooseJournal {target : ℕ}
    {found : Option PartitionMoveJournal} (hv : JournalsValid N c) (hm : k ∈ N.keys)
    (hc : ∀ graph ∈ graphs, coversGraph k graph) (h : match found with
      | some i => ∃ o, Held c k i o
      | none => Free c k) :
    Does N k (fun i t => ∃ o, Holding N t k i o)
      (chooseJournal N k.tenant (keyRange k) target graphs found) c := by
  cases found with
  | some i =>
    obtain ⟨o, hheld⟩ := h
    simp only [chooseJournal]
    split_ifs
    · exact does_lift fun _ ha => by cases ha
    · exact does_pure fun t ht => ⟨o, ht.holding ⟨hheld, hv⟩⟩
  | none =>
    refine does_bind (P := fun e t => Rely N k c t ∧ e.key = k ∧
      c.entries.get k = some e.toOwner ∧ scannedKey k) (does_asks fun t ht e he u hu => ?_) ?_
    · obtain ⟨hkey, hrow, hscan⟩ := partitionEntry_row (okOr_eq_ok.mp he)
      exact ⟨ht.trans hu, hkey, by rw [← ht.view.row]; exact hrow, hscan⟩
    · rintro ⟨o, key⟩ t ⟨ht, hkey, hrow, hscan⟩
      cases hkey
      refine does_bind (P := fun i u => Rely N key c u ∧ i.key = key ∧
        i.stage = .planned ∧ i.graphs = sortDedup graphs ∧
          (PlacementFence.observe ⟨o, key⟩ i).activeSource = true)
        (does_lift fun i hi u hu => ⟨ht.trans hu, new_journal hi⟩) ?_
      rintro i u ⟨hu, hik, hst, hgraphs, hsource⟩
      have hfence : Fits i o := by
        refine fits_of_matches (k := key) ?_ (by rw [hst]; decide)
        rw [hst]
        unfold stageMatchesFence PlacementFence.sourceRoute
        rw [hsource]
        rfl
      refine does_bind (does_persist_new (hu.valid hv) hm (hu.view.free h)
        (by rw [hu.view.row]; exact hrow) hscan hik ?_ (by rw [hst]; rfl) hfence) fun _ v hv => ?_
      · rw [hgraphs]
        exact fun graph hg => hc graph (mem_sortDedup.mp hg)
      · exact does_pure fun w hw => ⟨o, hw.holding hv⟩

theorem validate_eq (hv : JournalsValid N c) {active : List PartitionMoveJournal}
    (h : validateMoveRecoveryState N c = .ok active) :
    active = unfinishedJournals c := by
  obtain ⟨journals, hj, h⟩ := unbind h
  obtain ⟨-, h⟩ := check_eq_ok.mp h
  obtain ⟨-, h⟩ := check_eq_ok.mp h
  rw [moveJournals_eq_ok hv] at hj
  cases hj
  exact (pure_eq_ok.mp h).symm

theorem found_journal (ha : Agreed c k) : match (unfinishedJournals c).find? fun i => i.key = k with
    | some i => ∃ o, Held c k i o
    | none => Free c k := by
  cases hf : (unfinishedJournals c).find? (fun i => i.key = k) with
  | some i =>
    have hfound := List.find?_some hf
    have hik : i.key = k := of_decide_eq_true hfound
    obtain ⟨⟨id, hid⟩, hu⟩ := mem_unfinishedJournals.mp (List.mem_of_find?_eq_some hf)
    rcases ha with hfree | ⟨j, o, hheld⟩
    · rw [hfree.finished id i hid hik] at hu
      cases hu
    · exact ⟨o, hheld.sole id i hid hik hu ▸ hheld⟩
  | none =>
    rcases ha with hfree | ⟨j, o, hheld⟩
    · exact hfree
    · have hmem : j ∈ unfinishedJournals c :=
        mem_unfinishedJournals.mpr ⟨⟨_, hheld.durable⟩, hheld.unfinished⟩
      exact absurd (decide_eq_true hheld.key) (List.find?_eq_none.mp hf j hmem)

/-- **Moving a partition.** -/
theorem does_movePartition (registry : List String)
    (target : ℕ) (hm : k ∈ N.keys) (hv : JournalsValid N c) (ha : Agreed c k) :
    Does N k (fun _ _ => True)
      (movePartition N env registry k.tenant (keyRange k) target) c := by
  refine does_check fun _ t ht => ?_
  refine does_bind (P := fun graphs u => Rely N k c u ∧
    ∀ graph ∈ graphs, coversGraph k graph) (does_lift fun graphs hg u hu =>
      ⟨ht.trans hu, partitionGraphs_covered hg⟩) ?_
  rintro graphs t' ⟨ht', hcovered⟩
  refine does_bind (P := fun active w => Rely N k c w ∧
    match active.find? (fun i => i.key = k) with
    | some i => ∃ o, Held w k i o
    | none => Free w k) (does_asks fun u hu active hactive w hw => ?_) ?_
  · have hrely := ht'.trans hu
    rw [validate_eq (hrely.valid hv) hactive]
    have hfound := found_journal (hrely.view.agreed ha)
    refine ⟨hrely.trans hw, ?_⟩
    cases hf : (unfinishedJournals u).find? (fun i => i.key = k) with
    | some i =>
      rw [hf] at hfound
      obtain ⟨o, hheld⟩ := hfound
      exact ⟨o, hw.view.held hheld⟩
    | none =>
      rw [hf] at hfound
      exact hw.view.free hfound
  · rintro active u ⟨hu, hfound⟩
    refine does_bind (does_chooseJournal (hu.valid hv) hm hcovered hfound) ?_
    rintro i w ⟨o, hold⟩
    exact does_driveMove hold

theorem does_readJournal (hv : JournalsValid N c) (ha : Agreed c k)
    (hid : c.journals.get id = some j) (hk : j.key = k) :
    Does N k (fun i t => i = some j ∧ JournalsValid N t ∧
      (j.stage.terminal = false → ∃ o, Holding N t k j o))
      (.asks fun c => moveJournal N c id) c := by
  refine does_asks fun t ht i hi u hu => ?_
  have hvt := ht.valid hv
  rw [moveJournal_eq_ok hvt, (ht.view.journals id j hk).mpr hid] at hi
  refine ⟨(Except.ok.inj hi).symm, hu.valid hvt, fun hunf => ?_⟩
  rcases ha with hfree | ⟨i', o, hheld⟩
  · rw [hfree.finished id j hid hk] at hunf
    cases hunf
  · obtain rfl := hheld.sole id j hid hk hunf
    exact ⟨o, (ht.trans hu).holding ⟨hheld, hv⟩⟩

section
variable (hv : JournalsValid N c) (ha : Agreed c k)
  (hid : c.journals.get id = some j) (hk : j.key = k)
include hv ha hid hk

/-- **Aborting under the guard of the partition.** -/
theorem does_abortMove_call : Does N k (fun _ _ => True) (abortMove N env id) c := by
  refine does_check fun _ t ht => ?_
  refine does_bind (does_readJournal (ht.valid hv) (ht.view.agreed ha)
    ((ht.view.journals id j hk).mpr hid) hk) ?_
  rintro i u ⟨rfl, hvu, hunf⟩
  refine does_bind (P := fun i w => i = j ∧ JournalsValid N w ∧
    (j.stage.terminal = false → ∃ o, Holding N w k j o))
    (does_lift fun i hi w hw => ?_) ?_
  · refine ⟨(Option.some.inj (okOr_eq_ok.mp hi)).symm, hw.valid hvu, fun h => ?_⟩
    obtain ⟨o, hold⟩ := hunf h
    exact ⟨o, hw.holding hold⟩
  · rintro i w ⟨rfl, -, hunf⟩
    cases hterm : i.stage.terminal with
    | true =>
      refine does_check fun hcheck => ?_
      rw [rejectIf_eq_ok] at hcheck
      exact absurd hterm hcheck
    | false =>
      obtain ⟨o, hold⟩ := hunf hterm
      exact does_abortMoveUnlocked hold

/-- **Recovering a listed journal.** -/
theorem does_reconcileMove : Does N k (fun _ _ => True) (reconcileMove N env id) c := by
  refine does_bind (does_readJournal hv ha hid hk) ?_
  rintro i u ⟨rfl, hvu, hunf⟩
  refine does_bind (P := fun i w => i = j ∧ JournalsValid N w ∧
    (j.stage.terminal = false → ∃ o, Holding N w k j o))
    (does_lift fun i hi w hw => ?_) ?_
  · refine ⟨(Option.some.inj (okOr_eq_ok.mp hi)).symm, hw.valid hvu, fun h => ?_⟩
    obtain ⟨o, hold⟩ := hunf h
    exact ⟨o, hw.holding hold⟩
  · rintro i w ⟨rfl, -, hunf⟩
    cases hterm : i.stage.terminal with
    | true => exact does_pure fun _ _ => trivial
    | false =>
      obtain ⟨o, hold⟩ := hunf hterm
      rw [if_neg Bool.false_ne_true]
      unfold reconcileUnfinished
      split_ifs
      · refine does_bind (does_moveIsPostCutover hold) ?_
        rintro post v ⟨hv, -⟩
        cases post with
        | true => exact does_bind (does_driveMove hv) fun _ _ _ => does_pure fun _ _ => trivial
        | false =>
          exact does_bind (does_abortMoveUnlocked hv) fun _ _ _ => does_pure fun _ _ => trivial
      · exact does_bind (does_driveMove hold) fun _ _ _ => does_pure fun _ _ => trivial

end

end

end Medulla.Placement.MoveCalls
