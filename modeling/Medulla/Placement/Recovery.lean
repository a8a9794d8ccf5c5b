import Medulla.Placement.MoveCalls
import Medulla.Placement.Coverage
import Mathlib.Data.List.Sort

/-! # Recovering an interrupted move

A held partition is driven on from its journal and its row alone, on a node that serves the move: it
leads the placement group, the target runs and the graphs are durable.

* a journal that is not stuck: `ends_reconcileMove`;
* a stuck one: `fails_driveMove`. -/

namespace Medulla.Placement.Recovery

open Library.Checked Library.OrderedTable Library.Resumption Library.Resumption.Program
open Placement.Partition Catalog Moves Shapes Coverage
open MoveStates MoveSteps MoveCalls

variable {graph : String} {env : Environment} {α : Type} {P : α → PlacementCatalog → Prop}

/-! ### Sorted names -/

theorem isSortedUnique_iff : ∀ {names : List String},
    isSortedUnique names = true ↔ names.Pairwise (· < ·)
  | [] => by simp [isSortedUnique]
  | [a] => by simp [isSortedUnique]
  | a :: b :: rest => by
    rw [isSortedUnique, Bool.and_eq_true, decide_eq_true_iff, isSortedUnique_iff,
      ← List.isChain_iff_pairwise, ← List.isChain_iff_pairwise, List.isChain_cons_cons]

theorem insertName_sorted {name : String} :
    ∀ {names : List String}, names.Pairwise (· < ·) → (insertName name names).Pairwise (· < ·)
  | [], _ => List.pairwise_singleton _ _
  | a :: rest, h => by
    obtain ⟨ha, hrest⟩ := List.pairwise_cons.mp h
    unfold insertName
    split_ifs with hlt heq
    · refine List.pairwise_cons.mpr ⟨fun b hb => ?_, h⟩
      rcases List.mem_cons.mp hb with rfl | hb
      · exact hlt
      · exact lt_trans hlt (ha b hb)
    · exact h
    · refine List.pairwise_cons.mpr ⟨fun b hb => ?_, insertName_sorted hrest⟩
      rcases mem_insertName.mp hb with rfl | hb
      · exact lt_of_le_of_ne (not_lt.mp hlt) (Ne.symm heq)
      · exact ha b hb

theorem sortDedup_sorted : ∀ {names : List String}, (sortDedup names).Pairwise (· < ·)
  | [] => List.Pairwise.nil
  | _ :: rest => insertName_sorted (@sortDedup_sorted rest)

/-! ### Valid journals -/

section
variable {N : Naming} {j j' : PartitionMoveJournal}

theorem validate_graphs (h : j.validate N) :
    j.graphs.Pairwise (· < ·) ∧ j.completedGraphs.Pairwise (· < ·) ∧
      ∀ graph ∈ j.completedGraphs, graph ∈ j.graphs := by
  unfold PartitionMoveJournal.validate completedGraphsAreValid at h
  simp only [Bool.and_eq_true, List.all_eq_true, List.contains_iff_mem] at h
  exact ⟨isSortedUnique_iff.mp h.1.2.1.1, isSortedUnique_iff.mp h.1.2.1.2, h.1.2.2⟩

theorem validate_progress (h : j.validate N) : progressMatchesStage j := by
  unfold PartitionMoveJournal.validate at h
  rw [Bool.and_eq_true] at h
  exact h.2

theorem validate_stage {stage : MoveStage} (h : j.validate N)
    (hp : progressMatchesStage { j with stage := stage }) :
    ({ j with stage := stage } : PartitionMoveJournal).validate N := by
  unfold PartitionMoveJournal.validate completedGraphsAreValid at h ⊢
  rw [Bool.and_eq_true] at h ⊢
  exact ⟨h.1, hp⟩

theorem validate_completed (h : j.validate N) (hst : j.stage = .transferring)
    (hg : graph ∈ j.graphs) :
    ({ j with completedGraphs := sortDedup (j.completedGraphs ++ [graph]) } :
      PartitionMoveJournal).validate N := by
  obtain ⟨hsorted, -, hsub⟩ := validate_graphs h
  unfold PartitionMoveJournal.validate completedGraphsAreValid progressMatchesStage at h ⊢
  simp only [Bool.and_eq_true, List.all_eq_true, List.contains_iff_mem, hst] at h ⊢
  refine ⟨⟨h.1.1, ⟨isSortedUnique_iff.mpr hsorted, isSortedUnique_iff.mpr sortDedup_sorted⟩, ?_⟩,
    trivial⟩
  intro g hmem
  rcases List.mem_append.mp (mem_sortDedup.mp hmem) with hmem | hmem
  · exact hsub g hmem
  · rw [List.mem_singleton.mp hmem]
    exact hg

theorem completed_eq_graphs (h : j.validate N)
    (hall : ∀ graph ∈ j.graphs, graph ∈ j.completedGraphs) : j.completedGraphs = j.graphs := by
  obtain ⟨hgraphs, hcompleted, hsub⟩ := validate_graphs h
  exact hcompleted.eq_of_mem_iff hgraphs fun graph => ⟨hsub graph, hall graph⟩

theorem permits_later (hv : j'.validate N) (hmove : SameMove j' j)
    (hretains : ∀ graph ∈ j.completedGraphs, graph ∈ j'.completedGraphs)
    (hstep : stageStepIsPermitted j.stage j'.stage) :
    j.permitsSuccessor N j' = true := by
  unfold PartitionMoveJournal.permitsSuccessor sameMoveIdentity retainsCompletedGraphs
  simp only [Bool.and_eq_true, Bool.or_eq_true, decide_eq_true_iff, List.all_eq_true,
    List.contains_iff_mem]
  exact ⟨⟨hv, ⟨⟨⟨⟨hmove.moveId.symm, hmove.key.symm⟩, hmove.source.symm⟩, hmove.target.symm⟩,
    hmove.originalEpoch.symm⟩, hmove.graphs.symm⟩, Or.inr ⟨hretains, hstep⟩⟩

end

/-! ### Epochs -/

section
variable {c : PlacementCatalog} {k : PartitionKey} {o : Owner} {n : ℕ}

theorem foldr_max_le : ∀ {entries : List PlacementEntry}, (∀ e ∈ entries, e.epoch ≤ n) →
    entries.foldr (fun entry highest => max entry.epoch highest) 0 ≤ n
  | [], _ => Nat.zero_le n
  | e :: _, h =>
    max_le (h e (.head _)) (foldr_max_le fun f hf => h f (.tail _ hf))

theorem epochFloor_le (hcounter : c.epochCounter.getD 0 ≤ n)
    (h : ∀ e ∈ c.scanAllEntries, e.epoch ≤ n) : c.epochFloor ≤ n := by
  have hmax : c.maxEpoch ≤ n := foldr_max_le h
  refine max_le ?_ hmax
  cases hc : c.epochCounter with
  | none => exact hmax
  | some m =>
    rw [hc] at hcounter
    exact hcounter

theorem epochFloor_setRow (h : c.epochFloor ≤ n) (ho : o.epoch ≤ n) :
    ({ c with entries := c.entries.insert k o } : PlacementCatalog).epochFloor ≤ n := by
  refine epochFloor_le (le_trans (epochCounter_le_floor c) h) fun e he => ?_
  obtain ⟨hget, hscan⟩ := mem_scan_iff.mp he
  by_cases hek : e.key = k
  · rw [hek] at hget
    rw [Table.get_insert_self] at hget
    cases hget
    exact ho
  · change (c.entries.insert k o).get e.key = _ at hget
    rw [Table.get_insert_of_ne _ _ hek] at hget
    exact le_trans (epoch_le_floor (mem_scan_iff.mpr ⟨hget, hscan⟩)) h

theorem epochFloor_counter (h : c.epochFloor ≤ n) :
    ({ c with epochCounter := some n } : PlacementCatalog).epochFloor ≤ n :=
  epochFloor_le le_rfl fun _ he => le_trans (epoch_le_floor (c := c) he) h

theorem nextEpoch_ok (h : c.epochFloor + 1 ≤ u64Max) : ∃ a, c.nextEpoch = .ok a := by
  unfold PlacementCatalog.nextEpoch
  rw [show checkedAdd u64Max c.epochFloor 1 = some (c.epochFloor + 1) from
    checkedAdd_eq_some.mpr ⟨rfl, h⟩]
  exact ⟨_, rfl⟩

/-- **Alone, the reservation of the next epoch succeeds.** -/
theorem ends_reserve {a : EpochAllocation} (h : c.nextEpoch = .ok a) :
    (reservePlanEpoch (reserveSteps a)).Ends PlacementCatalog.apply
      (fun reserved t => reserved = true ∧
        t = { c with epochCounter := some (c.epochFloor + 1) }) c := by
  obtain ⟨hfloor, halloc, -, hexpected, hseed⟩ := nextEpoch_eq_ok h
  have hlast : ∀ d : PlacementCatalog, d.epochCounter = some a.floor →
      (reservePlanEpoch [.epochCasMethod a.floor a.allocated]).Ends PlacementCatalog.apply
        (fun reserved t => reserved = true ∧ t = { d with epochCounter := some (c.epochFloor + 1) })
        d := by
    intro d hd
    refine ends_bind (P := fun took t => took = true ∧
      t = { d with epochCounter := some (c.epochFloor + 1) }) (ends_perform ?_) ?_
    · rw [apply_epochCas hd, halloc]
      exact ⟨rfl, rfl⟩
    · rintro took t ⟨rfl, rfl⟩
      exact ends_pure ⟨rfl, rfl⟩
  unfold reserveSteps
  cases hc : c.epochCounter with
  | none =>
    rw [hc] at hexpected hseed
    have hseeds : a.seedIfAbsent = true := hseed
    have hlifted : ¬ a.expected ≠ a.floor := by
      rw [hexpected, hfloor]
      exact fun hne => hne rfl
    rw [if_pos hseeds, if_neg hlifted]
    refine ends_bind (P := fun took t => took = true ∧ t = { c with epochCounter := some a.floor })
      (ends_perform ?_) ?_
    · rw [apply_epochSeed hc]
      exact ⟨rfl, rfl⟩
    · rintro took t ⟨rfl, rfl⟩
      exact hlast { c with epochCounter := some a.floor } rfl
  | some m =>
    rw [hc] at hexpected hseed
    have hpresent : a.seedIfAbsent = false := hseed
    rw [hpresent]
    by_cases hm : a.expected = a.floor
    · rw [if_neg (not_not.mpr hm)]
      exact hlast c (by rw [hc, ← hm, hexpected]; rfl)
    · rw [if_pos hm]
      refine ends_bind (P := fun took t => took = true ∧
        t = { c with epochCounter := some a.floor }) (ends_perform ?_) ?_
      · rw [apply_epochCas (by rw [hc, hexpected]; rfl)]
        exact ⟨rfl, rfl⟩
      · rintro took t ⟨rfl, rfl⟩
        exact hlast { c with epochCounter := some a.floor } rfl

/-! ### Routes -/

theorem routeGraph_group (hapart : Apart c k.tenant) (hs : scannedKey k)
    (hrow : c.entries.get k = some o) (hg : coversGraph k graph) :
    (routeGraph env c graph).group = o.group := by
  unfold coversGraph at hg
  rw [Bool.and_eq_true, decide_eq_true_iff] at hg
  obtain ⟨htenant, hcontains⟩ := hg
  have hmem : (⟨o, k⟩ : PlacementEntry) ∈ c.tenantEntries k.tenant :=
    mem_tenantEntries.mpr ⟨hrow, hs, rfl⟩
  unfold routeGraph PlacementCatalog.route
  rw [htenant]
  obtain ⟨e, he, hec, hroute⟩ := routeEntries_placed (g := env.groupOf graph)
    (routeEntries_placed_of_mem hmem hcontains)
  have hkey : e.key = k := hapart e he _ hmem ⟨_, hec, hcontains⟩
  have hget := (mem_tenantEntries.mp he).1
  rw [hkey, hrow] at hget
  rw [hroute, Option.some.inj hget]
  rfl

end

/-! ### Standing moves -/

/-- **A node that serves a move**: it leads the placement group, the target runs, the tenant has no
prepared transaction, and every graph of the journal is durable. -/
structure Serves (env : Environment) (journal : PartitionMoveJournal) : Prop where
  local_leader : env.requireLocalGroupLeader = .ok ()
  placement_leader : env.requirePlacementLeader = .ok ()
  running : env.running journal.target = true
  unprepared : env.consensusTenantIsPrepared journal.key.tenant = false
  durable : ∀ graph ∈ journal.graphs, ∃ nodes, env.verifyGraphDurable graph = .ok nodes

theorem Serves.same {i j : PartitionMoveJournal} (h : Serves env j) (hmove : SameMove i j) :
    Serves env i where
  local_leader := h.local_leader
  placement_leader := h.placement_leader
  running := by rw [hmove.target]; exact h.running
  unprepared := by rw [hmove.key]; exact h.unprepared
  durable := by rw [hmove.graphs]; exact h.durable

theorem Serves.admits {j : PartitionMoveJournal} (h : Serves env j) :
    admitPlacementChange env j.key.tenant = .ok () := by
  unfold admitPlacementChange
  rw [check_eq_ok]
  exact ⟨rejectIf_eq_ok.mpr (by simp [h.unprepared]), h.placement_leader⟩

theorem verifyGraphs_ok : ∀ {graphs : List String},
    (∀ graph ∈ graphs, ∃ nodes, env.verifyGraphDurable graph = .ok nodes) →
      ∃ nodes, verifyGraphs env graphs = .ok nodes
  | [], _ => ⟨[], rfl⟩
  | graph :: rest, h => by
    obtain ⟨n, hn⟩ := h graph (.head _)
    obtain ⟨ns, hns⟩ := verifyGraphs_ok fun g hg => h g (.tail _ hg)
    refine ⟨n :: ns, ?_⟩
    rw [verifyGraphs, hn, hns]
    rfl

section
variable (N : Naming)

/-- A held partition whose tenant's rows share no hash, in a catalog with epochs up to `n`. -/
structure Standing (n : ℕ) (c : PlacementCatalog) (k : PartitionKey)
    (journal : PartitionMoveJournal) (o : Owner) : Prop
    extends Holding N c k journal o where
  apart : Apart c k.tenant
  floor : c.epochFloor ≤ n

end

structure Succeeds (N : Naming) (j j' : PartitionMoveJournal) : Prop where
  move : SameMove j' j
  valid : j'.validate N
  retains : ∀ graph ∈ j.completedGraphs, graph ∈ j'.completedGraphs
  step : stageStepIsPermitted j.stage j'.stage

section
variable {N : Naming} {c : PlacementCatalog} {k : PartitionKey}
  {j j' : PartitionMoveJournal} {o : Owner} {n : ℕ}

theorem Standing.validate (h : Standing N n c k j o) :
    j.validate N := (h.valid _ j h.held.durable).1

theorem apart_of_keys {c' : PlacementCatalog} {tenant : String} (h : Apart c tenant)
    (hkeys : ∀ l, (c'.entries.get l).isSome = (c.entries.get l).isSome) : Apart c' tenant := by
  rw [apart_iff] at h ⊢
  intro a b ha hb hmeets
  have hplaces := @places_congr c tenant c' fun l _ => hkeys l
  exact h a b ((hplaces a).mp ha) ((hplaces b).mp hb) hmeets

theorem apart_setRow {o' : Owner} (h : Apart c k.tenant) (hrow : c.entries.get k = some o) :
    Apart { c with entries := c.entries.insert k o' } k.tenant :=
  apart_of_keys h fun l => setRow_keys hrow l

theorem Standing.put (h : Standing N n c k j o) (hv : j'.validate N)
    (hmove : SameMove j' j) (hu : j'.stage.terminal = false) (hf : Fits j' o) :
    Standing N n (putJournal c j') k j' o where
  held := held_putJournal h.valid h.held hmove.moveId (hmove.key.trans h.held.key) hmove.graphs hu hf
  valid := putJournal_valid h.valid hv (by rw [hmove.key]; exact (h.valid _ j h.held.durable).2.2)
  apart := h.apart
  floor := h.floor

theorem Standing.setRow {o' : Owner} (h : Standing N n c k j o)
    (hf : Fits j o') (hle : o'.epoch ≤ n) :
    Standing N n { c with entries := c.entries.insert k o' } k j o' where
  held := held_setRow h.held hf
  valid := h.valid
  apart := apart_setRow h.apart h.held.row
  floor := epochFloor_setRow h.floor hle

theorem Standing.epoch_le (h : Standing N n c k j o) : o.epoch ≤ n :=
  le_trans (epoch_le_floor (e := ⟨o, k⟩) (mem_scan_iff.mpr ⟨h.held.row, h.held.scanned⟩)) h.floor

/-! ### Writing journals -/

theorem ends_guard {p : Prop} [Decidable p] {message : String}
    {f : Unit → Placing α} (hp : ¬ p) (h : (f ()).Ends PlacementCatalog.apply P c) :
    (Program.lift (rejectIf p message) >>= f).Ends PlacementCatalog.apply P c :=
  ends_lift_bind (rejectIf_eq_ok.mpr hp) h

theorem ends_persist (hv : JournalsValid N c) (hj : j'.validate N)
    (hpermits : ∀ current, c.journals.get j'.moveId = some current →
      current.permitsSuccessor N j' = true) :
    (persistMoveJournal N j').Ends PlacementCatalog.apply
      (fun _ t => t = putJournal c j') c := by
  refine ends_asks_bind (moveJournal_eq_ok hv _) ?_
  have hpermitted : permittedBy N j' (c.journals.get j'.moveId) = .ok () := by
    cases hcur : c.journals.get j'.moveId with
    | none => rfl
    | some current => exact rejectIf_eq_ok.mpr (by simp [hpermits current hcur])
  refine ends_lift_bind hpermitted ?_
  refine ends_guard (by simp [hj]) ?_
  exact ends_bind (ends_perform (P := fun _ t => t = putJournal c j') rfl) fun _ _ ht =>
    ends_pure ht

theorem ends_put (h : Standing N n c k j o)
    (hs : Succeeds N j j') :
    (persistMoveJournal N j').Ends PlacementCatalog.apply
      (fun _ t => t = putJournal c j') c := by
  refine ends_persist h.valid hs.valid fun current hcur => ?_
  rw [hs.move.moveId, h.held.durable] at hcur
  cases hcur
  exact permits_later hs.valid hs.move hs.retains hs.step

theorem ends_advance (h : Standing N n c k j o) (hs : Succeeds N j j')
    (hu : j'.stage.terminal = false) (hf : Fits j' o) :
    (persistMoveJournal N j').Ends PlacementCatalog.apply
      (fun _ t => Standing N n t k j' o) c := by
  refine ends_mono (ends_put h hs) fun _ t ht => ?_
  rw [ht]
  exact h.put hs.valid hs.move hu hf

theorem succeeds_stage {stage : MoveStage} (hv : j.validate N)
    (hp : progressMatchesStage { j with stage := stage })
    (hstep : stageStepIsPermitted j.stage stage) :
    Succeeds N j { j with stage := stage } where
  move := ⟨rfl, rfl, rfl, rfl, rfl, rfl⟩
  valid := validate_stage hv hp
  retains _ hg := hg
  step := hstep

theorem everyGraphCompleted_of_stage (hv : j.validate N)
    (hst : j.stage = .readyForCutover ∨ j.stage = .cutoverCommitted) :
    everyGraphCompleted j = true := by
  have hp := validate_progress hv
  unfold progressMatchesStage at hp
  rcases hst with hst | hst <;> rw [hst] at hp <;> exact hp

/-! ### Past the cutover -/

/-- **What recovery leaves of a move**: completed with the row on the target at a later epoch, or aborted
with the row on the source at the original epoch. -/
def Recovered (t : PlacementCatalog) (j : PartitionMoveJournal) : Prop :=
  ∃ i o, t.journals.get j.moveId = some i ∧ SameMove i j ∧ t.entries.get j.key = some o ∧
    o.state = .active ∧ ((i.stage = .completed ∧ o.group = j.target ∧ j.originalEpoch < o.epoch) ∨
        (i.stage = .aborted ∧ o.group = j.source ∧ o.epoch = j.originalEpoch))

theorem Recovered.same {t : PlacementCatalog} (h : Recovered t j') (hmove : SameMove j' j) :
    Recovered t j := by
  obtain ⟨i, o, hid, hi, hrow, hactive, hend⟩ := h
  rw [hmove.moveId] at hid
  rw [hmove.key] at hrow
  rw [hmove.target, hmove.originalEpoch, hmove.source] at hend
  exact ⟨i, o, hid, hi.trans hmove, hrow, hactive, hend⟩

def Over (n : ℕ) (j : PartitionMoveJournal) (t : PlacementCatalog) : Prop :=
  Recovered t j ∧ t.epochFloor ≤ n

theorem ends_completeMove (h : Standing N n c k j o)
    (hst : j.stage = .cutoverCommitted)
    (ht : (PlacementFence.observe ⟨o, k⟩ j).activeTarget = true) (hserves : Serves env j)
    (range : ℕ × ℕ) (epoch : ℕ) :
    (completeMove N env j range epoch).Ends PlacementCatalog.apply
      (fun _ t => Over n j t) c := by
  obtain ⟨nodes, hnodes⟩ := verifyGraphs_ok hserves.durable
  have hreports : ∃ reports, completionReports env j = .ok reports := by
    unfold completionReports
    rw [hnodes]
    exact ⟨_, rfl⟩
  obtain ⟨reports, hreports⟩ := hreports
  refine ends_lift_bind hreports ?_
  have hall := everyGraphCompleted_of_stage h.validate (Or.inr hst)
  have hs : Succeeds N j { j with stage := .completed } :=
    succeeds_stage h.validate hall (by rw [hst]; rfl)
  refine ends_bind (ends_put h hs) fun _ t htput => ends_pure ?_
  subst htput
  obtain ⟨hgroup, hepoch, hactive⟩ := activeTarget_iff.mp ht
  refine ⟨⟨_, o, ?_, hs.move, ?_, hactive, Or.inl ⟨rfl, hgroup, hepoch⟩⟩, h.floor⟩
  · rw [putJournal_get, if_pos rfl]
  · rw [h.held.key]
    exact h.held.row

theorem ends_recordCutover (a : α) (h : Standing N n c k j o)
    (hst : j.stage = .readyForCutover ∨ j.stage = .cutoverCommitted)
    (ht : (PlacementFence.observe ⟨o, k⟩ j).activeTarget = true) :
    (do
      persistMoveJournal N { j with stage := .cutoverCommitted }
      pure ({ j with stage := .cutoverCommitted }, a) :
        Placing (PartitionMoveJournal × α)).Ends PlacementCatalog.apply
      (fun r t => r.1.stage = .cutoverCommitted ∧ SameMove r.1 j ∧ ∃ o',
        Standing N n t k r.1 o' ∧
          (PlacementFence.observe ⟨o', k⟩ r.1).activeTarget = true) c := by
  have hall := everyGraphCompleted_of_stage h.validate hst
  have hs : Succeeds N j { j with stage := .cutoverCommitted } := by
    refine succeeds_stage h.validate hall ?_
    rcases hst with hst | hst <;> rw [hst] <;> rfl
  refine ends_bind (ends_advance h hs rfl (fits_of_matches (k := k) ht (fun he => by cases he)))
    fun _ t hstand => ends_pure ?_
  exact ⟨rfl, hs.move, o, hstand, ht⟩

/-! ### The cutover -/

theorem Standing.reserve (h : Standing N n c k j o) :
    Standing N (n + 1) { c with epochCounter := some (c.epochFloor + 1) } k j o where
  held := by
    refine SameView.held ?_ h.held
    exact ⟨rfl, fun _ _ _ => Iff.rfl⟩
  valid := h.valid
  apart := h.apart
  floor := le_trans (epochFloor_counter (Nat.le_succ _)) (Nat.succ_le_succ h.floor)

theorem ends_cas {u : PlacementEntry} {requireSuccess : Bool}
    (h : Standing N n c k j o) (hf : Fits j u.toOwner) (hle : u.epoch ≤ n) :
    (commitPlanMethods requireSuccess [.entryCasMethod ⟨o, k⟩ u]).Ends PlacementCatalog.apply
      (fun _ t => Standing N n t k j u.toOwner) c := by
  refine ends_bind (P := fun took t => took = true ∧ Standing N n t k j u.toOwner)
    (ends_perform ?_) ?_
  · rw [apply_entryCas (e := ⟨o, k⟩) (u := u) h.held.row]
    exact ⟨rfl, h.setRow hf hle⟩
  · rintro took t ⟨rfl, hstand⟩
    rw [Bool.not_true, Bool.and_false]
    exact ends_pure hstand

theorem ends_fenceCutover (h : Standing N n c k j o)
    (hst : j.stage = .readyForCutover)
    (hs : (PlacementFence.observe ⟨o, k⟩ j).movingSource = true) (hserves : Serves env j)
    (hn : n + 1 ≤ u64Max) :
    (placementFenceCutover env j.key.tenant (keyRange j.key) j.target).Ends PlacementCatalog.apply
      (fun _ t => ∃ o', Standing N (n + 1) t k j o' ∧
        (PlacementFence.observe ⟨o', k⟩ j).activeTarget = true) c := by
  obtain ⟨⟨-, hepoch⟩, hmoving⟩ := movingSource_iff.mp hs
  have hfloor : c.epochFloor ≤ n := h.floor
  obtain ⟨a, ha⟩ := nextEpoch_ok (c := c) (by omega)
  have halloc := (nextEpoch_eq_ok ha).2.1
  have hrow := partitionEntry_eq h.held.scanned h.held.row
  have hplan : c.planFenceCutover k.tenant (keyRange k) j.target =
      .ok ⟨[.entryCasMethod ⟨o, k⟩ ⟨⟨j.target, a.allocated, .active⟩, k⟩], a.allocated, some a,
        true⟩ := by
    refine bind_eq_ok.mpr ⟨a, ha, bind_eq_ok.mpr ⟨⟨o, k⟩, okOr_eq_ok.mpr hrow, ?_⟩⟩
    exact check_eq_ok.mpr ⟨rejectIf_eq_ok.mpr (not_not.mpr hmoving), rfl⟩
  refine ends_lift_bind hserves.admits ?_
  rw [h.held.key]
  refine ends_asks_bind hplan ?_
  refine ends_bind (P := fun committed t => committed = true ∧ ∃ o',
    Standing N (n + 1) t k j o' ∧ (PlacementFence.observe ⟨o', k⟩ j).activeTarget = true) ?_ ?_
  · have hreserve := ends_reserve ha
    refine ends_bind (P := fun reserved t => reserved = true ∧
      t = { c with epochCounter := some (c.epochFloor + 1) }) ?_ ?_
    · simpa using hreserve
    · rintro reserved t ⟨rfl, rfl⟩
      have htarget : (PlacementFence.observe ⟨⟨j.target, a.allocated, .active⟩, k⟩ j).activeTarget
          = true := by
        have hle : o.epoch ≤ c.epochFloor :=
          epoch_le_floor (e := ⟨o, k⟩) (mem_scan_iff.mpr ⟨h.held.row, h.held.scanned⟩)
        exact activeTarget_iff.mpr ⟨rfl, show j.originalEpoch < a.allocated by omega, rfl⟩
      have hfits : Fits j ⟨j.target, a.allocated, .active⟩ := by
        refine fits_of_matches (k := k) ?_ (by rw [hst]; decide)
        rw [hst]
        unfold stageMatchesFence
        rw [Bool.or_eq_true]
        exact Or.inr htarget
      refine ends_bind (ends_cas h.reserve hfits (show a.allocated ≤ n + 1 by omega)) ?_
      exact fun _ t hstand => ends_pure ⟨rfl, _, hstand, htarget⟩
  · rintro committed t ⟨rfl, hstand⟩
    exact ends_pure hstand

/-! ### Transferring -/

theorem ends_reshardGraph (h : Standing N n c k j o)
    (hs : (PlacementFence.observe ⟨o, k⟩ j).movingSource = true) (hserves : Serves env j)
    (hg : graph ∈ j.graphs) :
    (reshardGraph env graph j.target).Ends PlacementCatalog.apply (fun _ t => t = c) c := by
  obtain ⟨nodes, hnodes⟩ := hserves.durable graph hg
  have hroute : (routeGraph env c graph).group = j.source :=
    (routeGraph_group h.apart h.held.scanned h.held.row (h.held.covered graph hg)).trans
      (movingSource_iff.mp hs).1.1
  refine ends_asks_bind rfl ?_
  refine ends_lift (a := ⟨graph, (routeGraph env c graph).group, j.target, nodes⟩) ?_ rfl
  have hne := h.toHolding.source_ne_target
  refine check_eq_ok.mpr ⟨rejectIf_eq_ok.mpr (by rw [hroute]; exact hne), ?_⟩
  refine check_eq_ok.mpr ⟨rejectIf_eq_ok.mpr (by simp [hserves.running]), ?_⟩
  exact bind_eq_ok.mpr ⟨nodes, hnodes, rfl⟩

/-- **The transfer of every graph**, by induction on those that are left. -/
theorem ends_transferGraphs :
    ∀ {graphs : List String} {c : PlacementCatalog} {j : PartitionMoveJournal},
      Standing N n c k j o → j.stage = .transferring →
      (PlacementFence.observe ⟨o, k⟩ j).movingSource = true → Serves env j →
      (∀ graph ∈ graphs, graph ∈ j.graphs) →
      (transferGraphs N env graphs j).Ends PlacementCatalog.apply
        (fun i t => Standing N n t k i o ∧ i.stage = .transferring ∧ SameMove i j ∧
          (∀ graph ∈ j.completedGraphs, graph ∈ i.completedGraphs) ∧
            ∀ graph ∈ graphs, graph ∈ i.completedGraphs) c
  | [], _, j, h, hst, _, _, _ =>
    ends_pure ⟨h, hst, SameMove.refl j, fun _ hg => hg, fun _ hg => by cases hg⟩
  | graph :: rest, c, j, h, hst, hs, hserves, hsub => by
    have hrest : ∀ g ∈ rest, g ∈ j.graphs := fun g hg => hsub g (.tail _ hg)
    unfold transferGraphs
    split_ifs with hdone
    · rw [List.contains_iff_mem] at hdone
      refine ends_mono (ends_transferGraphs h hst hs hserves hrest) ?_
      rintro i t ⟨hstand, hist, hmove, hkept, hall⟩
      refine ⟨hstand, hist, hmove, hkept, fun g hg => ?_⟩
      rcases List.mem_cons.mp hg with rfl | hg
      · exact hkept g hdone
      · exact hall g hg
    · have hgraph := hsub graph (.head _)
      refine ends_bind (ends_reshardGraph h hs hserves hgraph) fun _ t ht => ?_
      subst ht
      have hnext : Succeeds N j
          { j with completedGraphs := sortDedup (j.completedGraphs ++ [graph]) } :=
        { move := ⟨rfl, rfl, rfl, rfl, rfl, rfl⟩
          valid := validate_completed h.validate hst hgraph
          retains := fun g hg => mem_sortDedup.mpr (List.mem_append_left _ hg)
          step := by rw [hst]; rfl }
      refine ends_bind (ends_advance h hnext h.held.unfinished
        (fence_transferring hnext.move hst hs)) fun _ t hstand => ?_
      refine ends_mono (ends_transferGraphs hstand hst hs (hserves.same hnext.move) hrest) ?_
      rintro i u ⟨hi, hist, hmove, hkept, hall⟩
      refine ⟨hi, hist, hmove.trans hnext.move, fun g hg => hkept g (hnext.retains g hg),
        fun g hg => ?_⟩
      rcases List.mem_cons.mp hg with rfl | hg
      · exact hkept g (mem_sortDedup.mpr (List.mem_append_right _ (List.mem_singleton_self g)))
      · exact hall g hg

/-- **Up to the intent to cut over**, from any stage that may be followed by a transfer. -/
theorem ends_transferMoveGraphs (h : Standing N n c k j o)
    (hs : (PlacementFence.observe ⟨o, k⟩ j).movingSource = true)
    (hstep : stageStepIsPermitted j.stage .transferring) (hserves : Serves env j) :
    (transferMoveGraphs N env j).Ends PlacementCatalog.apply
      (fun i t => Standing N n t k i o ∧ i.stage = .readyForCutover ∧ SameMove i j) c := by
  have hfirst : Succeeds N j { j with stage := .transferring } :=
    succeeds_stage h.validate rfl hstep
  refine ends_bind (ends_advance h hfirst rfl (fence_transferring hfirst.move rfl hs))
    fun _ t hstand => ?_
  refine ends_bind (ends_transferGraphs hstand rfl hs (hserves.same hfirst.move)
    fun graph hg => hg) ?_
  rintro i u ⟨hi, hist, hmove, -, hall⟩
  have hcomplete : i.completedGraphs = i.graphs :=
    completed_eq_graphs hi.validate fun graph hg => hall graph (by rw [← hmove.graphs]; exact hg)
  have hready : Succeeds N i { i with stage := .readyForCutover } :=
    succeeds_stage hi.validate (decide_eq_true hcomplete) (by rw [hist]; rfl)
  have hsame : SameMove { i with stage := .readyForCutover } j :=
    (hready.move.trans hmove).trans hfirst.move
  have hfence : Fits { i with stage := .readyForCutover } o := by
    refine fits_of_matches (k := k) ?_ (fun he => by cases he)
    unfold stageMatchesFence
    rw [Bool.or_eq_true, hsame.observe]
    exact Or.inl hs
  refine ends_bind (ends_advance hi hready rfl hfence) fun _ v hv => ?_
  obtain ⟨nodes, hnodes⟩ := verifyGraphs_ok (hserves.same hsame).durable
  exact ends_lift_bind hnodes (ends_pure ⟨hv, rfl, hsame⟩)

/-! ### Driving -/

theorem ends_journalEntry (h : Standing N n c k j o) {i : PartitionMoveJournal}
    (hi : i.key = k) :
    (journalEntry i).Ends PlacementCatalog.apply (fun e t => e = ⟨o, k⟩ ∧ t = c) c := by
  refine ⟨⟨o, k⟩, c, ?_, rfl, rfl⟩
  have hentry : okOr (c.partitionEntry i.key.tenant (keyRange i.key))
      "partition placement entry not found" = .ok ⟨o, k⟩ := by
    rw [hi]
    exact okOr_eq_ok.mpr (partitionEntry_eq h.held.scanned h.held.row)
  rw [← hentry]
  rfl

theorem ends_plan_unallocated {u : PlacementEntry} {plan : PendingWrite}
    (h : Standing N n c k j o) (hm : plan.methods = [.entryCasMethod ⟨o, k⟩ u])
    (ha : plan.epochAllocation = none) (hf : Fits j u.toOwner) (hle : u.epoch ≤ n) :
    (commitPlacementPlan plan).Ends PlacementCatalog.apply
      (fun _ t => Standing N n t k j u.toOwner) c := by
  unfold commitPlacementPlan
  rw [ha, hm]
  exact ends_bind (ends_pure (P := fun reserved t => reserved = true ∧ t = c) ⟨rfl, rfl⟩)
    fun reserved t ht => by
      obtain ⟨rfl, rfl⟩ := ht
      exact ends_bind (ends_cas h hf hle) fun _ v hv => ends_pure hv

theorem ends_startMove (h : Standing N n c k j o) (hst : j.stage = .planned)
    (hs : (PlacementFence.observe ⟨o, k⟩ j).activeSource = true) (hserves : Serves env j) :
    (placementStartMove env j.key.tenant (keyRange j.key) j.target).Ends PlacementCatalog.apply
      (fun _ t => Standing N n t k j { o with state := .moving j.target }) c := by
  obtain ⟨hroute, hactive⟩ := activeSource_iff.mp hs
  have hplan : c.planStartMove k.tenant (keyRange k) j.target =
      .ok ⟨[.entryCasMethod ⟨o, k⟩ ⟨{ o with state := .moving j.target }, k⟩], o.epoch, none,
        true⟩ := by
    refine bind_eq_ok.mpr ⟨⟨o, k⟩, okOr_eq_ok.mpr (partitionEntry_eq h.held.scanned h.held.row), ?_⟩
    have hne : o.group ≠ j.target := by
      rw [hroute.1]
      exact h.toHolding.source_ne_target
    simp only [startMoveWrite, hactive, if_neg hne]
  have hfits : Fits j { o with state := .moving j.target } := by
    refine fits_of_matches (k := k) ?_ (by rw [hst]; decide)
    rw [hst]
    unfold stageMatchesFence PlacementFence.sourceRoute
    rw [Bool.or_eq_true, movingSource_iff]
    exact Or.inr ⟨hroute, rfl⟩
  refine ends_lift_bind hserves.admits ?_
  rw [h.held.key]
  refine ends_asks_bind hplan ?_
  refine ends_bind (ends_plan_unallocated
    (u := ⟨{ o with state := .moving j.target }, k⟩) h rfl rfl hfits h.epoch_le) ?_
  exact fun _ t ht => ends_pure ht

def Transferable (stage : MoveStage) : Prop :=
  stage = .planned ∨ stage = .moving ∨ stage = .transferring

theorem ends_startMoveIfActive (h : Standing N n c k j o)
    (hst : Transferable j.stage) (hserves : Serves env j) :
    (startMoveIfActive N env j ⟨o, k⟩).Ends PlacementCatalog.apply
      (fun r t => SameMove r.1 j ∧ Transferable r.1.stage ∧ ∃ o',
        Standing N n t k r.1 o' ∧ r.2 = ⟨o', k⟩ ∧
          (PlacementFence.observe ⟨o', k⟩ r.1).movingSource = true) c := by
  unfold startMoveIfActive
  split_ifs with hs
  · -- the row moves already
    refine ends_pure ⟨SameMove.refl j, hst, o, h, rfl, ?_⟩
    have hfence := h.held.fence
    unfold stageMatchesFence PlacementFence.sourceRoute at hfence
    rw [hs] at hfence
    rcases hst with hst | hst | hst <;> simpa [hst] using hfence
  · rw [Bool.not_eq_false] at hs
    have hplanned : j.stage = .planned := by
      rcases stage_of_activeSource h.toHolding hs with hp | ha
      · exact hp
      · rcases hst with hst | hst | hst <;> rw [hst] at ha <;> cases ha
    refine ends_bind (ends_startMove h hplanned hs hserves) fun _ t ht => ?_
    have hprogress : noGraphCompleted j = true := by
      have hp := validate_progress h.validate
      unfold progressMatchesStage at hp
      rw [hplanned] at hp
      exact hp
    have hnext : Succeeds N j { j with stage := .moving } :=
      succeeds_stage h.validate hprogress (by rw [hplanned]; rfl)
    have hmoving : (PlacementFence.observe ⟨{ o with state := .moving j.target }, k⟩
        { j with stage := .moving }).movingSource = true :=
      movingSource_iff.mpr ⟨(activeSource_iff.mp hs).1, rfl⟩
    refine ends_bind (ends_advance ht hnext rfl
      (fits_of_matches (k := k) hmoving (fun he => by cases he))) fun _ u hu => ?_
    refine ends_bind (ends_journalEntry hu h.held.key) ?_
    rintro e v ⟨rfl, rfl⟩
    exact ends_pure ⟨hnext.move, Or.inr (Or.inl rfl), _, hu, rfl, hmoving⟩

theorem ends_reload (h : Standing N n c k j o) (hst : j.stage = .readyForCutover) :
    (reloadReadyForCutover N j.moveId).Ends PlacementCatalog.apply
      (fun i t => i = j ∧ t = c) c := by
  refine ends_asks_bind (moveJournal_eq_ok h.valid _) ?_
  rw [h.held.durable]
  refine ends_lift (a := j) ?_ ⟨rfl, rfl⟩
  exact check_eq_ok.mpr ⟨rejectIf_eq_ok.mpr (not_not.mpr hst), rfl⟩

def PastCutover (N : Naming) (n : ℕ) (k : PartitionKey)
    (j i : PartitionMoveJournal) (t : PlacementCatalog) : Prop :=
  i.stage = .cutoverCommitted ∧ SameMove i j ∧ ∃ o', Standing N n t k i o' ∧
    (PlacementFence.observe ⟨o', k⟩ i).activeTarget = true

theorem ends_cutOverMove (h : Standing N n c k j o) (hst : Transferable j.stage)
    (hserves : Serves env j) (hn : n + 1 ≤ u64Max) :
    (cutOverMove N env j ⟨o, k⟩).Ends PlacementCatalog.apply
      (fun r t => PastCutover N (n + 1) k j r.1 t) c := by
  refine ends_guard (by rcases hst with hst | hst | hst <;> rw [hst] <;> decide) ?_
  refine ends_bind (ends_startMoveIfActive h hst hserves) ?_
  rintro ⟨i, e⟩ t ⟨hmove, hist, o', hstand, rfl, hs⟩
  refine ends_guard (by rw [hs]; decide) ?_
  have hstep : stageStepIsPermitted i.stage .transferring := by
    rcases hist with hist | hist | hist <;> rw [hist] <;> rfl
  refine ends_bind (ends_transferMoveGraphs hstand hs hstep (hserves.same hmove)) ?_
  rintro i' u ⟨hready, hi', hmove'⟩
  have hs' : (PlacementFence.observe ⟨o', k⟩ i').movingSource = true := by
    rw [hmove'.observe]
    exact hs
  have hserves' := (hserves.same hmove).same hmove'
  refine ends_bind (ends_reload hready hi') ?_
  rintro _ _ ⟨rfl, rfl⟩
  refine ends_lift_bind hserves.local_leader ?_
  refine ends_bind (ends_fenceCutover hready hi' hs' hserves' hn) ?_
  rintro epoch v ⟨o'', hcut, htarget⟩
  refine ends_mono (ends_recordCutover epoch hcut (Or.inl hi') htarget) ?_
  rintro r w ⟨hr, hrmove, hrest⟩
  exact ⟨hr, (hrmove.trans hmove').trans hmove, hrest⟩

def StuckAtCutover (c : PlacementCatalog) (j : PartitionMoveJournal) : Prop :=
  j.stage = .readyForCutover ∧ ∃ o, c.entries.get j.key = some o ∧ o.state ≠ .active

section
variable (h : Standing N n c k j o)
include h

theorem activeTarget_of_transferable
    (hst : Transferable j.stage) : (PlacementFence.observe ⟨o, k⟩ j).activeTarget = false := by
  rw [← Bool.not_eq_true, activeTarget_iff]
  rintro ⟨hgroup, -, -⟩
  have hfence := h.held.fence
  have hsource : o.group = j.source := by
    rcases hst with hst | hst | hst <;> rw [hst] at hfence
    · rcases Bool.or_eq_true_iff.mp hfence with hf | hf
      · exact (activeSource_iff.mp hf).1.1
      · exact (movingSource_iff.mp hf).1.1
    · exact (movingSource_iff.mp hfence).1.1
    · exact (movingSource_iff.mp hfence).1.1
  exact h.toHolding.source_ne_target (hsource.symm.trans hgroup)

theorem activeTarget_of_ready (hst : j.stage = .readyForCutover ∨ j.stage = .cutoverCommitted)
    (hstuck : ¬ StuckAtCutover c j) : (PlacementFence.observe ⟨o, k⟩ j).activeTarget = true := by
  have hfence := h.held.fence
  rcases hst with hst | hst <;> rw [hst] at hfence
  · rcases Bool.or_eq_true_iff.mp hfence with hf | hf
    · refine absurd ⟨hst, o, by rw [h.held.key]; exact h.held.row, ?_⟩ hstuck
      rw [(movingSource_iff.mp hf).2]
      exact fun he => by cases he
    · exact hf
  · exact hfence

theorem ends_passCutover (hna : j.stage ≠ .aborting)
    (hstuck : ¬ StuckAtCutover c j) (hserves : Serves env j) (hn : n + 1 ≤ u64Max) :
    (passCutover N env j ⟨o, k⟩).Ends PlacementCatalog.apply
      (fun r t => PastCutover N (n + 1) k j r.1 t) c := by
  have hu := h.held.unfinished
  have hcases : Transferable j.stage ∨ j.stage = .readyForCutover ∨ j.stage = .cutoverCommitted := by
    unfold Transferable
    cases hst : j.stage <;> simp [hst, MoveStage.terminal] at hna hu ⊢
  unfold passCutover
  rcases hcases with hst | hst
  · rw [if_neg (by rw [activeTarget_of_transferable h hst]; decide)]
    exact ends_cutOverMove h hst hserves hn
  · have htarget := activeTarget_of_ready h hst hstuck
    rw [if_pos htarget]
    have hwider : Standing N (n + 1) c k j o :=
      ⟨h.toHolding, h.apart, Nat.le_succ_of_le h.floor⟩
    exact ends_recordCutover o.epoch hwider hst htarget

/-- **Driving a move on from any stage but a stuck one ends it on the target.** -/
theorem ends_driveMove (hna : j.stage ≠ .aborting)
    (hstuck : ¬ StuckAtCutover c j) (hserves : Serves env j) (hn : n + 1 ≤ u64Max) :
    (driveMove N env j).Ends PlacementCatalog.apply
      (fun _ t => Over (n + 1) j t) c := by
  refine ends_guard (by rw [hserves.running]; decide) ?_
  refine ends_bind (ends_journalEntry h h.held.key) ?_
  rintro e t ⟨rfl, rfl⟩
  refine ends_bind (ends_passCutover h hna hstuck hserves hn) ?_
  rintro ⟨i, epoch⟩ u ⟨hist, hmove, o', hstand, htarget⟩
  refine ends_mono (ends_completeMove hstand hist htarget (hserves.same hmove) _ _) ?_
  exact fun _ v hv => ⟨hv.1.same hmove, hv.2⟩

end

theorem fails_guard {p : Prop} [Decidable p] {message : String} {f : Unit → Placing α} (hp : ¬ p)
    (h : (f ()).Fails PlacementCatalog.apply c) :
    (Program.lift (rejectIf p message) >>= f).Fails PlacementCatalog.apply c := by
  rw [show rejectIf p message = .ok () from rejectIf_eq_ok.mpr hp]
  exact h

theorem fails_persist {e : String} (hv : JournalsValid N c)
    (hrefused : permittedBy N j' (c.journals.get j'.moveId) = .error e) :
    (persistMoveJournal N j').Fails PlacementCatalog.apply c := by
  refine fails_after (P := fun i t => i = c.journals.get j'.moveId ∧ t = c)
    ⟨_, c, by rw [← moveJournal_eq_ok hv]; rfl, rfl, rfl⟩ ?_
  rintro _ t ⟨rfl, rfl⟩
  rw [hrefused]
  exact fails_lift

section
variable (h : Standing N n c k j o)
include h

/-- **A stuck move is not driven on**: to be transferring again is not a permitted successor. -/
theorem fails_driveMove (hstuck : StuckAtCutover c j)
    (hserves : Serves env j) : (driveMove N env j).Fails PlacementCatalog.apply c := by
  obtain ⟨hst, o', hrow, hstate⟩ := hstuck
  rw [h.held.key, h.held.row] at hrow
  cases hrow
  have hfence := h.held.fence
  rw [hst] at hfence
  have hs : (PlacementFence.observe ⟨o, k⟩ j).movingSource = true := by
    refine (Bool.or_eq_true_iff.mp hfence).resolve_right fun hf => ?_
    exact hstate (activeTarget_iff.mp hf).2.2
  have htarget : (PlacementFence.observe ⟨o, k⟩ j).activeTarget = false := by
    rw [← Bool.not_eq_true, activeTarget_iff]
    exact fun hf => hstate hf.2.2
  have hsource : (PlacementFence.observe ⟨o, k⟩ j).activeSource = false := by
    rw [← Bool.not_eq_true, activeSource_iff]
    exact fun hf => hstate hf.2
  have hrefused : permittedBy N { j with stage := .transferring }
      (c.journals.get j.moveId) = .error "partition move journal transition is not monotonic" := by
    rw [h.held.durable]
    refine if_pos ?_
    unfold PartitionMoveJournal.permitsSuccessor
    simp [hst, stageStepIsPermitted]
  refine fails_guard (by rw [hserves.running]; decide) ?_
  refine fails_after (ends_journalEntry h h.held.key) ?_
  rintro e t ⟨rfl, rfl⟩
  refine fails_bind ?_
  unfold passCutover
  rw [if_neg (by rw [htarget]; decide)]
  refine fails_guard (by rw [hst]; decide) ?_
  refine fails_after (P := fun r u => r = (j, ⟨o, k⟩) ∧ u = t) ?_ ?_
  · unfold startMoveIfActive
    rw [if_pos hsource]
    exact ends_pure ⟨rfl, rfl⟩
  rintro _ u ⟨rfl, rfl⟩
  refine fails_guard (by rw [hs]; decide) ?_
  exact fails_bind (fails_bind (fails_persist h.valid hrefused))

/-! ### Aborting -/

theorem ends_giveBackRow (hst : j.stage = .aborting)
    (hs : (PlacementFence.observe ⟨o, k⟩ j).movingSource = true) (hserves : Serves env j) :
    (placementAbortMove env j.key.tenant (keyRange j.key) j.source j.target
      j.originalEpoch).Ends PlacementCatalog.apply
      (fun _ t => Standing N n t k j { o with state := .active } ∧
        (PlacementFence.observe ⟨{ o with state := .active }, k⟩ j).activeSource = true) c := by
  obtain ⟨hroute, hmoving⟩ := movingSource_iff.mp hs
  have hplan : c.planAbortMove k.tenant (keyRange k) j.source j.target j.originalEpoch =
      .ok ⟨[.entryCasMethod ⟨o, k⟩ ⟨{ o with state := .active }, k⟩], o.epoch, none, true⟩ := by
    refine bind_eq_ok.mpr ⟨⟨o, k⟩, okOr_eq_ok.mpr (partitionEntry_eq h.held.scanned h.held.row), ?_⟩
    refine check_eq_ok.mpr ⟨rejectIf_eq_ok.mpr ?_, rfl⟩
    simp [hroute.1, hroute.2, hmoving]
  have hfits : Fits j { o with state := .active } :=
    fits_givenBack h.toHolding.source_ne_target hst hroute
  refine ends_lift_bind hserves.admits ?_
  rw [h.held.key]
  refine ends_asks_bind hplan ?_
  refine ends_bind (ends_plan_unallocated (u := ⟨{ o with state := .active }, k⟩) h rfl rfl hfits
    h.epoch_le) fun _ t ht => ends_pure ⟨ht, ?_⟩
  exact activeSource_iff.mpr ⟨hroute, rfl⟩

theorem activeTarget_of_aborting
    (hst : j.stage = .aborting) : (PlacementFence.observe ⟨o, k⟩ j).activeTarget = false := by
  have hfits := h.held.fits.2 hst
  exact hfits

theorem ends_moveIsPostCutover (hst : j.stage = .aborting) :
    (moveIsPostCutover j).Ends PlacementCatalog.apply (fun post t => post = false ∧ t = c) c := by
  refine ends_bind (ends_journalEntry h h.held.key) ?_
  rintro e t ⟨rfl, rfl⟩
  exact ends_pure ⟨activeTarget_of_aborting h hst, rfl⟩

/-- **An abort that began ends with the row on the source.** -/
theorem ends_abortMoveUnlocked (hst : j.stage = .aborting) (hserves : Serves env j) :
    (abortMoveUnlocked N env j).Ends PlacementCatalog.apply
      (fun _ t => Over n j t) c := by
  have htarget := activeTarget_of_aborting h hst
  have haborted : Succeeds N j { j with stage := .aborted } :=
    succeeds_stage h.validate rfl (by rw [hst]; rfl)
  -- the last record, once the row is active on the source
  have hfinish : ∀ {d : PlacementCatalog} {o' : Owner}, Standing N n d k j o' →
      (PlacementFence.observe ⟨o', k⟩ j).activeSource = true →
      (restoreSourceRoute N j).Ends PlacementCatalog.apply
        (fun _ t => Over n j t) d := by
    intro d o' hd hsource
    refine ends_mono (ends_put hd haborted) fun _ t ht => ?_
    subst ht
    obtain ⟨⟨hgroup, hepoch⟩, hactive⟩ := activeSource_iff.mp hsource
    refine ⟨⟨_, o', ?_, haborted.move, ?_, hactive, Or.inr ⟨rfl, hgroup, hepoch⟩⟩, hd.floor⟩
    · rw [putJournal_get, if_pos rfl]
    · rw [hd.held.key]
      exact hd.held.row
  refine ends_guard (by rw [hst]; decide) ?_
  refine ends_bind (ends_moveIsPostCutover h hst) ?_
  rintro _ t ⟨rfl, rfl⟩
  refine ends_bind (P := fun i u => i = j ∧ u = t) ?_ ?_
  · unfold persistAborting
    rw [if_neg (not_not.mpr hst)]
    exact ends_pure ⟨rfl, rfl⟩
  rintro _ u ⟨rfl, rfl⟩
  refine ends_bind (ends_journalEntry h h.held.key) ?_
  rintro e t ⟨rfl, rfl⟩
  unfold giveBack
  rw [if_neg (by rw [htarget]; decide)]
  split_ifs with hmoving hsource
  · exact ends_bind (ends_giveBackRow h hst hmoving hserves) fun _ u hu => hfinish hu.1 hu.2
  · exfalso
    rcases fence_cases h.held.fence with hf | hf | hf
    · rw [hsource] at hf
      cases hf
    · exact hmoving hf
    · rw [htarget] at hf
      cases hf
  · rw [Bool.not_eq_false] at hsource
    exact hfinish h hsource

/-! ### One journal -/

end

theorem ends_readJournal (h : Standing N n c k j o)
    {f : Option PartitionMoveJournal → Placing α}
    (hf : (f (some j)).Ends PlacementCatalog.apply P c) :
    ((.asks fun c => moveJournal N c j.moveId) >>= f).Ends
      PlacementCatalog.apply P c := by
  refine ends_asks_bind (moveJournal_eq_ok h.valid _) ?_
  rw [h.held.durable]
  exact hf

/-- **Recovery ends an interrupted move** that is not stuck. -/
theorem ends_reconcileMove (h : Standing N n c k j o)
    (hstuck : ¬ StuckAtCutover c j) (hserves : Serves env j) (hn : n + 1 ≤ u64Max) :
    (reconcileMove N env j.moveId).Ends PlacementCatalog.apply
      (fun _ t => Over (n + 1) j t) c := by
  refine ends_readJournal h ?_
  refine ends_lift_bind (a := j) rfl ?_
  rw [if_neg (by rw [h.held.unfinished]; decide)]
  unfold reconcileUnfinished
  split_ifs with hst
  · refine ends_bind (ends_moveIsPostCutover h hst) ?_
    rintro _ t ⟨rfl, rfl⟩
    refine ends_bind (ends_abortMoveUnlocked h hst hserves) fun _ u hu => ends_pure ?_
    exact ⟨hu.1, Nat.le_succ_of_le hu.2⟩
  · exact ends_bind (ends_driveMove h hst hstuck hserves hn) fun _ t ht => ends_pure ht

theorem fails_reconcileMove (h : Standing N n c k j o)
    (hstuck : StuckAtCutover c j) (hserves : Serves env j) :
    (reconcileMove N env j.moveId).Fails PlacementCatalog.apply c := by
  refine fails_after (P := fun i t => i = some j ∧ t = c)
    ⟨some j, c, by rw [← h.held.durable, ← moveJournal_eq_ok h.valid]; rfl, rfl, rfl⟩ ?_
  rintro _ t ⟨rfl, rfl⟩
  refine fails_after (P := fun i u => i = j ∧ u = t) (ends_lift rfl ⟨rfl, rfl⟩) ?_
  rintro _ u ⟨rfl, rfl⟩
  rw [if_neg (by rw [h.held.unfinished]; decide)]
  unfold reconcileUnfinished
  rw [if_neg (by rw [hstuck.1]; decide)]
  exact fails_bind (fails_driveMove h hstuck hserves)

end

end Medulla.Placement.Recovery
