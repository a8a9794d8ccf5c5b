import Medulla.Placement.Moves
import Mathlib.Data.List.Nodup

/-! # Journals and rows in agreement

A partition is free when no unfinished journal claims it and its row, if any, does not move; it is held
by a journal when that is the only unfinished one that claims it and its stage fits the row. -/

namespace Medulla.Placement.MoveStates

open Library.Checked Library.OrderedTable Placement.Partition Catalog Moves

variable {c : PlacementCatalog} {e : PlacementEntry} {k : PartitionKey} {o : Owner}
  {journal : PartitionMoveJournal}

/-! ### Rows of a partition -/

def scannedKey (k : PartitionKey) : Bool := validTenant k.tenant && k.rangeStart ≤ k.rangeEnd

theorem mem_scan_iff :
    e ∈ c.scanAllEntries ↔ c.entries.get e.key = some e.toOwner ∧ scannedKey e.key :=
  mem_scanAllEntries

theorem partitionEntry_eq (hs : scannedKey k) (h : c.entries.get k = some o) :
    c.partitionEntry k.tenant (keyRange k) = some ⟨o, k⟩ := by
  have hmem : (⟨o, k⟩ : PlacementEntry) ∈ c.tenantEntries k.tenant :=
    mem_tenantEntries.mpr ⟨h, hs, rfl⟩
  cases hf : c.partitionEntry k.tenant (keyRange k) with
  | none =>
    have hno := List.find?_eq_none.mp hf _ hmem
    simp [keyRange] at hno
  | some e =>
    obtain ⟨he, hkey⟩ := partitionEntry_eq_some hf
    have hek : e.key = k := hkey
    have hget := (mem_tenantEntries.mp he).1
    rw [hek, h] at hget
    cases e with
    | mk owner key =>
      cases hek
      cases hget
      rfl

theorem partitionEntry_row (h : c.partitionEntry k.tenant (keyRange k) = some e) :
    e.key = k ∧ c.entries.get k = some e.toOwner ∧ scannedKey k := by
  obtain ⟨he, hkey⟩ := partitionEntry_eq_some h
  obtain ⟨hget, hscan, -⟩ := mem_tenantEntries.mp he
  have hek : e.key = k := hkey
  refine ⟨hek, by rw [← hek]; exact hget, ?_⟩
  rw [← hek]
  exact hscan

/-! ### Names of moves -/

/-- The ids of moves of these partitions tell the partitions apart. -/
def NamesPartitions (sha256 : List UInt8 → String) (keys : List PartitionKey) : Prop :=
  ∀ k ∈ keys, ∀ k' ∈ keys, ∀ e t gs e' t' gs',
    partitionMoveId sha256 k e t gs = partitionMoveId sha256 k' e' t' gs' → k = k'

/-- A digest that tells the partitions of a run apart. -/
structure Naming where
  sha256 : List UInt8 → String
  keys : List PartitionKey
  names : NamesPartitions sha256 keys

instance : Coe Naming (List UInt8 → String) := ⟨Naming.sha256⟩

/-! ### Free and held partitions -/

section
variable (N : Naming)

/-- Every journal is valid, stands under its id, and is of a partition of the run. -/
def JournalsValid (c : PlacementCatalog) : Prop :=
  ∀ id journal, c.journals.get id = some journal →
    journal.validate N ∧ journal.moveId = id ∧ journal.key ∈ N.keys

/-- No unfinished journal claims the partition, and its row does not move. -/
structure Free (c : PlacementCatalog) (k : PartitionKey) : Prop where
  finished : ∀ id journal, c.journals.get id = some journal → journal.key = k →
    journal.stage.terminal = true
  still : ∀ o, c.entries.get k = some o → o.state = .active

/-- The stage fits what the row shows; an abort is never past the cutover. -/
def Fits (journal : PartitionMoveJournal) (o : Owner) : Prop :=
  stageMatchesFence journal.stage (.observe ⟨o, journal.key⟩ journal) ∧ (journal.stage = .aborting →
      (PlacementFence.observe ⟨o, journal.key⟩ journal).activeTarget = false)

/-- **One unfinished journal claims the partition**, its graphs belong to the partition, and its stage
fits the row. -/
structure Held (c : PlacementCatalog) (k : PartitionKey) (journal : PartitionMoveJournal)
    (o : Owner) : Prop where
  durable : c.journals.get journal.moveId = some journal
  key : journal.key = k
  unfinished : journal.stage.terminal = false
  sole : ∀ id other, c.journals.get id = some other → other.key = k →
    other.stage.terminal = false → other = journal
  scanned : scannedKey k
  row : c.entries.get k = some o
  covered : ∀ graph ∈ journal.graphs, coversGraph k graph
  fits : Fits journal o

theorem Held.fence (h : Held c k journal o) :
    stageMatchesFence journal.stage (.observe ⟨o, k⟩ journal) := by
  have hf := h.fits.1
  exact hf

def Agreed (c : PlacementCatalog) (k : PartitionKey) : Prop :=
  Free c k ∨ ∃ journal o, Held c k journal o

end

/-! ### Fences -/

section
variable {j : PartitionMoveJournal}

theorem activeSource_iff : (PlacementFence.observe ⟨o, k⟩ j).activeSource = true ↔
    (o.group = j.source ∧ o.epoch = j.originalEpoch) ∧ o.state = .active := by
  simp only [PlacementFence.observe, decide_eq_true_iff]

theorem movingSource_iff : (PlacementFence.observe ⟨o, k⟩ j).movingSource = true ↔
    (o.group = j.source ∧ o.epoch = j.originalEpoch) ∧ o.state = .moving j.target := by
  simp only [PlacementFence.observe, decide_eq_true_iff]

theorem activeTarget_iff : (PlacementFence.observe ⟨o, k⟩ j).activeTarget = true ↔
    o.group = j.target ∧ o.epoch > j.originalEpoch ∧ o.state = .active := by
  simp only [PlacementFence.observe, decide_eq_true_iff]

theorem fence_cases {stage : MoveStage}
    (h : stageMatchesFence stage (.observe ⟨o, k⟩ j)) :
    (PlacementFence.observe ⟨o, k⟩ j).activeSource = true ∨
      (PlacementFence.observe ⟨o, k⟩ j).movingSource = true ∨
        (PlacementFence.observe ⟨o, k⟩ j).activeTarget = true := by
  unfold stageMatchesFence PlacementFence.sourceRoute at h
  cases stage <;> simp only [Bool.or_eq_true] at h <;> tauto

theorem movingSource_of_moving {stage : MoveStage} {target : ℕ}
    (h : stageMatchesFence stage (.observe ⟨o, k⟩ j)) (hs : o.state = .moving target) :
    (PlacementFence.observe ⟨o, k⟩ j).movingSource = true := by
  rcases fence_cases h with h | h | h
  · rw [activeSource_iff, hs] at h
    cases h.2
  · exact h
  · rw [activeTarget_iff, hs] at h
    cases h.2.2

theorem observe_congr {i : PartitionMoveJournal} (hs : i.source = j.source)
    (ht : i.target = j.target) (he : i.originalEpoch = j.originalEpoch) :
    PlacementFence.observe e i = PlacementFence.observe e j := by
  unfold PlacementFence.observe
  rw [hs, ht, he]

theorem fits_of_matches (h : stageMatchesFence j.stage (.observe ⟨o, k⟩ j))
    (hne : j.stage ≠ .aborting) : Fits j o := ⟨h, fun hst => absurd hst hne⟩

end

/-! ### The start-up check -/

section
variable {N : Naming}

theorem checkedJournal_eq_ok {id : String} (hv : journal.validate N)
    (hid : journal.moveId = id) : checkedJournal N id journal = .ok journal := by
  unfold checkedJournal
  rw [check_eq_ok]
  refine ⟨?_, rfl⟩
  rw [rejectIf_eq_ok, not_or, not_not]
  exact ⟨by simp [hv], hid⟩

theorem mapM_checked : ∀ {rows : List (String × PartitionMoveJournal)},
      (∀ r ∈ rows, r.2.validate N ∧ r.2.moveId = r.1) →
        (rows.mapM fun r => checkedJournal N r.1 r.2) = .ok (rows.map Prod.snd)
  | [], _ => rfl
  | r :: rows, h => by
    obtain ⟨hv, hid⟩ := h r (.head _)
    have hrest := mapM_checked fun q hq => h q (.tail _ hq)
    rw [List.mapM_cons, checkedJournal_eq_ok hv hid, hrest]
    rfl

theorem moveJournals_eq_ok (h : JournalsValid N c) :
    moveJournals N c = .ok (c.journals.rows.map Prod.snd) :=
  mapM_checked fun r hr =>
    have hr := h r.1 r.2 (Table.mem_rows.mp hr)
    ⟨hr.1, hr.2.1⟩

theorem moveJournal_eq_ok (h : JournalsValid N c) (id : String) :
    moveJournal N c id = .ok (c.journals.get id) := by
  unfold moveJournal
  cases hj : c.journals.get id with
  | none => rfl
  | some journal =>
    obtain ⟨hv, hid, -⟩ := h id journal hj
    simp only [checkedJournal_eq_ok hv hid]
    rfl

def unfinishedJournals (c : PlacementCatalog) : List PartitionMoveJournal :=
  (c.journals.rows.map Prod.snd).filter fun journal => !journal.stage.terminal

theorem mem_unfinishedJournals : journal ∈ unfinishedJournals c ↔
      (∃ id, c.journals.get id = some journal) ∧ journal.stage.terminal = false := by
  unfold unfinishedJournals
  rw [List.mem_filter, List.mem_map, Bool.not_eq_true']
  constructor
  · rintro ⟨⟨⟨id, j⟩, hr, rfl⟩, hu⟩
    exact ⟨⟨id, Table.mem_rows.mp hr⟩, hu⟩
  · rintro ⟨⟨id, hid⟩, hu⟩
    exact ⟨⟨(id, journal), Table.mem_rows.mpr hid, rfl⟩, hu⟩

theorem unfinishedJournals_nodup (h : JournalsValid N c) : (unfinishedJournals c).Nodup := by
  refine List.Nodup.filter _ ?_
  rw [List.nodup_iff_pairwise_ne, List.pairwise_map]
  refine List.Pairwise.imp_of_mem ?_ c.journals.sorted
  intro a b ha hb hlt heq
  obtain ⟨-, hida, -⟩ := h a.1 a.2 (Table.mem_rows.mp ha)
  obtain ⟨-, hidb, -⟩ := h b.1 b.2 (Table.mem_rows.mp hb)
  rw [← hida, ← hidb, heq] at hlt
  exact lt_irrefl _ hlt

theorem held_of_unfinished (h : ∀ k, Agreed c k) (hj : journal ∈ unfinishedJournals c) :
    ∃ o, Held c journal.key journal o := by
  obtain ⟨⟨id, hid⟩, hu⟩ := mem_unfinishedJournals.mp hj
  rcases h journal.key with hfree | ⟨j, o, hheld⟩
  · rw [hfree.finished id journal hid rfl] at hu
    cases hu
  · exact ⟨o, hheld.sole id journal hid rfl hu ▸ hheld⟩

theorem find_entry (hs : scannedKey k) (h : c.entries.get k = some o) :
    c.scanAllEntries.find? (fun entry => entry.key = k) = some ⟨o, k⟩ := by
  have hmem : (⟨o, k⟩ : PlacementEntry) ∈ c.scanAllEntries := mem_scan_iff.mpr ⟨h, hs⟩
  cases hf : c.scanAllEntries.find? (fun entry => entry.key = k) with
  | none => exact absurd (decide_eq_true rfl) (List.find?_eq_none.mp hf _ hmem)
  | some e =>
    have hfound := List.find?_some hf
    have hek : e.key = k := of_decide_eq_true hfound
    have hget := (mem_scan_iff.mp (List.mem_of_find?_eq_some hf)).1
    rw [hek, h] at hget
    cases e with
    | mk owner key =>
      cases hek
      cases hget
      rfl

theorem validateActiveJournals_ok :
    ∀ {claimed : List PartitionKey} {active : List PartitionMoveJournal},
      (∀ journal ∈ active, ∃ o, Held c journal.key journal o) → active.Nodup →
      (∀ journal ∈ active, journal.key ∉ claimed) →
      (∀ journal ∈ active, ∀ other ∈ active, journal.key = other.key → journal = other) →
        validateActiveJournals c.scanAllEntries claimed active = .ok ()
  | _, [], _, _, _, _ => rfl
  | claimed, journal :: rest, hheld, hnodup, hclaimed, hsole => by
    obtain ⟨o, h⟩ := hheld journal (.head _)
    obtain ⟨hout, hrest⟩ := List.nodup_cons.mp hnodup
    unfold validateActiveJournals
    rw [check_eq_ok]
    refine ⟨rejectIf_eq_ok.mpr (hclaimed journal (.head _)), ?_⟩
    rw [bind_eq_ok]
    refine ⟨⟨o, journal.key⟩, okOr_eq_ok.mpr (find_entry h.scanned h.row), ?_⟩
    rw [check_eq_ok]
    refine ⟨rejectIf_eq_ok.mpr (by simp [h.fence]), ?_⟩
    refine validateActiveJournals_ok (fun j hj => hheld j (.tail _ hj)) hrest ?_
      fun j hj i hi => hsole j (.tail _ hj) i (.tail _ hi)
    intro j hj hmem
    rcases List.mem_cons.mp hmem with hkey | hmem
    · have heq := hsole j (.tail _ hj) journal (.head _) hkey
      exact hout (heq ▸ hj)
    · exact hclaimed j (.tail _ hj) hmem

theorem moving_driven (hv : JournalsValid N c) (h : ∀ k, Agreed c k)
    (he : e ∈ c.scanAllEntries) : movingPartitionIsDriven (unfinishedJournals c) e = true := by
  unfold movingPartitionIsDriven
  split
  · rfl
  · next target hstate =>
    obtain ⟨hget, -⟩ := mem_scan_iff.mp he
    rcases h e.key with hfree | ⟨j, o, hheld⟩
    · rw [hfree.still _ hget] at hstate
      cases hstate
    · have ho : o = e.toOwner := Option.some.inj (hheld.row.symm.trans hget)
      subst ho
      have hmoving := movingSource_of_moving hheld.fence hstate
      obtain ⟨⟨hsource, hepoch⟩, htarget⟩ := movingSource_iff.mp hmoving
      have htgt : target = j.target := by
        rw [hstate] at htarget
        exact PartitionState.moving.inj htarget
      -- the journal that holds the partition is the only one that drives the row
      have hdrives : ∀ i ∈ unfinishedJournals c, drivesMovingEntry i e target = decide (i = j) := by
        intro i hi
        obtain ⟨⟨id, hid⟩, hu⟩ := mem_unfinishedJournals.mp hi
        unfold drivesMovingEntry
        by_cases hij : i = j
        · subst hij
          simp [hheld.key, hsource, hepoch, htgt]
        · have hkey : i.key ≠ e.key := fun hk => hij (hheld.sole id i hid hk hu)
          simp [hij, hkey]
      have hmem : j ∈ unfinishedJournals c :=
        mem_unfinishedJournals.mpr ⟨⟨_, hheld.durable⟩, hheld.unfinished⟩
      rw [decide_eq_true_iff, List.countP_congr fun i hi => by rw [hdrives i hi]]
      exact List.count_eq_one_of_mem (unfinishedJournals_nodup hv) hmem

/-- **The start-up check succeeds** when every partition is free or held. -/
theorem validate_of_agreed (hv : JournalsValid N c) (h : ∀ k, Agreed c k) :
    validateMoveRecoveryState N c = .ok (unfinishedJournals c) := by
  unfold validateMoveRecoveryState
  rw [bind_eq_ok]
  refine ⟨_, moveJournals_eq_ok hv, ?_⟩
  rw [check_eq_ok]
  refine ⟨validateActiveJournals_ok (fun j hj => held_of_unfinished h hj)
    (unfinishedJournals_nodup hv) (fun _ _ => List.not_mem_nil) ?_, ?_⟩
  · intro j hj i hi hkey
    obtain ⟨o, hheld⟩ := held_of_unfinished h hj
    obtain ⟨⟨id, hid⟩, hu⟩ := mem_unfinishedJournals.mp hi
    exact (hheld.sole id i hid hkey.symm hu).symm
  · rw [check_eq_ok]
    refine ⟨rejectIf_eq_ok.mpr ?_, rfl⟩
    rw [Bool.not_eq_false, List.all_eq_true]
    exact fun e he => moving_driven hv h he

end

/-! ### What other partitions do -/

structure SameView (k : PartitionKey) (c c' : PlacementCatalog) : Prop where
  row : c'.entries.get k = c.entries.get k
  journals : ∀ id journal, journal.key = k →
    (c'.journals.get id = some journal ↔ c.journals.get id = some journal)

section
variable {c' : PlacementCatalog}

theorem SameView.trans {d : PlacementCatalog} (h : SameView k c c') (h' : SameView k c' d) :
    SameView k c d :=
  ⟨h'.row.trans h.row, fun id j hj => (h'.journals id j hj).trans (h.journals id j hj)⟩

theorem SameView.free (h : SameView k c c') (hf : Free c k) : Free c' k where
  finished id j hid hk := hf.finished id j ((h.journals id j hk).mp hid) hk
  still o ho := hf.still o (by rw [← h.row]; exact ho)

theorem SameView.held {j : PartitionMoveJournal} (h : SameView k c c') (hh : Held c k j o) :
    Held c' k j o where
  durable := (h.journals _ j hh.key).mpr hh.durable
  key := hh.key
  unfinished := hh.unfinished
  sole id i hid hk hu := hh.sole id i ((h.journals id i hk).mp hid) hk hu
  scanned := hh.scanned
  row := by rw [h.row]; exact hh.row
  covered := hh.covered
  fits := hh.fits

theorem SameView.agreed (h : SameView k c c') (ha : Agreed c k) : Agreed c' k := by
  rcases ha with hf | ⟨j, o, hh⟩
  · exact Or.inl (h.free hf)
  · exact Or.inr ⟨j, o, h.held hh⟩

end

end Medulla.Placement.MoveStates
