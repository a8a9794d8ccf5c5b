import Medulla.Placement.MoveStates

/-! # What a move does to its partition

A driver of a move relies on the row and the journals of its partition staying as they are between its
own commits, and guarantees that each of its commits changes nothing of other partitions and leaves its
own free or held by a journal whose stage fits the row. -/

namespace Medulla.Placement.MoveSteps

open Library.Checked Library.OrderedTable Library.Resumption Placement.Partition Catalog
open Moves MoveStates

variable {cmd : Command} {u : PlacementEntry} {t : PlacementCatalog}

/-! ### Rely and guarantee -/

section
variable (N : Naming)

structure Rely (k : PartitionKey) (c c' : PlacementCatalog) : Prop where
  view : SameView k c c'
  valid : JournalsValid N c → JournalsValid N c'

structure Guarantee (k : PartitionKey) (c c' : PlacementCatalog) : Prop where
  others : ∀ l, l ≠ k → SameView l c c'
  keys : ∀ l, (c'.entries.get l).isSome = (c.entries.get l).isSome
  valid : JournalsValid N c'
  agreed : Agreed c' k

def Returns {α : Type} (P : α → PlacementCatalog → Prop) : Except String α → PlacementCatalog → Prop
  | .ok a, c => P a c
  | .error _, _ => True

/-- **What a call does as the driver of a partition**, started in a catalog, when it returns at all. -/
def Does {α : Type} (k : PartitionKey) (P : α → PlacementCatalog → Prop) (p : Placing α)
    (c : PlacementCatalog) : Prop :=
  p.Wp PlacementCatalog.apply (Rely N k) (Guarantee N k) (Returns P) c

structure Holding (c : PlacementCatalog) (k : PartitionKey) (journal : PartitionMoveJournal)
    (o : Owner) : Prop where
  held : Held c k journal o
  valid : JournalsValid N c

end

section
variable {N : Naming} {k : PartitionKey} {c c' : PlacementCatalog}
  {j : PartitionMoveJournal} {o : Owner} {α β : Type}

theorem Rely.refl (c : PlacementCatalog) : Rely N k c c := ⟨⟨rfl, fun _ _ _ => Iff.rfl⟩, id⟩

theorem Rely.trans {d : PlacementCatalog} (h : Rely N k c c')
    (h' : Rely N k c' d) : Rely N k c d where
  view := h.view.trans h'.view
  valid hv := h'.valid (h.valid hv)

theorem Rely.holding (h : Rely N k c c') (hh : Holding N c k j o) :
    Holding N c' k j o :=
  ⟨h.view.held hh.held, h.valid hh.valid⟩

/-! ### Putting calls together -/

variable {P : α → PlacementCatalog → Prop} {P' : β → PlacementCatalog → Prop}

theorem does_bind {p : Placing α} {f : α → Placing β} (h : Does N k P p c)
    (hf : ∀ a c, P a c → Does N k P' (f a) c) :
    Does N k P' (p >>= f) c :=
  Program.wp_bind Rely.refl hf (fun _ _ _ => trivial) h

theorem does_mono {p : Placing α} {P' : α → PlacementCatalog → Prop}
    (h : Does N k P p c) (hp : ∀ a c, P a c → P' a c) :
    Does N k P' p c := by
  refine Program.wp_mono (fun r s hr => ?_) h
  cases r with
  | ok a => exact hp a s hr
  | error e => trivial

theorem does_pure {a : α} (h : ∀ t, Rely N k c t → P a t) : Does N k P (pure a) c := h

theorem does_lift {x : Except String α}
    (h : ∀ a, x = .ok a → ∀ t, Rely N k c t → P a t) :
    Does N k P (.lift x) c := by
  cases hx : x with
  | ok a => exact h a hx
  | error e => exact fun _ _ => trivial

theorem does_asks {f : PlacementCatalog → Except String α}
    (h : ∀ t, Rely N k c t → ∀ a, f t = .ok a → ∀ u, Rely N k t u →
      P a u) : Does N k P (.asks f) c := by
  intro t ht u hu
  cases hx : f t with
  | ok a => exact h t ht a hx u hu
  | error e => trivial

theorem does_perform {P : Bool → PlacementCatalog → Prop} (h : ∀ t, Rely N k c t →
      Guarantee N k t (t.apply cmd).1 ∧
        ∀ u, Rely N k (t.apply cmd).1 u → P (t.apply cmd).2 u) :
    Does N k P (.perform cmd) c := h

theorem does_check {x : Except String Unit} {f : Unit → Placing β}
    (h : x = .ok () → ∀ t, Rely N k c t → Does N k P' (f ()) t) :
    Does N k P' (.lift x >>= f) c := by
  refine does_bind (P := fun _ t => x = .ok () ∧ Rely N k c t) ?_ ?_
  · exact does_lift fun a ha t ht => ⟨ha, ht⟩
  · exact fun a t ht => h ht.1 t ht.2

end

/-! ### Writing a journal -/

section
variable {N : Naming} {c : PlacementCatalog} {k : PartitionKey}
  {j n : PartitionMoveJournal} {o : Owner}

def putJournal (c : PlacementCatalog) (j : PartitionMoveJournal) : PlacementCatalog :=
  (c.apply (.moveJournalMethod j)).1

theorem putJournal_get (id : String) :
    (putJournal c j).journals.get id = if id = j.moveId then some j else c.journals.get id :=
  Table.get_insert _ _ _ _

theorem validate_moveId (h : j.validate N) :
    j.moveId = partitionMoveId N j.key j.originalEpoch j.target j.graphs := by
  unfold PartitionMoveJournal.validate at h
  simp only [Bool.and_eq_true, decide_eq_true_iff] at h
  exact h.1.1.1.1.1.1

theorem source_ne_target (h : j.validate N) : j.source ≠ j.target := by
  unfold PartitionMoveJournal.validate at h
  simp only [Bool.and_eq_true, decide_eq_true_iff] at h
  exact h.1.1.1.1.2

theorem Holding.source_ne_target (h : Holding N c k j o) : j.source ≠ j.target :=
  MoveSteps.source_ne_target (h.valid _ j h.held.durable).1

theorem Holding.named (h : Holding N c k j o) : k ∈ N.keys := by
  have hkey := (h.valid _ j h.held.durable).2.2
  rw [h.held.key] at hkey
  exact hkey

theorem putJournal_valid (hv : JournalsValid N c) (hj : j.validate N) (hm : j.key ∈ N.keys) :
    JournalsValid N (putJournal c j) := by
  intro id i hi
  rw [putJournal_get] at hi
  split_ifs at hi with hid
  · cases hi
    exact ⟨hj, hid.symm, hm⟩
  · exact hv id i hi

theorem putJournal_others (hv : JournalsValid N c) (hj : j.validate N) (hm : j.key ∈ N.keys)
    (l : PartitionKey) (hl : l ≠ j.key) : SameView l c (putJournal c j) where
  row := rfl
  journals id i hi := by
    rw [putJournal_get]
    split_ifs with hid
    · constructor
      · intro h
        cases h
        exact absurd hi.symm hl
      · intro h
        obtain ⟨hvi, hidi, hmi⟩ := hv id i h
        have hsame : i.moveId = j.moveId := hidi.trans hid
        rw [validate_moveId hvi, validate_moveId hj] at hsame
        exact absurd (hi.symm.trans (N.names _ hmi _ hm _ _ _ _ _ _ hsame)) hl
    · exact Iff.rfl

/-- **Writing a journal of the partition**, when what it leaves is agreed. -/
theorem does_persist {P : Unit → PlacementCatalog → Prop} (hv : JournalsValid N c)
    (hm : k ∈ N.keys) (hk : n.key = k)
    (h : ∀ t, Rely N k c t → JournalsValid N t →
      n.validate N → Agreed (putJournal t n) k ∧
        ∀ u, Rely N k (putJournal t n) u → P () u) :
    Does N k P (persistMoveJournal N n) c := by
  refine does_bind (P := fun _ t => Rely N k c t) ?_ fun current t ht => ?_
  · exact does_asks fun t ht a _ u hu => ht.trans hu
  refine does_check fun _ t' ht' => ?_
  refine does_check fun hcheck u hu => ?_
  have hvalid : n.validate N := by simpa using hcheck
  refine does_bind (P := fun _ v => ∀ u, Rely N k v u → P () u)
    (does_perform fun w hw => ?_) fun _ _ hp => does_pure hp
  have hrely := ((ht.trans ht').trans hu).trans hw
  have hvw := hrely.valid hv
  have hmn : n.key ∈ N.keys := by rw [hk]; exact hm
  obtain ⟨hagreed, hpost⟩ := h w hrely hvw hvalid
  exact ⟨⟨fun l hl => putJournal_others hvw hvalid hmn l (by rw [hk]; exact hl), fun _ => rfl,
    putJournal_valid hvw hvalid hmn, hagreed⟩, fun v hv u hu => hpost u (hv.trans hu)⟩

theorem putJournal_sole (hv : JournalsValid N c)
    (hsole : ∀ id i, c.journals.get id = some i → i.key = k → i.stage.terminal = false →
      i.moveId = j.moveId) :
    ∀ id i, (putJournal c j).journals.get id = some i → i.key = k → i.stage.terminal = false →
      i = j := by
  intro id i hi hk hu
  rw [putJournal_get] at hi
  split_ifs at hi with heq
  · exact (Option.some.inj hi).symm
  · exact absurd ((hv id i hi).2.1.symm.trans (hsole id i hi hk hu)) heq

theorem held_putJournal (hv : JournalsValid N c) (h : Held c k j o)
    (hid : n.moveId = j.moveId) (hk : n.key = k)
    (hg : n.graphs = j.graphs) (hu : n.stage.terminal = false) (hf : Fits n o) :
    Held (putJournal c n) k n o where
  durable := by rw [putJournal_get, if_pos rfl]
  key := hk
  unfinished := hu
  sole := putJournal_sole hv fun id i hi hik hiu =>
    (congrArg PartitionMoveJournal.moveId (h.sole id i hi hik hiu)).trans hid.symm
  scanned := h.scanned
  row := h.row
  covered := by rw [hg]; exact h.covered
  fits := hf

section
variable (h : Holding N c k j o) (hid : n.moveId = j.moveId)
  (hk : n.key = k)
include h hid hk

theorem does_persist_held
    (hg : n.graphs = j.graphs) (hu : n.stage.terminal = false) (hf : Fits n o) :
    Does N k (fun _ t => Holding N t k n o)
      (persistMoveJournal N n) c := by
  refine does_persist h.valid h.named hk fun t ht hvt hvj => ?_
  have hnew := held_putJournal hvt (ht.holding h).held hid hk hg hu hf
  have hmn : n.key ∈ N.keys := by rw [hk]; exact h.named
  exact ⟨Or.inr ⟨n, o, hnew⟩, fun u hu => hu.holding ⟨hnew, putJournal_valid hvt hvj hmn⟩⟩

theorem does_persist_finished (hu : n.stage.terminal = true) (ho : o.state = .active) :
    Does N k (fun _ _ => True) (persistMoveJournal N n) c := by
  refine does_persist h.valid h.named hk fun t ht hvt hvj => ⟨Or.inl ⟨?_, ?_⟩, fun _ _ => trivial⟩
  · have hheld := (ht.holding h).held
    intro id i hi hik
    rw [putJournal_get] at hi
    split_ifs at hi with heq
    · cases hi
      exact hu
    · by_contra hnot
      have hij := hheld.sole id i hi hik (by simpa using hnot)
      refine heq ?_
      rw [hid, ← hij]
      exact (hvt id i hi).2.1.symm
  · intro o' ho'
    have hheld := (ht.holding h).held
    rw [show (putJournal t n).entries.get k = t.entries.get k from rfl, hheld.row] at ho'
    cases ho'
    exact ho

end

theorem does_persist_new (hv : JournalsValid N c) (hm : k ∈ N.keys) (hfree : Free c k) (hrow : c.entries.get k = some o)
    (hs : scannedKey k) (hk : n.key = k) (hc : ∀ graph ∈ n.graphs, coversGraph k graph)
    (hu : n.stage.terminal = false) (hf : Fits n o) :
    Does N k (fun _ t => Holding N t k n o)
      (persistMoveJournal N n) c := by
  refine does_persist hv hm hk fun t ht hvt hvj => ?_
  have hfreet := ht.view.free hfree
  have hnew : Held (putJournal t n) k n o :=
    { durable := by rw [putJournal_get, if_pos rfl]
      key := hk
      unfinished := hu
      sole := putJournal_sole hvt fun id i hi hik hiu => by
        rw [hfreet.finished id i hi hik] at hiu
        cases hiu
      scanned := hs
      row := by
        change t.entries.get k = some o
        rw [ht.view.row]
        exact hrow
      covered := hc
      fits := hf }
  have hmn : n.key ∈ N.keys := by rw [hk]; exact hm
  exact ⟨Or.inr ⟨n, o, hnew⟩, fun u hu => hu.holding ⟨hnew, putJournal_valid hvt hvj hmn⟩⟩

/-! ### Writing the row -/

theorem held_setRow {o' : Owner} (h : Held c k j o) (hf : Fits j o') :
    Held { c with entries := c.entries.insert k o' } k j o' where
  durable := h.durable
  key := h.key
  unfinished := h.unfinished
  sole := h.sole
  scanned := h.scanned
  row := Table.get_insert_self _ _ _
  covered := h.covered
  fits := hf

theorem setRow_keys {o' : Owner} (h : c.entries.get k = some o) (l : PartitionKey) :
    ((c.entries.insert k o').get l).isSome = (c.entries.get l).isSome := by
  rw [Table.get_insert]
  split_ifs with hl
  · rw [hl, h]
    rfl
  · rfl

theorem does_cas {requireSuccess : Bool} (h : Holding N c k j o)
    (hf : Fits j u.toOwner) :
    Does N k (fun _ t => Holding N t k j u.toOwner)
      (commitPlanMethods requireSuccess [.entryCasMethod ⟨o, k⟩ u]) c := by
  refine does_bind (P := fun took t => took = true ∧ Holding N t k j u.toOwner)
    (does_perform fun t ht => ?_) ?_
  · have hold := ht.holding h
    have happly := apply_entryCas (c := t) (e := ⟨o, k⟩) (u := u) hold.held.row
    rw [happly]
    have hnew := held_setRow hold.held hf
    refine ⟨⟨fun l hl => ⟨Table.get_insert_of_ne _ _ hl, fun _ _ _ => Iff.rfl⟩,
      fun l => setRow_keys hold.held.row l, hold.valid, Or.inr ⟨j, _, hnew⟩⟩,
      fun v hv => ⟨rfl, hv.holding ⟨hnew, hold.valid⟩⟩⟩
  · rintro took t ⟨rfl, hheld⟩
    rw [Bool.not_true, Bool.and_false]
    exact does_pure fun u hu => hu.holding hheld

def isEpochCommand : Command → Bool
  | .epochSeedMethod _ | .epochCasMethod _ _ => true
  | _ => false

theorem apply_epochCommand (h : isEpochCommand cmd) :
    (t.apply cmd).1.entries = t.entries ∧ (t.apply cmd).1.journals = t.journals := by
  cases cmd with
  | epochSeedMethod n =>
    by_cases hc : t.epochCounter = none
    · rw [apply_epochSeed hc]
      exact ⟨rfl, rfl⟩
    · rw [apply_epochSeed_present hc]
      exact ⟨rfl, rfl⟩
  | epochCasMethod m n =>
    by_cases hc : t.epochCounter = some m
    · rw [apply_epochCas hc]
      exact ⟨rfl, rfl⟩
    · rw [apply_epochCas_stale hc]
      exact ⟨rfl, rfl⟩
  | entryMethod | removeMethod | entryCasMethod | moveJournalMethod => cases h

section
variable {l : PartitionKey} {t' : PlacementCatalog} (he : t'.entries = t.entries)
  (hj : t'.journals = t.journals)
include he hj

theorem sameView_of_eq : SameView l t t' := ⟨by rw [he], fun _ _ _ => by rw [hj]⟩

theorem rely_of_eq : Rely N l t t' :=
  ⟨sameView_of_eq he hj, fun hv id i hi => hv id i (by rw [← hj]; exact hi)⟩

end

theorem does_reserve :
    ∀ {steps : List Command} {c : PlacementCatalog}, (∀ cmd ∈ steps, isEpochCommand cmd) →
      Holding N c k j o →
      Does N k
        (fun reserved t => Holding N t k j o ∧ (reserved = false → steps ≠ []))
        (reservePlanEpoch steps) c
  | [], _, _, h => does_pure fun _ hu => ⟨hu.holding h, fun hf => by cases hf⟩
  | cmd :: rest, c, hall, h => by
    refine does_bind (P := fun _ t => Holding N t k j o)
      (does_perform fun t ht => ?_) fun took t ht => ?_
    · obtain ⟨he, hj⟩ := apply_epochCommand (t := t) (hall cmd (.head _))
      have hrely : Rely N k t (t.apply cmd).1 := rely_of_eq he hj
      have hnew := hrely.holding (ht.holding h)
      exact ⟨⟨fun l _ => sameView_of_eq he hj, fun l => by rw [he], hnew.valid,
        Or.inr ⟨j, o, hnew.held⟩⟩, fun u hu => hu.holding hnew⟩
    · cases took with
      | true =>
        refine does_mono (does_reserve (fun cmd hc => hall cmd (.tail _ hc)) ht) ?_
        exact fun _ _ hr => ⟨hr.1, fun _ => List.cons_ne_nil _ _⟩
      | false => exact does_pure fun u hu => ⟨hu.holding ht, fun _ => List.cons_ne_nil _ _⟩

theorem reserveSteps_epoch {a : Option EpochAllocation} (h : cmd ∈ a.toList.flatMap reserveSteps) :
    isEpochCommand cmd := by
  obtain ⟨a, -, h⟩ := List.mem_flatMap.mp h
  rcases List.mem_append.mp h with h | h
  · rcases List.mem_append.mp h with h | h
    · split_ifs at h
      · rw [List.mem_singleton.mp h]; rfl
      · cases h
    · split_ifs at h
      · rw [List.mem_singleton.mp h]; rfl
      · cases h
  · rw [List.mem_singleton.mp h]; rfl

section
variable {plan : PendingWrite} (h : Holding N c k j o)
  (hm : plan.methods = [.entryCasMethod ⟨o, k⟩ u])
include h hm

/-- **The plan of a step of a move**: its compare-and-set, after the reservation. -/
theorem does_plan (hf : Fits j u.toOwner) : Does N k
      (fun committed t => (committed = true ∧ Holding N t k j u.toOwner) ∨
        (committed = false ∧ Holding N t k j o ∧ plan.epochAllocation ≠ none))
      (commitPlacementPlan plan) c := by
  refine does_bind (does_reserve (fun cmd hc => reserveSteps_epoch hc) h) fun reserved t ht => ?_
  cases reserved with
  | true =>
    rw [hm]
    exact does_bind (does_cas ht.1 hf) fun _ v hv => does_pure fun w hw =>
      Or.inl ⟨rfl, hw.holding hv⟩
  | false =>
    refine does_pure fun w hw => Or.inr ⟨rfl, hw.holding ht.1, fun hnone => ?_⟩
    exact ht.2 rfl (by rw [hnone]; rfl)

theorem does_plan_unallocated (ha : plan.epochAllocation = none)
    (hf : Fits j u.toOwner) :
    Does N k (fun _ t => Holding N t k j u.toOwner)
      (commitPlacementPlan plan) c := by
  refine does_mono (does_plan h hm hf) fun committed t ht => ?_
  rcases ht with ⟨-, hnew⟩ | ⟨-, -, hne⟩
  · exact hnew
  · exact absurd ha hne

/-! ### The row changes of a move -/

end

variable {env : Environment}

theorem journalEntry_eq {e : PlacementEntry} {message : String}
    (h : Holding N t k j o)
    (he : okOr (t.partitionEntry k.tenant (keyRange k)) message = .ok e) : e = ⟨o, k⟩ := by
  rw [okOr_eq_ok, partitionEntry_eq h.held.scanned h.held.row] at he
  exact (Option.some.inj he).symm

/-- **Entering the move**: the row is marked as moving. -/
theorem does_startMove (h : Holding N c k j o) (hst : j.stage = .planned)
    (hs : (PlacementFence.observe ⟨o, k⟩ j).activeSource = true) :
    Does N k
      (fun _ t => Holding N t k j { o with state := .moving j.target })
      (placementStartMove env k.tenant (keyRange k) j.target) c := by
  obtain ⟨⟨hsource, hepoch⟩, hactive⟩ := activeSource_iff.mp hs
  refine does_check fun _ t ht => ?_
  refine does_bind (P := fun plan t => Holding N t k j o ∧
    plan.methods = [.entryCasMethod ⟨o, k⟩ ⟨{ o with state := .moving j.target }, k⟩] ∧
      plan.epochAllocation = none) (does_asks fun t' ht' plan hplan u hu => ?_) ?_
  · have hold := (ht.trans ht').holding h
    obtain ⟨e, he, hwrite⟩ := unbind hplan
    obtain rfl := journalEntry_eq hold he
    unfold startMoveWrite at hwrite
    simp only [hactive] at hwrite
    split_ifs at hwrite
    cases hwrite
    exact ⟨hu.holding hold, rfl, rfl⟩
  · rintro plan t' ⟨hold, hm, ha⟩
    refine does_bind (does_plan_unallocated hold hm ha ?_) fun _ _ hnew =>
      does_pure fun w hw => hw.holding hnew
    refine fits_of_matches (k := k) ?_ (by rw [hst]; decide)
    rw [hst]
    unfold stageMatchesFence PlacementFence.sourceRoute
    rw [Bool.or_eq_true, movingSource_iff]
    exact Or.inr ⟨⟨hsource, hepoch⟩, rfl⟩

/-- **Cutting over**: the row goes to the target at a later epoch. -/
theorem does_fenceCutoverLoop (hst : j.stage = .readyForCutover)
    (hs : (PlacementFence.observe ⟨o, k⟩ j).movingSource = true) :
    ∀ (n : ℕ) {c : PlacementCatalog}, Holding N c k j o → Does N k
        (fun _ t => ∃ o', Holding N t k j o' ∧
          (PlacementFence.observe ⟨o', k⟩ j).activeTarget = true)
        (fenceCutoverLoop k.tenant (keyRange k) j.target n) c
  | 0, _, _ => does_lift fun _ ha => by cases ha
  | n + 1, c, h => by
    obtain ⟨⟨-, hepoch⟩, -⟩ := movingSource_iff.mp hs
    refine does_bind (P := fun plan t => Holding N t k j o ∧ ∃ u : PlacementEntry,
      plan.methods = [.entryCasMethod ⟨o, k⟩ u] ∧ u.group = j.target ∧ o.epoch < u.epoch ∧
        u.state = .active) (does_asks fun t ht plan hplan u hu => ?_) ?_
    · have hold := ht.holding h
      obtain ⟨a, ha, hplan⟩ := unbind hplan
      obtain ⟨e, he, hplan⟩ := unbind hplan
      obtain ⟨-, hplan⟩ := check_eq_ok.mp hplan
      obtain rfl := journalEntry_eq hold he
      obtain rfl := pure_eq_ok.mp hplan
      -- the epoch allocated is above every row that is read
      have hle : o.epoch ≤ t.epochFloor :=
        epoch_le_floor (e := ⟨o, k⟩) (mem_scan_iff.mpr ⟨hold.held.row, hold.held.scanned⟩)
      have halloc := (nextEpoch_eq_ok ha).2.1
      exact ⟨hu.holding hold, _, rfl, rfl, show o.epoch < a.allocated by omega, rfl⟩
    · rintro plan t ⟨hold, u, hm, hgroup, hlt, hstate⟩
      have htarget : (PlacementFence.observe ⟨u.toOwner, k⟩ j).activeTarget = true := by
        rw [activeTarget_iff, ← hepoch]
        exact ⟨hgroup, hlt, hstate⟩
      have hfence : Fits j u.toOwner := by
        refine fits_of_matches (k := k) ?_ (by rw [hst]; decide)
        rw [hst]
        unfold stageMatchesFence
        rw [Bool.or_eq_true]
        exact Or.inr htarget
      refine does_bind (does_plan hold hm hfence) fun committed t' ht' => ?_
      rcases ht' with ⟨rfl, hnew⟩ | ⟨rfl, hold', -⟩
      · rw [if_pos rfl]
        exact does_pure fun w hw => ⟨u.toOwner, hw.holding hnew, htarget⟩
      · rw [if_neg Bool.false_ne_true]
        exact does_fenceCutoverLoop hst hs n hold'

theorem does_fenceCutover (h : Holding N c k j o) (hst : j.stage = .readyForCutover)
    (hs : (PlacementFence.observe ⟨o, k⟩ j).movingSource = true) :
    Does N k
      (fun _ t => ∃ o', Holding N t k j o' ∧
        (PlacementFence.observe ⟨o', k⟩ j).activeTarget = true)
      (placementFenceCutover env k.tenant (keyRange k) j.target) c :=
  does_check fun _ _ ht => does_fenceCutoverLoop hst hs _ (ht.holding h)

theorem fits_givenBack (hne : j.source ≠ j.target) (hst : j.stage = .aborting)
    (hroute : o.group = j.source ∧ o.epoch = j.originalEpoch) :
    Fits j { o with state := .active } := by
  constructor
  · rw [hst]
    unfold stageMatchesFence PlacementFence.sourceRoute
    rw [Bool.or_eq_true, Bool.or_eq_true, activeSource_iff]
    exact Or.inl (Or.inl ⟨hroute, rfl⟩)
  · intro _
    rw [← Bool.not_eq_true, activeTarget_iff]
    exact fun ht => hne (hroute.1.symm.trans ht.1)

/-- **Giving the row back**: it is active on the source again. -/
theorem does_abortMove (h : Holding N c k j o) (hst : j.stage = .aborting)
    (hs : (PlacementFence.observe ⟨o, k⟩ j).movingSource = true) :
    Does N k (fun _ t => Holding N t k j { o with state := .active })
      (placementAbortMove env k.tenant (keyRange k) j.source j.target j.originalEpoch) c := by
  obtain ⟨⟨hsource, hepoch⟩, -⟩ := movingSource_iff.mp hs
  refine does_check fun _ t ht => ?_
  refine does_bind (P := fun plan t => Holding N t k j o ∧
    plan.methods = [.entryCasMethod ⟨o, k⟩ ⟨{ o with state := .active }, k⟩] ∧
      plan.epochAllocation = none) (does_asks fun t' ht' plan hplan u hu => ?_) ?_
  · have hold := (ht.trans ht').holding h
    obtain ⟨e, he, hplan⟩ := unbind hplan
    obtain ⟨-, hplan⟩ := check_eq_ok.mp hplan
    obtain rfl := journalEntry_eq hold he
    obtain rfl := pure_eq_ok.mp hplan
    exact ⟨hu.holding hold, rfl, rfl⟩
  · rintro plan t' ⟨hold, hm, ha⟩
    refine does_bind (does_plan_unallocated hold hm ha ?_) fun _ _ hnew =>
      does_pure fun w hw => hw.holding hnew
    exact fits_givenBack (Holding.source_ne_target hold) hst ⟨hsource, hepoch⟩

end

end Medulla.Placement.MoveSteps
