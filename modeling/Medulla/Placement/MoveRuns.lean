import Medulla.Placement.MoveCalls
import Medulla.Placement.Shapes

/-! # Moves beside other placement changes

Drivers of moves, at most one for each partition at a time, take their steps among the commands of
assigns, merges and splits, which add and remove rows without a look at the journals.

* one step: `Settled.step`;
* every run: `moves_validate_at_every_point`. -/

namespace Medulla.Placement.MoveRuns

open Library.Checked Library.OrderedTable Library.Resumption Library.Transaction Placement.Partition
open Catalog Moves Plans Shapes MoveStates
open MoveSteps MoveCalls

variable {cmd : Command} {c : PlacementCatalog} {t : Thread}

/-! ### The system -/

/-- The catalog, the driver of each partition that has one, and the plans of assigns, merges and
splits. -/
structure Cluster where
  catalog : PlacementCatalog
  drivers : Table PartitionKey (Placing Unit)
  threads : List Thread

inductive Turn
  | movePartition (env : Environment) (registry : List String) (tenant : String) (range : ℕ × ℕ)
      (target : ℕ)
  | abortMove (env : Environment) (moveId : String)
  | reconcileMove (env : Environment) (moveId : String)
  | resume (key : PartitionKey)
  | stop (key : PartitionKey)
  | propose (op : Operation)
  | commit (plan : ℕ)
  | crash

namespace Cluster

def fresh : Cluster := ⟨.fresh, .empty, []⟩

def begin {α : Type} (s : Cluster) (k : PartitionKey) (p : Placing α) : Cluster :=
  if s.drivers.get k = none then
    { s with drivers := s.drivers.insert k (p >>= fun _ => pure ()) }
  else s

def beginJournal {α : Type} (s : Cluster) (moveId : String) (p : Placing α) : Cluster :=
  match s.catalog.journals.get moveId with
  | none => s
  | some journal => s.begin journal.key p

/-- The next step of a driver; one that returned gives up the guard. -/
def resume (s : Cluster) (k : PartitionKey) : Cluster :=
  match s.drivers.get k with
  | none => s
  | some (.ret _) => { s with drivers := s.drivers.remove k }
  | some p =>
    { s with
      catalog := (p.resume PlacementCatalog.apply s.catalog).1
      drivers := s.drivers.insert k (p.resume PlacementCatalog.apply s.catalog).2 }

def propose (s : Cluster) (op : Operation) : Cluster :=
  if op.rewrites then
    match op.plan s.catalog with
    | .ok p => { s with threads := s.threads ++ [Thread.start op p 0] }
    | .error _ => s
  else s

def commitCommand (s : Cluster) (i : ℕ) (t : Thread) (cmd : Command) : Cluster :=
  { s with
    catalog := (s.catalog.apply cmd).1
    threads := s.threads.set i (t.advance (s.catalog.apply cmd).2) }

def commit (s : Cluster) (i : ℕ) : Cluster :=
  match s.threads[i]? with
  | none => s
  | some t =>
    match t.next with
    | none => s
    | some cmd => s.commitCommand i t cmd

/-- **One step.** -/
def step (sha256 : List UInt8 → String) (s : Cluster) : Turn → Cluster
  | .movePartition env registry tenant range target =>
    s.begin ⟨tenant, range.1, range.2⟩
      (Moves.movePartition sha256 env registry tenant range target)
  | .abortMove env moveId => s.beginJournal moveId (Moves.abortMove sha256 env moveId)
  | .reconcileMove env moveId => s.beginJournal moveId (Moves.reconcileMove sha256 env moveId)
  | .resume k => s.resume k
  | .stop k => { s with drivers := s.drivers.remove k }
  | .propose op => s.propose op
  | .commit i => s.commit i
  | .crash => { s with drivers := .empty, threads := [] }

end Cluster

/-- The partition a turn begins to move. -/
def Turn.partition : Turn → Option PartitionKey
  | .movePartition _ _ tenant range _ => some ⟨tenant, range.1, range.2⟩
  | _ => none

def rewrittenKey : Command → Option PartitionKey
  | .entryMethod x => some x.key
  | .removeMethod k => some k
  | _ => none

/-- No move of the partition is under way or unfinished. -/
def Cluster.Unclaimed (s : Cluster) (k : PartitionKey) : Prop :=
  s.drivers.get k = none ∧
    ∀ id j, s.catalog.journals.get id = some j → j.key = k → j.stage.terminal = true

/-- An assign, a merge or a split adds and removes only rows of unclaimed partitions. -/
def Cluster.LeavesMoves (s : Cluster) (turn : Turn) : Prop :=
  ∀ i t cmd k, turn = .commit i → s.threads[i]? = some t → t.next = some cmd →
    rewrittenKey cmd = some k → s.Unclaimed k

def Cluster.rewritten (s : Cluster) : Turn → Option PartitionKey
  | .commit i => (s.threads[i]?).bind fun t => t.next.bind rewrittenKey
  | _ => none

theorem Cluster.leavesMoves_iff {s : Cluster} {turn : Turn} :
    s.LeavesMoves turn ↔ ∀ k ∈ s.rewritten turn, s.drivers.get k = none ∧
      ∀ r ∈ s.catalog.journals.rows, r.2.key = k → r.2.stage.terminal = true := by
  constructor
  · intro h k hk
    cases turn with
    | commit i =>
      obtain ⟨t, ht, hk⟩ := Option.bind_eq_some_iff.mp hk
      obtain ⟨cmd, hnext, hk⟩ := Option.bind_eq_some_iff.mp hk
      obtain ⟨hd, hj⟩ := h i t cmd k rfl ht hnext hk
      exact ⟨hd, fun r hr => hj r.1 r.2 (Table.mem_rows.mp hr)⟩
    | movePartition | abortMove | reconcileMove | resume | stop | propose | crash => cases hk
  · rintro h i t cmd k rfl ht hnext hk
    obtain ⟨hd, hj⟩ := h k (Option.bind_eq_some_iff.mpr
      ⟨t, ht, Option.bind_eq_some_iff.mpr ⟨cmd, hnext, hk⟩⟩)
    exact ⟨hd, fun id j hid => hj (id, j) (Table.mem_rows.mpr hid)⟩

instance (s : Cluster) (turn : Turn) : Decidable (s.LeavesMoves turn) :=
  decidable_of_iff _ Cluster.leavesMoves_iff.symm

/-! ### Plans of assigns, merges and splits -/

/-- The commands of an assign, a merge or a split: of the counter, or of a row that does not move. -/
def Plain : Command → Prop
  | .entryMethod x => x.state = .active
  | .removeMethod _ | .epochSeedMethod _ | .epochCasMethod _ _ => True
  | .entryCasMethod _ _ | .moveJournalMethod _ => False

def PlainThread (t : Thread) : Prop := ∀ cmd ∈ t.reserve ++ t.methods, Plain cmd

theorem plain_of_epoch (h : isEpochCommand cmd) : Plain cmd := by
  cases cmd with
  | epochSeedMethod | epochCasMethod => trivial
  | entryMethod | removeMethod | entryCasMethod | moveJournalMethod => cases h

theorem start_plain {op : Operation} {p : PendingWrite} {n : ℕ} (hr : op.rewrites)
    (h : op.plan c = .ok p) : PlainThread (Thread.start op p n) := by
  obtain ⟨a, ks, es, hw⟩ := plan_rewrite hr h
  have hp := hw.eq
  subst hp
  intro cmd hcmd
  rcases List.mem_append.mp hcmd with hcmd | hcmd
  · refine plain_of_epoch (reserveSteps_epoch (a := some a) ?_)
    exact List.mem_flatMap.mpr ⟨a, List.mem_singleton_self _, hcmd⟩
  · rcases List.mem_append.mp hcmd with hcmd | hcmd
    · obtain ⟨k, -, rfl⟩ := List.mem_map.mp hcmd
      trivial
    · obtain ⟨x, hx, rfl⟩ := List.mem_map.mp hcmd
      exact hw.resting x hx

theorem next_plain (ht : PlainThread t) (h : t.next = some cmd) : Plain cmd := by
  unfold Thread.next at h
  split_ifs at h
  exact ht cmd (List.mem_of_head? h)

theorem advance_plain (ht : PlainThread t) (took : Bool) : PlainThread (t.advance took) := by
  have hsub : (t.advance took).reserve ⊆ t.reserve ∧ (t.advance took).methods ⊆ t.methods := by
    unfold Thread.advance
    split
    · next cmd rest h1 =>
      split_ifs
      · rw [h1]
        exact ⟨List.subset_cons_self _ _, List.Subset.refl _⟩
      · exact ⟨List.Subset.refl _, List.Subset.refl _⟩
    · next cmd rest h1 h2 =>
      split_ifs
      · exact ⟨List.Subset.refl _, List.Subset.refl _⟩
      · rw [h2]
        exact ⟨List.Subset.refl _, List.subset_cons_self _ _⟩
    · exact ⟨List.Subset.refl _, List.Subset.refl _⟩
  intro cmd hcmd
  rcases List.mem_append.mp hcmd with hcmd | hcmd
  · exact ht cmd (List.mem_append_left _ (hsub.1 hcmd))
  · exact ht cmd (List.mem_append_right _ (hsub.2 hcmd))

theorem apply_plain (h : Plain cmd) : (c.apply cmd).1.journals = c.journals ∧
      ∀ l, rewrittenKey cmd ≠ some l → (c.apply cmd).1.entries.get l = c.entries.get l := by
  cases cmd with
  | entryMethod x =>
    refine ⟨rfl, fun l hl => ?_⟩
    exact Table.get_insert_of_ne _ _ fun hlx => hl (by rw [hlx]; rfl)
  | removeMethod k =>
    refine ⟨rfl, fun l hl => ?_⟩
    exact Table.get_remove_of_ne _ fun hlk => hl (by rw [hlk]; rfl)
  | entryCasMethod | moveJournalMethod => cases h
  | epochSeedMethod n =>
    obtain ⟨he, hj⟩ := @apply_epochCommand (.epochSeedMethod n) c rfl
    exact ⟨hj, fun l _ => by rw [he]⟩
  | epochCasMethod m n =>
    obtain ⟨he, hj⟩ := @apply_epochCommand (.epochCasMethod m n) c rfl
    exact ⟨hj, fun l _ => by rw [he]⟩

theorem apply_plain_still {k : PartitionKey} {o : Owner} (h : Plain cmd)
    (hk : rewrittenKey cmd = some k) (ho : (c.apply cmd).1.entries.get k = some o) :
    o.state = .active := by
  cases cmd with
  | entryMethod x =>
    cases hk
    change (c.entries.insert x.key x.toOwner).get x.key = some o at ho
    rw [Table.get_insert_self] at ho
    cases ho
    exact h
  | removeMethod l =>
    cases hk
    change (c.entries.remove k).get k = some o at ho
    rw [Table.get_remove_self] at ho
    cases ho
  | entryCasMethod | moveJournalMethod | epochSeedMethod | epochCasMethod => cases hk

/-! ### The invariant -/

/-- **Every partition is free or held**, every driver does its part, every plan is plain. -/
structure Settled (N : Naming) (s : Cluster) : Prop where
  valid : JournalsValid N s.catalog
  agreed : ∀ k, Agreed s.catalog k
  drivers : ∀ k p, s.drivers.get k = some p → Does N k (fun _ _ => True) p s.catalog
  plain : ∀ t ∈ s.threads, PlainThread t

section
variable {N : Naming} {s : Cluster}

theorem settled_fresh : Settled N Cluster.fresh where
  valid id j h := by cases h
  agreed k := Or.inl ⟨fun id j h => (by cases h), fun o h => by cases h⟩
  drivers k p h := by cases h
  plain t h := by cases h

section
variable (hs : Settled N s)
include hs

theorem Settled.begin {α : Type} {k : PartitionKey}
    {p : Placing α} (hp : Does N k (fun _ _ => True) p s.catalog) :
    Settled N (s.begin k p) := by
  unfold Cluster.begin
  split_ifs
  · refine ⟨hs.valid, hs.agreed, fun l q hq => ?_, hs.plain⟩
    rw [Table.get_insert] at hq
    split_ifs at hq with hl
    · cases hq
      subst hl
      exact does_bind hp fun _ _ _ => does_pure fun _ _ => trivial
    · exact hs.drivers l q hq
  · exact hs

theorem Settled.beginJournal {α : Type} {id : String}
    {p : Placing α} (hp : ∀ j, s.catalog.journals.get id = some j →
      Does N j.key (fun _ _ => True) p s.catalog) :
    Settled N (s.beginJournal id p) := by
  unfold Cluster.beginJournal
  cases hj : s.catalog.journals.get id with
  | none => exact hs
  | some j => exact hs.begin (hp j hj)

theorem Settled.others {l : PartitionKey}
    (hview : SameView l s.catalog c) (hv : JournalsValid N c) {p : Placing Unit}
    (hp : s.drivers.get l = some p) : Does N l (fun _ _ => True) p c := by
  have hrely : Rely N l s.catalog c := ⟨hview, fun _ => hv⟩
  exact Program.wp_rely (R := Rely N l) (fun _ _ _ => Rely.trans)
    (hs.drivers l p hp) hrely

theorem Settled.resume (k : PartitionKey) : Settled N (s.resume k) := by
  unfold Cluster.resume
  split
  · exact hs
  · refine ⟨hs.valid, hs.agreed, fun l q hq => ?_, hs.plain⟩
    rw [Table.get_remove] at hq
    split_ifs at hq
    exact hs.drivers l q hq
  · next p hne hp =>
    obtain ⟨hstep, hrest⟩ := Program.wp_resume Rely.refl (hs.drivers k p hp)
    -- the catalog stays, or changes as the driver guarantees
    have hguar : (∀ l, l ≠ k → SameView l s.catalog (p.resume PlacementCatalog.apply s.catalog).1) ∧
        JournalsValid N (p.resume PlacementCatalog.apply s.catalog).1 ∧
          Agreed (p.resume PlacementCatalog.apply s.catalog).1 k := by
      rcases hstep with heq | hg
      · rw [heq]
        exact ⟨fun l _ => ⟨rfl, fun _ _ _ => Iff.rfl⟩, hs.valid, hs.agreed k⟩
      · exact ⟨hg.others, hg.valid, hg.agreed⟩
    obtain ⟨hothers, hvalid, hagreed⟩ := hguar
    refine ⟨hvalid, fun l => ?_, fun l q hq => ?_, hs.plain⟩
    · by_cases hl : l = k
      · rw [hl]
        exact hagreed
      · exact (hothers l hl).agreed (hs.agreed l)
    · rw [Table.get_insert] at hq
      split_ifs at hq with hl
      · cases hq
        subst hl
        exact hrest
      · exact hs.others (hothers l hl) hvalid hq

theorem Settled.commit {i : ℕ} (ht : s.threads[i]? = some t)
    (hnext : t.next = some cmd) (hfree : s.LeavesMoves (.commit i)) :
    Settled N (s.commitCommand i t cmd) := by
  have hplain := next_plain (hs.plain t (List.mem_of_getElem? ht)) hnext
  obtain ⟨hjournals, hrows⟩ := apply_plain (c := s.catalog) hplain
  have hvalid : JournalsValid N (s.catalog.apply cmd).1 := by
    intro id j hj
    rw [hjournals] at hj
    exact hs.valid id j hj
  have hview : ∀ l, rewrittenKey cmd ≠ some l → SameView l s.catalog (s.catalog.apply cmd).1 :=
    fun l hl => ⟨hrows l hl, fun _ _ _ => by rw [hjournals]⟩
  have hunclaimed := fun k => hfree i t cmd k rfl ht hnext
  refine ⟨hvalid, fun l => ?_, fun l q hq => ?_, ?_⟩
  · by_cases hl : rewrittenKey cmd = some l
    · refine Or.inl ⟨fun id j hj hk => ?_, fun o ho => apply_plain_still hplain hl ho⟩
      change (s.catalog.apply cmd).1.journals.get id = some j at hj
      rw [hjournals] at hj
      exact (hunclaimed l hl).2 id j hj hk
    · exact (hview l hl).agreed (hs.agreed l)
  · by_cases hl : rewrittenKey cmd = some l
    · change s.drivers.get l = some q at hq
      rw [(hunclaimed l hl).1] at hq
      cases hq
    · exact hs.others (hview l hl) hvalid hq
  · intro u hu
    rcases List.mem_or_eq_of_mem_set hu with hu | rfl
    · exact hs.plain u hu
    · exact advance_plain (hs.plain t (List.mem_of_getElem? ht)) _

theorem Settled.propose (op : Operation) : Settled N (s.propose op) := by
  unfold Cluster.propose
  split_ifs with hr
  · cases hp : op.plan s.catalog with
    | error e => exact hs
    | ok p =>
      refine ⟨hs.valid, hs.agreed, hs.drivers, fun t ht => ?_⟩
      rcases List.mem_append.mp ht with ht | ht
      · exact hs.plain t ht
      · rw [List.mem_singleton.mp ht]
        exact start_plain hr hp
  · exact hs

end

/-- **One step keeps every partition free or held.** -/
theorem Settled.step (hs : Settled N s) {turn : Turn} (hfree : s.LeavesMoves turn)
    (hm : ∀ k ∈ turn.partition, k ∈ N.keys) : Settled N (s.step N turn) := by
  cases turn with
  | movePartition env registry tenant range target =>
    exact hs.begin (does_movePartition (k := ⟨tenant, range.1, range.2⟩) registry target (hm _ rfl)
      hs.valid (hs.agreed _))
  | abortMove env id =>
    exact hs.beginJournal fun j hj => does_abortMove_call hs.valid (hs.agreed _) hj rfl
  | reconcileMove env id =>
    exact hs.beginJournal fun j hj => does_reconcileMove hs.valid (hs.agreed _) hj rfl
  | resume k => exact hs.resume k
  | stop k =>
    refine ⟨hs.valid, hs.agreed, fun l q hq => ?_, hs.plain⟩
    change (s.drivers.remove k).get l = some q at hq
    rw [Table.get_remove] at hq
    split_ifs at hq
    exact hs.drivers l q hq
  | propose op => exact hs.propose op
  | commit i =>
    cases ht : s.threads[i]? with
    | none =>
      simp only [Cluster.step, Cluster.commit, ht]
      exact hs
    | some t =>
      cases hnext : t.next with
      | none =>
        simp only [Cluster.step, Cluster.commit, ht, hnext]
        exact hs
      | some cmd =>
        simp only [Cluster.step, Cluster.commit, ht, hnext]
        exact hs.commit ht hnext hfree
  | crash => exact ⟨hs.valid, hs.agreed, fun k p hp => (by cases hp), fun t ht => (by cases ht)⟩

end

/-- The partitions of a run's moves are named by the digest that tells them apart. -/
theorem named_of_mem {sha256 : List UInt8 → String} {turns : List Turn}
    (hn : NamesPartitions sha256 (turns.filterMap Turn.partition)) :
    ∀ turn ∈ turns, ∀ k ∈ turn.partition, k ∈ (⟨sha256, _, hn⟩ : Naming).keys :=
  fun turn hturn _ hk => List.mem_filterMap.mpr ⟨turn, hturn, hk⟩

/-- **Other placement changes do not break a move**: the start-up check succeeds in every state of every
run in which assigns, merges and splits add and remove only rows of partitions without a move under way
or unfinished, when the ids of moves tell the partitions that are moved apart. -/
theorem moves_validate_at_every_point (sha256 : List UInt8 → String) (turns : List Turn)
    (hn : NamesPartitions sha256 (turns.filterMap Turn.partition))
    (h : Along (Cluster.step sha256) Cluster.LeavesMoves Cluster.fresh turns) :
    ∃ active, validateMoveRecoveryState sha256
      (run (Cluster.step sha256) Cluster.fresh turns).catalog = .ok active := by
  have hs : Settled ⟨sha256, _, hn⟩ (run (Cluster.step sha256) Cluster.fresh turns) :=
    run_invariant_along (fun _ _ hp hs => hs.step hp.1 hp.2) turns _
      (h.and_of_forall (named_of_mem hn)) settled_fresh
  have hlisted := validate_of_agreed hs.valid hs.agreed
  exact ⟨_, hlisted⟩

/-! ### A move and an assign -/

/-- A short digest: a polynomial of the bytes modulo a prime. -/
def shortDigest (bytes : List UInt8) : String :=
  Nat.repr (bytes.foldl (fun n b => (n * 257 + b.toNat) % 1000003) 1)

theorem namesPartitions_singleton (sha256 : List UInt8 → String) (k : PartitionKey) :
    NamesPartitions sha256 [k] := by
  intro a ha b hb e t gs e' t' gs' _
  rw [List.mem_singleton.mp ha, List.mem_singleton.mp hb]

def readyNode : Environment where
  requireLocalGroupLeader := .ok ()
  requirePlacementLeader := .ok ()
  running _ := true
  consensusTenantIsPrepared _ := false
  verifyGraphDurable _ := .ok 1
  groupOf _ := 0

def assignTurns : List Turn := [.propose (.assign "a" 1), .commit 0, .commit 0, .commit 0]

def moveTurns : List Turn :=
  .movePartition readyNode ["a:x"] "a" (0, u64Max) 2 :: List.replicate 4 (.resume (.whole "a"))

def reassignTurns : List Turn := [.propose (.assign "a" 3), .commit 1, .commit 1, .commit 1]

/-- An assign that was carried through leaves the journal of a move without its row: a node does not
start any more. -/
theorem reassigned_move_not_validated : ((run (Cluster.step shortDigest) Cluster.fresh
        (assignTurns ++ moveTurns ++ reassignTurns)).threads.map Thread.completed = [true, true] ∧
      validateMoveRecoveryState shortDigest (run (Cluster.step shortDigest) Cluster.fresh
        (assignTurns ++ moveTurns ++ reassignTurns)).catalog =
          .error "move journal and placement fence disagree") := by
  exact ⟨by decide +kernel, by decide +kernel⟩

/-- The move alone leaves a state that a node starts from. -/
theorem moves_validate_started : ∃ active, validateMoveRecoveryState shortDigest
      (run (Cluster.step shortDigest) Cluster.fresh (assignTurns ++ moveTurns)).catalog =
        .ok active :=
  moves_validate_at_every_point shortDigest (assignTurns ++ moveTurns)
    (namesPartitions_singleton _ (.whole "a")) (by decide +kernel)

end Medulla.Placement.MoveRuns
