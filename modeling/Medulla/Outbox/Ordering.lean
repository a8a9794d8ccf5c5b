import Medulla.Outbox.Streams

/-! # The order of a consumer's stream

What holds of every consumer in every state a run reaches, whatever the calls: its rows sit under
their own positions of its topic, none of them lies behind a gap of the stream, and the walk of a
rewind has deleted the rows behind it.

* one move: `ordered_move`; one call: `Sound.after`;
* every run: `published_append_only`. -/

namespace Medulla.Outbox.Ordering

open Types.Batch Types.Records Mutation.State Mutation.Commit Mutation.Kernel Mutation.Runs
open Mutation.RouteFence Claim Cursor Machine Views Publishing
open Streams
open Library.OrderedTable (Table)

variable {e : OutboxDelivery} {c : KernelCall}

/-! ### A topic to evaluate on -/

def sampleEvents : MutationBatch :=
  sampleOperation "events" "n1" 0 0 0 [⟨"topic", "first", [], []⟩, ⟨"topic", "second", [], []⟩]

def samplePosition (ordinal : ℕ) : OutboxPosition := ⟨1, 0, "events", ordinal⟩

/-- A sweep that may lease two rows of one tenant, for 100 ms each. -/
def sampleBudget (nowMs : ℕ) : OutboxClaimBudget :=
  ⟨8, 100, nowMs, 0, none, 0, 0, by decide, by decide⟩

def leasedRun : List KernelCall :=
  [commitAlone sampleEvents 0, .subscribe "reader" "topic", .claim "reader" (sampleBudget 0)]

/-- The reader is rewound to the second event while it holds the first. -/
def forwardRun : List KernelCall :=
  leasedRun ++ [.rewind "reader" (.at (samplePosition 1)) 0,
    .rewind "reader" (.at (samplePosition 1)) 0]

def sampleLease : MutationOutboxLease :=
  ⟨outboxRecord sampleEvents (.graph 0 1) 1 (0, ⟨"topic", "first", [], []⟩), "reader", 1, 100, 1⟩

/-! ### The invariant -/

structure Ordered (consumer : String) (v : View) : Prop where
  injective : RowInjective v.index
  rows : ∀ k d, v.rows.get k = some d →
    d.position.row = k ∧ d.position ∈ v.index ∧ d.consumer = consumer
  resolved : ∀ p, v.resolvedThrough = some p → p ∈ v.index
  walked : ∀ cursor, v.rewinding = some cursor → (∀ p, cursor.position = some p → p ∈ v.index) ∧
      ∀ p ∈ v.index, Passed cursor.position p → ¬ Passed v.resolvedThrough p →
        v.rows.get p.row = none
  gap : v.rewinding = none → v.NoGap

section
variable {consumer : String} {clock : ℕ} {v v' : View} {es : List Event} {d : OutboxDelivery}
  {k : OutboxKey} {p q : OutboxPosition}

/-! ### Writing one row -/

theorem put_get (v : View) (d : OutboxDelivery) (k : OutboxKey) :
    (v.put d).rows.get k = if k = d.position.row then some d else v.rows.get k := by
  rw [View.put, Table.get_insert]
  split_ifs <;> rfl

theorem put_get_isSome (h : (v.rows.get k).isSome = true) :
    ((v.put d).rows.get k).isSome = true := by
  rw [put_get]
  split_ifs
  · rfl
  · exact h

theorem Ordered.position_eq (h : Ordered consumer v) (hp : p ∈ v.index)
    (hd : d.position ∈ v.index) (hrow : p.row = d.position.row) : p = d.position :=
  h.injective p hp d.position hd hrow

theorem Ordered.rows_put (h : Ordered consumer v) (hd : d.position ∈ v.index)
    (hconsumer : d.consumer = consumer) (he : (v.put d).rows.get k = some e) :
    e.position.row = k ∧ e.position ∈ v.index ∧ e.consumer = consumer := by
  rw [put_get] at he
  split_ifs at he with hk
  · obtain rfl := Option.some.inj he
    exact ⟨hk.symm, hd, hconsumer⟩
  · exact h.rows k e he

theorem noGap_of (h : v.NoGap) (hindex : v'.index = v.index)
    (hpassed : ∀ p, Passed v.resolvedThrough p → Passed v'.resolvedThrough p)
    (hkept : ∀ p ∈ v.index, ¬ Passed v'.resolvedThrough p → (v.rows.get p.row).isSome = true →
      (v'.rows.get p.row).isSome = true)
    (hnew : ∀ p ∈ v.index, ¬ Passed v'.resolvedThrough p → (v'.rows.get p.row).isSome = true →
      (v.rows.get p.row).isSome = true ∨ v.Filled p) : v'.NoGap := by
  intro p hp hahead hrow q hq hlt hopen
  rw [hindex] at hp hq
  have hfilled : v.Filled p := by
    rcases hnew p hp hahead hrow with hold | hfilled
    · exact h p hp (fun hpass => hahead (hpassed p hpass)) hold
    · exact hfilled
  exact hkept q hq hopen (hfilled q hq hlt fun hpass => hopen (hpassed q hpass))

theorem noGap_put (h : v.NoGap) (hindex : v'.index = v.index)
    (hrows : v'.rows = (v.put d).rows)
    (hpassed : ∀ p, Passed v.resolvedThrough p → Passed v'.resolvedThrough p)
    (hd : (v.rows.get d.position.row).isSome = true) : v'.NoGap := by
  refine noGap_of h hindex hpassed (fun p _ _ hrow => ?_) fun p _ _ hrow => Or.inl ?_
  · rw [hrows]
    exact put_get_isSome hrow
  · rw [hrows, put_get] at hrow
    split_ifs at hrow with hk
    · rw [hk]
      exact hd
    · exact hrow

theorem noGap_lease (h : Ordered consumer v) (hsteady : v.rewinding = none)
    (hindex : v'.index = v.index) (hrows : v'.rows = (v.put d).rows)
    (hpassed : ∀ p, Passed v.resolvedThrough p → Passed v'.resolvedThrough p)
    (hd : d.position ∈ v.index) (hfilled : v.Filled d.position) : v'.NoGap := by
  refine noGap_of (h.gap hsteady) hindex hpassed (fun p _ _ hrow => ?_) fun p hp _ hrow => ?_
  · rw [hrows]
    exact put_get_isSome hrow
  · rw [hrows, put_get] at hrow
    split_ifs at hrow with hk
    · rw [h.position_eq hp hd hk]
      exact Or.inr hfilled
    · exact Or.inl hrow

theorem filled_of_clear (h : v.Clear p) : v.Filled p := by
  intro q hq hlt hopen
  obtain ⟨d, hd, -⟩ := h q hq hlt hopen
  rw [hd]
  rfl

/-! ### Moves -/

theorem row_of_gone {rows : Table OutboxKey OutboxDelivery} {Q : Prop}
    (h : rows.get k = v.rows.get k ∨ rows.get k = none ∧ Q) (hd : rows.get k = some d) :
    v.rows.get k = some d := by
  rcases h with hsame | ⟨hnone, -⟩
  · exact hsame ▸ hd
  · exact absurd (hnone.symm.trans hd) (by simp)

theorem mem_of_some_eq (hp : p ∈ v.index) (hq : some p = some q) : q ∈ v.index := by
  rw [← Option.some.inj hq]
  exact hp

theorem Ordered.rewrite (h : Ordered consumer v) (n : ℕ) (hrow : v.rows.get d.position.row = some d)
    (hposition : e.position = d.position) (hconsumer : e.consumer = d.consumer) :
    Ordered consumer { v.put e with inflight := n } := by
  obtain ⟨-, hd, hc⟩ := h.rows _ d hrow
  refine ⟨h.injective, fun k f hf => ?_, h.resolved, fun cursor hcursor => ?_, fun hsteady => ?_⟩
  · exact h.rows_put (by rw [hposition]; exact hd) (by rw [hconsumer]; exact hc) hf
  · refine ⟨(h.walked cursor hcursor).1, fun p hp hpassed hopen => ?_⟩
    have hnone := (h.walked cursor hcursor).2 p hp hpassed hopen
    rw [put_get, if_neg]
    · exact hnone
    · intro hk
      rw [hk, hposition, hrow] at hnone
      cases hnone
  · exact noGap_put (h.gap hsteady) rfl rfl (fun _ hp => hp) (by rw [hposition, hrow]; rfl)

theorem Ordered.grow {index : Set OutboxPosition} (h : Ordered consumer v)
    (kept : v.index ⊆ index) (later : ∀ p ∈ index, p ∉ v.index → ∀ q ∈ v.index, q < p)
    (injective : RowInjective index) : Ordered consumer { v with index := index } := by
  refine ⟨injective, fun k d hd => ?_, fun p hp => kept (h.resolved p hp), fun cursor hcursor => ?_,
    fun hsteady p hp hahead hrow q hq hlt hopen => ?_⟩
  · obtain ⟨hk, hin, hconsumer⟩ := h.rows k d hd
    exact ⟨hk, kept hin, hconsumer⟩
  · obtain ⟨hcursors, hwalked⟩ := h.walked cursor hcursor
    refine ⟨fun p hp => kept (hcursors p hp), fun p hp hpassed hopen => ?_⟩
    by_cases hin : p ∈ v.index
    · exact hwalked p hin hpassed hopen
    · -- a new position lies beyond the walk
      cases hc : cursor.position with
      | none =>
        rw [hc] at hpassed
        exact absurd hpassed not_passed_none
      | some r =>
        rw [hc, passed_some] at hpassed
        exact absurd hpassed (not_le.mpr (later p hp hin r (hcursors r hc)))
  · obtain ⟨d, hd⟩ := Option.isSome_iff_exists.mp hrow
    obtain ⟨hk, hin, -⟩ := h.rows _ d hd
    obtain rfl := injective p hp d.position (kept hin) hk.symm
    have hqin : q ∈ v.index := by
      by_contra hnew
      exact absurd hlt (not_lt.mpr (later q hq hnew d.position hin).le)
    exact h.gap hsteady d.position hin hahead hrow q hqin hlt hopen

/-- A steady consumer writes a row at a position whose predecessors all have rows. -/
theorem Ordered.write {through : Option OutboxPosition} (h : Ordered consumer v) (n : ℕ)
    (steady : v.rewinding = none) (hd : d.position ∈ v.index) (hconsumer : d.consumer = consumer)
    (hfilled : v.Filled d.position) (hthrough : ∀ p, through = some p → p ∈ v.index)
    (hpassed : ∀ p, Passed v.resolvedThrough p → Passed through p) :
    Ordered consumer { v.put d with inflight := n, resolvedThrough := through } :=
  ⟨h.injective, fun _ _ he => h.rows_put hd hconsumer he, hthrough,
    fun _ hcursor => absurd (steady.symm.trans hcursor) (by simp),
    fun _ => noGap_lease h steady rfl rfl hpassed hd hfilled⟩

theorem Ordered.prune {rows : Table OutboxKey OutboxDelivery} (h : Ordered consumer v)
    (steady : v.rewinding = none)
    (gone : ∀ k, rows.get k = v.rows.get k ∨ rows.get k = none ∧
      ∃ d, v.rows.get k = some d ∧ d.delivered = true ∧ Passed v.resolvedThrough d.position) :
    Ordered consumer { v with rows := rows } := by
  refine ⟨h.injective, fun k e he => h.rows k e (row_of_gone (gone k) he), h.resolved,
    fun cursor hcursor => absurd (steady.symm.trans hcursor) (by simp), fun _ => ?_⟩
  refine noGap_of (h.gap steady) rfl (fun _ hp => hp) (fun p hp hopen hrow => ?_)
    fun p hp _ hrow => Or.inl ?_
  · rcases gone p.row with hsame | ⟨-, d, hd, -, hpassed⟩
    · simp only [hsame]
      exact hrow
    · obtain ⟨hk, hin, -⟩ := h.rows _ d hd
      rw [← h.position_eq hp hin hk.symm] at hpassed
      exact absurd hpassed hopen
  · obtain ⟨d, hd⟩ := Option.isSome_iff_exists.mp hrow
    rw [row_of_gone (gone p.row) hd]
    rfl

/-- Behind the walk of a rewind no row beyond the resolved prefix comes back. -/
theorem Ordered.behind {rows : Table OutboxKey OutboxDelivery} {cursor : RewindCursor} {Q : Prop}
    (h : Ordered consumer v) (walking : v.rewinding = some cursor)
    (kept : rows.get p.row = v.rows.get p.row ∨ rows.get p.row = none ∧ Q) (hp : p ∈ v.index)
    (hopen : ¬ Passed v.resolvedThrough p) (hbehind : Passed cursor.position p) :
    rows.get p.row = none := by
  rcases kept with hsame | ⟨hgone, -⟩
  · exact hsame.trans ((h.walked cursor walking).2 p hp hbehind hopen)
  · exact hgone

/-- **Every move keeps the stream in order.** -/
theorem ordered_move (m : Machine.Move consumer clock v es v') (h : Ordered consumer v) :
    Ordered consumer v' := by
  cases m with
  | grow index kept later injective => exact h.grow kept later injective
  | zero d row held counted => exact h.rewrite _ row rfl rfl
  | lease p d steady indexed ahead filled free room leases =>
    obtain rfl := leases.position
    exact h.write _ steady indexed leases.consumer filled h.resolved fun _ hp => hp
  | deadLetter d nowMs steady row free exhausted => exact h.rewrite v.inflight row rfl rfl
  | ack d nowMs time steady row unresolved valid ahead clear counted =>
    obtain ⟨-, hd, hconsumer⟩ := h.rows _ d row
    exact h.write (d := { d with deliveredAtMs := some nowMs }) _ steady hd hconsumer
      (filled_of_clear clear) (fun q hq => mem_of_some_eq hd hq) fun _ hp => hp.extend ahead
  | reject d nowMs time steady row unresolved valid counted => exact h.rewrite _ row rfl rfl
  | supersede p nowMs steady indexed ahead clear free =>
    exact h.write (d := superseded consumer p nowMs) v.inflight steady indexed rfl
      (filled_of_clear clear) (fun q hq => mem_of_some_eq indexed hq) fun _ hp => hp.extend ahead
  | extend p steady indexed ahead clear resolved =>
    refine ⟨h.injective, h.rows, fun q hq => mem_of_some_eq indexed hq,
      fun cursor hcursor => absurd (steady.symm.trans hcursor) (by simp), fun _ => ?_⟩
    exact noGap_of (h.gap steady) rfl (fun _ hp => hp.extend ahead) (fun _ _ _ hrow => hrow)
      fun _ _ _ hrow => Or.inl hrow
  | prune rows steady gone => exact h.prune steady gone
  | notePrune cursor complete position boundary =>
    exact ⟨h.injective, h.rows, h.resolved, h.walked, h.gap⟩
  | rewind target predecessor steady indexed splits =>
    refine ⟨h.injective, h.rows, indexed, fun cursor hcursor => ?_,
      fun hsteady => absurd hsteady (by simp)⟩
    obtain rfl := Option.some.inj hcursor
    exact ⟨indexed, fun p _ hpassed hopen => absurd hpassed hopen⟩
  | sweep cursor rows next walking indexed ahead gone kept =>
    refine ⟨h.injective, fun k e he => h.rows k e (row_of_gone (kept k) he), h.resolved,
      fun cursor' hcursor => ?_, fun hsteady => absurd hsteady (by simp)⟩
    obtain rfl := Option.some.inj hcursor
    refine ⟨fun p hp => mem_of_some_eq indexed hp, fun p hp hpassed hopen => ?_⟩
    by_cases hbehind : Passed cursor.position p
    · exact h.behind walking (kept p.row) hp hopen hbehind
    · exact gone p hp hbehind (passed_some.mp hpassed)
  | finishSweep cursor rows walking gone kept =>
    refine ⟨h.injective, fun k e he => h.rows k e (row_of_gone (kept k) he), h.resolved,
      fun cursor' hcursor => absurd hcursor (by simp), fun _ p hp hopen hrow => ?_⟩
    have hnone : rows.get p.row = none := by
      by_cases hbehind : Passed cursor.position p
      · exact h.behind walking (kept p.row) hp hopen hbehind
      · exact gone p hp hbehind
    simp only [hnone] at hrow
    cases hrow

theorem ordered_steps (s : Steps consumer clock v es v') (h : Ordered consumer v) :
    Ordered consumer v' := by
  induction s with
  | refl => exact h
  | tail _ last ih => exact ordered_move last ih

end

/-! ### Runs -/

/-- The index and the outbox name each other, and every consumer's stream is in order. -/
structure Sound (l : Ledger) : Prop where
  indexed : Indexed l
  ordered : ∀ consumer, Ordered consumer (view l consumer)

section
variable {owner : OwnedStoreHandle} {l : Ledger} {consumer : String} {clock : ℕ}

theorem sound_bound (version : ℕ) : Sound (Ledger.bound version) := by
  refine ⟨indexed_bound version, fun consumer => ⟨?_, ?_, ?_, ?_, ?_⟩⟩
  · rintro p ⟨topic, ht, -⟩
    cases ht
  · intro k d hd
    cases hd
  · intro p hp
    cases hp
  · intro cursor hcursor
    cases hcursor
  · rintro - p ⟨topic, ht, -⟩
    cases ht

section
variable (h : Sound l) (hpurge : kernelPurges c = false)
include h hpurge

/-- **A call on a sound ledger** moves every consumer as it reports, and delivers what it says. -/
theorem Sound.serves_delivered (htimes : ∀ t ∈ kernelTimes c, clock ≤ t) :
    ∃ es, Serves consumer clock (noticesOf owner consumer l c) es l (step owner l c) ∧
      deliveredIn es = deliveredOf owner consumer l c :=
  step_serves h.indexed (fun other => (h.ordered other).gap) hpurge htimes

theorem Sound.serves (htimes : ∀ t ∈ kernelTimes c, clock ≤ t) :
    ∃ es, Serves consumer clock (noticesOf owner consumer l c) es l (step owner l c) := by
  obtain ⟨es, hserves, -⟩ : ∃ es, Serves consumer clock (noticesOf owner consumer l c) es l _ ∧ _ :=
    h.serves_delivered hpurge htimes
  exact ⟨es, hserves⟩

/-- **Every call keeps a ledger sound.** -/
theorem Sound.after : Sound (step owner l c) := by
  have hmoves : Moves owner.identity false true l (committedBy owner l c) (step owner l c) :=
    step_moves (fun hp => absurd (hpurge.symm.trans hp) (by simp)) (fun _ => rfl)
  refine ⟨(indexed_moves hmoves h.indexed).1, fun consumer => ?_⟩
  obtain ⟨es, hserves⟩ : ∃ es, Serves consumer 0 (noticesOf owner consumer l c) es l _ :=
    h.serves hpurge fun _ _ => Nat.zero_le _
  exact ordered_steps hserves.steps (h.ordered consumer)

end

end

/-! ### What a run publishes -/

theorem keeps_committed_of_moves {identity : MutationScopeIdentity} {receipts : Bool} {l l' : Ledger}
    {es : List Committed} {id : String} {r : MutationBatchRecord}
    (m : Moves identity false receipts l es l') (h : IsCommitted l id r) : IsCommitted l' id r := by
  induction m with
  | refl => exact h
  | tail _ last ih => exact last.keeps_committed ih

theorem published_run {owner : OwnedStoreHandle} : ∀ {calls : List KernelCall} {l : Ledger},
    (∀ c ∈ calls, kernelPurges c = false) → Indexed l →
      Indexed (runKernel owner l calls) ∧ Extends l (runKernel owner l calls) ∧
        ∀ id r, IsCommitted l id r → IsCommitted (runKernel owner l calls) id r
  | [], l, _, h => ⟨h, .refl l, fun _ _ hr => hr⟩
  | c :: calls, l, hcalls, h => by
    have hmoves : Moves owner.identity false true l (committedBy owner l c) (step owner l c) :=
      step_moves (fun hp => absurd ((hcalls c (.head _)).symm.trans hp) (by simp)) fun _ => rfl
    obtain ⟨hmid, hext⟩ := indexed_moves hmoves h
    obtain ⟨hend, hext', hkept⟩ := published_run (fun c hc => hcalls c (.tail _ hc)) hmid
    refine ⟨hend, hext.trans hext', fun id r hr => hkept id r ?_⟩
    exact keeps_committed_of_moves hmoves hr

/-- **What is published stays published.** In every run without a purge the topic index and the outbox name
each other, and between any two moments of the run no committed record changes and the index only gains
positions, with commit sequences beyond the version of the first moment. -/
theorem published_append_only (owner : OwnedStoreHandle) (version : ℕ) (before after : List KernelCall)
    (hcalls : ∀ c ∈ before ++ after, kernelPurges c = false) :
    let l := runKernel owner (Ledger.bound version) before
    let l' := runKernel owner (Ledger.bound version) (before ++ after)
    Indexed l' ∧ Extends l l' ∧ ∀ id r, IsCommitted l id r → IsCommitted l' id r := by
  intro l l'
  obtain ⟨hbefore, -⟩ : Indexed l ∧ _ := published_run
    (fun c hc => hcalls c (List.mem_append_left _ hc)) (indexed_bound version)
  have hrun : l' = runKernel owner l after := Library.Transaction.run_append _ _ _ _
  rw [hrun]
  exact published_run (fun c hc => hcalls c (List.mem_append_right _ hc)) hbefore

theorem published_append_only_leased : Indexed (runKernel sampleOwner (Ledger.bound 0) leasedRun) ∧
    (∀ c ∈ leasedRun, kernelPurges c = false) :=
  have hcalls : ∀ c ∈ leasedRun, kernelPurges c = false := by decide
  ⟨(published_append_only sampleOwner 0 [] leasedRun hcalls).1, hcalls⟩

end Medulla.Outbox.Ordering
