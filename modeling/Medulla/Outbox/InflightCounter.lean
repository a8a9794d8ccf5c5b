import Medulla.Outbox.Ordering

/-! # The in-flight counter

The counter of a consumer is the number of rows it holds by a lease. Every operation moves the two
together, with one exception: a rewind starts by zeroing the counter and then deletes the rows from
its target on, so a row held before the target stays held and is no longer counted.

* one move: `counted_move`; one call: `Exact.after`;
* every run: `inflight_counts_held_rows`. -/

namespace Medulla.Outbox.InflightCounter

open Library.Transaction Library.OrderedTable Types.Records Mutation.State Mutation.Kernel
open Mutation.Runs Mutation.RouteFence Rows Claim Cursor Rewind
open Machine Views Streams Outbox.Ordering

/-! ### The invariant -/

structure Counted (v : View) : Prop where
  exact : v.rewinding = none → v.inflight = v.held
  capacity : v.inflight ≤ outboxQueueCapacity
  idle : ∀ cursor, v.rewinding = some cursor → v.inflight = 0
  ahead : ∀ k d, v.rows.get k = some d → d.held = true → ¬ Passed v.resolvedThrough d.position ∧
      ∀ cursor, v.rewinding = some cursor → ¬ Passed cursor.position d.position

def StartsFree : Event → Prop
  | .rewound v target => ∀ k d, v.rows.get k = some d → d.held = true →
      target.any (d.position < ·) = false
  | _ => True

section
variable {consumer : String} {clock n : ℕ} {v v' : View} {es : List Event}
  {d e : OutboxDelivery} {k : OutboxKey} {p : OutboxPosition}

theorem held_put (v : View) (d : OutboxDelivery) :
    (v.put d).held + weight (fun _ d => d.held) d.position.row (v.rows.get d.position.row) =
      v.held + weight (fun _ d => d.held) d.position.row (some d) :=
  Table.count_insert _ _ _ _

theorem not_held_of_resolved (h : d.resolved = true) : d.held = false := by
  simp [OutboxDelivery.held, h]

theorem not_held_of_zero (h : d.leaseUntilMs = 0) : d.held = false := by
  simp [OutboxDelivery.held, h]

theorem held_of_valid {nowMs : ℕ} (h : d.resolved = false) (hvalid : nowMs < d.leaseUntilMs) :
    d.held = true := by
  simp only [OutboxDelivery.held, h, Bool.not_false, Bool.true_and, decide_eq_true_eq]
  omega

theorem held_put_of_free (hfree : Free (v.rows.get e.position.row)) :
    (v.put e).held = v.held + weight (fun _ d => d.held) e.position.row (some e) := by
  have hput := held_put v e
  have hold : weight (fun _ d => OutboxDelivery.held d) e.position.row
      (v.rows.get e.position.row) = 0 := by
    cases hrow : v.rows.get e.position.row with
    | none => rfl
    | some d => simp [weight, not_held_of_zero (hfree d hrow).2]
  rw [hold] at hput
  exact hput

theorem held_of_gone {rows : Table OutboxKey OutboxDelivery}
    (h : ∀ k, rows.get k = v.rows.get k ∨ rows.get k = none ∧
      ∀ d, v.rows.get k = some d → d.held = false) :
    rows.count (fun _ d => d.held) = v.held := by
  refine Table.count_eq_of_get fun k => ?_
  rcases h k with hk | ⟨hk, hfree⟩
  · rw [hk]
  · rw [hk]
    cases hrow : v.rows.get k with
    | none => rfl
    | some d => rw [Option.filter_some_neg (hfree d hrow), Option.filter_none]

/-! ### Moves -/

theorem row_of_held (he : e.held = false) (hd : (v.put e).rows.get k = some d)
    (hheld : d.held = true) : k ≠ e.position.row ∧ v.rows.get k = some d := by
  rw [put_get] at hd
  split_ifs at hd with hk
  · rw [← Option.some.inj hd, he] at hheld
    cases hheld
  · exact ⟨hk, hd⟩

/-- A row leaves its lease. -/
theorem Counted.release (h : Counted v) (hrow : v.rows.get e.position.row = some d)
    (hd : d.held = true) (he : e.held = false) :
    Counted { v.put e with inflight := v.inflight - 1 } := by
  refine ⟨fun hsteady => ?_, le_trans (Nat.sub_le _ _) h.capacity, fun cursor hcursor => ?_,
    fun k f hf hheld => h.ahead k f (row_of_held he hf hheld).2 hheld⟩
  · change v.inflight - 1 = (v.put e).held
    have hput := held_put v e
    rw [hrow] at hput
    simp only [weight, hd, he] at hput
    simp at hput
    rw [h.exact hsteady]
    omega
  · change v.inflight - 1 = 0
    rw [h.idle cursor hcursor]

/-- A row is written that no lease holds, before or after. -/
theorem Counted.overwrite (h : Counted v) (hfree : Free (v.rows.get e.position.row))
    (he : e.held = false) : Counted (v.put e) := by
  refine ⟨fun hsteady => ?_, h.capacity, h.idle,
    fun k f hf hheld => h.ahead k f (row_of_held he hf hheld).2 hheld⟩
  change v.inflight = (v.put e).held
  rw [held_put_of_free hfree, h.exact hsteady]
  simp [weight, he]

/-- The resolved prefix grows to a position that no held row lies at or before. -/
theorem Counted.resolve (h : Counted v)
    (hp : ∀ k d, v.rows.get k = some d → d.held = true → ¬ Passed (some p) d.position) :
    Counted { v with resolvedThrough := some p } :=
  ⟨h.exact, h.capacity, h.idle, fun k d hd hheld => ⟨hp k d hd hheld, (h.ahead k d hd hheld).2⟩⟩

theorem Counted.lease (h : Counted v) (steady : v.rewinding = none)
    (ahead : ¬ Passed v.resolvedThrough d.position) (free : Free (v.rows.get d.position.row))
    (room : v.inflight < outboxQueueCapacity) (hheld : d.held = true) :
    Counted { v.put d with inflight := v.inflight + 1 } := by
  refine ⟨fun _ => ?_, room, fun cursor hcursor => absurd (steady.symm.trans hcursor) (by simp),
    fun k e he hheld => ?_⟩
  · change v.inflight + 1 = (v.put d).held
    rw [held_put_of_free free, h.exact steady]
    simp [weight, hheld]
  · refine ⟨?_, fun cursor hcursor => absurd (steady.symm.trans hcursor) (by simp)⟩
    simp only [put_get] at he
    split_ifs at he
    · exact Option.some.inj he ▸ ahead
    · exact (h.ahead k e he hheld).1

theorem not_passed_of_clear (ho : Ordered consumer v) (h : Counted v) (hclear : v.Clear p)
    (hrow : v.rows.get k = some d) (hheld : d.held = true) (hne : k ≠ p.row) :
    ¬ Passed (some p) d.position := by
  obtain ⟨hk, hin, -⟩ := ho.rows k d hrow
  intro hpassed
  rcases (passed_some.mp hpassed).lt_or_eq with hlt | heq
  · obtain ⟨f, hf, hresolved⟩ := hclear d.position hin hlt (h.ahead k d hrow hheld).1
    rw [hk, hrow] at hf
    rw [Option.some.inj hf, not_held_of_resolved hresolved] at hheld
    cases hheld
  · exact hne (by rw [← hk, heq])

theorem Counted.prune {rows : Table OutboxKey OutboxDelivery} (h : Counted v)
    (steady : v.rewinding = none)
    (gone : ∀ k, rows.get k = v.rows.get k ∨ rows.get k = none ∧
      ∃ d, v.rows.get k = some d ∧ d.delivered = true ∧ Passed v.resolvedThrough d.position) :
    Counted { v with rows := rows } := by
  refine ⟨fun _ => ?_, h.capacity, h.idle, fun k d hd => h.ahead k d (row_of_gone (gone k) hd)⟩
  refine (h.exact steady).trans (held_of_gone fun k => (gone k).imp id ?_).symm
  rintro ⟨hnone, d, hd, hdelivered, -⟩
  refine ⟨hnone, fun e he => ?_⟩
  rw [hd] at he
  rw [← Option.some.inj he]
  exact not_held_of_resolved (by simp [OutboxDelivery.resolved, hdelivered])

/-- A row still held while a rewind walks lies beyond the walk. -/
theorem Counted.beyond {rows : Table OutboxKey OutboxDelivery} {cursor : RewindCursor} {Q : Prop}
    (h : Counted v) (ho : Ordered consumer v) (walking : v.rewinding = some cursor)
    (kept : rows.get k = v.rows.get k ∨ rows.get k = none ∧ Q) (hd : rows.get k = some d)
    (hheld : d.held = true) : ¬ Passed v.resolvedThrough d.position ∧ d.position.row = k ∧
      d.position ∈ v.index ∧ ¬ Passed cursor.position d.position := by
  have hrow := row_of_gone kept hd
  obtain ⟨hahead, hwalk⟩ := h.ahead k d hrow hheld
  obtain ⟨hk, hin, -⟩ := ho.rows k d hrow
  exact ⟨hahead, hk, hin, hwalk cursor walking⟩

/-- **Every move keeps the counter exact**, if a rewind it starts leaves no held row behind. -/
theorem counted_move (m : Machine.Move consumer clock v es v') (hes : ∀ e ∈ es, StartsFree e)
    (ho : Ordered consumer v) (h : Counted v) : Counted v' := by
  cases m with
  | grow index kept later injective => exact ⟨h.exact, h.capacity, h.idle, h.ahead⟩
  | zero d row held counted => exact h.release row held (not_held_of_zero rfl)
  | lease p d steady indexed ahead filled free room leases =>
    obtain rfl := leases.position
    refine h.lease steady ahead free room ?_
    simp [OutboxDelivery.held, OutboxDelivery.resolved, OutboxDelivery.delivered,
      OutboxDelivery.deadLettered, leases.undelivered, leases.alive, leases.timed]
  | deadLetter d nowMs steady row free exhausted =>
    refine h.overwrite (fun f hf => ?_) (not_held_of_zero free.2)
    rw [← Option.some.inj (row.symm.trans hf)]
    exact free
  | ack d nowMs time steady row unresolved valid ahead clear counted =>
    have hdone : ({ d with deliveredAtMs := some nowMs } : OutboxDelivery).held = false :=
      not_held_of_resolved rfl
    refine (h.release (e := { d with deliveredAtMs := some nowMs }) row
      (held_of_valid unresolved valid) hdone).resolve fun k f hf hheld => ?_
    obtain ⟨hk, hf⟩ := row_of_held hdone hf hheld
    exact not_passed_of_clear ho h clear hf hheld hk
  | reject d nowMs time steady row unresolved valid counted =>
    exact h.release row (held_of_valid unresolved valid) (not_held_of_resolved (by
      simp [rejected, OutboxDelivery.resolved, OutboxDelivery.deadLettered]))
  | supersede p nowMs steady indexed ahead clear free =>
    have hdone : (superseded consumer p nowMs).held = false := not_held_of_resolved rfl
    refine (h.overwrite free hdone).resolve fun k f hf hheld => ?_
    obtain ⟨hk, hf⟩ := row_of_held hdone hf hheld
    exact not_passed_of_clear ho h clear hf hheld hk
  | extend p steady indexed ahead clear resolved =>
    refine h.resolve fun k d hd hheld => not_passed_of_clear ho h clear hd hheld ?_
    rintro rfl
    obtain ⟨e, he, hresolved⟩ := resolved
    rw [hd] at he
    rw [Option.some.inj he, not_held_of_resolved hresolved] at hheld
    cases hheld
  | prune rows steady gone => exact h.prune steady gone
  | notePrune cursor complete position boundary => exact ⟨h.exact, h.capacity, h.idle, h.ahead⟩
  | rewind target predecessor steady indexed splits =>
    have hfree := hes _ (List.mem_singleton_self _)
    have hahead : ∀ k d, v.rows.get k = some d → d.held = true →
        ¬ Passed predecessor d.position := by
      intro k d hd hheld hpassed
      have hbefore := (splits d.position (ho.rows k d hd).2.1).mp hpassed
      exact absurd hbefore (by simp [hfree k d hd hheld])
    refine ⟨fun hsteady => absurd hsteady (by simp), Nat.zero_le _, fun _ _ => rfl,
      fun k d hd hheld => ?_⟩
    refine ⟨hahead k d hd hheld, fun cursor hcursor => ?_⟩
    rw [← Option.some.inj hcursor]
    exact hahead k d hd hheld
  | sweep cursor rows next walking indexed ahead gone kept =>
    refine ⟨fun hsteady => absurd hsteady (by simp), h.capacity, fun _ _ => h.idle cursor walking,
      fun k d hd hheld => ?_⟩
    obtain ⟨hahead, hk, hin, hopen⟩ := h.beyond ho walking (kept k) hd hheld
    refine ⟨hahead, fun cursor' hcursor hpassed => ?_⟩
    rw [← Option.some.inj hcursor, passed_some] at hpassed
    have hgone := gone d.position hin hopen hpassed
    rw [hk] at hgone
    exact absurd (hgone.symm.trans hd) (by simp)
  | finishSweep cursor rows walking gone kept =>
    -- no row is held any more: the walk has deleted every row that could be
    have hfree : ∀ k d, rows.get k = some d → d.held = false := by
      intro k d hd
      by_contra hheld
      obtain ⟨-, hk, hin, hopen⟩ := h.beyond ho walking (kept k) hd (by simpa using hheld)
      have hgone := gone d.position hin hopen
      rw [hk] at hgone
      exact absurd (hgone.symm.trans hd) (by simp)
    refine ⟨fun _ => ?_, h.capacity, fun _ hcursor => absurd hcursor (by simp),
      fun k d hd hheld => absurd hheld (by simp [hfree k d hd])⟩
    rw [h.idle cursor walking]
    exact (Table.count_eq_zero hfree).symm

/-! ### Runs -/

theorem counted_steps (s : Steps consumer clock v es v') (hes : ∀ e ∈ es, StartsFree e)
    (ho : Ordered consumer v) (h : Counted v) : Counted v' := by
  have hboth : Ordered consumer v' ∧ Counted v' := by
    induction s with
    | refl => exact ⟨ho, h⟩
    | tail _ last ih =>
      obtain ⟨ho', h'⟩ := ih fun e he => hes e (List.mem_append_left _ he)
      exact ⟨ordered_move last ho',
        counted_move last (fun e he => hes e (List.mem_append_right _ he)) ho' h'⟩
  exact hboth.2

end

def inflightOf (l : Ledger) (consumer : String) : ℕ :=
  ((l.fairness.get consumer).map OutboxConsumerState.inflight).getD 0

def heldRows (l : Ledger) (consumer : String) : ℕ :=
  l.deliveries.count fun k d => k.consumer = consumer && d.held

/-- A rewind that starts leaves no row leased before its target. -/
def RewindsFree (l : Ledger) : KernelCall → Prop
  | .rewind consumer target _ => l.rewindCursors.get consumer = none →
      ∀ k d, l.deliveries.get ⟨consumer, k⟩ = some d → d.held = true →
        target.position.any (d.position < ·) = false
  | _ => True

section
variable {owner : OwnedStoreHandle} {l : Ledger} {consumer : String}

theorem held_view (l : Ledger) (consumer : String) : (view l consumer).held = heldRows l consumer := by
  unfold View.held heldRows
  rw [show (view l consumer).rows = deliveriesOf l consumer from rfl, deliveriesOf, Table.count_slice]
  refine Table.count_congr fun k d _ => ?_
  unfold rowOf
  split_ifs with hk <;> simp [hk]

theorem startsFree_of_serves {c : KernelCall} {es : List Event} {clock : ℕ}
    (hserves : Serves consumer clock (noticesOf owner consumer l c) es l (step owner l c))
    (hc : RewindsFree l c) : ∀ e ∈ es, StartsFree e := by
  intro e he
  cases e with
  | leased previous d => trivial
  | settled p => trivial
  | delivered p => trivial
  | rewound v target =>
    obtain ⟨rfl, t, nowMs, rfl, rfl, hnone⟩ := rewind_of_serves hserves he
    intro k d hd hheld
    exact hc hnone k d ((deliveriesOf_get l consumer k).symm.trans hd) hheld

structure Exact (l : Ledger) : Prop where
  sound : Sound l
  counted : ∀ consumer, Counted (view l consumer)

theorem exact_bound (version : ℕ) : Exact (Ledger.bound version) := by
  refine ⟨sound_bound version, fun consumer => ⟨fun _ => ?_, Nat.zero_le _, fun _ _ => rfl, ?_⟩⟩
  · rw [held_view]
    rfl
  · intro k d hd
    cases hd

/-- **Every call keeps the counters exact**, if a rewind it starts leaves no held row behind. -/
theorem Exact.after {c : KernelCall} (h : Exact l)
    (hc : kernelPurges c = false ∧ RewindsFree l c) : Exact (step owner l c) := by
  refine ⟨h.sound.after hc.1, fun consumer => ?_⟩
  obtain ⟨es, hserves⟩ : ∃ es, Serves consumer 0 (noticesOf owner consumer l c) es l _ :=
    h.sound.serves hc.1 fun _ _ => Nat.zero_le _
  exact counted_steps hserves.steps (startsFree_of_serves hserves hc.2) (h.sound.ordered consumer)
    (h.counted consumer)

end

/-- **The in-flight counter is exact**, in every run without a purge in which no rewind starts with a
row still leased before its target: it is the number of unresolved leased rows whenever no rewind is
pending, and never exceeds the queue capacity. -/
theorem inflight_counts_held_rows (owner : OwnedStoreHandle) (version : ℕ) (calls : List KernelCall)
    (consumer : String)
    (hcalls : Along (step owner) (fun l c => kernelPurges c = false ∧ RewindsFree l c)
      (Ledger.bound version) calls) :
    ((runKernel owner (Ledger.bound version) calls).rewindCursors.get consumer = none →
      inflightOf (runKernel owner (Ledger.bound version) calls) consumer =
        heldRows (runKernel owner (Ledger.bound version) calls) consumer) ∧
    inflightOf (runKernel owner (Ledger.bound version) calls) consumer ≤ outboxQueueCapacity := by
  have hexact : Exact (runKernel owner (Ledger.bound version) calls) :=
    run_invariant_along (fun l c hc h => h.after hc) calls _ hcalls (exact_bound version)
  have hcounted := hexact.counted consumer
  refine ⟨fun hsteady => ?_, hcounted.capacity⟩
  rw [← held_view]
  exact hcounted.exact hsteady

theorem inflight_counts_held_rows_sample :
    Along (step sampleOwner) (fun l c => kernelPurges c = false ∧ RewindsFree l c)
        (Ledger.bound 0) (leasedRun ++ [.rewind "reader" .start 0, .rewind "reader" .start 0]) ∧
      inflightOf (runKernel sampleOwner (Ledger.bound 0)
        (leasedRun ++ [.rewind "reader" .start 0, .rewind "reader" .start 0])) "reader" ≤
          outboxQueueCapacity := by
  have hcalls : Along (step sampleOwner) (fun l c => kernelPurges c = false ∧ RewindsFree l c)
      (Ledger.bound 0) (leasedRun ++ [.rewind "reader" .start 0, .rewind "reader" .start 0]) :=
    ⟨⟨rfl, trivial⟩, ⟨rfl, trivial⟩, ⟨rfl, trivial⟩, ⟨rfl, fun _ _ _ _ _ => rfl⟩,
      ⟨rfl, fun _ _ _ _ _ => rfl⟩, trivial⟩
  exact ⟨hcalls, (inflight_counts_held_rows sampleOwner 0 _ "reader" hcalls).2⟩

/-- The reader holds both events and is rewound to the second: the completed rewind leaves a counter of
zero over one held row. -/
theorem inflight_lost_by_rewind : (∀ c ∈ forwardRun, kernelPurges c = false) ∧
      (runKernel sampleOwner (Ledger.bound 0) forwardRun).rewindCursors.get "reader" = none ∧
      inflightOf (runKernel sampleOwner (Ledger.bound 0) forwardRun) "reader" = 0 ∧
      heldRows (runKernel sampleOwner (Ledger.bound 0) forwardRun) "reader" = 1 := by
  decide +kernel

end Medulla.Outbox.InflightCounter
