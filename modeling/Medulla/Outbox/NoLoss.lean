import Medulla.Outbox.Ordering

/-! # No event is lost

A consumer never scans behind its resolved prefix again.

* one move: `finished_move`;
* every run: `resolved_prefix_is_finished`. -/

namespace Medulla.Outbox.NoLoss

open Library.Transaction Types.Records Mutation.State Mutation.Kernel Mutation.Runs
open Mutation.RouteFence Outbox.Index Rows Claim Cursor Rewind
open Machine Views Streams Outbox.Ordering
open Library.OrderedTable (Table)

/-! ### What is finished with -/

/-- One notice on the list of finished positions: a rewind takes off what it re-delivers. -/
def finishWith (ps : List OutboxPosition) : Notice → List OutboxPosition
  | .settled p => p :: ps
  | .rewound target => ps.filter fun p => target.any (p < ·)
  | .leased _ _ _ => ps

/-- The positions finished with since the last rewind that put them back. -/
def finished (ns : List Notice) : List OutboxPosition := ns.foldl finishWith []

def runNotices (owner : OwnedStoreHandle) (consumer : String) :
    Ledger → List KernelCall → List Notice
  | _, [] => []
  | l, c :: cs => noticesOf owner consumer l c ++ runNotices owner consumer (step owner l c) cs

/-! ### The invariant -/

/-- Everything behind the prefix is finished with, and so is every resolved row that no rewind has
still to delete. -/
structure Finished (ps : List OutboxPosition) (v : View) : Prop where
  passed : ∀ p ∈ v.index, Passed v.resolvedThrough p → p ∈ ps
  resolved : ∀ p ∈ v.index, v.ResolvedAt p →
    (∀ cursor, v.rewinding = some cursor → Passed cursor.position p) → p ∈ ps

def StartsResolved : Event → Prop
  | .rewound v target => ∀ p ∈ v.index, target.any (p < ·) = true →
      ¬ Passed v.resolvedThrough p → v.ResolvedAt p
  | _ => True

section
variable {consumer : String} {clock : ℕ} {v v' : View} {es : List Event}
  {ps : List OutboxPosition} {d e : OutboxDelivery} {p q : OutboxPosition}

theorem resolvedAt_put (ho : Ordered consumer v) (hd : e.position ∈ v.index) (hp : p ∈ v.index)
    (h : (v.put e).ResolvedAt p) : p = e.position ∧ e.resolved = true ∨ v.ResolvedAt p := by
  obtain ⟨f, hf, hresolved⟩ := h
  rw [put_get] at hf
  split_ifs at hf with hk
  · obtain rfl := Option.some.inj hf
    exact Or.inl ⟨ho.position_eq hp hd hk, hresolved⟩
  · exact Or.inr ⟨f, hf, hresolved⟩

section
variable (h : Finished ps v)
include h

theorem Finished.clear (hsteady : v.rewinding = none) (hclear : v.Clear q)
    (hp : p ∈ v.index) (hlt : p < q) : p ∈ ps := by
  by_cases hpassed : Passed v.resolvedThrough p
  · exact h.passed p hp hpassed
  · refine h.resolved p hp (hclear p hp hlt hpassed) fun cursor hcursor => ?_
    exact absurd (hsteady.symm.trans hcursor) (by simp)

theorem Finished.steady (hsteady : v.rewinding = none) (hp : p ∈ v.index)
    (hresolved : v.ResolvedAt p) : p ∈ ps :=
  h.resolved p hp hresolved fun _ hcursor => absurd (hsteady.symm.trans hcursor) (by simp)

theorem Finished.rewrite (ho : Ordered consumer v) (n : ℕ)
    (hd : e.position ∈ v.index) (he : e.resolved = false) :
    Finished ps { v.put e with inflight := n } := by
  refine ⟨h.passed, fun p hp hresolved hwalk => ?_⟩
  rcases resolvedAt_put ho hd hp hresolved with ⟨-, hfalse⟩ | hold
  · exact absurd (he.symm.trans hfalse) (by simp)
  · exact h.resolved p hp hold hwalk

theorem Finished.settle (ho : Ordered consumer v) (n : ℕ)
    (hsteady : v.rewinding = none) (hd : e.position ∈ v.index) :
    Finished (e.position :: ps) { v.put e with inflight := n } := by
  refine ⟨fun p hp hpassed => .tail _ (h.passed p hp hpassed),
    fun p hp hresolved _ => ?_⟩
  rcases resolvedAt_put ho hd hp hresolved with ⟨rfl, -⟩ | hold
  · exact .head _
  · exact .tail _ (h.steady hsteady hp hold)

theorem Finished.advance (ho : Ordered consumer v) (n : ℕ)
    (hsteady : v.rewinding = none) (hd : e.position ∈ v.index) (hclear : v.Clear e.position) :
    Finished (e.position :: ps)
      { v.put e with inflight := n, resolvedThrough := some e.position } := by
  refine ⟨fun p hp hpassed => ?_, (h.settle ho n hsteady hd).resolved⟩
  rcases (passed_some.mp hpassed).lt_or_eq with hlt | rfl
  · exact .tail _ (h.clear hsteady hclear hp hlt)
  · exact .head _

end

theorem resolvedAt_gone {rows : Table OutboxKey OutboxDelivery} {Q : Prop}
    (hgone : rows.get p.row = v.rows.get p.row ∨ rows.get p.row = none ∧ Q)
    (h : ∃ d, rows.get p.row = some d ∧ d.resolved = true) : v.ResolvedAt p := by
  obtain ⟨d, hd, hresolved⟩ := h
  exact ⟨d, row_of_gone hgone hd, hresolved⟩

/-- A row left behind the walk of a rewind was behind it before. -/
theorem Finished.swept {rows : Table OutboxKey OutboxDelivery} {cursor : RewindCursor} {Q : Prop}
    (h : Finished ps v) (walking : v.rewinding = some cursor) (hp : p ∈ v.index)
    (kept : rows.get p.row = v.rows.get p.row ∨ rows.get p.row = none ∧ Q)
    (gone : ¬ Passed cursor.position p → rows.get p.row = none)
    (hresolved : ∃ d, rows.get p.row = some d ∧ d.resolved = true) : p ∈ ps := by
  refine h.resolved p hp (resolvedAt_gone kept hresolved) fun cursor' hcursor => ?_
  obtain rfl := Option.some.inj (walking.symm.trans hcursor)
  by_contra hopen
  obtain ⟨d, hd, -⟩ := hresolved
  exact absurd ((gone hopen).symm.trans hd) (by simp)

/-- **Every move keeps the prefix behind what is finished with**, if a rewind it starts has everything
before its target resolved. -/
theorem finished_move (m : Machine.Move consumer clock v es v') (hes : ∀ e ∈ es, StartsResolved e)
    (ho : Ordered consumer v) (h : Finished ps v) :
    Finished ((es.map Event.notice).foldl finishWith ps) v' := by
  cases m with
  | grow index kept later injective =>
    have hold : ∀ p ∈ index, ∀ q ∈ v.index, p ≤ q → p ∈ v.index := by
      intro p hp q hq hle
      by_contra hnew
      exact absurd (later p hp hnew q hq) (not_lt.mpr hle)
    refine ⟨fun p hp hpassed => ?_, fun p hp hresolved hwalk => ?_⟩
    · cases hr : v.resolvedThrough with
      | none => exact absurd (hr ▸ hpassed) not_passed_none
      | some r =>
        have hle : p ≤ r := by simpa [hr, passed_some] using hpassed
        exact h.passed p (hold p hp r (ho.resolved r hr) hle) hpassed
    · obtain ⟨d, hd, hdone⟩ := hresolved
      obtain ⟨hk, hin, -⟩ := ho.rows _ d hd
      obtain rfl := injective p hp d.position (kept hin) hk.symm
      exact h.resolved d.position hin ⟨d, hd, hdone⟩ hwalk
  | zero d row held counted =>
    refine h.rewrite ho _ (ho.rows _ d row).2.1 ?_
    simp only [OutboxDelivery.held, Bool.and_eq_true, Bool.not_eq_true'] at held
    exact held.1
  | lease p d steady indexed ahead filled free room leases =>
    refine h.rewrite ho _ (by rw [leases.position]; exact indexed) ?_
    simp [OutboxDelivery.resolved, OutboxDelivery.delivered, OutboxDelivery.deadLettered,
      leases.undelivered, leases.alive]
  | deadLetter d nowMs steady row free exhausted =>
    exact h.settle (e := { d with deadLetteredAtMs := some nowMs }) ho v.inflight steady
      (ho.rows _ d row).2.1
  | ack d nowMs time steady row unresolved valid ahead clear counted =>
    exact h.advance (e := { d with deliveredAtMs := some nowMs }) ho _ steady (ho.rows _ d row).2.1
      clear
  | reject d nowMs time steady row unresolved valid counted =>
    exact h.settle (e := rejected d nowMs) ho _ steady (ho.rows _ d row).2.1
  | supersede p nowMs steady indexed ahead clear free =>
    exact h.advance (e := superseded consumer p nowMs) ho v.inflight steady indexed clear
  | extend p steady indexed ahead clear resolved =>
    refine ⟨fun q hq hpassed => ?_, h.resolved⟩
    rcases (passed_some.mp hpassed).lt_or_eq with hlt | rfl
    · exact h.clear steady clear hq hlt
    · exact h.steady steady hq resolved
  | prune rows steady gone =>
    refine ⟨h.passed, fun p hp hresolved hwalk => ?_⟩
    exact h.resolved p hp (resolvedAt_gone (gone p.row) hresolved) hwalk
  | notePrune cursor complete position boundary => exact ⟨h.passed, h.resolved⟩
  | rewind target predecessor steady indexed splits =>
    have hstart := hes _ (List.mem_singleton_self _)
    refine ⟨fun p hp hpassed => ?_, fun p hp hresolved hwalk => ?_⟩
    · have hbefore := (splits p hp).mp hpassed
      refine List.mem_filter.mpr ⟨?_, hbefore⟩
      by_cases hold : Passed v.resolvedThrough p
      · exact h.passed p hp hold
      · exact h.steady steady hp (hstart p hp hbefore hold)
    · refine List.mem_filter.mpr ⟨h.steady steady hp hresolved, ?_⟩
      exact (splits p hp).mp (hwalk _ rfl)
  | sweep cursor rows next walking indexed ahead gone kept =>
    refine ⟨h.passed, fun p hp hresolved hwalk => ?_⟩
    exact h.swept walking hp (kept p.row)
      (fun hopen => gone p hp hopen (passed_some.mp (hwalk _ rfl))) hresolved
  | finishSweep cursor rows walking gone kept =>
    refine ⟨h.passed, fun p hp hresolved _ => ?_⟩
    exact h.swept walking hp (kept p.row) (gone p hp) hresolved

theorem finished_steps (s : Steps consumer clock v es v') (hes : ∀ e ∈ es, StartsResolved e)
    (ho : Ordered consumer v) (h : Finished ps v) :
    Finished ((es.map Event.notice).foldl finishWith ps) v' := by
  have hboth : Ordered consumer v' ∧ Finished ((es.map Event.notice).foldl finishWith ps) v' := by
    induction s with
    | refl => exact ⟨ho, h⟩
    | tail _ last ih =>
      obtain ⟨ho', h'⟩ := ih fun e he => hes e (List.mem_append_left _ he)
      refine ⟨ordered_move last ho', ?_⟩
      rw [List.map_append, List.foldl_append]
      exact finished_move last (fun e he => hes e (List.mem_append_right _ he)) ho' h'
  exact hboth.2

end

/-! ### Runs -/

def resolvedThroughOf (l : Ledger) (consumer : String) : Option OutboxPosition :=
  (l.claimCursors.get consumer).bind OutboxClaimCursor.resolvedThrough

/-- A rewind that starts has every event before its target and beyond the prefix resolved. -/
def RewindsResolved (l : Ledger) : KernelCall → Prop
  | .rewind consumer target _ => l.rewindCursors.get consumer = none →
      ∀ topic p, l.consumers.get consumer = some topic → positionExists l topic p = true →
        target.position.any (p < ·) = true → (resolvedThroughOf l consumer).all (· < p) = true →
        (deliveryAt l consumer p).any OutboxDelivery.resolved = true
  | _ => True

section
variable {owner : OwnedStoreHandle} {l : Ledger} {consumer : String} {ps : List OutboxPosition}

theorem startsResolved_of_serves {c : KernelCall} {es : List Event} {clock : ℕ}
    (hserves : Serves consumer clock (noticesOf owner consumer l c) es l (step owner l c))
    (hc : RewindsResolved l c) : ∀ e ∈ es, StartsResolved e := by
  intro e he
  cases e with
  | leased previous d => trivial
  | settled p => trivial
  | delivered p => trivial
  | rewound v target =>
    obtain ⟨rfl, t, nowMs, rfl, rfl, hnone⟩ := rewind_of_serves hserves he
    rintro p ⟨topic, htopic, hp⟩ hbefore hopen
    have hany := hc hnone topic p htopic hp hbefore (not_passed_iff.mp hopen)
    obtain ⟨d, hd, hresolved⟩ := (Option.any_eq_true _ _).mp hany
    exact ⟨d, by rw [view_get]; exact hd, hresolved⟩

theorem finished_run :
    ∀ (calls : List KernelCall) (l : Ledger) (ps : List OutboxPosition), Sound l →
      Finished ps (view l consumer) →
      Along (step owner) (fun l c => kernelPurges c = false ∧ RewindsResolved l c) l calls →
      Finished ((runNotices owner consumer l calls).foldl finishWith ps)
        (view (runKernel owner l calls) consumer)
  | [], _, _, _, h, _ => h
  | c :: cs, l, ps, hsound, h, ⟨⟨hpurge, hc⟩, hcs⟩ => by
    obtain ⟨es, hserves⟩ : ∃ es, Serves consumer 0 (noticesOf owner consumer l c) es l _ :=
      hsound.serves hpurge fun _ _ => Nat.zero_le _
    have hnext := finished_steps hserves.steps (startsResolved_of_serves hserves hc)
      (hsound.ordered consumer) h
    rw [hserves.notices] at hnext
    rw [runNotices, List.foldl_append]
    exact finished_run cs _ _ (hsound.after hpurge) hnext hcs

end

/-- **No outbox event is lost**, in every run without a purge in which every rewind that starts has the
events before its target resolved: each indexed event at or before the resolved prefix has been
acknowledged, superseded or dead-lettered since the last rewind that put it back. -/
theorem resolved_prefix_is_finished (owner : OwnedStoreHandle) (version : ℕ)
    (calls : List KernelCall) (consumer topic : String) (p q : OutboxPosition)
    (hcalls : Along (step owner) (fun l c => kernelPurges c = false ∧ RewindsResolved l c)
      (Ledger.bound version) calls)
    (htopic : (runKernel owner (Ledger.bound version) calls).consumers.get consumer = some topic)
    (hp : positionExists (runKernel owner (Ledger.bound version) calls) topic p = true)
    (hq : resolvedThroughOf (runKernel owner (Ledger.bound version) calls) consumer = some q)
    (hle : p ≤ q) : p ∈ finished (runNotices owner consumer (Ledger.bound version) calls) := by
  have hstart : Finished [] (view (Ledger.bound version) consumer) := by
    refine ⟨?_, ?_⟩
    · rintro p ⟨topic, ht, -⟩
      cases ht
    · rintro p ⟨topic, ht, -⟩
      cases ht
  have hfinished := finished_run calls _ [] (sound_bound version) hstart hcalls
  refine hfinished.passed p ⟨topic, htopic, hp⟩ ?_
  rw [show (view _ consumer).resolvedThrough = some q from hq]
  exact passed_some.mpr hle

theorem resolved_prefix_is_finished_sample :
    Along (step sampleOwner) (fun l c => kernelPurges c = false ∧ RewindsResolved l c)
        (Ledger.bound 0) (leasedRun ++ [.ack sampleLease 1]) ∧
      samplePosition 0 ∈ finished (runNotices sampleOwner "reader" (Ledger.bound 0)
        (leasedRun ++ [.ack sampleLease 1])) := by
  have hcalls : Along (step sampleOwner) (fun l c => kernelPurges c = false ∧ RewindsResolved l c)
      (Ledger.bound 0) (leasedRun ++ [.ack sampleLease 1]) :=
    ⟨⟨rfl, trivial⟩, ⟨rfl, trivial⟩, ⟨rfl, trivial⟩, ⟨rfl, trivial⟩, trivial⟩
  have hstate : (runKernel sampleOwner (Ledger.bound 0)
        (leasedRun ++ [.ack sampleLease 1])).consumers.get "reader" = some "topic" ∧
      positionExists (runKernel sampleOwner (Ledger.bound 0)
        (leasedRun ++ [.ack sampleLease 1])) "topic" (samplePosition 0) = true ∧
      resolvedThroughOf (runKernel sampleOwner (Ledger.bound 0)
        (leasedRun ++ [.ack sampleLease 1])) "reader" = some (samplePosition 0) := by
    decide +kernel
  exact ⟨hcalls, resolved_prefix_is_finished sampleOwner 0 _ "reader" "topic" _ _ hcalls hstate.1
    hstate.2.1 hstate.2.2 le_rfl⟩

/-- The reader is rewound to the second event while the first is only leased: the prefix then passes an
event that was never finished. -/
theorem event_lost_by_rewind : (∀ c ∈ forwardRun, kernelPurges c = false) ∧
      (runKernel sampleOwner (Ledger.bound 0) forwardRun).rewindCursors.get "reader" = none ∧
      (runKernel sampleOwner (Ledger.bound 0) forwardRun).consumers.get "reader" = some "topic" ∧
      positionExists (runKernel sampleOwner (Ledger.bound 0) forwardRun) "topic"
        (samplePosition 0) = true ∧
      resolvedThroughOf (runKernel sampleOwner (Ledger.bound 0) forwardRun) "reader" =
        some (samplePosition 0) ∧
      samplePosition 0 ∉ finished (runNotices sampleOwner "reader" (Ledger.bound 0) forwardRun) := by
  decide +kernel

end Medulla.Outbox.NoLoss
