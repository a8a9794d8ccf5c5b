import Mathlib.Data.List.Nodup
import Medulla.Outbox.Views

/-! # The delivery operations refine the machine

Each delivery operation but the claim is a sequence of moves of its consumer's view, with the events
an observer sees. -/

namespace Medulla.Outbox.Refinement

open Library.Checked Types.Batch Types.Records Mutation.State Outbox.Index Rows Claim
open Cursor Rewind Machine Views Frames
open Library.OrderedTable (Table)

variable {identity : MutationScopeIdentity} {consumer topic : String} {clock nowMs : ℕ}
  {lease : MutationOutboxLease} {l l' : Ledger} {p : OutboxPosition} {d : OutboxDelivery}
  {cursor : MutationProjectionCursor} {claimCursor : OutboxClaimCursor}
  {after predecessor : Option OutboxPosition} {limit : ℕ} {target : OutboxRewindTarget}
  {receipt : MutationProjectionCursor}

/-! ### Positions and leases -/

theorem validatePosition_ok {u : Unit} (h : validatePosition topic identity p l = .ok u) :
    positionExists l topic p = true := by
  unfold validatePosition at h
  simp only [bind_eq_ok, require_eq_ok] at h
  obtain ⟨_, -, _, -, hexists⟩ := h
  exact hexists

structure Named (lease : MutationOutboxLease) (l : Ledger) (d : OutboxDelivery) : Prop where
  row : l.deliveries.get ⟨lease.consumer, leaseKey lease⟩ = some d
  consumer : d.consumer = lease.consumer
  key : d.position.row = leaseKey lease
  indexed : d.position ∈ indexOf l lease.consumer

theorem Named.get (h : Named lease l d) :
    (view l lease.consumer).rows.get d.position.row = some d := by
  rw [view_get]
  unfold deliveryAt
  rw [h.key]
  exact h.row

theorem readDelivery_ok (h : readDelivery identity lease l = .ok d) : Named lease l d := by
  unfold readDelivery validateDeliveryEvent at h
  simp only [bind_eq_ok, okOr_eq_ok, require_eq_ok, mapError_eq_ok, pure_eq_ok] at h
  obtain ⟨_, hrow, _, ⟨hconsumer, hkey⟩, topic, htopic, _, hposition, rfl⟩ := h
  exact ⟨hrow, hconsumer, hkey,
    (mem_indexOf (subscribedTopic_ok htopic)).mpr (validatePosition_ok hposition)⟩

theorem prepareDeliveryOp_ok {op : String} (h : prepareDeliveryOp identity lease op l = .ok d) :
    Named lease l d ∧ (view l lease.consumer).rewinding = none := by
  unfold prepareDeliveryOp at h
  simp only [bind_eq_ok] at h
  obtain ⟨_, -, _, -, _, -, _, -, _, hsteady, hread⟩ := h
  exact ⟨readDelivery_ok hread, refuseIfRewindPending_ok hsteady⟩

/-- **What a lease that is accepted proves**: its epoch is the row's, the row is not dead, and the
row is delivered already or still held until the lease's own end. -/
theorem resolveDelivered_ok {current r : Option MutationProjectionCursor}
    (h : resolveDelivered d lease current nowMs = .ok r) :
    d.consumer = lease.consumer ∧ d.leaseEpoch = lease.leaseEpoch ∧ d.deadLettered = false ∧
      ((d.delivered = true ∧ r.isSome = true) ∨
        (d.delivered = false ∧ r = none ∧ nowMs < d.leaseUntilMs ∧
          d.leaseUntilMs = lease.leaseUntilMs)) := by
  unfold resolveDelivered at h
  split_ifs at h with h1 h2 h3 h4
  · obtain ⟨hconsumer, hepoch⟩ := not_or.mp h1
    refine ⟨not_not.mp hconsumer, not_not.mp hepoch, by simpa using h2, Or.inl ⟨h3, ?_⟩⟩
    cases hc : cursorNames current lease with
    | none => simp [hc] at h
    | some cursor =>
      simp only [hc] at h
      rw [← Except.ok.inj h]
      rfl
  · obtain ⟨hconsumer, hepoch⟩ := not_or.mp h1
    obtain ⟨hlive, hsame⟩ := not_or.mp h4
    exact ⟨not_not.mp hconsumer, not_not.mp hepoch, by simpa using h2,
      Or.inr ⟨by simpa using h3, (Except.ok.inj h).symm, not_le.mp hlive, not_not.mp hsame⟩⟩

theorem resolved_eq_false (hdead : d.deadLettered = false) (hdelivered : d.delivered = false) :
    d.resolved = false := by
  simp [OutboxDelivery.resolved, hdead, hdelivered]

/-! ### Gaps -/

theorem scanEarlierGap_ok {acked : Option OutboxPosition} {target : OutboxPosition} :
    ∀ {ps : List OutboxPosition},
      scanEarlierGap topic identity consumer acked target l ps = .ok true →
      ∃ before rest, ps = before ++ target :: rest ∧ ∀ q ∈ before, (view l consumer).ResolvedAt q
  | [], h => by
    cases Except.ok.inj h
  | p :: ps, h => by
    obtain ⟨_, -, h⟩ := unbind h
    split_ifs at h with hp
    · obtain rfl : p = target := of_decide_eq_true (pure_eq_ok.mp h)
      exact ⟨[], ps, rfl, fun q hq => absurd hq List.not_mem_nil⟩
    · cases hd : deliveryAt l consumer p with
      | none => simp [hd] at h
      | some d =>
        simp only [hd, bind_eq_ok, require_eq_ok] at h
        obtain ⟨_, -, _, hresolved, h⟩ := h
        obtain ⟨before, rest, rfl, hbefore⟩ := scanEarlierGap_ok h
        refine ⟨p :: before, rest, rfl, fun q hq => ?_⟩
        rcases List.mem_cons.mp hq with rfl | hq
        · exact ⟨d, by rw [view_get]; exact hd, hresolved⟩
        · exact hbefore q hq

/-- **A gap check that passes**: the event is ahead of the resolved prefix, and everything between is
resolved. -/
theorem requireNoEarlierGap_ok {cursor : OutboxClaimCursor} {u : Unit}
    (hcursor : (view l consumer).resolvedThrough = cursor.resolvedThrough)
    (h : requireNoEarlierGap identity consumer cursor p l = .ok u) :
    p ∈ (view l consumer).index ∧ ¬ Passed (view l consumer).resolvedThrough p ∧
      (view l consumer).Clear p := by
  unfold requireNoEarlierGap at h
  simp only [bind_eq_ok, require_eq_ok] at h
  obtain ⟨topic, htopic, reached, hscan, rfl⟩ := h
  have hconsumer := subscribedTopic_ok htopic
  obtain ⟨before, rest, hpage, hbefore⟩ := scanEarlierGap_ok hscan
  have hp : p ∈ positionsAfter l topic cursor.resolvedThrough := by
    refine List.mem_of_mem_take (i := maxClaimScanRows) ?_
    rw [show (positionsAfter l topic cursor.resolvedThrough).take maxClaimScanRows = _ from hpage]
    exact List.mem_append_right _ (.head _)
  obtain ⟨hexists, hahead⟩ := mem_positionsAfter.mp hp
  refine ⟨(mem_indexOf hconsumer).mpr hexists, by rw [hcursor]; exact hahead, ?_⟩
  intro q hq hlt hopen
  rw [hcursor] at hopen
  have hq' : q ∈ positionsAfter l topic cursor.resolvedThrough :=
    mem_positionsAfter.mpr ⟨(mem_indexOf hconsumer).mp hq, hopen⟩
  exact hbefore q (mem_before_of_lt positionsAfter_sorted hpage hq' hlt)

theorem advanceClaimCursor_resolved {cursor : OutboxClaimCursor}
    (h : ¬ Passed cursor.resolvedThrough p) :
    (advanceClaimCursor cursor p).resolvedThrough = some p := by
  simp [advanceClaimCursor, not_passed_iff.mp h]

/-! ### Acknowledging -/

def ackSettles (identity : MutationScopeIdentity) (lease : MutationOutboxLease) (nowMs : ℕ)
    (l : Ledger) : List OutboxPosition :=
  match prepareAck identity lease nowMs l with
  | .ok (.advance d _ _) => [d.position]
  | _ => []

theorem prepareAck_advance
    (h : prepareAck identity lease nowMs l = .ok (.advance d cursor claimCursor)) :
    Named lease l d ∧ (view l lease.consumer).rewinding = none ∧ d.resolved = false ∧
      d.leaseEpoch = lease.leaseEpoch ∧ nowMs < d.leaseUntilMs ∧
      d.leaseUntilMs = lease.leaseUntilMs ∧
      ¬ Passed (view l lease.consumer).resolvedThrough d.position ∧
      (view l lease.consumer).Clear d.position ∧
      claimCursor.resolvedThrough = some d.position := by
  unfold prepareAck at h
  simp only [bind_eq_ok] at h
  obtain ⟨d', hop, _, -, current, -, r, hresolve, h⟩ := h
  cases r with
  | some replayed => simp at h
  | none =>
    simp only [bind_eq_ok] at h
    obtain ⟨claim, hclaim, topic, -, _, -, _, -, _, -, _, hgap, _, -, _, -, rfl, -, rfl⟩ := h
    obtain ⟨hnamed, hsteady⟩ := prepareDeliveryOp_ok hop
    obtain ⟨-, hepoch, hdead, ⟨-, hnone⟩ | ⟨hdelivered, -, hlive, hsame⟩⟩ :=
      resolveDelivered_ok hresolve
    · cases hnone
    · have hresolved := (readClaimCursor_ok hclaim).2
      obtain ⟨-, hahead, hclear⟩ := requireNoEarlierGap_ok hresolved hgap
      refine ⟨hnamed, hsteady, resolved_eq_false hdead hdelivered, hepoch, hlive, hsame, hahead,
        hclear, ?_⟩
      exact advanceClaimCursor_resolved (by rw [← hresolved]; exact hahead)

theorem view_commitAck : view (commitAck consumer d cursor claimCursor nowMs l) consumer =
      { (view l consumer).put { d with deliveredAtMs := some nowMs } with
        resolvedThrough := claimCursor.resolvedThrough } := by
  unfold commitAck
  rw [view_writeClaimCursor]
  exact View.ext rfl (deliveriesOf_putDelivery _) rfl rfl rfl rfl

theorem recordDelivered_ok (h : recordDelivered consumer l = .ok l') :
    1 ≤ (view l consumer).inflight ∧
      view l' consumer = { view l consumer with inflight := (view l consumer).inflight - 1 } ∧
      Elsewhere consumer l l' := by
  unfold recordDelivered at h
  simp only [bind_eq_ok, okOr_eq_ok, checkedSub_eq_some, pure_eq_ok] at h
  obtain ⟨state, hstate, _, -, _, ⟨hcounted, rfl⟩, rfl⟩ := h
  obtain ⟨-, hinflight, -⟩ := readConsumerState_ok hstate
  rw [hinflight]
  exact ⟨hcounted, view_writeConsumerState _, elsewhere_writeConsumerState _⟩

/-- **An acknowledgement** writes nothing, or resolves the row of its lease. -/
theorem ack_delivers (hclock : clock ≤ nowMs) (h : ack identity lease nowMs l = .ok (cursor, l')) :
    Delivers lease.consumer clock ((ackSettles identity lease nowMs l).map .delivered) l l' := by
  obtain ⟨prepared, hprepare, h⟩ := unbind h
  unfold ackSettles
  rw [hprepare]
  cases prepared with
  | replayed replay =>
    rw [← (Prod.mk.inj (pure_eq_ok.mp h)).2]
    exact Delivers.refl _ _ _
  | advance d cursor' claimCursor =>
    obtain ⟨l₁, hrecord, h⟩ := unbind h
    obtain ⟨-, rfl⟩ := Prod.mk.inj (pure_eq_ok.mp h)
    obtain ⟨hnamed, hsteady, hunresolved, -, hlive, -, hahead, hclear, hcursor⟩ :=
      prepareAck_advance hprepare
    obtain ⟨hcounted, hview, helse⟩ := recordDelivered_ok hrecord
    rw [view_commitAck] at hcounted hview
    refine ⟨?_, ?_⟩
    · rw [hview, hcursor]
      exact .single (.ack d nowMs hclock hsteady hnamed.get hunresolved hlive hahead hclear hcounted)
    · unfold commitAck at helse
      exact ((elsewhere_putDelivery _).trans (elsewhere_writeClaimCursor _)).trans helse

/-! ### Rejecting -/

def rejectSettles (identity : MutationScopeIdentity) (lease : MutationOutboxLease) (nowMs : ℕ)
    (l : Ledger) : List OutboxPosition :=
  match prepareReject identity lease nowMs l with
  | .ok d => [d.position]
  | .error _ => []

theorem prepareReject_ok (h : prepareReject identity lease nowMs l = .ok d) :
    Named lease l d ∧ (view l lease.consumer).rewinding = none ∧ d.resolved = false ∧
      d.leaseEpoch = lease.leaseEpoch ∧ nowMs < d.leaseUntilMs ∧
      d.leaseUntilMs = lease.leaseUntilMs := by
  unfold prepareReject at h
  simp only [bind_eq_ok, require_eq_ok, pure_eq_ok] at h
  obtain ⟨d', hop, _, -, current, -, r, hresolve, _, rfl, claim, -, _, -, rfl⟩ := h
  obtain ⟨hnamed, hsteady⟩ := prepareDeliveryOp_ok hop
  obtain ⟨-, hepoch, hdead, ⟨-, hnone⟩ | ⟨hdelivered, -, hlive, hsame⟩⟩ :=
    resolveDelivered_ok hresolve
  · cases hnone
  · exact ⟨hnamed, hsteady, resolved_eq_false hdead hdelivered, hepoch, hlive, hsame⟩

theorem recordDeadLetter_ok {state state' : OutboxConsumerState} {held : Bool}
    (h : recordDeadLetter state held = .ok state') :
    (held = true → 1 ≤ state.inflight) ∧
      state'.inflight = state.inflight - (if held then 1 else 0) := by
  unfold recordDeadLetter dropLease at h
  obtain ⟨inflight, hdrop, h⟩ := unbind h
  obtain ⟨dead, -, h⟩ := unbind h
  rw [← pure_eq_ok.mp h]
  cases held with
  | true =>
    simp only [if_true, okOr_eq_ok, checkedSub_eq_some] at hdrop
    exact ⟨fun _ => hdrop.1, hdrop.2.symm⟩
  | false => exact ⟨fun hfalse => absurd hfalse (by simp), by simpa using hdrop.symm⟩

/-- **A rejection** dead-letters the row of its lease. -/
theorem reject_delivers (hclock : clock ≤ nowMs) (h : reject identity lease nowMs l = .ok l') :
    Delivers lease.consumer clock ((rejectSettles identity lease nowMs l).map .settled) l l' := by
  unfold reject at h
  simp only [bind_eq_ok, pure_eq_ok] at h
  obtain ⟨d, hprepare, state, hstate, state', hdead, rfl⟩ := h
  unfold rejectSettles
  rw [hprepare]
  obtain ⟨hnamed, hsteady, hunresolved, -, hlive, -⟩ := prepareReject_ok hprepare
  obtain ⟨-, hinflight, -⟩ := readConsumerState_ok hstate
  obtain ⟨hcounted, hafter⟩ := recordDeadLetter_ok hdead
  have hbefore : (view l lease.consumer).inflight = state.inflight := by
    rw [← hinflight]
    rfl
  refine ⟨?_, (elsewhere_putDelivery _).trans (elsewhere_writeConsumerState _)⟩
  rw [view_writeConsumerState, view_putDelivery, hafter, ← hbefore]
  exact .single (.reject d nowMs hclock hsteady hnamed.get hunresolved hlive
    (by rw [hbefore]; exact hcounted rfl))

/-! ### Releasing and expiring -/

theorem putDelivery_same (h : (view l consumer).rows.get d.position.row = some d) :
    view (putDelivery consumer d l) consumer = view l consumer := by
  rw [view_putDelivery]
  refine View.ext rfl (Table.ext_get fun k => ?_) rfl rfl rfl rfl
  rw [View.put, Table.get_insert]
  split_ifs with hk
  · rw [hk]
    exact h.symm
  · rfl

theorem releaseInflight_ok {n : ℕ} (h : releaseInflight consumer n l = .ok l') :
    n ≤ (view l consumer).inflight ∧
      view l' consumer = { view l consumer with inflight := (view l consumer).inflight - n } ∧
      Elsewhere consumer l l' := by
  unfold releaseInflight at h
  simp only [bind_eq_ok, okOr_eq_ok, checkedSub_eq_some, pure_eq_ok] at h
  obtain ⟨state, hstate, _, ⟨hcounted, rfl⟩, _, -, rfl⟩ := h
  obtain ⟨-, hinflight, -⟩ := readConsumerState_ok hstate
  rw [hinflight]
  exact ⟨hcounted, view_writeConsumerState _, elsewhere_writeConsumerState _⟩

/-- **A release** zeroes the lease it names, if it is not zero already. -/
theorem release_delivers (h : release identity lease l = .ok l') :
    Delivers lease.consumer clock [] l l' := by
  unfold release validateDeliveryEvent at h
  simp only [bind_eq_ok, okOr_eq_ok, require_eq_ok] at h
  obtain ⟨_, -, _, -, _, -, d, hrow, _, ⟨-, hkey⟩, topic, -, _, -, _, -, cursor, -, _, -, _, -, _,
    hunresolved, _, -, h⟩ := h
  have hget : (view l lease.consumer).rows.get d.position.row = some d := by
    rw [view_get, deliveryAt, hkey]
    exact hrow
  split_ifs at h with huntil
  · obtain ⟨hcounted, hview, helse⟩ := releaseInflight_ok h
    rw [view_putDelivery] at hcounted hview
    refine ⟨?_, (elsewhere_putDelivery _).trans helse⟩
    rw [hview]
    refine .single (.zero d hget ?_ hcounted)
    simp [OutboxDelivery.held, hunresolved, huntil.ne']
  · have hsame : { d with leaseUntilMs := 0 } = d := by
      cases d
      simp only [Nat.not_lt, Nat.le_zero] at huntil
      rw [huntil]
    rw [hsame] at h
    rw [← pure_eq_ok.mp h]
    refine ⟨?_, elsewhere_putDelivery _⟩
    rw [putDelivery_same hget]
    exact .refl _

theorem release_row (h : release identity lease l = .ok l') (d : OutboxDelivery)
    (hd : l'.deliveries.get ⟨lease.consumer, leaseKey lease⟩ = some d) :
    d.resolved = false ∧ d.leaseUntilMs = 0 := by
  unfold release validateDeliveryEvent at h
  simp only [bind_eq_ok, require_eq_ok] at h
  obtain ⟨_, -, _, -, _, -, e, -, _, ⟨-, hkey⟩, topic, -, _, -, _, -, cursor, -, _, -, _, -, _,
    hunresolved, _, -, h⟩ := h
  have hrow : ∀ {l₁ : Ledger}, l₁.deliveries = (putDelivery lease.consumer
      { e with leaseUntilMs := 0 } l).deliveries →
      l₁.deliveries.get ⟨lease.consumer, leaseKey lease⟩ = some { e with leaseUntilMs := 0 } := by
    intro l₁ heq
    rw [heq, ← hkey]
    exact Table.get_insert_self _ _ _
  have hkept : l'.deliveries.get ⟨lease.consumer, leaseKey lease⟩ =
      some { e with leaseUntilMs := 0 } := by
    split_ifs at h with huntil
    · refine hrow ?_
      unfold releaseInflight at h
      simp only [bind_eq_ok, pure_eq_ok] at h
      obtain ⟨state, -, _, -, _, -, rfl⟩ := h
      rfl
    · rw [← pure_eq_ok.mp h]
      exact hrow rfl
  rw [hkept] at hd
  rw [← Option.some.inj hd]
  exact ⟨hunresolved, rfl⟩

theorem isExpired_held (h : isExpired d nowMs = true) : d.held = true := by
  simp only [isExpired, Bool.and_eq_true] at h
  simp only [OutboxDelivery.held, Bool.and_eq_true]
  exact h.1

theorem expiredDeliveries_ok {acked : Option OutboxPosition} :
    ∀ {ps : List OutboxPosition} {ds : List OutboxDelivery},
      expiredDeliveries consumer acked nowMs l ps = .ok ds →
      (ds.map OutboxDelivery.position).Sublist ps ∧
        (∀ d ∈ ds, deliveryAt l consumer d.position = some d ∧ isExpired d nowMs = true) ∧
        ∀ p ∈ ps, ∀ d, deliveryAt l consumer p = some d →
          d.position = p ∧ (isExpired d nowMs = true → d ∈ ds)
  | [], _, h => by
    rw [← Except.ok.inj h]
    exact ⟨List.Sublist.refl _, fun d hd => absurd hd List.not_mem_nil,
      fun p hp => absurd hp List.not_mem_nil⟩
  | p :: ps, ds, h => by
    unfold expiredDeliveries at h
    cases hd : deliveryAt l consumer p with
    | none =>
      simp only [hd] at h
      obtain ⟨hsub, hall, hevery⟩ := expiredDeliveries_ok h
      refine ⟨hsub.cons p, hall, fun q hq e he => ?_⟩
      rcases List.mem_cons.mp hq with rfl | hq
      · rw [hd] at he
        cases he
      · exact hevery q hq e he
    | some d =>
      simp only [hd, validateExistingDelivery, validateDeliveryKey, bind_eq_ok, require_eq_ok,
        pure_eq_ok] at h
      obtain ⟨_, ⟨_, ⟨-, hposition⟩, -⟩, rest, hrest, h⟩ := h
      obtain ⟨hsub, hall, hevery⟩ := expiredDeliveries_ok hrest
      split_ifs at h with hexpired
      · subst h
        refine ⟨?_, fun e he => ?_, fun q hq e he => ?_⟩
        · rw [List.map_cons, hposition]
          exact hsub.cons_cons p
        · rcases List.mem_cons.mp he with rfl | he
          · exact ⟨by rw [hposition]; exact hd, hexpired⟩
          · exact hall e he
        · rcases List.mem_cons.mp hq with rfl | hq
          · rw [hd] at he
            obtain rfl := Option.some.inj he
            exact ⟨hposition, fun _ => .head _⟩
          · exact ⟨(hevery q hq e he).1, fun h => .tail _ ((hevery q hq e he).2 h)⟩
      · subst h
        refine ⟨hsub.cons p, hall, fun q hq e he => ?_⟩
        rcases List.mem_cons.mp hq with rfl | hq
        · rw [hd] at he
          obtain rfl := Option.some.inj he
          exact ⟨hposition, fun h => absurd h hexpired⟩
        · exact hevery q hq e he

theorem zeroLeases_steps : ∀ (ds : List OutboxDelivery) (l : Ledger) (n : ℕ),
      (∀ d ∈ ds, deliveryAt l consumer d.position = some d ∧ d.held = true) →
      (ds.map fun d => d.position.row).Nodup → ds.length ≤ n →
      Steps consumer clock { view l consumer with inflight := n } []
        { view (zeroLeases consumer ds l) consumer with inflight := n - ds.length }
  | [], l, n, _, _, _ => .refl _
  | d :: ds, l, n, hrows, hnodup, hlen => by
    obtain ⟨hd, hheld⟩ := hrows d (.head _)
    rw [List.map_cons, List.nodup_cons] at hnodup
    rw [List.length_cons] at hlen
    have hfirst : Steps consumer clock { view l consumer with inflight := n } []
        { view (putDelivery consumer { d with leaseUntilMs := 0 } l) consumer with
          inflight := n - 1 } := by
      rw [view_putDelivery]
      exact .single (.zero (v := { view l consumer with inflight := n }) d
        (by rw [← hd]; exact view_get l consumer d.position) hheld (by simp only; omega))
    have hrest : ∀ e ∈ ds, deliveryAt (putDelivery consumer { d with leaseUntilMs := 0 } l)
        consumer e.position = some e ∧ e.held = true := by
      intro e he
      obtain ⟨hrow, hheld'⟩ := hrows e (.tail _ he)
      refine ⟨?_, hheld'⟩
      have hne : e.position.row ≠ d.position.row := by
        intro heq
        exact hnodup.1 (List.mem_map.mpr ⟨e, he, heq⟩)
      rw [← view_get, view_putDelivery, View.put, Table.get_insert_of_ne _ _ hne, view_get]
      exact hrow
    have htail := zeroLeases_steps ds _ (n - 1) hrest hnodup.2 (by omega)
    have hall := hfirst.trans htail
    rw [Nat.sub_sub, Nat.add_comm 1] at hall
    exact hall

theorem rows_nodup {ps : List OutboxPosition} {ds : List OutboxDelivery}
    (hinjective : RowInjective (indexOf l consumer)) (hps : ∀ p ∈ ps, p ∈ indexOf l consumer)
    (hnodup : ps.Nodup) (hsub : (ds.map OutboxDelivery.position).Sublist ps) :
    (ds.map fun d => d.position.row).Nodup := by
  have hpositions : (ds.map OutboxDelivery.position).Nodup := hnodup.sublist hsub
  have hmap : (ds.map fun d => d.position.row) =
      (ds.map OutboxDelivery.position).map OutboxPosition.row := by
    rw [List.map_map]
    rfl
  rw [hmap]
  refine List.Nodup.map_on (fun p hp q hq => ?_) hpositions
  exact hinjective p (hps p (hsub.subset hp)) q (hps q (hsub.subset hq))

theorem scanValidatedPage_ok {page : IndexPage}
    (h : scanValidatedPage topic identity after limit l = .ok page) :
    page = scanInWrite topic after limit l := by
  obtain ⟨_, -, h⟩ := unbind h
  exact (pure_eq_ok.mp h).symm

theorem scanned_indexed (hconsumer : l.consumers.get consumer = some topic) :
    ∀ p ∈ (scanInWrite topic after limit l).entries, p ∈ indexOf l consumer := by
  intro p hp
  have hmem := List.mem_of_mem_take hp
  exact (mem_indexOf hconsumer).mpr (mem_positionsAfter.mp hmem).1

theorem scanned_nodup : (scanInWrite topic after limit l).entries.Nodup := by
  have hsorted : (positionsAfter l topic after).Pairwise (· < ·) := positionsAfter_sorted
  exact (hsorted.imp fun h => h.ne).sublist (List.take_sublist _ _)

/-- **An expiry** zeroes expired leases and moves its resume point. -/
theorem expire_delivers {n : ℕ} (hinjective : RowInjective (indexOf l consumer))
    (h : expire identity consumer nowMs l = .ok (n, l')) : Delivers consumer clock [] l l' := by
  unfold expire at h
  simp only [bind_eq_ok] at h
  obtain ⟨_, -, _, -, topic, htopic, _, -, cursor, -, _, -, _, -, page, hpage, h⟩ := h
  have hconsumer := subscribedTopic_ok htopic
  obtain rfl := scanValidatedPage_ok hpage
  split at h
  · rw [← (Prod.mk.inj (pure_eq_ok.mp h)).2]
    exact ⟨.refl _, fun _ _ => rfl⟩
  · simp only [bind_eq_ok] at h
    obtain ⟨stale, hstale, l₁, hrelease, h⟩ := h
    rw [← (Prod.mk.inj (pure_eq_ok.mp h)).2]
    obtain ⟨hsub, hrows, -⟩ := expiredDeliveries_ok hstale
    obtain ⟨hcounted, hview, helse⟩ := releaseInflight_ok hrelease
    have hinflight : (view (zeroLeases consumer stale l) consumer).inflight =
        (view l consumer).inflight := by
      rw [zeroLeases_frame]
      rfl
    have hsteps : Steps consumer clock (view l consumer) []
        { view (zeroLeases consumer stale l) consumer with
          inflight := (view l consumer).inflight - stale.length } :=
      zeroLeases_steps stale l (view l consumer).inflight
        (fun d hd => ⟨(hrows d hd).1, isExpired_held (hrows d hd).2⟩)
        (rows_nodup hinjective (scanned_indexed hconsumer) scanned_nodup hsub)
        (by rw [← hinflight]; exact hcounted)
    refine ⟨?_, (elsewhere_zeroLeases _ _).trans helse⟩
    change Steps consumer clock (view l consumer) [] (view l₁ consumer)
    rw [hview, hinflight]
    exact hsteps

/-! ### Superseding -/

def supersedeSettles (consumer : String) (expected : MutationOutboxRecord) (l : Ledger) :
    List OutboxPosition :=
  match sourcePosition expected with
  | .error _ => []
  | .ok p => if (deliveryAt l consumer p).any OutboxDelivery.delivered then [] else [p]

theorem subscribe_delivers
    (hinjective : ∀ t, RowInjective { p | positionExists l t p = true })
    (h : subscribeIn consumer topic l = .ok l') :
    Delivers consumer clock [] l l' ∧ l'.deliveries = l.deliveries ∧
      l'.consumers.get consumer = some topic ∧
      ∀ t p, positionExists l' t p = positionExists l t p := by
  rcases (subscribeIn_ok h).2 with ⟨hc, rfl⟩ | ⟨hc, rfl⟩
  · exact ⟨Delivers.refl _ _ _, rfl, hc, fun _ _ => rfl⟩
  · refine ⟨⟨?_, elsewhere_consumers⟩, rfl, Table.get_insert_self _ _ _, fun _ _ => rfl⟩
    have hempty : ∀ p, p ∉ (view l consumer).index := by
      rintro p ⟨t, ht, -⟩
      rw [hc] at ht
      cases ht
    have hindex : indexOf { l with consumers := l.consumers.insert consumer topic } consumer =
        { p | positionExists l topic p = true } := by
      ext p
      exact mem_indexOf (Table.get_insert_self _ _ _)
    refine .single (Move.grow
      (indexOf { l with consumers := l.consumers.insert consumer topic } consumer) ?_ ?_ ?_)
    · intro p hp
      exact absurd hp (hempty p)
    · intro p _ _ q hq
      exact absurd hq (hempty q)
    · rw [hindex]
      exact hinjective topic

theorem deliveries_subscribeIn (h : subscribeIn consumer topic l = .ok l') :
    l'.deliveries = l.deliveries := by
  rcases (subscribeIn_ok h).2 with ⟨-, rfl⟩ | ⟨-, rfl⟩
  · rfl
  · rfl

theorem subscribeIn_rewinding (h : subscribeIn consumer topic l = .ok l') :
    l'.rewindCursors = l.rewindCursors := by
  rcases (subscribeIn_ok h).2 with ⟨-, rfl⟩ | ⟨-, rfl⟩
  · rfl
  · rfl

theorem recordSuperseded_ok {held : Bool} (h : recordSuperseded consumer held l = .ok l') :
    (held = true → 1 ≤ (view l consumer).inflight) ∧ view l' consumer = { view l consumer with
        inflight := (view l consumer).inflight - (if held then 1 else 0) } ∧
      Elsewhere consumer l l' := by
  unfold recordSuperseded dropLease at h
  obtain ⟨state, hstate, h⟩ := unbind h
  obtain ⟨delivered, -, h⟩ := unbind h
  obtain ⟨inflight, hdrop, h⟩ := unbind h
  rw [← pure_eq_ok.mp h]
  obtain ⟨-, hinflight, -⟩ := readConsumerState_ok hstate
  rw [hinflight, view_writeConsumerState]
  cases held with
  | true =>
    simp only [if_true, okOr_eq_ok, checkedSub_eq_some] at hdrop
    exact ⟨fun _ => hdrop.1, by rw [← hdrop.2]; rfl, elsewhere_writeConsumerState _⟩
  | false =>
    simp only [Bool.false_eq_true, if_false, Except.ok.injEq] at hdrop
    exact ⟨fun hfalse => absurd hfalse (by simp), by rw [← hdrop]; rfl,
      elsewhere_writeConsumerState _⟩

theorem supersedeRow_delivers {expected : MutationOutboxRecord} {previous : Option OutboxDelivery}
    (hsteady : (view l consumer).rewinding = none)
    (hclaim : (view l consumer).resolvedThrough = claimCursor.resolvedThrough)
    (hprevious : deliveryAt l consumer p = previous)
    (hopen : ∀ d, previous = some d → d.position = p ∧ d.resolved = false)
    (h : supersedeRow identity consumer expected p claimCursor previous nowMs l =
      .ok (receipt, l')) : Delivers consumer clock [.delivered p] l l' := by
  unfold supersedeRow at h
  simp only [bind_eq_ok] at h
  obtain ⟨_, -, _, hgap, cursor, -, l₁, hrecord, h⟩ := h
  obtain ⟨-, rfl⟩ := Prod.mk.inj (pure_eq_ok.mp h)
  obtain ⟨hindexed, hahead, hclear⟩ := requireNoEarlierGap_ok hclaim hgap
  obtain ⟨hcounted, hview, helse⟩ := recordSuperseded_ok hrecord
  have hwritten : view (writeClaimCursor consumer (advanceClaimCursor claimCursor p)
      { putDelivery consumer (superseded consumer p nowMs) l with
        cursors := (putDelivery consumer (superseded consumer p nowMs) l).cursors.insert consumer
          cursor }) consumer =
      { (view l consumer).put (superseded consumer p nowMs) with resolvedThrough := some p } := by
    rw [view_writeClaimCursor, advanceClaimCursor_resolved (by rw [← hclaim]; exact hahead)]
    exact View.ext rfl (deliveriesOf_putDelivery _) rfl rfl rfl rfl
  rw [hwritten] at hcounted hview
  have hget : (view l consumer).rows.get p.row = previous := by
    rw [view_get]
    exact hprevious
  refine ⟨?_, ((elsewhere_putDelivery _).trans (elsewhere_writeClaimCursor _)).trans helse⟩
  rw [hview]
  by_cases hheld : (previous.any fun d => d.leaseUntilMs ≠ 0) = true
  · -- the lease comes off first, then the row is free
    obtain ⟨d, rfl, huntil⟩ : ∃ d, previous = some d ∧ decide (d.leaseUntilMs ≠ 0) = true := by
      cases previous with
      | none => simp at hheld
      | some d => exact ⟨d, rfl, hheld⟩
    obtain ⟨hposition, hunresolved⟩ := hopen d rfl
    have hzero : Steps consumer clock (view l consumer) []
        { (view l consumer).put { d with leaseUntilMs := 0 } with
          inflight := (view l consumer).inflight - 1 } := by
      refine .single (.zero d (by rw [hposition]; exact hget) ?_ (hcounted hheld))
      simp only [OutboxDelivery.held, hunresolved]
      exact huntil
    have hsettle : Steps consumer clock
        { (view l consumer).put { d with leaseUntilMs := 0 } with
          inflight := (view l consumer).inflight - 1 } [.delivered p]
        { ({ (view l consumer).put { d with leaseUntilMs := 0 } with
            inflight := (view l consumer).inflight - 1 } : View).put
              (superseded consumer p nowMs) with resolvedThrough := some p } := by
      refine .single (.supersede p nowMs hsteady hindexed hahead ?_ ?_)
      · intro q hq hlt hpassed
        obtain ⟨e, he, hresolved⟩ := hclear q hq hlt hpassed
        refine ⟨e, ?_, hresolved⟩
        have hne : q.row ≠ d.position.row := by
          intro hrow
          rw [hrow, hposition, hget] at he
          rw [Option.some.inj he, hresolved] at hunresolved
          cases hunresolved
        rw [← he]
        exact Table.get_insert_of_ne _ _ hne
      · intro e he
        have hself : (({ (view l consumer).put { d with leaseUntilMs := 0 } with
            inflight := (view l consumer).inflight - 1 } : View).rows.get p.row) =
            some { d with leaseUntilMs := 0 } := by
          rw [← hposition]
          exact Table.get_insert_self _ _ _
        rw [hself] at he
        rw [← Option.some.inj he]
        exact ⟨hunresolved, rfl⟩
    have hall : Steps consumer clock (view l consumer) [.delivered p] _ := hzero.trans hsettle
    simp only [hheld]
    convert hall using 1
    refine View.ext rfl (Table.ext_get fun k => ?_) rfl rfl rfl rfl
    simp only [View.put, superseded, hposition, Table.get_insert]
    split_ifs <;> rfl
  · rw [if_neg hheld]
    refine .single (.supersede p nowMs hsteady hindexed hahead hclear ?_)
    intro d hd
    rw [hget] at hd
    refine ⟨(hopen d hd).2, ?_⟩
    rw [hd] at hheld
    simpa using hheld

/-- **A supersession** writes nothing, or the terminal row of its event. -/
theorem supersede_delivers {expected : MutationOutboxRecord}
    (hinjective : ∀ t, RowInjective { p | positionExists l t p = true })
    (h : supersede identity consumer expected nowMs l = .ok (receipt, l')) :
    Delivers consumer clock ((supersedeSettles consumer expected l).map .delivered) l l' := by
  unfold supersede at h
  simp only [bind_eq_ok] at h
  obtain ⟨_, -, _, hsteady, pending, -, _, -, p, hp, _, -, l₁, hsubscribe, _, -, claimCursor, hclaim,
    _, -, source, hsource, h⟩ := h
  obtain ⟨hsub, hdeliveries, -, -⟩ : Delivers consumer clock [] l l₁ ∧ _ :=
    subscribe_delivers hinjective hsubscribe
  have hsteady₁ : (view l₁ consumer).rewinding = none := by
    rw [← refuseIfRewindPending_ok hsteady]
    exact congrArg (Table.get · consumer) (subscribeIn_rewinding hsubscribe)
  have hrow : deliveryAt l₁ consumer p = deliveryAt l consumer p := by
    unfold deliveryAt
    rw [hdeliveries]
  obtain ⟨-, hresolved⟩ := readClaimCursor_ok hclaim
  simp only [supersedeSettles, hp]
  unfold readSourceDelivery at hsource
  cases hd : deliveryAt l₁ consumer p with
  | none =>
    simp only [hd] at hsource
    obtain rfl := Except.ok.inj hsource
    have hfinal : Delivers consumer clock [.delivered p] l₁ l' :=
      supersedeRow_delivers hsteady₁ hresolved hd (fun d hd => by cases hd) h
    rw [← hrow, hd]
    exact ⟨hsub.steps.trans hfinal.steps, hsub.elsewhere.trans hfinal.elsewhere⟩
  | some d =>
    simp only [hd, validateDeliveryKey, bind_eq_ok, require_eq_ok, pure_eq_ok] at hsource
    obtain ⟨_, ⟨-, hposition⟩, _, -, _, -, rfl⟩ := hsource
    rw [← hrow, hd]
    simp only at h
    split_ifs at h with hdead hdelivered
    · obtain ⟨_, -, h⟩ := unbind h
      rw [← (Prod.mk.inj (pure_eq_ok.mp h)).2]
      simp only [Option.any_some, hdelivered]
      exact hsub
    · have hopen : ∀ e, some d = some e → e.position = p ∧ e.resolved = false := by
        intro e he
        obtain rfl := Option.some.inj he
        exact ⟨hposition, resolved_eq_false (by simpa using hdead) (by simpa using hdelivered)⟩
      have hfinal : Delivers consumer clock [.delivered p] l₁ l' :=
        supersedeRow_delivers hsteady₁ hresolved hd hopen h
      rw [Option.any_some, if_neg hdelivered]
      exact ⟨hsub.steps.trans hfinal.steps, hsub.elsewhere.trans hfinal.elsewhere⟩

/-! ### Rewinding -/

theorem predecessorInWrite_ok (h : predecessorInWrite topic p l = .ok predecessor) :
    (∀ q, predecessor = some q → positionExists l topic q = true ∧ q < p) ∧
      ∀ q, positionExists l topic q = true → (Passed predecessor q ↔ q < p) := by
  obtain ⟨_, -, h⟩ := unbind h
  obtain rfl := pure_eq_ok.mp h
  have hsorted : ((topicPositions l topic).filter (· < p)).Pairwise (· < ·) :=
    (topicPositions_sorted l topic).filter _
  have hmem : ∀ q, q ∈ (topicPositions l topic).filter (· < p) ↔
      positionExists l topic q = true ∧ q < p := by
    intro q
    rw [List.mem_filter, mem_topicPositions, decide_eq_true_iff]
  refine ⟨fun q hq => (hmem q).mp (List.mem_of_getLast? hq), fun q hq => ⟨?_, fun hlt => ?_⟩⟩
  · intro hpassed
    cases hlast : ((topicPositions l topic).filter (· < p)).getLast? with
    | none =>
      rw [hlast] at hpassed
      exact absurd hpassed not_passed_none
    | some r =>
      rw [hlast] at hpassed
      exact lt_of_le_of_lt (passed_some.mp hpassed) ((hmem r).mp (List.mem_of_getLast? hlast)).2
  · have hin := (hmem q).mpr ⟨hq, hlt⟩
    obtain ⟨init, r, hr⟩ := List.eq_nil_or_concat' _ |>.resolve_left (List.ne_nil_of_mem hin)
    rw [hr] at hin hsorted ⊢
    rw [List.getLast?_concat, passed_some]
    rcases List.mem_append.mp hin with hin | hin
    · exact ((List.pairwise_append.mp hsorted).2.2 q hin r (List.mem_singleton_self r)).le
    · exact (List.mem_singleton.mp hin).le

/-- **The predecessor of a target** is indexed, and what it passes is what lies before the target. -/
theorem targetPredecessor_ok (h : targetPredecessor topic identity target l = .ok predecessor) :
    (∀ q, predecessor = some q → positionExists l topic q = true) ∧
      ∀ q, positionExists l topic q = true →
        (Passed predecessor q ↔ target.position.any (q < ·) = true) := by
  cases target with
  | start =>
    obtain rfl := Except.ok.inj h
    refine ⟨fun q hq => (by cases hq), fun q _ => ?_⟩
    exact iff_of_false not_passed_none (by simp [OutboxRewindTarget.position])
  | «at» p =>
    obtain ⟨_, -, h⟩ := unbind h
    obtain ⟨hin, hiff⟩ := predecessorInWrite_ok h
    refine ⟨fun q hq => (hin q hq).1, fun q hq => ?_⟩
    rw [hiff q hq]
    simp [OutboxRewindTarget.position]

theorem rewindWatermark_ok (h : rewindWatermark identity consumer predecessor nowMs l = .ok l') :
    view l' consumer = { view l consumer with resolvedThrough := predecessor } ∧
      Elsewhere consumer l l' := by
  obtain ⟨claimCursor, -, h⟩ := unbind h
  cases predecessor with
  | none =>
    rw [← pure_eq_ok.mp h]
    refine ⟨?_, elsewhere_writeClaimCursor _⟩
    rw [view_writeClaimCursor]
    rfl
  | some p =>
    simp only [bind_eq_ok, pure_eq_ok] at h
    obtain ⟨record, -, cursor, -, _, -, rfl⟩ := h
    refine ⟨?_, elsewhere_writeClaimCursor _⟩
    rw [view_writeClaimCursor]
    rfl

/-- **The start of a rewind** moves the prefix to its target's predecessor. -/
theorem prepareRewind_delivers (hsteady : (view l consumer).rewinding = none)
    (h : prepareRewind identity consumer target nowMs l = .ok l') :
    Delivers consumer clock [.rewound (view l consumer) target.position] l l' := by
  unfold prepareRewind at h
  simp only [bind_eq_ok, pure_eq_ok] at h
  obtain ⟨topic, htopic, predecessor, hpred, l₁, hwatermark, state, -, rfl⟩ := h
  have hconsumer := subscribedTopic_ok htopic
  obtain ⟨hindexed, hiff⟩ := targetPredecessor_ok hpred
  obtain ⟨hview, helse⟩ := rewindWatermark_ok hwatermark
  refine ⟨?_, ?_⟩
  · rw [view_rewindCursors (l := writeConsumerState consumer { state with inflight := 0 } l₁),
      view_writeConsumerState, hview, Table.get_insert_self]
    exact .single (.rewind target.position predecessor hsteady
      (fun q hq => (mem_indexOf hconsumer).mpr (hindexed q hq))
      fun q hq => hiff q ((mem_indexOf hconsumer).mp hq))
  · refine (helse.trans (elsewhere_writeConsumerState _)).trans (elsewhere_rewindCursors ?_)
    intro other hne
    exact Table.get_insert_of_ne _ _ hne

theorem deleteDeliveries_get : ∀ (ps : List OutboxPosition) (n : ℕ) (l : Ledger) (k : OutboxKey),
      (view (deleteDeliveries consumer ps n l).2 consumer).rows.get k =
        if k ∈ ps.map OutboxPosition.row then none else (view l consumer).rows.get k
  | [], _, l, k => by simp [deleteDeliveries]
  | p :: ps, n, l, k => by
    unfold deleteDeliveries
    simp only [List.map_cons, List.mem_cons]
    split_ifs with hp hk hk
    · rw [deleteDeliveries_get ps]
      rcases hk with rfl | hk
      · have hgone : (view (removeDelivery consumer p.row l) consumer).rows.get p.row = none := by
          rw [view_get]
          exact Table.get_remove_self _ _
        rw [hgone, ite_self]
      · rw [if_pos hk]
    · obtain ⟨hrow, hrest⟩ := not_or.mp hk
      rw [deleteDeliveries_get ps, if_neg hrest]
      change (deliveriesOf _ consumer).get k = (deliveriesOf l consumer).get k
      rw [deliveriesOf_get, deliveriesOf_get]
      refine Table.get_remove_of_ne _ ?_
      simp [hrow]
    · rw [deleteDeliveries_get ps]
      rcases hk with rfl | hk
      · rw [view_get, Option.not_isSome_iff_eq_none.mp hp, ite_self]
      · rw [if_pos hk]
    · rw [deleteDeliveries_get ps, if_neg (not_or.mp hk).2]

theorem view_deleteDeliveries (ps : List OutboxPosition) (n : ℕ) :
    view (deleteDeliveries consumer ps n l).2 consumer =
      { view l consumer with rows := (view (deleteDeliveries consumer ps n l).2 consumer).rows } := by
  conv_lhs => rw [deleteDeliveries_frame]
  rfl

/-- **A step of the walk** deletes one page of rows, and the last one ends the rewind. -/
theorem deleteStep_delivers {cursor : RewindCursor} {outcome : OutboxRewindOutcome}
    (hwalking : (view l consumer).rewinding = some cursor)
    (h : deleteStep identity consumer cursor l = .ok (outcome, l')) :
    Delivers consumer clock [] l l' := by
  unfold deleteStep at h
  simp only [bind_eq_ok] at h
  obtain ⟨topic, htopic, page, hpage, h⟩ := h
  have hconsumer := subscribedTopic_ok htopic
  obtain rfl := scanValidatedPage_ok hpage
  have hafter : ∀ p ∈ (view l consumer).index, ¬ Passed cursor.position p →
      p ∈ positionsAfter l topic cursor.position :=
    fun p hp hahead => mem_positionsAfter.mpr ⟨(mem_indexOf hconsumer).mp hp, hahead⟩
  have hkept : ∀ k, (view (deleteDeliveries consumer
      (scanInWrite topic cursor.position maxClaimScanRows l).entries 0 l).2 consumer).rows.get k =
        (view l consumer).rows.get k ∨
      (view (deleteDeliveries consumer (scanInWrite topic cursor.position maxClaimScanRows
        l).entries 0 l).2 consumer).rows.get k = none ∧
        ∃ p ∈ (view l consumer).index, p.row = k ∧ ¬ Passed cursor.position p := by
    intro k
    rw [deleteDeliveries_get]
    split_ifs with hk
    · obtain ⟨p, hp, rfl⟩ := List.mem_map.mp hk
      refine Or.inr ⟨rfl, p, scanned_indexed hconsumer p hp, rfl, ?_⟩
      exact (mem_positionsAfter.mp (List.mem_of_mem_take hp)).2
    · exact Or.inl rfl
  have hgone : ∀ p ∈ (scanInWrite topic cursor.position maxClaimScanRows l).entries,
      (view (deleteDeliveries consumer (scanInWrite topic cursor.position maxClaimScanRows
        l).entries 0 l).2 consumer).rows.get p.row = none := by
    intro p hp
    rw [deleteDeliveries_get, if_pos (List.mem_map_of_mem hp)]
  split at h
  · rename_i htruncated
    obtain ⟨-, rfl⟩ := Prod.mk.inj (pure_eq_ok.mp h)
    refine ⟨?_, (elsewhere_deleteDeliveries _ _ _).trans (elsewhere_rewindCursors ?_)⟩
    · have hlong : maxClaimScanRows < (positionsAfter l topic cursor.position).length := by
        simpa [scanInWrite] using htruncated
      have hlength : (scanInWrite topic cursor.position maxClaimScanRows l).entries.length =
          maxClaimScanRows := List.length_take_of_le hlong.le
      obtain ⟨before, next, hentries⟩ :=
        (List.eq_nil_or_concat' (scanInWrite topic cursor.position maxClaimScanRows
          l).entries).resolve_left (fun hnil => by rw [hnil] at hlength; cases hlength)
      have hlast : (scanInWrite topic cursor.position maxClaimScanRows l).entries.getLast? =
          some next := by
        rw [hentries]
        exact List.getLast?_concat
      rw [view_rewindCursors (l := (deleteDeliveries consumer
        (scanInWrite topic cursor.position maxClaimScanRows l).entries 0 l).2),
        view_deleteDeliveries, Table.get_insert_self, hlast]
      have hnext := List.mem_of_getLast? hlast
      refine .single (.sweep cursor _ next hwalking (scanned_indexed hconsumer next hnext)
        (mem_positionsAfter.mp (List.mem_of_mem_take hnext)).2 ?_ hkept)
      intro p hp hahead hle
      refine hgone p ?_
      rw [hentries]
      rcases hle.lt_or_eq with hlt | rfl
      · exact List.mem_append_left _
          (mem_before_of_lt positionsAfter_sorted hentries (hafter p hp hahead) hlt)
      · exact List.mem_append_right _ (List.mem_singleton_self _)
    · intro other hne
      exact Table.get_insert_of_ne _ _ hne
  · rename_i htruncated
    obtain ⟨-, rfl⟩ := Prod.mk.inj (pure_eq_ok.mp h)
    refine ⟨?_, (elsewhere_deleteDeliveries _ _ _).trans (elsewhere_rewindCursors ?_)⟩
    · rw [view_rewindCursors (l := (deleteDeliveries consumer
        (scanInWrite topic cursor.position maxClaimScanRows l).entries 0 l).2),
        view_deleteDeliveries, Table.get_remove_self]
      refine .single (.finishSweep cursor _ hwalking ?_ hkept)
      intro p hp hahead
      refine hgone p ?_
      have hall : (positionsAfter l topic cursor.position).length ≤ maxClaimScanRows := by
        simpa [scanInWrite] using htruncated
      change p ∈ (positionsAfter l topic cursor.position).take maxClaimScanRows
      rw [List.take_of_length_le hall]
      exact hafter p hp hahead
    · intro other hne
      exact Table.get_remove_of_ne _ hne

/-- **A rewind call** starts a rewind, or goes on with the pending one. -/
theorem rewind_delivers {outcome : OutboxRewindOutcome}
    (h : rewind identity consumer target nowMs l = .ok (outcome, l')) :
    Delivers consumer clock (match l.rewindCursors.get consumer with
      | some _ => []
      | none => [.rewound (view l consumer) target.position]) l l' := by
  unfold rewind at h
  simp only [bind_eq_ok] at h
  obtain ⟨_, -, _, -, h⟩ := h
  cases hcursor : l.rewindCursors.get consumer with
  | some cursor =>
    simp only [hcursor] at h
    exact deleteStep_delivers hcursor h
  | none =>
    simp only [hcursor, bind_eq_ok] at h
    obtain ⟨l₁, hprepare, h⟩ := h
    obtain ⟨-, rfl⟩ := Prod.mk.inj (pure_eq_ok.mp h)
    exact prepareRewind_delivers hcursor hprepare

end Medulla.Outbox.Refinement
