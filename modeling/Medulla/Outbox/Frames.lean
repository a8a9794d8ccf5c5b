import Medulla.Outbox.Rewind

/-! # The delivery side is a frame of its own

A delivery operation leaves every row of the commit side as it is: `core` is the ledger with its
delivery tables taken out, and each operation keeps it. -/

namespace Medulla.Outbox.Frames

open Library.Checked Types.Batch Types.Records Mutation.State Outbox.Index Rows Claim
open Cursor Rewind

variable {lease : MutationOutboxLease} {nowMs room : ℕ} {cursor : MutationProjectionCursor}
  {expected : MutationOutboxRecord} {p : OutboxPosition} {state : OutboxConsumerState}
  {budget : OutboxClaimBudget} {acked : Option OutboxPosition} {outcome : OutboxClaimOutcome}
  {target : OutboxRewindTarget} {r : MutationProjectionCursor × Ledger}

def core (l : Ledger) : Ledger :=
  { l with
    consumers := .empty
    deliveries := .empty
    cursors := .empty
    claimCursors := .empty
    expiryCursors := .empty
    pruneCursors := .empty
    rewindCursors := .empty
    fairness := .empty }

variable {identity : MutationScopeIdentity} {consumer topic : String} {l l' : Ledger}

/-- The ledger without its delivery side, but with the claim cursors. -/
def frame (l : Ledger) : Ledger :=
  { l with
    consumers := .empty
    deliveries := .empty
    cursors := .empty
    expiryCursors := .empty
    pruneCursors := .empty
    rewindCursors := .empty
    fairness := .empty }

theorem core_of_frame (h : frame l' = frame l) : core l' = core l := by
  have hcore : core (frame l') = core (frame l) := congrArg core h
  exact hcore

theorem claimCursors_of_frame (h : frame l' = frame l) : l'.claimCursors = l.claimCursors := by
  have hcursors : (frame l').claimCursors = (frame l).claimCursors := congrArg Ledger.claimCursors h
  exact hcursors

theorem eq_of_core (h : core l' = core l) : l' = { l with
      consumers := l'.consumers
      deliveries := l'.deliveries
      cursors := l'.cursors
      claimCursors := l'.claimCursors
      expiryCursors := l'.expiryCursors
      pruneCursors := l'.pruneCursors
      rewindCursors := l'.rewindCursors
      fairness := l'.fairness } := by
  cases l'
  simp only [core, Ledger.mk.injEq] at h
  simp [h]

/-! ### Writes -/

@[simp] theorem frame_putDelivery (d : OutboxDelivery) :
    frame (putDelivery consumer d l) = frame l := rfl

@[simp] theorem frame_removeDelivery (key : OutboxKey) :
    frame (removeDelivery consumer key l) = frame l := rfl

@[simp] theorem frame_writeConsumerState (state : OutboxConsumerState) :
    frame (writeConsumerState consumer state l) = frame l := rfl

theorem subscribeIn_ok (h : subscribeIn consumer topic l = .ok l') :
    ensureNotGraftFenced l = .ok () ∧ ((l.consumers.get consumer = some topic ∧ l' = l) ∨
      (l.consumers.get consumer = none ∧
        l' = { l with consumers := l.consumers.insert consumer topic })) := by
  unfold subscribeIn at h
  simp only [bind_eq_ok] at h
  obtain ⟨_, -, _, -, _, hfence, h⟩ := h
  refine ⟨hfence, ?_⟩
  cases hc : l.consumers.get consumer with
  | some current =>
    simp only [hc, bind_eq_ok, require_eq_ok, pure_eq_ok] at h
    obtain ⟨_, rfl, rfl⟩ := h
    exact Or.inl ⟨rfl, rfl⟩
  | none =>
    simp only [hc, pure_eq_ok] at h
    exact Or.inr ⟨rfl, h.symm⟩

theorem frame_subscribeIn (h : subscribeIn consumer topic l = .ok l') : frame l' = frame l := by
  rcases (subscribeIn_ok h).2 with ⟨-, rfl⟩ | ⟨-, rfl⟩
  · rfl
  · rfl

theorem frame_releaseInflight {n : ℕ} (h : releaseInflight consumer n l = .ok l') :
    frame l' = frame l := by
  unfold releaseInflight at h
  simp only [bind_eq_ok, pure_eq_ok] at h
  obtain ⟨_, -, _, -, _, -, rfl⟩ := h
  rfl

theorem frame_recordDelivered (h : recordDelivered consumer l = .ok l') : frame l' = frame l := by
  unfold recordDelivered at h
  simp only [bind_eq_ok, pure_eq_ok] at h
  obtain ⟨_, -, _, -, _, -, rfl⟩ := h
  rfl

theorem frame_recordSuperseded {held : Bool} (h : recordSuperseded consumer held l = .ok l') :
    frame l' = frame l := by
  unfold recordSuperseded at h
  simp only [bind_eq_ok, pure_eq_ok] at h
  obtain ⟨_, -, _, -, _, -, rfl⟩ := h
  rfl

theorem frame_zeroLeases :
    ∀ (ds : List OutboxDelivery) (l : Ledger), frame (zeroLeases consumer ds l) = frame l
  | [], _ => rfl
  | d :: ds, l => by
    rw [zeroLeases, frame_zeroLeases ds, frame_putDelivery]

theorem frame_removeDeliveries :
    ∀ (ks : List OutboxKey) (l : Ledger), frame (removeDeliveries consumer ks l) = frame l
  | [], _ => rfl
  | k :: ks, l => by
    rw [removeDeliveries, frame_removeDeliveries ks, frame_removeDelivery]

theorem frame_deleteDeliveries : ∀ (ps : List OutboxPosition) (n : ℕ) (l : Ledger),
      frame (deleteDeliveries consumer ps n l).2 = frame l
  | [], _, _ => rfl
  | p :: ps, n, l => by
    unfold deleteDeliveries
    split_ifs
    · rw [frame_deleteDeliveries ps, frame_removeDelivery]
    · exact frame_deleteDeliveries ps n l

/-! ### Acknowledging, rejecting, superseding -/

theorem core_ack (h : ack identity lease nowMs l = .ok (cursor, l')) : core l' = core l := by
  obtain ⟨prepared, -, h⟩ := unbind h
  cases prepared with
  | replayed c =>
    obtain ⟨-, rfl⟩ := Prod.mk.inj (pure_eq_ok.mp h)
    rfl
  | advance d c claimCursor =>
    obtain ⟨l₁, h1, h⟩ := unbind h
    obtain ⟨-, rfl⟩ := Prod.mk.inj (pure_eq_ok.mp h)
    have hcore := core_of_frame (frame_recordDelivered h1)
    exact hcore

theorem frame_reject (h : reject identity lease nowMs l = .ok l') : frame l' = frame l := by
  unfold reject at h
  simp only [bind_eq_ok, pure_eq_ok] at h
  obtain ⟨d, -, state, -, state', -, rfl⟩ := h
  rfl

theorem core_supersedeRow {claimCursor : OutboxClaimCursor} {previous : Option OutboxDelivery}
    (h : supersedeRow identity consumer expected p claimCursor previous nowMs l =
      .ok (cursor, l')) : core l' = core l := by
  unfold supersedeRow at h
  simp only [bind_eq_ok, pure_eq_ok] at h
  obtain ⟨_, -, _, -, receipt, -, l₁, h1, h⟩ := h
  obtain ⟨-, rfl⟩ := Prod.mk.inj h
  have hcore := core_of_frame (frame_recordSuperseded h1)
  exact hcore

theorem core_supersede (h : supersede identity consumer expected nowMs l = .ok (cursor, l')) :
    core l' = core l := by
  unfold supersede at h
  simp only [bind_eq_ok] at h
  obtain ⟨_, -, _, -, _, -, _, -, p, -, _, -, l₁, h1, _, -, claimCursor, -, _, -, previous, -, h⟩ := h
  rw [← core_of_frame (frame_subscribeIn h1)]
  cases previous with
  | none => exact core_supersedeRow h
  | some d =>
    simp only at h
    split_ifs at h
    · obtain ⟨receipt, -, h⟩ := unbind h
      obtain ⟨-, rfl⟩ := Prod.mk.inj (pure_eq_ok.mp h)
      rfl
    · exact core_supersedeRow h

/-! ### Claiming, releasing, expiring -/

theorem frame_reclaimRoom {cursor : OutboxClaimCursor} {page : IndexPage}
    {state' : OutboxConsumerState} {gate : ClaimGate}
    (h : reclaimRoom consumer cursor page nowMs state l = .ok (gate, state', l')) :
    frame l' = frame l := by
  unfold reclaimRoom at h
  simp only [bind_eq_ok] at h
  obtain ⟨expired, -, inflight, -, h⟩ := h
  split_ifs at h
  · obtain ⟨-, h⟩ := Prod.mk.inj (pure_eq_ok.mp h)
    obtain ⟨-, rfl⟩ := Prod.mk.inj h
    exact frame_zeroLeases expired l
  · obtain ⟨-, h⟩ := Prod.mk.inj (pure_eq_ok.mp h)
    obtain ⟨-, rfl⟩ := Prod.mk.inj h
    rw [frame_writeConsumerState, frame_zeroLeases]
  · obtain ⟨-, h⟩ := Prod.mk.inj (pure_eq_ok.mp h)
    obtain ⟨-, rfl⟩ := Prod.mk.inj h
    exact frame_zeroLeases expired l

theorem frame_leaseRow {current : Option OutboxDelivery} {isHead expired : Bool} {s s' : Installing}
    (h : leaseRow consumer budget p current isHead expired s = .ok s') :
    frame s'.ledger = frame s.ledger := by
  unfold leaseRow at h
  simp only [bind_eq_ok, pure_eq_ok] at h
  obtain ⟨_, -, _, -, _, -, rfl⟩ := h
  rfl

theorem frame_installRow {s : Installing} {r : RowStep}
    (h : installRow consumer budget room acked p s = .ok r) :
    frame r.state.ledger = frame s.ledger := by
  unfold installRow at h
  simp only [bind_eq_ok] at h
  obtain ⟨_, -, h⟩ := h
  split at h
  · rw [← pure_eq_ok.mp h]
    rfl
  · split at h
    · obtain ⟨state, -, h⟩ := unbind h
      rw [← pure_eq_ok.mp h]
      rfl
    · split_ifs at h
      · rw [← pure_eq_ok.mp h]
        rfl
      · rw [← pure_eq_ok.mp h]
        rfl
      · obtain ⟨s', h1, h⟩ := unbind h
        rw [← pure_eq_ok.mp h]
        exact frame_leaseRow h1

theorem frame_installLeases : ∀ {ps : List OutboxPosition} {s s' : Installing},
      installLeases consumer budget room acked ps s = .ok s' → frame s'.ledger = frame s.ledger
  | [], s, s', h => by
    rw [Except.ok.inj h]
  | p :: ps, s, s', h => by
    obtain ⟨r, h1, h2⟩ := unbind h
    rw [← frame_installRow h1]
    cases r with
    | stop t => rw [← pure_eq_ok.mp h2, RowStep.state]
    | next t => exact frame_installLeases h2

theorem frame_pruneResolved {resolved : Option OutboxPosition}
    (h : pruneResolved identity consumer acked resolved l = .ok l') : frame l' = frame l := by
  unfold pruneResolved at h
  cases resolved with
  | none => rw [Except.ok.inj h]
  | some boundary =>
    simp only [bind_eq_ok] at h
    obtain ⟨topic, -, cursor, -, h⟩ := h
    split_ifs at h
    · rw [pure_eq_ok.mp h]
    · simp only [bind_eq_ok, pure_eq_ok] at h
      obtain ⟨page, -, scan, -, rfl⟩ := h
      exact frame_removeDeliveries scan.stale l

theorem core_installPage {cursor : OutboxClaimCursor} {page : IndexPage}
    (h : installPage identity consumer budget room cursor page state l = .ok (outcome, l')) :
    core l' = core l := by
  unfold installPage at h
  simp only [bind_eq_ok] at h
  obtain ⟨s, h1, l₁, h2, h⟩ := h
  obtain ⟨-, rfl⟩ := Prod.mk.inj (pure_eq_ok.mp h)
  have hcore := core_of_frame ((frame_pruneResolved h2).trans (frame_installLeases h1))
  exact hcore

theorem core_claimPage (h : claimPage identity topic consumer budget state l = .ok (outcome, l')) :
    core l' = core l := by
  unfold claimPage at h
  simp only [bind_eq_ok] at h
  obtain ⟨cursor, -, _, -, page, -, ⟨gate, state', l₁⟩, h1, h⟩ := h
  rw [← core_of_frame (frame_reclaimRoom h1)]
  cases gate with
  | deferred reason =>
    obtain ⟨-, rfl⟩ := Prod.mk.inj (pure_eq_ok.mp h)
    rfl
  | room room =>
    obtain ⟨gate', -, h⟩ := unbind h
    cases gate' with
    | deferred reason =>
      obtain ⟨-, rfl⟩ := Prod.mk.inj (pure_eq_ok.mp h)
      rfl
    | room room' => exact core_installPage h

section
variable {budget' : OutboxClaimBudget}
  (h : claim identity consumer budget l = .ok (outcome, budget', l'))
include h

theorem claim_ok : (∃ reason, outcome = .deferral reason ∧ l' = l) ∨
      ∃ topic state, subscribedTopic consumer l = .ok topic ∧ l.rewindCursors.get consumer = none ∧
        readConsumerState consumer l = .ok state ∧
        claimPage identity topic consumer budget state l = .ok (outcome, l') := by
  unfold claim claimIn at h
  simp only [bind_eq_ok] at h
  obtain ⟨_, -, ⟨outcome', l₁⟩, ⟨_, -, topic, htopic, _, -, pending, -, hclaim⟩, h⟩ := h
  obtain ⟨rfl, hrest⟩ := Prod.mk.inj (pure_eq_ok.mp h)
  obtain ⟨-, rfl⟩ := Prod.mk.inj hrest
  split at hclaim
  · obtain ⟨rfl, rfl⟩ := Prod.mk.inj (pure_eq_ok.mp hclaim)
    exact Or.inl ⟨_, rfl, rfl⟩
  · split at hclaim
    · obtain ⟨rfl, rfl⟩ := Prod.mk.inj (pure_eq_ok.mp hclaim)
      exact Or.inl ⟨_, rfl, rfl⟩
    · rename_i hrewind
      obtain ⟨state, hstate, hclaim⟩ := unbind hclaim
      split at hclaim
      · obtain ⟨rfl, rfl⟩ := Prod.mk.inj (pure_eq_ok.mp hclaim)
        exact Or.inl ⟨_, rfl, rfl⟩
      · exact Or.inr ⟨topic, state, htopic, Option.not_isSome_iff_eq_none.mp hrewind, hstate, hclaim⟩

theorem core_claim : core l' = core l := by
  obtain ⟨reason, -, rfl⟩ | ⟨topic, state, -, -, -, h⟩ := claim_ok h
  · rfl
  · exact core_claimPage h

end

theorem frame_release (h : release identity lease l = .ok l') : frame l' = frame l := by
  unfold release at h
  simp only [bind_eq_ok] at h
  obtain ⟨_, -, _, -, _, -, d, -, _, -, topic, -, _, -, _, -, cursor, -, _, -, _, -, _, -, _, -, h⟩ := h
  split_ifs at h
  · rw [frame_releaseInflight h]
    rfl
  · rw [← pure_eq_ok.mp h]
    rfl

theorem frame_expire {n : ℕ} (h : expire identity consumer nowMs l = .ok (n, l')) :
    frame l' = frame l := by
  unfold expire at h
  simp only [bind_eq_ok] at h
  obtain ⟨_, -, _, -, topic, -, _, -, cursor, -, _, -, _, -, page, -, h⟩ := h
  split at h
  · rw [← (Prod.mk.inj (pure_eq_ok.mp h)).2]
    rfl
  · simp only [bind_eq_ok] at h
    obtain ⟨stale, -, l₁, h1, h⟩ := h
    rw [← (Prod.mk.inj (pure_eq_ok.mp h)).2]
    exact (frame_releaseInflight h1).trans (frame_zeroLeases stale l)

/-! ### Rewinding -/

theorem core_rewindWatermark {predecessor : Option OutboxPosition}
    (h : rewindWatermark identity consumer predecessor nowMs l = .ok l') : core l' = core l := by
  obtain ⟨cursor, -, h⟩ := unbind h
  cases predecessor with
  | none =>
    rw [← pure_eq_ok.mp h]
    rfl
  | some p =>
    simp only [bind_eq_ok, pure_eq_ok] at h
    obtain ⟨record, -, projection, -, _, -, rfl⟩ := h
    rfl

theorem core_prepareRewind (h : prepareRewind identity consumer target nowMs l = .ok l') :
    core l' = core l := by
  unfold prepareRewind at h
  simp only [bind_eq_ok, pure_eq_ok] at h
  obtain ⟨topic, -, predecessor, -, l₁, h1, state, -, rfl⟩ := h
  exact (core_rewindWatermark h1 : core l₁ = core l)

theorem core_deleteStep {cursor : RewindCursor} {outcome : OutboxRewindOutcome}
    (h : deleteStep identity consumer cursor l = .ok (outcome, l')) : core l' = core l := by
  unfold deleteStep at h
  simp only [bind_eq_ok] at h
  obtain ⟨topic, -, page, -, h⟩ := h
  split_ifs at h
  · rw [← (Prod.mk.inj (pure_eq_ok.mp h)).2]
    exact core_of_frame (frame_deleteDeliveries page.entries 0 l)
  · rw [← (Prod.mk.inj (pure_eq_ok.mp h)).2]
    exact core_of_frame (frame_deleteDeliveries page.entries 0 l)

theorem core_rewind {outcome : OutboxRewindOutcome}
    (h : rewind identity consumer target nowMs l = .ok (outcome, l')) : core l' = core l := by
  unfold rewind at h
  simp only [bind_eq_ok] at h
  obtain ⟨_, -, _, -, h⟩ := h
  split at h
  · exact core_deleteStep h
  · obtain ⟨l₁, h1, h⟩ := unbind h
    rw [← (Prod.mk.inj (pure_eq_ok.mp h)).2]
    exact core_prepareRewind h1

/-! ### The graft barrier -/

theorem unfenced_subscribeIn (h : subscribeIn consumer topic l = .ok l') :
    ensureNotGraftFenced l = .ok () := (subscribeIn_ok h).1

theorem unfenced_prepareDeliveryOp {op : String} {d : OutboxDelivery}
    (h : prepareDeliveryOp identity lease op l = .ok d) : ensureNotGraftFenced l = .ok () := by
  unfold prepareDeliveryOp at h
  simp only [bind_eq_ok] at h
  obtain ⟨_, -, _, h1, -⟩ := h
  exact h1

theorem unfenced_ack
    (h : ack identity lease nowMs l = .ok r) : ensureNotGraftFenced l = .ok () := by
  unfold Cursor.ack prepareAck at h
  simp only [bind_eq_ok] at h
  obtain ⟨_, ⟨d, h1, -⟩, -⟩ := h
  exact unfenced_prepareDeliveryOp h1

theorem unfenced_reject (h : reject identity lease nowMs l = .ok l') :
    ensureNotGraftFenced l = .ok () := by
  unfold reject prepareReject at h
  simp only [bind_eq_ok] at h
  obtain ⟨_, ⟨d, h1, -⟩, -⟩ := h
  exact unfenced_prepareDeliveryOp h1

theorem unfenced_supersede (h : supersede identity consumer expected nowMs l = .ok r) :
    ensureNotGraftFenced l = .ok () := by
  unfold supersede validateSourceRoute at h
  simp only [bind_eq_ok] at h
  obtain ⟨_, ⟨_, -, _, -, _, -, _, -, h1⟩, -⟩ := h
  exact h1

theorem unfenced_claim {r : OutboxClaimOutcome × OutboxClaimBudget × Ledger}
    (h : claim identity consumer budget l = .ok r) : ensureNotGraftFenced l = .ok () := by
  unfold claim claimIn at h
  simp only [bind_eq_ok] at h
  obtain ⟨_, -, _, ⟨_, h1, -⟩, -⟩ := h
  exact h1

theorem unfenced_release (h : release identity lease l = .ok l') :
    ensureNotGraftFenced l = .ok () := by
  unfold release at h
  simp only [bind_eq_ok] at h
  obtain ⟨_, -, _, h1, -⟩ := h
  exact h1

theorem unfenced_expire {r : ℕ × Ledger} (h : expire identity consumer nowMs l = .ok r) :
    ensureNotGraftFenced l = .ok () := by
  unfold expire at h
  simp only [bind_eq_ok] at h
  obtain ⟨_, -, _, h1, -⟩ := h
  exact h1

theorem unfenced_rewind {r : OutboxRewindOutcome × Ledger}
    (h : rewind identity consumer target nowMs l = .ok r) : ensureNotGraftFenced l = .ok () := by
  unfold rewind at h
  simp only [bind_eq_ok] at h
  obtain ⟨_, -, _, h1, -⟩ := h
  exact h1

end Medulla.Outbox.Frames
