import Medulla.Outbox.Rows

/-! # Claiming, releasing and expiring outbox leases

A claim reads one bounded page of the consumer's topic after its resolved prefix, zeroes the expired
leases of that page, decides how many rows it may lease, leases them in commit order, dead-letters an
exhausted stream head, extends the contiguous resolved prefix and prunes behind it. Every operation
is one transaction: its result is the new ledger, or a refusal that leaves the old one. -/

namespace Medulla.Outbox.Claim

open Library.Checked Library.Transaction Types.Batch Types.Records Mutation.State Outbox.Index
open Rows

/-! ### The sweep budget -/

/-- The caller-carried cap state of one claim sweep; its limit and its lease are never zero. -/
structure OutboxClaimBudget where
  limit : ℕ
  leaseMs : ℕ
  nowMs : ℕ
  claimed : ℕ
  lastTenant : Option String
  consecutive : ℕ
  tenantsSeen : ℕ
  limited : limit ≠ 0
  timed : leaseMs ≠ 0

namespace OutboxClaimBudget

def new (limit leaseMs nowMs : ℕ) : Except String OutboxClaimBudget :=
  if h : limit = 0 ∨ leaseMs = 0 then
    .error "outbox claim budget requires a non-zero limit and lease"
  else .ok ⟨limit, leaseMs, nowMs, 0, none, 0, 0, fun hl => h (Or.inl hl), fun hl => h (Or.inr hl)⟩

/-- Rows still available to the sweep. -/
def remaining (b : OutboxClaimBudget) : ℕ := b.limit - b.claimed

/-- The quarter cap on a consecutive run, never below one row. -/
def consecutiveCap (b : OutboxClaimBudget) : ℕ := max (b.limit / 4) 1

/-- More than one tenant has work in this sweep. -/
def contended (b : OutboxClaimBudget) : Bool := 1 < b.tenantsSeen

/-- The tenant was served last. -/
def isConsecutive (b : OutboxClaimBudget) (tenant : String) : Bool := b.lastTenant = some tenant

/-- How many rows a tenant may take on its next claim. -/
def allowance (b : OutboxClaimBudget) (tenant : String) : ℕ :=
  let cap := b.consecutiveCap
  let run := if b.contended && b.isConsecutive tenant then cap - min b.consecutive cap else cap
  min b.remaining run

def record (b : OutboxClaimBudget) (tenant : String) (claimed : ℕ) : OutboxClaimBudget :=
  if claimed = 0 then b
  else
    let b' := { b with claimed := saturatingAdd u32Max b.claimed claimed }
    if b.isConsecutive tenant && b.contended then
      { b' with consecutive := saturatingAdd u32Max b.consecutive claimed }
    else if b.isConsecutive tenant then
      { b' with consecutive := claimed, tenantsSeen := max b.tenantsSeen 1 }
    else
      { b' with
        lastTenant := some tenant
        consecutive := claimed
        tenantsSeen := max (saturatingAdd u32Max b.tenantsSeen 1) 1 }

end OutboxClaimBudget

/-! ### Outcomes -/

/-- Why a claim handed back nothing. -/
inductive OutboxDeferral
  | queueFull (inflight capacity : ℕ)
  | fairnessCapped (consecutive cap : ℕ)
  | budgetSpent
  | indexBackfillPending
  | rewindPending

/-- The answer of a claim. -/
structure OutboxClaimOutcome where
  claims : List MutationOutboxLease
  deferred : Option OutboxDeferral
  moreAvailable : Bool
  deadLettered : List OutboxPosition

def OutboxClaimOutcome.claimed (claims : List MutationOutboxLease) (moreAvailable : Bool)
    (deadLettered : List OutboxPosition) : OutboxClaimOutcome :=
  ⟨claims, none, moreAvailable, deadLettered⟩

def OutboxClaimOutcome.deferral (reason : OutboxDeferral) : OutboxClaimOutcome :=
  ⟨[], some reason, true, []⟩

/-! ### Expired leases -/

/-- A lease that has run out and is still counted in flight. -/
def isExpired (d : OutboxDelivery) (nowMs : ℕ) : Bool :=
  !d.resolved && (d.leaseUntilMs ≠ 0) && (d.leaseUntilMs ≤ nowMs)

/-- The leased rows of a page whose lease has run out. -/
def expiredDeliveries (consumer : String) (acked : Option OutboxPosition) (nowMs : ℕ)
    (l : Ledger) : List OutboxPosition → Except String (List OutboxDelivery)
  | [] => .ok []
  | p :: ps =>
    match deliveryAt l consumer p with
    | none => expiredDeliveries consumer acked nowMs l ps
    | some d => do
      validateExistingDelivery d consumer p acked
      let rest ← expiredDeliveries consumer acked nowMs l ps
      return if isExpired d nowMs then d :: rest else rest

/-- Ends the leases of these rows. -/
def zeroLeases (consumer : String) : List OutboxDelivery → Ledger → Ledger
  | [], l => l
  | d :: ds, l => zeroLeases consumer ds (putDelivery consumer { d with leaseUntilMs := 0 } l)

/-! ### Claim room -/

/-- Room for rows, or a reason to wait. -/
inductive ClaimGate
  | room (rows : ℕ)
  | deferred (reason : OutboxDeferral)

/-- Ends the leases that ran out and says how many rows have room. -/
def reclaimRoom (consumer : String) (cursor : OutboxClaimCursor) (page : IndexPage) (nowMs : ℕ)
    (state : OutboxConsumerState) (l : Ledger) :
    Except String (ClaimGate × OutboxConsumerState × Ledger) := do
  let expired ← expiredDeliveries consumer cursor.ackedThrough nowMs l page.entries
  let l := zeroLeases consumer expired l
  let inflight ← okOr (checkedSub state.inflight expired.length)
    "CORRUPT_OUTBOX_FAIRNESS: reclaimed leases exceed in-flight counter"
  let state := { state with inflight := inflight }
  if 0 < outboxQueueCapacity - inflight then
    return (.room (outboxQueueCapacity - inflight), state, l)
  else
    return (.deferred (.queueFull inflight outboxQueueCapacity), state,
      if 0 < expired.length then writeConsumerState consumer state l else l)

/-- What the first unresolved row of the page requires. -/
inductive FairnessCandidate
  | none | fresh | retry

/-- The first row of the page that is neither resolved nor held. -/
def fairnessCandidate (consumer : String) (acked : Option OutboxPosition) (truncated : Bool)
    (nowMs : ℕ) (l : Ledger) : List OutboxPosition → Except String FairnessCandidate
  | [] => .ok (if truncated then .fresh else .none)
  | p :: ps =>
    match deliveryAt l consumer p with
    | Option.none => .ok .fresh
    | some d => do
      validateExistingDelivery d consumer p acked
      if d.resolved || d.leasedAt nowMs then
        fairnessCandidate consumer acked truncated nowMs l ps
      else return .retry

/-- A spent run defers fresh work, and gives retry work one row. -/
def decideClaimRoom (consumer : String) (cursor : OutboxClaimCursor) (page : IndexPage)
    (budget : OutboxClaimBudget) (allowance room : ℕ) (l : Ledger) : Except String ClaimGate :=
  if allowance ≠ 0 then .ok (.room (min allowance room))
  else do
    let candidate ← fairnessCandidate consumer cursor.ackedThrough page.truncated budget.nowMs l
      page.entries
    return match candidate with
      | .fresh => .deferred (.fairnessCapped budget.consecutive budget.consecutiveCap)
      | .retry => .room 1
      | .none => .room 0

/-! ### Leases -/

/-- A row whose attempts are used up. -/
def deadLetter (current : Option OutboxDelivery) (consumer : String) (p : OutboxPosition)
    (nowMs : ℕ) : Option OutboxDelivery :=
  match current with
  | none => none
  | some d =>
    if d.attempt < maxDeliveryAttempts ∨ d.leasedAt nowMs = true then none
    else some { d with
      consumer := consumer
      position := p
      leaseUntilMs := 0
      deadLetteredAtMs := some nowMs }

/-- The next lease of a row. -/
def nextLease (current : Option OutboxDelivery) (consumer : String) (p : OutboxPosition)
    (budget : OutboxClaimBudget) (isHead : Bool) : OutboxDelivery :=
  let epoch := (current.map OutboxDelivery.leaseEpoch).getD 0
  let attempt := (current.map OutboxDelivery.attempt).getD 0
  ⟨consumer, p, saturatingAdd u64Max epoch 1, saturatingAdd u64Max budget.nowMs budget.leaseMs,
    if isHead then saturatingAdd u32Max attempt 1 else attempt, none, none⟩

def leaseOf (record : MutationOutboxRecord) (d : OutboxDelivery) : MutationOutboxLease :=
  ⟨record, d.consumer, d.leaseEpoch, d.leaseUntilMs, d.attempt⟩

/-- What a claim has installed so far. -/
structure Installing where
  ledger : Ledger
  state : OutboxConsumerState
  claimed : List MutationOutboxLease
  deadLettered : List OutboxPosition
  resolvedThrough : Option OutboxPosition
  prefixIntact : Bool

inductive RowStep
  | next (s : Installing)
  | stop (s : Installing)

def RowStep.state : RowStep → Installing
  | .next s => s
  | .stop s => s

/-- Leases one row. -/
def leaseRow (consumer : String) (budget : OutboxClaimBudget) (p : OutboxPosition)
    (current : Option OutboxDelivery) (isHead expired : Bool) (s : Installing) :
    Except String Installing := do
  let inflight ← dropLease expired s.state.inflight
    "CORRUPT_OUTBOX_FAIRNESS: retried lease is absent from in-flight counter"
  let record ← readOutboxRow p s.ledger
  let d := nextLease current consumer p budget isHead
  let inflight ← okOr (checkedAdd u32Max inflight 1)
    "CORRUPT_OUTBOX_FAIRNESS: in-flight counter overflow"
  return { s with
    ledger := putDelivery consumer d s.ledger
    state := { s.state with inflight := inflight }
    claimed := s.claimed ++ [leaseOf record d]
    prefixIntact := false }

/-- One row of the page: skip a resolved row, dead-letter an exhausted head, stop once the room is
spent, skip a held row, lease anything else. -/
def installRow (consumer : String) (budget : OutboxClaimBudget) (room : ℕ)
    (acked : Option OutboxPosition) (p : OutboxPosition) (s : Installing) :
    Except String RowStep := do
  let current := deliveryAt s.ledger consumer p
  validateCurrent current consumer p acked
  if current.any OutboxDelivery.resolved then
    return .next { s with
      resolvedThrough := if s.prefixIntact then some p else s.resolvedThrough }
  else
    let expired := current.any fun d => d.leaseUntilMs ≠ 0 && !d.leasedAt budget.nowMs
    match (if s.prefixIntact then deadLetter current consumer p budget.nowMs else none) with
    | some dead =>
      let state ← recordDeadLetter s.state expired
      return .next { s with
        ledger := putDelivery consumer dead s.ledger
        state := state
        deadLettered := s.deadLettered ++ [dead.position]
        resolvedThrough := some p }
    | none =>
      if room ≤ s.claimed.length then return .stop { s with prefixIntact := false }
      else if current.any fun d => d.leasedAt budget.nowMs then
        return .next { s with prefixIntact := false }
      else
        let s' ← leaseRow consumer budget p current s.prefixIntact expired s
        return .next s'

/-- Leases the rows of a page in order, as far as there is room. -/
def installLeases (consumer : String) (budget : OutboxClaimBudget) (room : ℕ)
    (acked : Option OutboxPosition) : List OutboxPosition → Installing → Except String Installing
  | [], s => .ok s
  | p :: ps, s => do
    match ← installRow consumer budget room acked p s with
    | .stop s => return s
    | .next s => installLeases consumer budget room acked ps s

/-- Charges a claim to the consumer's fairness. -/
def accrue (state : OutboxConsumerState) (budget : OutboxClaimBudget) (tenant : String)
    (claimed : ℕ) : OutboxConsumerState :=
  { state with
    consecutiveClaims :=
      if budget.isConsecutive tenant then
        min (saturatingAdd u32Max state.consecutiveClaims claimed) budget.consecutiveCap
      else claimed
    totalClaims := saturatingAdd u64Max state.totalClaims claimed
    lastClaimAtMs := budget.nowMs }

/-! ### Pruning -/

def readPruneCursor (identity : MutationScopeIdentity) (topic consumer : String) (l : Ledger) :
    Except String PruneCursor :=
  match l.pruneCursors.get consumer with
  | none => .ok ⟨none, none, false⟩
  | some cursor => do
    require (cursor.complete = cursor.boundary.isSome)
      "CORRUPT_OUTBOX_PRUNE: completion does not match boundary"
    require (¬ cursor.position.any (fun p => cursor.boundary.any (· ≤ p)) = true)
      "CORRUPT_OUTBOX_PRUNE: cursor is past its boundary"
    forPosition cursor.position fun p =>
      mapError ("CORRUPT_OUTBOX_PRUNE: " ++ ·) (validatePosition topic identity p l)
    forPosition cursor.boundary fun p =>
      mapError ("CORRUPT_OUTBOX_PRUNE: " ++ ·) (validatePosition topic identity p l)
    return cursor

structure PruneScan where
  stale : List OutboxKey
  last : Option OutboxPosition
  reachedBoundary : Bool

/-- The delivered rows of a page strictly before the boundary; a superseded row stays as its own
retry receipt. -/
def pruneScan (consumer : String) (acked : Option OutboxPosition) (boundary : OutboxPosition)
    (l : Ledger) : List OutboxPosition → Option OutboxPosition → Except String PruneScan
  | [], last => .ok ⟨[], last, false⟩
  | p :: ps, last =>
    if boundary ≤ p then .ok ⟨[], last, true⟩
    else
      match deliveryAt l consumer p with
      | none => pruneScan consumer acked boundary l ps (some p)
      | some d => do
        validateExistingDelivery d consumer p acked
        let rest ← pruneScan consumer acked boundary l ps (some p)
        return if d.delivered && (d.leaseEpoch ≠ 0) then
          { rest with stale := p.row :: rest.stale } else rest

def removeDeliveries (consumer : String) : List OutboxKey → Ledger → Ledger
  | [], l => l
  | k :: ks, l => removeDeliveries consumer ks (removeDelivery consumer k l)

/-- Reclaim a bounded number of delivered rows strictly before the resolved prefix. -/
def pruneResolved (identity : MutationScopeIdentity) (consumer : String)
    (acked resolved : Option OutboxPosition) (l : Ledger) : Except String Ledger :=
  match resolved with
  | none => .ok l
  | some boundary => do
    let topic ← subscribedTopic consumer l
    let cursor ← readPruneCursor identity topic consumer l
    if cursor.complete && cursor.boundary.any (boundary ≤ ·) then return l
    else
      let page ← scanValidatedPage topic identity cursor.position maxPruneRowsPerClaim l
      let scan ← pruneScan consumer acked boundary l page.entries cursor.position
      let complete := scan.reachedBoundary || !page.truncated
      let l := removeDeliveries consumer scan.stale l
      return { l with
        pruneCursors := l.pruneCursors.insert consumer
          ⟨scan.last, if complete then some boundary else none, complete⟩ }

/-! ### Claim -/

/-- Leases the rows of a page and moves the cursor past resolved ones. -/
def installPage (identity : MutationScopeIdentity) (consumer : String) (budget : OutboxClaimBudget)
    (room : ℕ) (cursor : OutboxClaimCursor) (page : IndexPage) (state : OutboxConsumerState)
    (l : Ledger) : Except String (OutboxClaimOutcome × Ledger) := do
  let s ← installLeases consumer budget room cursor.ackedThrough page.entries
    ⟨l, state, [], [], none, true⟩
  let resolved := s.resolvedThrough.or cursor.resolvedThrough
  let l ← pruneResolved identity consumer cursor.ackedThrough resolved s.ledger
  let l := writeClaimCursor consumer { cursor with resolvedThrough := resolved } l
  let l := writeConsumerState consumer
    (accrue s.state budget identity.tenant s.claimed.length) l
  return (.claimed s.claimed page.truncated s.deadLettered, l)

/-- Claims from the next page of the topic. -/
def claimPage (identity : MutationScopeIdentity) (topic consumer : String)
    (budget : OutboxClaimBudget) (state : OutboxConsumerState) (l : Ledger) :
    Except String (OutboxClaimOutcome × Ledger) := do
  let cursor ← readClaimCursor consumer l
  validateClaimCursor topic identity cursor l
  let page ← scanValidatedPage topic identity cursor.resolvedThrough maxClaimScanRows l
  let (gate, state, l) ← reclaimRoom consumer cursor page budget.nowMs state l
  match gate with
  | .deferred reason => return (.deferral reason, l)
  | .room room =>
    match ← decideClaimRoom consumer cursor page budget (budget.allowance identity.tenant) room l with
    | .deferred reason => return (.deferral reason, l)
    | .room room => installPage identity consumer budget room cursor page state l

/-- Lease up to the budget's allowance of a consumer's pending rows. -/
def claimIn (identity : MutationScopeIdentity) (consumer : String) (budget : OutboxClaimBudget)
    (l : Ledger) : Except String (OutboxClaimOutcome × Ledger) := do
  ensureNotGraftFenced l
  let topic ← subscribedTopic consumer l
  let _ ← readCursorInWrite identity consumer l
  let pending ← backfillPending identity l
  if pending then return (.deferral .indexBackfillPending, l)
  else if (l.rewindCursors.get consumer).isSome then return (.deferral .rewindPending, l)
  else
    let state ← readConsumerState consumer l
    if budget.remaining = 0 then return (.deferral .budgetSpent, l)
    else claimPage identity topic consumer budget state l

/-- A consumer claims events of its topic. -/
def claim (identity : MutationScopeIdentity) (consumer : String) (budget : OutboxClaimBudget)
    (l : Ledger) : Except String (OutboxClaimOutcome × OutboxClaimBudget × Ledger) := do
  validateConsumer consumer
  let (outcome, l) ← claimIn identity consumer budget l
  return (outcome, budget.record identity.tenant outcome.claims.length, l)

/-! ### Release and expiry -/

/-- Refuse a delivery-side write for a consumer in the middle of a rewind. -/
def refuseIfRewindPending (consumer : String) (l : Ledger) : Except String Unit :=
  require ((l.rewindCursors.get consumer).isSome = false)
    "OUTBOX_REWIND_PENDING: rewind in progress for this consumer"

def leaseKey (lease : MutationOutboxLease) : OutboxKey :=
  ⟨lease.record.batchId, lease.record.ordinal⟩

/-- Give a held lease back, so the row is claimable again. -/
def release (identity : MutationScopeIdentity) (lease : MutationOutboxLease) (l : Ledger) :
    Except String Ledger := do
  validateConsumer lease.consumer
  ensureNotGraftFenced l
  refuseIfRewindPending lease.consumer l
  let d ← okOr (l.deliveries.get ⟨lease.consumer, leaseKey lease⟩)
    "outbox lease is not durably claimed"
  validateDeliveryEvent d lease.consumer (leaseKey lease)
  let topic ← subscribedTopic lease.consumer l
  let _ ← readCursorInWrite identity lease.consumer l
  mapError ("CORRUPT_OUTBOX_DELIVERY: " ++ ·) (validatePosition topic identity d.position l)
  let cursor ← readClaimCursor lease.consumer l
  validateClaimCursor topic identity cursor l
  mapError ("CORRUPT_OUTBOX_DELIVERY: " ++ ·) (validateDeliveryState d cursor.ackedThrough)
  require (d.resolved = false) "STALE_OUTBOX_LEASE: event was already delivered"
  require (d.leaseEpoch = lease.leaseEpoch) "STALE_OUTBOX_LEASE: consumer or epoch was superseded"
  let released := putDelivery lease.consumer { d with leaseUntilMs := 0 } l
  if 0 < d.leaseUntilMs then releaseInflight lease.consumer 1 released
  else return released

/-- Ends the leases of a consumer that have run out. -/
def expire (identity : MutationScopeIdentity) (consumer : String) (nowMs : ℕ) (l : Ledger) :
    Except String (ℕ × Ledger) := do
  validateConsumer consumer
  ensureNotGraftFenced l
  let topic ← subscribedTopic consumer l
  let _ ← readCursorInWrite identity consumer l
  let cursor ← readClaimCursor consumer l
  validateClaimCursor topic identity cursor l
  let resume := (l.expiryCursors.get consumer).getD none
  forPosition resume fun p =>
    mapError ("CORRUPT_OUTBOX_EXPIRY: " ++ ·) (validatePosition topic identity p l)
  let page ← scanValidatedPage topic identity resume maxClaimScanRows l
  if page.entries.isEmpty then
    return (0, { l with expiryCursors := l.expiryCursors.insert consumer none })
  else
    let stale ← expiredDeliveries consumer cursor.ackedThrough nowMs l page.entries
    let l ← releaseInflight consumer stale.length (zeroLeases consumer stale l)
    let next := if page.truncated then page.entries.getLast? else none
    return (stale.length, { l with expiryCursors := l.expiryCursors.insert consumer next })

end Medulla.Outbox.Claim
