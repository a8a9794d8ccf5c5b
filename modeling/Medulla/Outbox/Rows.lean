import Medulla.Mutation.Commit

/-! # Delivery-side rows and their checks

The bounds of the delivery protocol, the checks a delivery row, a claim cursor and a consumer state
pass when they are read, and the reads every delivery operation starts from. -/

namespace Medulla.Outbox.Rows

open Library.Checked Types.Batch Types.Records Mutation.State Mutation.Commit Outbox.Index

/-! ### Bounds -/

/-- How many claimed but unresolved rows one consumer may hold. -/
def outboxQueueCapacity : ℕ := 2048

def maxPruneRowsPerClaim : ℕ := 256

/-- How many times one row may be leased before it is dead-lettered. -/
def maxDeliveryAttempts : ℕ := 16

/-! ### Names -/

/-- A name without padding, as a key needs it. -/
def validateKeyText (value label : String) : Except String Unit := do
  require (value ≠ "" ∧ isPadded value = false) (label ++ " is empty or padded")
  require (value.toList.any isControl = false) (label ++ " carries a control character")
  require (value.utf8ByteSize ≤ 256) (label ++ " exceeds its key budget")

def validateConsumer (consumer : String) : Except String Unit :=
  validateKeyText consumer "outbox consumer name"

def validateTopic (topic : String) : Except String Unit := validateKeyText topic "outbox topic"

/-- Refuse delivery-side writes while the scope is under graft. -/
def ensureNotGraftFenced (l : Ledger) : Except String Unit :=
  require (l.fence.any ScopeFence.isGraft = false) "STALE_FENCE: scope is under graft"

/-! ### Delivery rows -/

def deliveryAt (l : Ledger) (consumer : String) (p : OutboxPosition) : Option OutboxDelivery :=
  l.deliveries.get ⟨consumer, p.row⟩

def putDelivery (consumer : String) (d : OutboxDelivery) (l : Ledger) : Ledger :=
  { l with deliveries := l.deliveries.insert ⟨consumer, d.position.row⟩ d }

def removeDelivery (consumer : String) (key : OutboxKey) (l : Ledger) : Ledger :=
  { l with deliveries := l.deliveries.remove ⟨consumer, key⟩ }

/-- A delivery row is consistent with the acknowledged prefix. -/
def validateDeliveryState (d : OutboxDelivery) (acked : Option OutboxPosition) :
    Except String Unit := do
  require (¬ (d.delivered = true ∧ d.deadLettered = true))
    "CORRUPT_OUTBOX_DELIVERY: row is both delivered and dead-lettered"
  require (d.delivered = true → acked.any (d.position ≤ ·) = true)
    "CORRUPT_OUTBOX_DELIVERY: delivered row is beyond the acknowledged watermark"
  require (d.deadLettered = true → maxDeliveryAttempts ≤ d.attempt ∧ d.leaseUntilMs = 0)
    "CORRUPT_OUTBOX_DELIVERY: invalid dead-letter terminal state"

def validateDeliveryKey (d : OutboxDelivery) (consumer : String) (p : OutboxPosition) :
    Except String Unit :=
  require (d.consumer = consumer ∧ d.position = p)
    "CORRUPT_OUTBOX_DELIVERY: row does not match its key"

def validateDeliveryEvent (d : OutboxDelivery) (consumer : String) (key : OutboxKey) :
    Except String Unit :=
  require (d.consumer = consumer ∧ d.position.row = key)
    "CORRUPT_OUTBOX_DELIVERY: row does not match its key"

/-- A stored delivery row is the one its key names. -/
def validateExistingDelivery (d : OutboxDelivery) (consumer : String) (p : OutboxPosition)
    (acked : Option OutboxPosition) : Except String Unit := do
  validateDeliveryKey d consumer p
  validateDeliveryState d acked

def validateCurrent (current : Option OutboxDelivery) (consumer : String) (p : OutboxPosition)
    (acked : Option OutboxPosition) : Except String Unit :=
  match current with
  | some d => validateExistingDelivery d consumer p acked
  | none => .ok ()

/-- The event at a position. -/
def readOutboxRow (p : OutboxPosition) (l : Ledger) : Except String MutationOutboxRecord := do
  let record ← okOr (l.outbox.get p.row)
    "CORRUPT_MUTATION_LEDGER: outbox index names a missing event"
  record.validate
  return record

/-! ### Subscriptions -/

def subscribedTopic (consumer : String) (l : Ledger) : Except String String := do
  let topic ← okOr (l.consumers.get consumer) "outbox consumer has no durable subscription"
  validateTopic topic
  return topic

/-- Subscribes a consumer to a topic, once. -/
def subscribeIn (consumer topic : String) (l : Ledger) : Except String Ledger := do
  validateConsumer consumer
  validateTopic topic
  ensureNotGraftFenced l
  match l.consumers.get consumer with
  | some current =>
    require (current = topic) "outbox consumer is already subscribed to another topic"
    return l
  | none => return { l with consumers := l.consumers.insert consumer topic }

/-! ### Backfill -/

/-- Close claims before a backfill page: a completed index is scanned again from its start. -/
def backfillGate (identity : MutationScopeIdentity) (l : Ledger) : Except String Ledger := do
  ensureNotGraftFenced l
  let state ← readBackfillState identity l
  return if state.complete then { l with backfill := some ⟨none, false⟩ } else l

/-- Indexes a page of the events stored before the index was. -/
def backfillIn (identity : MutationScopeIdentity) (l : Ledger) :
    Except String (OutboxBackfillOutcome × Ledger) := do
  ensureNotGraftFenced l
  backfillPage identity l

/-! ### Claim cursor -/

/-- How far a consumer's stream is resolved. -/
def readClaimCursor (consumer : String) (l : Ledger) : Except String OutboxClaimCursor :=
  match l.claimCursors.get consumer with
  | some cursor => do
    require (cursor.consumer = consumer) "CORRUPT_OUTBOX_CURSOR: consumer does not match its key"
    return cursor
  | none => .ok ⟨consumer, none, none⟩

def writeClaimCursor (consumer : String) (cursor : OutboxClaimCursor) (l : Ledger) : Ledger :=
  { l with claimCursors := l.claimCursors.insert consumer cursor }

def validateBoundary (cursor : OutboxClaimCursor) (p : OutboxPosition) (l : Ledger) :
    Except String Unit := do
  let d ← okOr (deliveryAt l cursor.consumer p)
    "CORRUPT_OUTBOX_CURSOR: resolved boundary has no delivery row"
  mapError ("CORRUPT_OUTBOX_CURSOR: " ++ ·) (validateDeliveryKey d cursor.consumer p)
  mapError ("CORRUPT_OUTBOX_CURSOR: " ++ ·) (validateDeliveryState d cursor.ackedThrough)
  require (d.resolved = true) "CORRUPT_OUTBOX_CURSOR: resolved boundary delivery is unresolved"

def forPosition (p : Option OutboxPosition) (check : OutboxPosition → Except String Unit) :
    Except String Unit :=
  match p with
  | none => .ok ()
  | some p => check p

/-- Whether the acknowledged position lies beyond the resolved prefix. -/
def ackedBeyondResolved (cursor : OutboxClaimCursor) : Bool :=
  cursor.ackedThrough.any fun acked => cursor.resolvedThrough.all (· < acked)

/-- The boundaries of a claim cursor name live, resolved rows in order. -/
def validateClaimCursor (topic : String) (identity : MutationScopeIdentity)
    (cursor : OutboxClaimCursor) (l : Ledger) : Except String Unit := do
  forPosition cursor.resolvedThrough fun p =>
    mapError ("CORRUPT_OUTBOX_CURSOR: " ++ ·) (validatePosition topic identity p l)
  forPosition cursor.ackedThrough fun p =>
    mapError ("CORRUPT_OUTBOX_CURSOR: " ++ ·) (validatePosition topic identity p l)
  forPosition cursor.resolvedThrough fun p => validateBoundary cursor p l
  require (ackedBeyondResolved cursor = false)
    "CORRUPT_OUTBOX_CURSOR: acknowledged position is beyond resolved prefix"

/-! ### Consumer state -/

/-- The durable accounting of a consumer; a fresh one is all zero. -/
def readConsumerState (consumer : String) (l : Ledger) : Except String OutboxConsumerState :=
  match l.fairness.get consumer with
  | some state => do
    require (state.consumer = consumer)
      "CORRUPT_OUTBOX_FAIRNESS: consumer does not match its key"
    require (state.inflight ≤ outboxQueueCapacity)
      "CORRUPT_OUTBOX_FAIRNESS: in-flight count exceeds capacity"
    return state
  | none => .ok ⟨consumer, 0, 0, 0, 0, 0, 0⟩

def writeConsumerState (consumer : String) (state : OutboxConsumerState) (l : Ledger) : Ledger :=
  { l with fairness := l.fairness.insert consumer state }

/-- Takes rows off the in-flight counter. -/
def releaseInflight (consumer : String) (amount : ℕ) (l : Ledger) : Except String Ledger := do
  let state ← readConsumerState consumer l
  let inflight ← okOr (checkedSub state.inflight amount)
    "CORRUPT_OUTBOX_FAIRNESS: in-flight counter underflow/overflow"
  require (inflight ≤ outboxQueueCapacity)
    "CORRUPT_OUTBOX_FAIRNESS: in-flight count exceeds capacity"
  return writeConsumerState consumer { state with inflight := inflight } l

/-- The in-flight count once a lease that was counted is gone. -/
def dropLease (held : Bool) (inflight : ℕ) (message : String) : Except String ℕ :=
  if held then okOr (checkedSub inflight 1) message else .ok inflight

def recordDeadLetter (state : OutboxConsumerState) (held : Bool) :
    Except String OutboxConsumerState := do
  let inflight ← dropLease held state.inflight
    "CORRUPT_OUTBOX_FAIRNESS: dead-lettered lease is absent from counter"
  let dead ← okOr (checkedAdd u64Max state.deadLettered 1)
    "CORRUPT_OUTBOX_FAIRNESS: dead-letter counter overflow"
  return { state with inflight := inflight, deadLettered := dead }

def recordDelivered (consumer : String) (l : Ledger) : Except String Ledger := do
  let state ← readConsumerState consumer l
  let delivered ← okOr (checkedAdd u64Max state.delivered 1)
    "CORRUPT_OUTBOX_FAIRNESS: delivered counter overflow"
  let inflight ← okOr (checkedSub state.inflight 1)
    "CORRUPT_OUTBOX_FAIRNESS: acknowledged lease is absent from in-flight counter"
  return writeConsumerState consumer { state with delivered := delivered, inflight := inflight } l

/-! ### Projection cursor -/

/-- The projection cursor of an acknowledged event. -/
def buildCursor (consumer : String) (record : MutationOutboxRecord) (nowMs : ℕ) :
    Except String MutationProjectionCursor := do
  let cursor : MutationProjectionCursor :=
    ⟨consumer, record.identity, record.batchId, record.ordinal, record.committedVersion, nowMs⟩
  cursor.validate
  return cursor

/-- A stored projection cursor names an indexed event and agrees with the claim watermark. -/
def validateProjectionCursor (identity : MutationScopeIdentity) (consumer : String)
    (cursor : MutationProjectionCursor) (l : Ledger) : Except String Unit := do
  require (cursor.projection = consumer)
    "CORRUPT_OUTBOX_CURSOR: projection does not match its key"
  let topic ← subscribedTopic consumer l
  let record ← okOr (l.outbox.get ⟨cursor.batchId, cursor.outboxOrdinal⟩)
    "CORRUPT_OUTBOX_CURSOR: cursor names a missing event"
  mapError ("CORRUPT_OUTBOX_CURSOR: " ++ ·) record.validate
  require (record.batchId = cursor.batchId ∧ record.ordinal = cursor.outboxOrdinal ∧
      record.identity = cursor.identity ∧ record.intent.topic = topic ∧
      record.committedVersion = cursor.committedVersion)
    "CORRUPT_OUTBOX_CURSOR: cursor does not match its event"
  let found ← positionForRecord topic record l
  let position ← okOr found "CORRUPT_OUTBOX_CURSOR: cursor event is absent from the topic index"
  let claimCursor ← readClaimCursor consumer l
  validateClaimCursor topic identity claimCursor l
  require (claimCursor.ackedThrough = some position)
    "CORRUPT_OUTBOX_CURSOR: projection cursor disagrees with claim watermark"

def readCursorInWrite (identity : MutationScopeIdentity) (consumer : String) (l : Ledger) :
    Except String (Option MutationProjectionCursor) :=
  match l.cursors.get consumer with
  | some cursor => do
    require (cursor.identity = identity)
      "outbox delivery row is not stamped with this scope identity"
    validateProjectionCursor identity consumer cursor l
    return some cursor
  | none => do
    let claimCursor ← readClaimCursor consumer l
    require (claimCursor.ackedThrough = none)
      "CORRUPT_OUTBOX_CURSOR: claim watermark has no projection cursor"
    return none

/-! ### Ordering -/

/-- The watermark only moves forward, in index order. -/
def requireAdvance (acked : Option OutboxPosition) (p : OutboxPosition) : Except String Unit :=
  require (acked.all (· < p) = true) "STALE_PROJECTION_CURSOR: event does not advance watermark"

/-- Walk the rows before an event and refuse the first unresolved one; `true` when the event is
reached. -/
def scanEarlierGap (topic : String) (identity : MutationScopeIdentity) (consumer : String)
    (acked : Option OutboxPosition) (target : OutboxPosition) (l : Ledger) :
    List OutboxPosition → Except String Bool
  | [] => .ok false
  | p :: ps => do
    mapError ("CORRUPT_OUTBOX_INDEX: " ++ ·) (validatePosition topic identity p l)
    if target ≤ p then return p = target
    else
      match deliveryAt l consumer p with
      | none =>
        .error ("OUTBOX_ORDER_GAP: event '" ++ p.batchId ++ ":" ++ toString p.ordinal ++
          "' is not yet delivered")
      | some d => do
        validateExistingDelivery d consumer p acked
        require (d.resolved = true)
          ("OUTBOX_ORDER_GAP: event '" ++ p.batchId ++ ":" ++ toString p.ordinal ++
            "' is not yet delivered")
        scanEarlierGap topic identity consumer acked target l ps

/-- Every event before this one is resolved. -/
def requireNoEarlierGap (identity : MutationScopeIdentity) (consumer : String)
    (cursor : OutboxClaimCursor) (target : OutboxPosition) (l : Ledger) : Except String Unit := do
  let topic ← subscribedTopic consumer l
  let page := scanInWrite topic cursor.resolvedThrough maxClaimScanRows l
  let reached ← scanEarlierGap topic identity consumer cursor.ackedThrough target l page.entries
  require (reached = true)
    "OUTBOX_ORDER_GAP: bounded predecessor scan did not reach the acknowledged event"

/-- Move the acknowledged watermark, and the resolved prefix with it. -/
def advanceClaimCursor (cursor : OutboxClaimCursor) (p : OutboxPosition) : OutboxClaimCursor :=
  { cursor with
    ackedThrough := some p
    resolvedThrough :=
      if cursor.resolvedThrough.all (· < p) then some p else cursor.resolvedThrough }

end Medulla.Outbox.Rows
