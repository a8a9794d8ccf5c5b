import Medulla.Outbox.Claim

/-! # Acknowledging, rejecting and superseding outbox rows

An acknowledgement proves its lease, moves the watermark and resolves the delivery row in one
transaction; a rejection proves the same lease and writes a terminal dead letter without moving the
watermark; a supersession names the committed source row instead of a lease. -/

namespace Medulla.Outbox.Cursor

open Library.Checked Types.Batch Types.Records Mutation.State Outbox.Index Rows Claim

/-! ### The lease -/

def readDelivery (identity : MutationScopeIdentity) (lease : MutationOutboxLease) (l : Ledger) :
    Except String OutboxDelivery := do
  let d ← okOr (l.deliveries.get ⟨lease.consumer, leaseKey lease⟩)
    "outbox lease is not durably claimed"
  validateDeliveryEvent d lease.consumer (leaseKey lease)
  let topic ← subscribedTopic lease.consumer l
  mapError ("CORRUPT_OUTBOX_DELIVERY: " ++ ·) (validatePosition topic identity d.position l)
  return d

/-- What an ack or a reject checks before it looks at the resolution of the row. -/
def prepareDeliveryOp (identity : MutationScopeIdentity) (lease : MutationOutboxLease)
    (op : String) (l : Ledger) : Except String OutboxDelivery := do
  validateConsumer lease.consumer
  ensureNotGraftFenced l
  require (lease.record.identity = identity)
    ("outbox " ++ op ++ " route does not match the leased record")
  lease.record.validate
  refuseIfRewindPending lease.consumer l
  readDelivery identity lease l

def cursorNames (current : Option MutationProjectionCursor) (lease : MutationOutboxLease) :
    Option MutationProjectionCursor :=
  current.filter fun cursor =>
    cursor.batchId = lease.record.batchId && cursor.outboxOrdinal = lease.record.ordinal

def resolveDelivered (d : OutboxDelivery) (lease : MutationOutboxLease)
    (current : Option MutationProjectionCursor) (nowMs : ℕ) :
    Except String (Option MutationProjectionCursor) :=
  if d.consumer ≠ lease.consumer ∨ d.leaseEpoch ≠ lease.leaseEpoch then
    .error "STALE_OUTBOX_LEASE: consumer or epoch was superseded"
  else if d.deadLettered then .error "OUTBOX_DEAD_LETTER: event exhausted its retry class"
  else if d.delivered then
    match cursorNames current lease with
    | some cursor => .ok (some cursor)
    | none => .error "STALE_OUTBOX_LEASE: event was already delivered"
  else if d.leaseUntilMs ≤ nowMs ∨ d.leaseUntilMs ≠ lease.leaseUntilMs then
    .error "STALE_OUTBOX_LEASE: lease expired or was replaced"
  else .ok none

def requireLeasedRecord (d : OutboxDelivery) (lease : MutationOutboxLease) (l : Ledger) :
    Except String Unit := do
  let durable ← readOutboxRow d.position l
  require (durable = lease.record) "outbox lease record does not match durable event"

/-! ### Acknowledging -/

/-- What a validated acknowledgement is: a retry, or an advance with everything it writes. -/
inductive PreparedAck
  | replayed (cursor : MutationProjectionCursor)
  | advance (delivery : OutboxDelivery) (cursor : MutationProjectionCursor)
      (claimCursor : OutboxClaimCursor)

/-- Checks an acknowledgement against the stored row. -/
def prepareAck (identity : MutationScopeIdentity) (lease : MutationOutboxLease) (nowMs : ℕ)
    (l : Ledger) : Except String PreparedAck := do
  let d ← prepareDeliveryOp identity lease "ack" l
  requireLeasedRecord d lease l
  let current ← readCursorInWrite identity lease.consumer l
  match ← resolveDelivered d lease current nowMs with
  | some cursor => return .replayed cursor
  | none =>
    let claimCursor ← readClaimCursor lease.consumer l
    let topic ← subscribedTopic lease.consumer l
    validateClaimCursor topic identity claimCursor l
    validateDeliveryState d claimCursor.ackedThrough
    requireAdvance claimCursor.ackedThrough d.position
    requireNoEarlierGap identity lease.consumer claimCursor d.position l
    let cursor ← buildCursor lease.consumer lease.record nowMs
    require (cursor.identity = identity)
      "outbox delivery row is not stamped with this scope identity"
    return .advance d cursor (advanceClaimCursor claimCursor d.position)

/-- Writes an acknowledgement: the row, both cursors and the counter. -/
def commitAck (consumer : String) (d : OutboxDelivery) (cursor : MutationProjectionCursor)
    (claimCursor : OutboxClaimCursor) (nowMs : ℕ) (l : Ledger) : Ledger :=
  let l := putDelivery consumer { d with deliveredAtMs := some nowMs } l
  let l := { l with cursors := l.cursors.insert consumer cursor }
  writeClaimCursor consumer claimCursor l

/-- Acknowledges a leased event. -/
def ack (identity : MutationScopeIdentity) (lease : MutationOutboxLease) (nowMs : ℕ) (l : Ledger) :
    Except String (MutationProjectionCursor × Ledger) := do
  match ← prepareAck identity lease nowMs l with
  | .replayed cursor => return (cursor, l)
  | .advance d cursor claimCursor =>
    let l ← recordDelivered lease.consumer (commitAck lease.consumer d cursor claimCursor nowMs l)
    return (cursor, l)

/-! ### Rejecting -/

def prepareReject (identity : MutationScopeIdentity) (lease : MutationOutboxLease) (nowMs : ℕ)
    (l : Ledger) : Except String OutboxDelivery := do
  let d ← prepareDeliveryOp identity lease "reject" l
  requireLeasedRecord d lease l
  let current ← readCursorInWrite identity lease.consumer l
  let replayed ← resolveDelivered d lease current nowMs
  require (replayed = none) "STALE_OUTBOX_LEASE: event was already delivered"
  let claimCursor ← readClaimCursor lease.consumer l
  validateDeliveryState d claimCursor.ackedThrough
  return d

def rejected (d : OutboxDelivery) (nowMs : ℕ) : OutboxDelivery :=
  { d with
    attempt := max d.attempt maxDeliveryAttempts
    leaseUntilMs := 0
    deadLetteredAtMs := some nowMs }

/-- Resolve one held lease as a terminal failure, without moving the watermark. -/
def reject (identity : MutationScopeIdentity) (lease : MutationOutboxLease) (nowMs : ℕ)
    (l : Ledger) : Except String Ledger := do
  let d ← prepareReject identity lease nowMs l
  let l := putDelivery lease.consumer (rejected d nowMs) l
  let state ← readConsumerState lease.consumer l
  let state ← recordDeadLetter state true
  return writeConsumerState lease.consumer state l

/-! ### Superseding -/

def enrichmentConsumer : String := "repository-enrichment-v1"

def validateSourceRoute (identity : MutationScopeIdentity) (consumer : String)
    (expected : MutationOutboxRecord) (l : Ledger) : Except String Unit := do
  validateConsumer consumer
  expected.validateWriteBudget
  require (consumer = enrichmentConsumer ∧ expected.intent.topic = repositoryEnrichmentPendingTopic)
    "OUTBOX_SUPERSEDE_MISMATCH: reserved consumer or topic differs"
  require (expected.identity = identity)
    "OUTBOX_SUPERSEDE_MISMATCH: source scope differs from admitted owner"
  ensureNotGraftFenced l

def sourcePosition (record : MutationOutboxRecord) : Except String OutboxPosition := do
  let sequence ← okOr record.commitSequence
    "OUTBOX_SUPERSEDE_MISMATCH: source has no authoritative commit sequence"
  return positionAt record sequence

def validateSourceRow (identity : MutationScopeIdentity) (expected : MutationOutboxRecord)
    (p : OutboxPosition) (l : Ledger) : Except String Unit := do
  let durable ← readOutboxRow p l
  require (durable = expected) "OUTBOX_SUPERSEDE_MISMATCH: source row differs from expected event"
  validatePosition expected.intent.topic identity p l

def readSourceDelivery (consumer : String) (p : OutboxPosition) (l : Ledger) :
    Except String (Option OutboxDelivery) :=
  match deliveryAt l consumer p with
  | none => .ok none
  | some d => do
    validateDeliveryKey d consumer p
    let claimCursor ← readClaimCursor consumer l
    validateDeliveryState d claimCursor.ackedThrough
    return some d

def replayReceipt (d : OutboxDelivery) (claimCursor : OutboxClaimCursor)
    (expected : MutationOutboxRecord) (nowMs : ℕ) : Except String MutationProjectionCursor := do
  require (d.leaseEpoch = 0 ∧ d.attempt = 0 ∧ d.deliveredAtMs = some nowMs ∧
      claimCursor.ackedThrough.any (d.position ≤ ·) = true)
    "OUTBOX_SUPERSEDE_MISMATCH: event was resolved by another transition"
  buildCursor d.consumer expected nowMs

/-- The terminal row of a superseded event: epoch zero fences every lease issued before it. -/
def superseded (consumer : String) (p : OutboxPosition) (nowMs : ℕ) : OutboxDelivery :=
  ⟨consumer, p, 0, 0, 0, some nowMs, none⟩

def recordSuperseded (consumer : String) (held : Bool) (l : Ledger) : Except String Ledger := do
  let state ← readConsumerState consumer l
  let delivered ← okOr (checkedAdd u64Max state.delivered 1)
    "CORRUPT_OUTBOX_FAIRNESS: delivered counter overflow"
  let inflight ← dropLease held state.inflight
    "CORRUPT_OUTBOX_FAIRNESS: superseded lease absent from counter"
  return writeConsumerState consumer { state with delivered := delivered, inflight := inflight } l

/-- Write the terminal row of a source event that is not resolved yet. -/
def supersedeRow (identity : MutationScopeIdentity) (consumer : String)
    (expected : MutationOutboxRecord) (p : OutboxPosition) (claimCursor : OutboxClaimCursor)
    (previous : Option OutboxDelivery) (nowMs : ℕ) (l : Ledger) :
    Except String (MutationProjectionCursor × Ledger) := do
  requireAdvance claimCursor.ackedThrough p
  requireNoEarlierGap identity consumer claimCursor p l
  let receipt ← buildCursor consumer expected nowMs
  let l := putDelivery consumer (superseded consumer p nowMs) l
  let l := { l with cursors := l.cursors.insert consumer receipt }
  let l := writeClaimCursor consumer (advanceClaimCursor claimCursor p) l
  let l ← recordSuperseded consumer (previous.any fun d => d.leaseUntilMs ≠ 0) l
  return (receipt, l)

/-- Resolve one exact committed source event without a lease. -/
def supersede (identity : MutationScopeIdentity) (consumer : String)
    (expected : MutationOutboxRecord) (nowMs : ℕ) (l : Ledger) :
    Except String (MutationProjectionCursor × Ledger) := do
  validateSourceRoute identity consumer expected l
  refuseIfRewindPending consumer l
  let pending ← backfillPending identity l
  require (pending = false) "OUTBOX_INDEX_BACKFILL_PENDING: source prefix is not verified"
  let p ← sourcePosition expected
  validateSourceRow identity expected p l
  let l ← subscribeIn consumer expected.intent.topic l
  let _ ← readCursorInWrite identity consumer l
  let claimCursor ← readClaimCursor consumer l
  validateClaimCursor expected.intent.topic identity claimCursor l
  match ← readSourceDelivery consumer p l with
  | none => supersedeRow identity consumer expected p claimCursor none nowMs l
  | some d =>
    if d.deadLettered then .error "OUTBOX_DEAD_LETTER: source event is terminally rejected"
    else if d.delivered then do
      let receipt ← replayReceipt d claimCursor expected nowMs
      return (receipt, l)
    else supersedeRow identity consumer expected p claimCursor (some d) nowMs l

end Medulla.Outbox.Cursor
