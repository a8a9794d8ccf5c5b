import Mathlib.Data.Prod.Lex
import Medulla.Types.Batch

/-! # Durable rows

The rows the mutation ledger keeps for one scope: terminal batch records, replay rows, outbox events
and the delivery side of the outbox. Rows of one ledger all belong to one bound scope, so the stamped
scope identity of a row is kept only where a check compares it with caller data. -/

namespace Medulla.Types.Records

open Library.Checked Batch

/-! ### Batch records -/

/-- Durable terminal state. -/
inductive MutationBatchStatus
  | prepared | committed | aborted
  deriving DecidableEq

def MutationBatchStatus.debug : MutationBatchStatus → String
  | .prepared => "Prepared"
  | .committed => "Committed"
  | .aborted => "Aborted"

/-- What a result payload decodes to, as far as the terminal outbox reads it. -/
inductive ResultPayload
  | undecodable
  | notJson
  | json (status : Option String)
  deriving DecidableEq

/-- A stored result: its bytes, and what the MessagePack decoder reads in them. -/
structure ResultMsgpack where
  bytes : List UInt8
  payload : ResultPayload
  deriving DecidableEq

/-- A batch as the ledger keeps it, with its outcome. -/
structure MutationBatchRecord where
  batch : MutationBatch
  status : MutationBatchStatus
  committedVersion : CommittedVersion
  resultMsgpack : Option ResultMsgpack
  committedAtMs : ℕ
  deriving DecidableEq

def validateCommittedExpectation : VersionExpectation → CommittedVersion → Except String Unit
  | .graph expected, .graph source target =>
    require (source = expected ∧ checkedAdd u64Max expected 1 = some target)
      "committed mutation version does not match its expectation"
  | .native expected, .native source target =>
    require (source = expected ∧ checkedAdd u64Max expected 1 = some target)
      "committed mutation version does not match its expectation"
  | .unversioned, .none => .ok ()
  | _, _ => .error "committed mutation version does not match its expectation"

namespace MutationBatchRecord

def validate (r : MutationBatchRecord) : Except String Unit := do
  r.batch.validate
  match r.status with
  | .committed => validateCommittedExpectation r.batch.versionExpectation r.committedVersion
  | _ =>
    require (r.committedVersion = .none)
      "mutation receipt status has invalid committed version semantics"

def validateWriteBudget (r : MutationBatchRecord) : Except String Unit := do
  r.validate
  r.batch.validateWriteBudget
  match r.resultMsgpack with
  | some result => do
    let _ ← accountWriteBytes 0 result.bytes.length
    return ()
  | none => .ok ()

end MutationBatchRecord

/-! ### Replay rows -/

structure MutationResult where
  encoded : List UInt8
  digest : Digest256
  noEffect : Bool
  wellFormed : Bool
  deriving DecidableEq

/-- The kernel-level receipt of the authority-context path. -/
structure MutationReceipt where
  receiptId : String
  operationReplayDigest : Digest256
  nonceReplayDigest : Digest256
  scope : String
  disposition : String
  effectId : Option String
  effectDigest : Option String
  commitId : Option String
  result : MutationResult
  resultDigest : Digest256
  deriving DecidableEq

def MutationReceipt.validate (r : MutationReceipt) : Except String Unit := do
  require (r.result.wellFormed = true) "mutation result is invalid"
  require (r.resultDigest = r.result.digest) "mutation receipt result digest mismatch"
  if r.disposition ∈ ["committed", "replayed"] then
    require (r.effectId.isSome = true ∧ r.effectDigest.isSome = true ∧ r.commitId.isSome = true ∧
        r.result.noEffect = false)
      "successful mutation requires effect, commit, and success result"
  else if r.disposition ∈ ["rejected", "conflict", "unavailable"] then
    require (r.effectId = none ∧ r.effectDigest = none ∧ r.commitId = none ∧
        r.result.noEffect = true)
      "failed mutation cannot expose effect/commit/success result"
  else .ok ()

/-- What an operation left: its batch, or a receipt. -/
inductive RecordedOperation
  | batch (batchId : String)
  | receipt (receipt : MutationReceipt)
  deriving DecidableEq

def RecordedOperation.batchId : RecordedOperation → Option String
  | .batch b => some b
  | .receipt _ => none

/-- The row that answers a repeated operation. -/
structure OperationReplayRow where
  idempotencyKey : String
  operationReplayDigest : Digest256
  nonceReplayDigest : Digest256
  batchId : String
  recorded : RecordedOperation

/-- The newest placement epoch and token a scope has seen. -/
structure ScopeFence where
  placementEpoch : ℕ
  fencingToken : ℕ
  deriving DecidableEq

inductive MutationClass
  | operation | maintenance

/-! ### Outbox events -/

/-- A published event. -/
structure MutationOutboxRecord where
  batchId : String
  ordinal : ℕ
  identity : MutationScopeIdentity
  committedVersion : CommittedVersion
  commitSequence : Option ℕ
  intent : MutationOutboxIntent
  createdAtMs : ℕ
  deriving DecidableEq

def committedVersionFits : MutationScope → CommittedVersion → Bool
  | .graph _, .graph source target => checkedAdd u64Max source 1 = some target
  | .native _ _, .native source target => checkedAdd u64Max source 1 = some target
  | .native domain _, .none => domain = .controlPlane || domain = .lifecycle
  | _, _ => false

def validateCommittedScope (scope : MutationScope) (committed : CommittedVersion) (name : String) :
    Except String Unit :=
  require (committedVersionFits scope committed = true)
    ("mutation " ++ name ++ " committed version does not match its typed scope")

namespace MutationOutboxRecord

def validate (r : MutationOutboxRecord) : Except String Unit := do
  validateRequired r.batchId "mutation outbox batch_id"
  validateRequired r.intent.topic "mutation outbox topic"
  validateRequired r.intent.key "mutation outbox key"
  validateCommittedScope r.identity.scope r.committedVersion "outbox"

def validateWriteBudget (r : MutationOutboxRecord) : Except String Unit := do
  r.validate
  let bytes ← accountAll 0 [r.batchId.utf8ByteSize, r.intent.topic.utf8ByteSize,
    r.intent.key.utf8ByteSize, r.intent.payload.length]
  require (r.intent.headers.length ≤ maxMutationOperations) "mutation write exceeds its header budget"
  let _ ← accountAll bytes (r.intent.headers.flatMap fun h => [h.1.utf8ByteSize, h.2.utf8ByteSize])
  return ()

end MutationOutboxRecord

/-- An event handed to a consumer for a time. -/
structure MutationOutboxLease where
  record : MutationOutboxRecord
  consumer : String
  leaseEpoch : ℕ
  leaseUntilMs : ℕ
  attempt : ℕ
  deriving DecidableEq

structure MutationProjectionCursor where
  projection : String
  identity : MutationScopeIdentity
  batchId : String
  outboxOrdinal : ℕ
  committedVersion : CommittedVersion
  advancedAtMs : ℕ

def MutationProjectionCursor.validate (c : MutationProjectionCursor) : Except String Unit := do
  validateRequired c.projection "mutation projection"
  validateRequired c.batchId "mutation projection batch_id"
  validateCommittedScope c.identity.scope c.committedVersion "projection cursor"

/-! ### Positions and keys -/

/-- One position in a scope's commit-ordered outbox index. -/
structure OutboxPosition where
  sequence : ℕ
  createdAtMs : ℕ
  batchId : String
  ordinal : ℕ
  deriving DecidableEq

/-- The components of a position, in the order the index compares them. -/
def OutboxPosition.key (p : OutboxPosition) : Lex (ℕ × Lex (ℕ × Lex (String × ℕ))) :=
  toLex (p.sequence, toLex (p.createdAtMs, toLex (p.batchId, p.ordinal)))

theorem OutboxPosition.key_injective : Function.Injective OutboxPosition.key := by
  intro p q h
  cases p
  cases q
  simpa [OutboxPosition.key] using h

instance : LinearOrder OutboxPosition :=
  LinearOrder.lift' OutboxPosition.key OutboxPosition.key_injective

theorem OutboxPosition.lt_of_sequence_lt {p q : OutboxPosition} (h : p.sequence < q.sequence) :
    p < q :=
  show p.key < q.key from Prod.Lex.left _ _ h

structure OutboxKey where
  batchId : String
  ordinal : ℕ
  deriving DecidableEq

/-- The components of an outbox key, in the order the table compares them. -/
def OutboxKey.key (k : OutboxKey) : Lex (String × ℕ) := toLex (k.batchId, k.ordinal)

theorem OutboxKey.key_injective : Function.Injective OutboxKey.key := by
  intro p q h
  cases p
  cases q
  simpa [OutboxKey.key] using h

instance : LinearOrder OutboxKey := LinearOrder.lift' OutboxKey.key OutboxKey.key_injective

def OutboxPosition.row (p : OutboxPosition) : OutboxKey := ⟨p.batchId, p.ordinal⟩

structure IndexKey where
  topic : String
  position : OutboxPosition
  deriving DecidableEq

/-- The components of an index key, in the order the table compares them. -/
def IndexKey.key (k : IndexKey) : Lex (String × OutboxPosition) := toLex (k.topic, k.position)

theorem IndexKey.key_injective : Function.Injective IndexKey.key := by
  intro p q h
  cases p
  cases q
  simpa [IndexKey.key] using h

instance : LinearOrder IndexKey := LinearOrder.lift' IndexKey.key IndexKey.key_injective

theorem IndexKey.lt_iff_position_lt {topic : String} {p q : OutboxPosition} :
    (⟨topic, p⟩ : IndexKey) < ⟨topic, q⟩ ↔ p < q := by
  change toLex (topic, p) < toLex (topic, q) ↔ _
  simp [Prod.Lex.toLex_lt_toLex]

structure DeliveryKey where
  consumer : String
  row : OutboxKey

/-- The components of a delivery key, in the order the table compares them. -/
def DeliveryKey.key (k : DeliveryKey) : Lex (String × OutboxKey) := toLex (k.consumer, k.row)

theorem DeliveryKey.key_injective : Function.Injective DeliveryKey.key := by
  intro p q h
  cases p
  cases q
  simpa [DeliveryKey.key] using h

instance : LinearOrder DeliveryKey := LinearOrder.lift' DeliveryKey.key DeliveryKey.key_injective

/-! ### Delivery side -/

/-- What one consumer did with one event. -/
structure OutboxDelivery where
  consumer : String
  position : OutboxPosition
  leaseEpoch : ℕ
  leaseUntilMs : ℕ
  attempt : ℕ
  deliveredAtMs : Option ℕ
  deadLetteredAtMs : Option ℕ
  deriving DecidableEq

namespace OutboxDelivery

def delivered (d : OutboxDelivery) : Bool := d.deliveredAtMs.isSome

def deadLettered (d : OutboxDelivery) : Bool := d.deadLetteredAtMs.isSome

/-- The row is finished with, either way. -/
def resolved (d : OutboxDelivery) : Bool := d.delivered || d.deadLettered

/-- The row is held by a live lease: valid while `now < lease_until`. -/
def leasedAt (d : OutboxDelivery) (nowMs : ℕ) : Bool := !d.resolved && (nowMs < d.leaseUntilMs)

/-- The row counts against the in-flight bound. -/
def held (d : OutboxDelivery) : Bool := !d.resolved && (d.leaseUntilMs ≠ 0)

end OutboxDelivery

/-- How far the events of a consumer are resolved and acknowledged. -/
structure OutboxClaimCursor where
  consumer : String
  resolvedThrough : Option OutboxPosition
  ackedThrough : Option OutboxPosition

structure OutboxConsumerState where
  consumer : String
  consecutiveClaims : ℕ
  totalClaims : ℕ
  lastClaimAtMs : ℕ
  inflight : ℕ
  delivered : ℕ
  deadLettered : ℕ

/-- Resume point of the bounded pruning of one consumer. -/
structure PruneCursor where
  position : Option OutboxPosition
  boundary : Option OutboxPosition
  complete : Bool

/-- Control row of a rewind in progress. -/
structure RewindCursor where
  target : Option OutboxPosition
  position : Option OutboxPosition

structure IndexBackfillState where
  cursor : Option OutboxKey
  complete : Bool
  deriving DecidableEq

end Medulla.Types.Records
