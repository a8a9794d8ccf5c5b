import Medulla.Mutation.Commit

/-! # Two-phase sagas

A saga claims its idempotency key and its attempt nonce when it is prepared, and finishes the same
batch when it commits. `prepareSaga` is `saga_begin` and `saga_step`; `commitSaga` is `saga_end`. -/

namespace Medulla.Mutation.Saga

open Library.Checked Library.Transaction Types.Batch Types.Records State Replay
open Commit

/-! ### Private payloads -/

def maxPrivatePayloadBytes : ℕ := 67108864

def privatePayloadDigest (r : MutationBatchRecord) : Option String :=
  match r.batch.operations with
  | [o] =>
    match o.method with
    | .applyMutation _ query =>
      match afterPrefix "sha256:" query with
      | some digest =>
        if digest.length = 64 && digest.all isLowerHex then some (String.ofList digest) else none
      | none => none
    | .other _ => none
  | _ => none

def authenticatePayload (owner : OwnedStoreHandle) (r : MutationBatchRecord) (sealed : List UInt8) :
    Except String Unit := do
  require (sealed ≠ [] ∧ sealed.length ≤ maxPrivatePayloadBytes)
    "private recovery payload exceeds its write budget"
  let digest ← okOr (privatePayloadDigest r) "private recovery payload has no digest-bound parent"
  require (owner.authenticatePrivate sealed digest = true)
    "private recovery payload failed authentication"

def persistPrivate (r : MutationBatchRecord) (sealed : List UInt8) : Txn Write Unit := do
  Txn.read fun w => authenticatePayload w.owner r sealed
  Write.modifyLedger fun l =>
    { l with privatePayloads := l.privatePayloads.insert r.batch.batchId sealed }

def ensurePrivatePayload (payload : Option (List UInt8)) (r : MutationBatchRecord) :
    Txn Write Unit :=
  Txn.read fun w =>
    if payload.isSome ∧ r.status = .prepared then
      match w.ledger.privatePayloads.get r.batch.batchId with
      | some sealed => authenticatePayload w.owner r sealed
      | none =>
        .error ("CORRUPT_MUTATION_LEDGER: prepared saga '" ++ r.batch.batchId ++
          "' has no authenticated private recovery payload")
    else .ok ()

def removePrivate (batchId : String) (l : Ledger) : Ledger :=
  { l with privatePayloads := l.privatePayloads.remove batchId }

/-! ### Prepare -/

inductive SagaBegin
  | execute
  | resume (record : MutationBatchRecord)
  | committed (record : MutationBatchRecord)

def sagaEnvelope (b : MutationBatch) : Except String OperationEnvelope :=
  okOr b.envelope.operation? "a saga is a caller operation and cannot be a maintenance write"

def recordedSagaBatchId (b : MutationBatch) : Txn Write (Option String) := do
  let e ← Txn.read fun _ => sagaEnvelope b
  match ← Write.readLedger fun l =>
      .ok (resolveReplayIn l e.operationIdentity e.nonceReplayDigest) with
  | .fresh => return none
  | .replayedResult recorded => return recorded.batchId
  | .nonceRejected key =>
    throw ("REPLAY_NONCE_CONSUMED: this saga attempt nonce was already consumed by idempotency " ++
      "key '" ++ key ++ "'")
  | .conflict recorded proposed =>
    throw ("IDEMPOTENCY_CONFLICT: saga key '" ++ e.idempotencyKey ++
      "' was already used by a different operation (recorded " ++ recorded ++ ", proposed " ++
      proposed ++ ")")

def resumeExistingSaga (b : MutationBatch) (payload : Option (List UInt8)) (existingId : String) :
    Txn Write SagaBegin := do
  let record ← Write.readLedger fun l => okOr (l.batches.get existingId)
    ("CORRUPT_MUTATION_LEDGER: saga idempotency key points to missing batch '" ++ existingId ++ "'")
  ensurePrivatePayload payload record
  match record.status with
  | .prepared => return .resume record
  | .committed => return .committed record
  | .aborted => throw ("mutation saga '" ++ b.batchId ++ "' was aborted")

/-- Store the prepared record of a saga, claim its key and consume its nonce. -/
def persistPreparedSaga (b : MutationBatch) (preparedAtMs : ℕ) (payload : Option (List UInt8)) :
    Txn Write Unit := do
  let record : MutationBatchRecord := ⟨b, .prepared, .none, none, preparedAtMs⟩
  persistRecord record
  let e ← Txn.read fun _ => sagaEnvelope b
  recordOperationIn e.operationIdentity e.nonceReplayDigest (.batch b.batchId)
  writeClass b
  match payload with
  | some sealed => persistPrivate record sealed
  | none => pure ()

/-- One saga step up to its commit: `true` when the transaction commits, `false` when it aborts. -/
def prepareSagaIn (b : MutationBatch) (preparedAtMs : ℕ) (payload : Option (List UInt8)) :
    Txn Write (SagaBegin × Bool) := do
  Txn.read fun _ => b.validateWriteBudget
  Write.verifyScope b.identity
  match ← recordedSagaBatchId b with
  | some existingId =>
    let result ← resumeExistingSaga b payload existingId
    match result with
    | .committed _ =>
      match ← begin b with
      | .replay _ => sealWrite b
      | .apply _ => throw "committed saga replay became a fresh admission unexpectedly"
      return (result, true)
    | .resume _ => return (result, false)
    | .execute => throw "prepared saga unexpectedly returned Execute"
  | none =>
    match ← begin b with
    | .replay record =>
      sealWrite b
      return (.committed record, true)
    | .apply _ =>
      persistPreparedSaga b preparedAtMs payload
      return (.execute, true)

def prepareSaga (owner : OwnedStoreHandle) (b : MutationBatch) (preparedAtMs : ℕ)
    (payload : Option (List UInt8)) (l : Ledger) : Except String (SagaBegin × Ledger) :=
  match prepareSagaIn b preparedAtMs payload (Write.opened owner l) with
  | .ok (result, true) w => .ok (result, w.ledger)
  | .ok (result, false) _ => .ok (result, l)
  | .error e _ => .error e

/-! ### Commit -/

def commitSagaIn (b : MutationBatch) (result : ResultMsgpack) (committedAtMs : ℕ) :
    Txn Write (MutationBatchRecord × Bool) := do
  Txn.read fun _ => b.validateWriteBudget
  Write.verifyScope b.identity
  let record ← Write.readLedger fun l => okOr (l.batches.get b.batchId)
    ("mutation saga '" ++ b.batchId ++ "' was not prepared")
  if record.status = .committed then
    Write.modifyLedger (removePrivate b.batchId)
    return (record, true)
  else
    Txn.read fun _ => require (record.status = .prepared)
      ("mutation saga '" ++ b.batchId ++ "' is not resumable")
    Write.updateAdmission (AdmissionState.admitApplyBatch b)
    let source ← Write.readLedger fun l => .ok (sourceVersion b l)
    let committed ← finish b (some result) committedAtMs source
    Write.modifyLedger (removePrivate b.batchId)
    sealWrite b
    return (committed, false)

def commitSaga (owner : OwnedStoreHandle) (b : MutationBatch) (result : ResultMsgpack)
    (committedAtMs : ℕ) (l : Ledger) : Except String ((MutationBatchRecord × Bool) × Ledger) :=
  match commitSagaIn b result committedAtMs (Write.opened owner l) with
  | .ok r w => .ok (r, w.ledger)
  | .error e _ => .error e

end Medulla.Mutation.Saga
