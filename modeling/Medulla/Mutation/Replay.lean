import Medulla.Mutation.State

/-! # Two-identity mutation replay

An operation attempt is decided by two digests: its stable operation identity, recorded under the
idempotency key, and its attempt nonce, which is consumed once. -/

namespace Medulla.Mutation.Replay

open Library.Checked Library.Transaction Types.Batch Types.Records State

/-! ### Resolution -/

inductive ReplayResolution
  | fresh
  | nonceRejected (idempotencyKey : String)
  | replayedResult (recorded : RecordedOperation)
  | conflict (recorded proposed : Digest256)

def resolveReplayIn (l : Ledger) (operation : OperationReplayIdentity) (nonce : Digest256) :
    ReplayResolution :=
  match l.replayNonces.get nonce with
  | some key => .nonceRejected key
  | none =>
    match l.replayOperations.get operation.idempotencyKey with
    | none => .fresh
    | some row =>
      if row.operationReplayDigest ≠ operation.digest then
        .conflict row.operationReplayDigest operation.digest
      else .replayedResult row.recorded

section
variable {l l' : Ledger} {operation : OperationReplayIdentity} {nonce : Digest256}

theorem resolveReplayIn_fresh : resolveReplayIn l operation nonce = .fresh ↔
      l.replayNonces.get nonce = none ∧ l.replayOperations.get operation.idempotencyKey = none := by
  unfold resolveReplayIn
  cases l.replayNonces.get nonce with
  | some key => simp
  | none =>
    cases l.replayOperations.get operation.idempotencyKey with
    | none => simp
    | some row => by_cases h : row.operationReplayDigest = operation.digest <;> simp [h]

theorem resolveReplayIn_replayed {r : RecordedOperation} :
    resolveReplayIn l operation nonce = .replayedResult r ↔ l.replayNonces.get nonce = none ∧
        ∃ row, l.replayOperations.get operation.idempotencyKey = some row ∧
          row.operationReplayDigest = operation.digest ∧ row.recorded = r := by
  unfold resolveReplayIn
  cases l.replayNonces.get nonce with
  | some key => simp
  | none =>
    cases l.replayOperations.get operation.idempotencyKey with
    | none => simp
    | some row => by_cases h : row.operationReplayDigest = operation.digest <;> simp [h]

end

/-! ### Recording -/

/-- The same attempt of the same operation re-recording the same batch: how a saga's commit finishes
the key its prepare claimed. -/
def isSameSagaBatch (existing : OperationReplayRow) (recorded : RecordedOperation)
    (operationDigest nonce : Digest256) (batchId : String) : Bool :=
  recorded.batchId.isSome && (existing.operationReplayDigest = operationDigest) &&
    (existing.nonceReplayDigest = nonce) &&
    (existing.batchId = "" || existing.batchId = batchId) && (existing.recorded = recorded)

def operationRecordConflict (existing : OperationReplayRow) (operationDigest : Digest256) :
    String :=
  if existing.operationReplayDigest = operationDigest then
    "REPLAY_ALREADY_RECORDED: this operation was recorded and must be replayed, not re-executed"
  else "IDEMPOTENCY_CONFLICT: key was already used by a different operation"

/-- Write the operation row and consume the attempt nonce. -/
def claimKey (l : Ledger) (operation : OperationReplayIdentity) (nonce : Digest256)
    (recorded : RecordedOperation) (batchId : String) : Ledger :=
  { l with
    replayOperations := l.replayOperations.insert operation.idempotencyKey
      ⟨operation.idempotencyKey, operation.digest, nonce, batchId, recorded⟩
    replayNonces := l.replayNonces.insert nonce operation.idempotencyKey }

def recordOperation (operation : OperationReplayIdentity) (nonce : Digest256)
    (recorded : RecordedOperation) (batchId : String) (l : Ledger) : Except String Ledger :=
  match l.replayOperations.get operation.idempotencyKey with
  | some existing =>
    if isSameSagaBatch existing recorded operation.digest nonce batchId then .ok l
    else if (l.replayNonces.get nonce).isSome then
      .error "REPLAY_NONCE_CONSUMED: this attempt nonce was already recorded"
    else .error (operationRecordConflict existing operation.digest)
  | none =>
    if (l.replayNonces.get nonce).isSome then
      .error "REPLAY_NONCE_CONSUMED: this attempt nonce was already recorded"
    else .ok (claimKey l operation nonce recorded batchId)

/-- Consume one attempt nonce and record the result inside the write of the effect. -/
def recordOperationIn (operation : OperationReplayIdentity) (nonce : Digest256)
    (recorded : RecordedOperation) : Txn Write Unit := do
  let batchId ← Txn.read fun w => w.admission.admittedBatchId
  Write.updateLedger (recordOperation operation nonce recorded batchId)

/-- **What recording can do**: nothing when the row is already there, or one fresh row and nonce. -/
theorem recordOperation_cases {operation : OperationReplayIdentity} {nonce : Digest256}
    {recorded : RecordedOperation} {batchId : String} {l l' : Ledger}
    (h : recordOperation operation nonce recorded batchId l = .ok l') :
    (∃ row, l.replayOperations.get operation.idempotencyKey = some row ∧
        isSameSagaBatch row recorded operation.digest nonce batchId = true ∧ l' = l) ∨
      (l.replayOperations.get operation.idempotencyKey = none ∧
        l.replayNonces.get nonce = none ∧ l' = claimKey l operation nonce recorded batchId) := by
  unfold recordOperation at h
  cases hrow : l.replayOperations.get operation.idempotencyKey with
  | some row =>
    simp only [hrow] at h
    split_ifs at h with h1
    exact Or.inl ⟨row, rfl, h1, (Except.ok.inj h).symm⟩
  | none =>
    simp only [hrow] at h
    split_ifs at h with h1
    refine Or.inr ⟨rfl, ?_, (Except.ok.inj h).symm⟩
    cases hn : l.replayNonces.get nonce with
    | none => rfl
    | some key => simp [hn] at h1

def recordReplayIn (operation : OperationReplayIdentity) (nonce : Digest256)
    (receipt : MutationReceipt) : Txn Write Unit := do
  let admitted ← Txn.read fun w => w.admission.admittedBatch
  Txn.read fun _ =>
    require (admitted.isMaintenance = false)
      ("MAINTENANCE_HAS_NO_REPLAY_IDENTITY: an owner-maintenance write carries no caller " ++
        "operation identity and cannot consume an attempt nonce")
  Txn.read fun _ => receipt.validate
  Txn.read fun _ =>
    require (receipt.operationReplayDigest = operation.digest ∧ receipt.nonceReplayDigest = nonce)
      "mutation receipt does not bind both replay digests"
  Txn.read fun _ =>
    require (receipt.scope = operation.authorityScope)
      "mutation receipt names a different scope than its operation"
  recordOperationIn operation nonce (.receipt receipt)

/-! ### Finalizing a replay -/

/-- Everything a replay finalization proves again before it consumes the nonce. -/
def validateFinalization (operation : OperationReplayIdentity) (nonce : Digest256)
    (replay : MutationBatchRecord) (l : Ledger) : Except String Unit := do
  let row ← okOr (l.replayOperations.get operation.idempotencyKey)
    ("CORRUPT_MUTATION_LEDGER: replay finalization has no operation row for key '" ++
      operation.idempotencyKey ++ "'")
  require (row.idempotencyKey = operation.idempotencyKey ∧
      row.operationReplayDigest = operation.digest ∧
      row.recorded.batchId = some replay.batch.batchId)
    "REPLAY_FINALIZATION_RECORD_MISMATCH: operation row does not name this replay"
  let durable ← okOr (l.batches.get replay.batch.batchId)
    ("CORRUPT_MUTATION_LEDGER: replay operation points to missing batch '" ++
      replay.batch.batchId ++ "'")
  require (durable = replay)
    ("REPLAY_FINALIZATION_RECORD_MISMATCH: supplied replay receipt differs from durable " ++
      "record")
  require (l.replayNonces.get nonce = none)
    ("REPLAY_NONCE_CONSUMED: this attempt nonce was already recorded for idempotency key '" ++
      operation.idempotencyKey ++ "'")

def consumeNonce (nonce : Digest256) (key : String) (l : Ledger) : Ledger :=
  { l with replayNonces := l.replayNonces.insert nonce key }

/-- Consume the attempt nonce of a successful replay, and nothing else. -/
def finalizeReplayIn (b : MutationBatch) (replay : MutationBatchRecord) : Txn Write Unit := do
  match b.envelope with
  | .maintenance _ =>
    throw "MAINTENANCE_HAS_NO_REPLAY_IDENTITY: maintenance writes cannot finalize a replay"
  | .operation e =>
    Write.verifyScope b.identity
    Txn.read fun _ => b.validateWriteBudget
    Txn.read fun _ => replay.validateWriteBudget
    Txn.read fun _ =>
      require (replay.status = .committed ∧ replay.batch.identity = b.identity)
        ("REPLAY_FINALIZATION_RECORD_MISMATCH: replay receipt is not a committed record for " ++
          "this scope")
    Write.readLedger (validateFinalization e.operationIdentity e.nonceReplayDigest replay)
    Write.modifyLedger (consumeNonce e.nonceReplayDigest e.idempotencyKey)

def validateReceiptBatch (row : OperationReplayRow) (receipt : MutationReceipt) (l : Ledger) :
    Except String Unit := do
  require (row.batchId ≠ "") "CORRUPT_MUTATION_LEDGER: replay receipt row has no owner batch"
  let durable ← okOr (l.batches.get row.batchId)
    ("CORRUPT_MUTATION_LEDGER: replay receipt row points to missing batch '" ++ row.batchId ++ "'")
  require (durable.status = .committed ∧ durable.batch.batchId = row.batchId)
    ("REPLAY_FINALIZATION_RECORD_MISMATCH: replay receipt row is not bound to a committed " ++
      "batch")
  require (durable.resultMsgpack.map ResultMsgpack.bytes = some receipt.result.encoded)
    "REPLAY_FINALIZATION_RECORD_MISMATCH: replay receipt result differs from durable batch"

def validateReceiptFinalization (operation : OperationReplayIdentity) (nonce : Digest256)
    (receipt : MutationReceipt) (l : Ledger) : Except String Unit := do
  receipt.validate
  require (receipt.operationReplayDigest = operation.digest ∧
      receipt.scope = operation.authorityScope)
    "replay receipt does not bind the proposed operation"
  let row ← okOr (l.replayOperations.get operation.idempotencyKey)
    "CORRUPT_MUTATION_LEDGER: replay receipt row is missing"
  validateReceiptBatch row receipt l
  require (row.idempotencyKey = operation.idempotencyKey ∧
      row.operationReplayDigest = operation.digest ∧
      row.nonceReplayDigest = receipt.nonceReplayDigest ∧ row.recorded = .receipt receipt)
    "REPLAY_FINALIZATION_RECORD_MISMATCH: typed replay receipt differs from durable row"
  require (l.replayNonces.get nonce = none)
    ("REPLAY_NONCE_CONSUMED: this attempt nonce was already recorded for idempotency key '" ++
      operation.idempotencyKey ++ "'")

def finalizeReplayReceiptIn (operation : OperationReplayIdentity) (nonce : Digest256)
    (receipt : MutationReceipt) : Txn Write Unit := do
  Write.readLedger (validateReceiptFinalization operation nonce receipt)
  Write.modifyLedger (consumeNonce nonce operation.idempotencyKey)

end Medulla.Mutation.Replay
