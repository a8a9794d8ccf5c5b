import Medulla.Mutation.Replay
import Medulla.Outbox.Index

/-! # Admission, ordering, fencing and terminal metadata of one batch

`begin` decides whether a batch applies or replays, `finish` writes its terminal metadata, and
`sealWrite` proves what a commit needs. The order of the checks and of the writes is the source's. -/

namespace Medulla.Mutation.Commit

open Library.Checked Library.Transaction Types.Batch Types.Records State Replay
open Outbox.Index

/-- A batch is to be applied, or was applied before. -/
inductive Begin
  | apply (sourceVersion : Option ℕ)
  | replay (record : MutationBatchRecord)

/-- The route fence component that marks a scope under graft. -/
def graftFence : ℕ := u64Max

def ScopeFence.isGraft (f : ScopeFence) : Bool :=
  f.placementEpoch = graftFence && f.fencingToken = graftFence

/-! ### Admission -/

/-- A batch id or ledger key inside the kernel's graft namespace. -/
def isReservedGraftKey (key : String) : Bool :=
  key = "kernel.graft" || (afterPrefix "kernel.graft/" key).isSome

def isReservedGraftBatch (b : MutationBatch) : Bool :=
  isReservedGraftKey b.batchId || isReservedGraftKey b.idempotencyKey

def hasReservedTopUpKind (b : MutationBatch) : Bool :=
  match b.envelope with
  | .maintenance e => e.kind = repositoryEnrichmentTopUpKind
  | .operation _ => false

/-- Refuses an operation whose fence lies below the stored one. -/
def rejectStaleFence (b : MutationBatch) (l : Ledger) : Except String Unit :=
  match l.fence with
  | none => .ok ()
  | some current =>
    if ScopeFence.isGraft current then .error "STALE_FENCE: scope is under graft"
    else if b.isMaintenance then .ok ()
    else
      require (¬ (b.placementEpoch < current.placementEpoch ∨
          (b.placementEpoch = current.placementEpoch ∧
            b.fencingToken.getD 0 < current.fencingToken)))
        ("STALE_FENCE: proposed route (" ++ toString b.placementEpoch ++ "," ++
          toString (b.fencingToken.getD 0) ++ ") is older than (" ++
          toString current.placementEpoch ++ "," ++ toString current.fencingToken ++ ")")

def sourceVersion (b : MutationBatch) (l : Ledger) : Option ℕ :=
  match b.versionExpectation with
  | .unversioned => none
  | _ => some l.version

def checkExpectation (b : MutationBatch) (l : Ledger) : Except String Unit :=
  match b.versionExpectation with
  | .unversioned => .ok ()
  | .graph expected | .native expected =>
    require (expected = l.version)
      ("STALE_VERSION: mutation scope expected version " ++ toString expected ++
        " but authoritative version is " ++ toString l.version)

def checkFreeBatchId (b : MutationBatch) (l : Ledger) : Except String Unit :=
  match l.batches.get b.batchId with
  | none => .ok ()
  | some record =>
    if record.batch.idempotencyKey ≠ b.idempotencyKey then
      .error ("IDEMPOTENCY_CONFLICT: batch id '" ++ b.batchId ++
        "' is already bound to idempotency key                  '" ++
        record.batch.idempotencyKey ++ "' (proposed '" ++ b.idempotencyKey ++ "')")
    else
      .error ("CORRUPT_MUTATION_LEDGER: batch '" ++ b.batchId ++
        "' exists without its replay row (status " ++ record.status.debug ++ ")")

/-- A batch not seen before: a free id, the expected version, a live fence. -/
def admitFresh (b : MutationBatch) : Txn Write Begin := do
  Write.readLedger (checkFreeBatchId b)
  Write.readLedger (checkExpectation b)
  Write.readLedger (rejectStaleFence b)
  Write.updateAdmission (AdmissionState.admitApplyBatch b)
  Write.readLedger fun l => .ok (Begin.apply (sourceVersion b l))

def committedRecord (batchId : String) (l : Ledger) : Except String MutationBatchRecord := do
  let record ← okOr (l.batches.get batchId)
    ("CORRUPT_MUTATION_LEDGER: idempotency key points to missing batch '" ++ batchId ++ "'")
  require (record.status = .committed)
    ("mutation batch '" ++ record.batch.batchId ++ "' is not terminally committed")
  return record

/-- Answers with the stored record and consumes the nonce. -/
def replayCommittedBatch (b : MutationBatch) (batchId : String) : Txn Write Begin := do
  let record ← Write.readLedger (committedRecord batchId)
  Write.updateAdmission (AdmissionState.rememberReplayedBatch b record)
  return .replay record

def beginOperationWithIdentity (b : MutationBatch) (operation : OperationReplayIdentity)
    (nonce : Digest256) : Txn Write Begin := do
  match ← Write.readLedger fun l => .ok (resolveReplayIn l operation nonce) with
  | .nonceRejected key =>
    throw ("REPLAY_NONCE_CONSUMED: this attempt nonce was already consumed by idempotency key '" ++
      key ++ "'")
  | .conflict recorded proposed =>
    throw ("IDEMPOTENCY_CONFLICT: key '" ++ operation.idempotencyKey ++
      "' was already used by a different operation (recorded " ++ recorded ++ ", proposed " ++
      proposed ++ ")")
  | .replayedResult (.batch batchId) => replayCommittedBatch b batchId
  | .replayedResult (.receipt _) =>
    throw "mutation batch replays an idempotency key recorded by a receipt-only operation"
  | .fresh => admitFresh b

def beginOperation (b : MutationBatch) (e : OperationEnvelope) : Txn Write Begin :=
  beginOperationWithIdentity b e.operationIdentity e.nonceReplayDigest

/-- Admit an operation under an explicit identity, which may differ from its own only in the payload
digest. -/
def beginWithReplayIdentity (b : MutationBatch) (operation : OperationReplayIdentity)
    (nonce : Digest256) : Txn Write Begin := do
  Txn.read fun _ => b.validateWriteBudget
  Write.verifyScope b.identity
  let e ← Txn.read fun _ =>
    okOr b.envelope.operation? "stable replay identity requires an operation batch"
  Txn.read fun _ =>
    require (operation.idempotencyKey = e.idempotencyKey ∧
        operation.authorityScope = e.operationIdentity.authorityScope ∧
        operation.authority = e.operationIdentity.authority ∧ nonce = e.nonceReplayDigest)
      "stable replay identity does not bind the batch authority or attempt nonce"
  beginOperationWithIdentity b operation nonce

/-- Resolve one owner-maintenance write against its first-wins claim key. -/
def beginMaintenance (b : MutationBatch) : Txn Write Begin := do
  match ← Write.readLedger fun l => .ok (l.maintenance.get b.idempotencyKey) with
  | some batchId => replayCommittedBatch b batchId
  | none => admitFresh b

/-- The checks every admission makes before it looks at the ledger. -/
def beginInner (b : MutationBatch) (allowReservedGraft allowTopUp : Bool) : Txn Write Begin := do
  Txn.read fun _ =>
    require (allowReservedGraft = true ∨ isReservedGraftBatch b = false)
      "reserved graft batch namespace is kernel-owned"
  Txn.read fun _ =>
    require (hasReservedTopUpKind b = allowTopUp ∧
        (allowTopUp = true → b.isRepositoryEnrichmentTopUp = true))
      "repository enrichment top-up requires its private Raft admission"
  Txn.read fun _ => b.validateWriteBudget
  Write.verifyScope b.identity
  match b.envelope with
  | .operation e => beginOperation b e
  | .maintenance _ => beginMaintenance b

/-- Admit a batch through the public path. -/
def begin (b : MutationBatch) : Txn Write Begin := beginInner b false false

def beginRepositoryEnrichmentTopUp (b : MutationBatch) : Txn Write Begin := beginInner b false true

/-! ### Terminal metadata -/

def committedVersion : VersionExpectation → Option ℕ → Except String CommittedVersion
  | .graph expected, some source =>
    if expected = source then CommittedVersion.checkedGraph source
    else .error "mutation finish source version does not match its expectation"
  | .native expected, some source =>
    if expected = source then CommittedVersion.checkedNative source
    else .error "mutation finish source version does not match its expectation"
  | .unversioned, none => .ok .none
  | _, _ => .error "mutation finish source version does not match its expectation"

def persistRecord (r : MutationBatchRecord) : Txn Write Unit := do
  Txn.read fun _ => r.validateWriteBudget
  Write.modifyLedger fun l => { l with batches := l.batches.insert r.batch.batchId r }

/-- Records the batch under its idempotency key or its operation. -/
def persistKeyRow (b : MutationBatch) : Txn Write Unit :=
  match b.envelope with
  | .operation e => recordOperationIn e.operationIdentity e.nonceReplayDigest (.batch b.batchId)
  | .maintenance _ =>
    Write.modifyLedger fun l =>
      { l with maintenance := l.maintenance.insert b.idempotencyKey b.batchId }

def writeClass (b : MutationBatch) : Txn Write Unit :=
  Write.modifyLedger fun l =>
    { l with classes :=
        l.classes.insert b.batchId (if b.isMaintenance then .maintenance else .operation) }

/-- Advances the scope version by one. -/
def writeVersion (committed : CommittedVersion) (l : Ledger) : Except String Ledger := do
  let next ← okOr (checkedAdd u64Max l.version 1) "mutation scope version overflow"
  require (committed.target.all (· = next) = true)
    "mutation committed version does not advance its scope by one"
  return { l with version := next }

/-- Stores the fence of the batch that commits. -/
def writeFence (b : MutationBatch) (l : Ledger) : Ledger :=
  { l with fence := some ⟨b.placementEpoch, b.fencingToken.getD 0⟩ }

def isTerminalTopic (topic : String) : Bool :=
  topic = "engine.run-event.v1" || topic = "work_item.run_completion.v1"

def terminalOutboxIntentApplies (intent : MutationOutboxIntent) (result : Option ResultMsgpack) :
    Except String Bool :=
  if isTerminalTopic intent.topic then
    match result with
    | none => .error "terminal run-event outbox requires a native WorkItem result"
    | some r =>
      match r.payload with
      | .undecodable => .error "terminal WorkItem result is not a decodable payload"
      | .notJson => .error "terminal WorkItem result does not carry a status object"
      | .json (some status) =>
        if status ∈ ["missing", "noop", "fenced", "retry_scheduled"] then .ok false
        else if status ∈ ["succeeded", "failed", "cancelled", "dead_letter"] then .ok true
        else .error "terminal WorkItem result has an unknown status"
      | .json none => .error "terminal WorkItem result has an unknown status"
  else .ok true

/-- The intents to publish with their ordinals. -/
def effectiveOutbox (terminalBatch : Bool) (result : Option ResultMsgpack) :
    ℕ → List MutationOutboxIntent → Except String (List (ℕ × MutationOutboxIntent))
  | _, [] => .ok []
  | ordinal, intent :: rest => do
    if terminalBatch && !isTerminalTopic intent.topic then
      effectiveOutbox terminalBatch result (ordinal + 1) rest
    else
      let applies ← terminalOutboxIntentApplies intent result
      if applies then
        require (ordinal ≤ u32Max) "mutation outbox ordinal exceeds the supported range"
        let tail ← effectiveOutbox terminalBatch result (ordinal + 1) rest
        return (ordinal, intent) :: tail
      else effectiveOutbox terminalBatch result (ordinal + 1) rest

def outboxRecord (b : MutationBatch) (committed : CommittedVersion) (sequence : ℕ)
    (entry : ℕ × MutationOutboxIntent) : MutationOutboxRecord :=
  ⟨b.batchId, entry.1, b.identity, committed, some sequence, entry.2, b.createdAtMs⟩

def writeOutboxRow (r : MutationOutboxRecord) : Txn Write Unit := do
  Txn.read fun _ => r.validateWriteBudget
  Write.modifyLedger fun l => { l with outbox := l.outbox.insert ⟨r.batchId, r.ordinal⟩ r }
  Write.updateLedger (indexOutboxRow r)

def writeOutboxRows : List MutationOutboxRecord → Txn Write Unit
  | [] => pure ()
  | r :: rs => do
    writeOutboxRow r
    writeOutboxRows rs

/-- Publishes the intents under the next sequence numbers. -/
def writeOutbox (b : MutationBatch) (committed : CommittedVersion)
    (result : Option ResultMsgpack) : Txn Write Unit := do
  let terminalBatch := b.outbox.any fun intent => isTerminalTopic intent.topic
  let entries ← Txn.read fun _ => effectiveOutbox terminalBatch result 0 b.outbox
  let sequence ← Write.readLedger fun l => .ok l.version
  if !entries.isEmpty then
    Write.updateLedger (markIndexReady b.identity)
  writeOutboxRows (entries.map (outboxRecord b committed sequence))

/-- The typed receipt a finish may file as its replay row. -/
structure ReplayReceipt where
  operation : OperationReplayIdentity
  nonce : Digest256
  receipt : MutationReceipt

def persistReplayRow (b : MutationBatch) : Option ReplayReceipt → Txn Write Unit
  | some r => recordReplayIn r.operation r.nonce r.receipt
  | none => persistKeyRow b

/-- Persist terminal metadata after owner rows changed in the same transaction. -/
def finishInner (b : MutationBatch) (result : Option ResultMsgpack) (committedAtMs : ℕ)
    (source : Option ℕ) (replay : Option ReplayReceipt) : Txn Write MutationBatchRecord := do
  Write.verifyScope b.identity
  Txn.read fun w => w.admission.validateFinish w.owner.ledgerOnly b
  let committed ← Txn.read fun _ => committedVersion b.versionExpectation source
  let record : MutationBatchRecord := ⟨b, .committed, committed, result, committedAtMs⟩
  persistRecord record
  persistReplayRow b replay
  writeClass b
  Write.updateLedger (writeVersion committed)
  Write.modifyLedger (writeFence b)
  writeOutbox b committed result
  Txn.update fun w =>
    (w.admission.finishBatch w.owner.ledgerOnly b).map fun a => { w with admission := a }
  return record

def finish (b : MutationBatch) (result : Option ResultMsgpack) (committedAtMs : ℕ)
    (source : Option ℕ) : Txn Write MutationBatchRecord :=
  finishInner b result committedAtMs source none

def finishWithReplay (b : MutationBatch) (result : Option ResultMsgpack) (committedAtMs : ℕ)
    (source : Option ℕ) (replay : ReplayReceipt) : Txn Write MutationBatchRecord := do
  Txn.read fun _ => replay.receipt.validate
  Txn.read fun _ =>
    require (result.map ResultMsgpack.bytes = some replay.receipt.result.encoded)
      "typed replay receipt result must equal the batch's durable result payload"
  finishInner b result committedAtMs source (some replay)

/-! ### Sealing -/

/-- Everything one admitted write proves before its transaction commits. -/
def sealWrite (b : MutationBatch) : Txn Write Unit := do
  Write.verifyScope b.identity
  Txn.read fun w => w.admission.validateCommit b
  match ← Txn.read fun w => w.admission.replayedRecord b with
  | some record => if b.isMaintenance then pure () else finalizeReplayIn b record
  | none => pure ()

end Medulla.Mutation.Commit
