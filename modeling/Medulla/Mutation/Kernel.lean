import Medulla.Mutation.Saga
import Medulla.Outbox.Rewind

/-! # The mutation kernel on one scope

Everything a caller can do to the ledger of one bound scope. `WriteCall` is one call on an open write,
`KernelCall` one call of the kernel as a whole, and `step` what a call leaves durable. The store
serializes write transactions and discards an aborted one; a call that fails ends its write, as every
caller of the kernel does. -/

namespace Medulla.Mutation.Kernel

open Library.Checked Library.Transaction Types.Batch Types.Records State Replay
open Commit Saga Outbox.Index Outbox.Rows Outbox.Claim Outbox.Cursor Outbox.Rewind

/-! ### Calls on an open write -/

inductive WriteCall
  | begin (b : MutationBatch)
  | beginTopUp (b : MutationBatch)
  | beginWithReplayIdentity (b : MutationBatch) (operation : OperationReplayIdentity)
      (nonce : Digest256)
  | ownerRows (b : MutationBatch)
  | purgeGeneration
  | finishOwner
  | dropOwner
  | finish (b : MutationBatch) (result : Option ResultMsgpack) (committedAtMs : ℕ)
      (source : Option ℕ)
  | finishWithReplay (b : MutationBatch) (result : Option ResultMsgpack) (committedAtMs : ℕ)
      (source : Option ℕ) (replay : ReplayReceipt)
  | recordReplay (replay : ReplayReceipt)
  | finalizeReplayReceipt (replay : ReplayReceipt)
  | ack (lease : MutationOutboxLease) (nowMs : ℕ)
  | reject (lease : MutationOutboxLease) (nowMs : ℕ)
  | supersede (consumer : String) (expected : MutationOutboxRecord) (nowMs : ℕ)

def ownerRows (b : MutationBatch) : Txn Write Unit := do
  Txn.read fun w =>
    require (w.owner.identity = b.identity ∧ w.owner.principal = b.servingPrincipal)
      "owner write capability does not match admitted batch"
  Write.updateAdmission (AdmissionState.openOwner b)

def validateBatchKeys (identity : MutationScopeIdentity) (l : Ledger) : Except String Unit :=
  require (l.batches.rows.all (fun r =>
      r.2.batch.identity = identity && r.2.batch.batchId = r.1) = true)
    "mutation batch key does not bind its exact identity"

/-- Retire every ledger row of a replaced generation; the version survives. -/
def purgeScopeLedgerGeneration (identity : MutationScopeIdentity) (l : Ledger) :
    Except String Ledger := do
  ensureNotGraftFenced l
  validateBatchKeys identity l
  return Ledger.bound l.version

def purgeGeneration : Txn Write Unit := do
  Txn.read fun w => w.admission.finishOwner
  Txn.update fun w =>
    (purgeScopeLedgerGeneration w.owner.identity w.ledger).map fun l => { w with ledger := l }

def deliverIn {α : Type} (f : MutationScopeIdentity → Ledger → Except String (α × Ledger)) :
    Txn Write Unit := do
  let _ ← Txn.read fun w => w.admission.admittedBatchId
  Txn.update fun w => (f w.owner.identity w.ledger).map fun r => { w with ledger := r.2 }

def WriteCall.exec : WriteCall → Txn Write Unit
  | .begin b => do
    let _ ← Commit.begin b
  | .beginTopUp b => do
    let _ ← beginRepositoryEnrichmentTopUp b
  | .beginWithReplayIdentity b operation nonce => do
    let _ ← Commit.beginWithReplayIdentity b operation nonce
  | .ownerRows b => Kernel.ownerRows b
  | .purgeGeneration => Kernel.purgeGeneration
  | .finishOwner => Txn.read fun w => w.admission.finishOwner
  | .dropOwner => Write.updateAdmission fun _ => .ok .poisoned
  | .finish b result committedAtMs source => do
    let _ ← Commit.finish b result committedAtMs source
  | .finishWithReplay b result committedAtMs source replay => do
    let _ ← Commit.finishWithReplay b result committedAtMs source replay
  | .recordReplay r => recordReplayIn r.operation r.nonce r.receipt
  | .finalizeReplayReceipt r => finalizeReplayReceiptIn r.operation r.nonce r.receipt
  | .ack lease nowMs => deliverIn fun identity l => Outbox.Cursor.ack identity lease nowMs l
  | .reject lease nowMs =>
    deliverIn fun identity l => (Outbox.Cursor.reject identity lease nowMs l).map fun l => ((), l)
  | .supersede consumer expected nowMs =>
    deliverIn fun identity l => Outbox.Cursor.supersede identity consumer expected nowMs l

/-- Run the calls of a write in order, up to the first that fails. -/
def execCalls : List WriteCall → Txn Write Unit
  | [] => pure ()
  | c :: cs => do
    c.exec
    execCalls cs

/-! ### Ending a write -/

inductive WriteEnd
  | commit (b : MutationBatch)
  | commitReplayReceipt
  | abort

def WriteEnd.exec : WriteEnd → Txn Write Bool
  | .commit b => do
    sealWrite b
    return true
  | .commitReplayReceipt => return true
  | .abort => return false

def execWrite (calls : List WriteCall) (finish : WriteEnd) : Txn Write Bool := do
  execCalls calls
  finish.exec

def commitWrite (owner : OwnedStoreHandle) (calls : List WriteCall) (finish : WriteEnd)
    (l : Ledger) : Ledger :=
  match execWrite calls finish (Write.opened owner l) with
  | .ok true w => w.ledger
  | .ok false _ => l
  | .error _ _ => l

/-! ### Kernel calls -/

inductive KernelCall
  | write (calls : List WriteCall) (finish : WriteEnd)
  | sagaStep (b : MutationBatch) (preparedAtMs : ℕ) (payload : Option (List UInt8))
  | sagaEnd (b : MutationBatch) (result : ResultMsgpack) (committedAtMs : ℕ)
  | subscribe (consumer topic : String)
  | claim (consumer : String) (budget : OutboxClaimBudget)
  | ack (lease : MutationOutboxLease) (nowMs : ℕ)
  | reject (lease : MutationOutboxLease) (nowMs : ℕ)
  | release (lease : MutationOutboxLease)
  | expire (consumer : String) (nowMs : ℕ)
  | rewind (consumer : String) (target : OutboxRewindTarget) (nowMs : ℕ)
  | backfillGate
  | backfillPage

/-- Keep what a successful transaction wrote. -/
def settle {α : Type} (l : Ledger) : Except String (α × Ledger) → Ledger
  | .ok r => r.2
  | .error _ => l

def settleLedger (l : Ledger) : Except String Ledger → Ledger
  | .ok l' => l'
  | .error _ => l

def step (owner : OwnedStoreHandle) (l : Ledger) : KernelCall → Ledger
  | .write calls finish => commitWrite owner calls finish l
  | .sagaStep b preparedAtMs payload => settle l (prepareSaga owner b preparedAtMs payload l)
  | .sagaEnd b result committedAtMs => settle l (commitSaga owner b result committedAtMs l)
  | .subscribe consumer topic => settleLedger l (subscribeIn consumer topic l)
  | .claim consumer budget =>
    settle l ((Outbox.Claim.claim owner.identity consumer budget l).map fun r => (r.1, r.2.2))
  | .ack lease nowMs => settle l (Outbox.Cursor.ack owner.identity lease nowMs l)
  | .reject lease nowMs => settleLedger l (Outbox.Cursor.reject owner.identity lease nowMs l)
  | .release lease => settleLedger l (Outbox.Claim.release owner.identity lease l)
  | .expire consumer nowMs => settle l (Outbox.Claim.expire owner.identity consumer nowMs l)
  | .rewind consumer target nowMs =>
    settle l (Outbox.Rewind.rewind owner.identity consumer target nowMs l)
  | .backfillGate => settleLedger l (Outbox.Rows.backfillGate owner.identity l)
  | .backfillPage => settle l (backfillIn owner.identity l)

def runKernel (owner : OwnedStoreHandle) (l : Ledger) (calls : List KernelCall) : Ledger :=
  run (step owner) l calls

end Medulla.Mutation.Kernel
