import Medulla.Library.OrderedTable
import Medulla.Library.Transaction
import Medulla.Types.Records

/-! # The ledger of one scope, and one open write

`Ledger` is the part of an owner file that belongs to one bound scope: the ledger tables with the
scope component of their keys taken off. `Write` is one admitted physical write over it, with the
admission state machine of `admission.rs`: one admitted batch at a time, one owner-row window inside
it, and a poisoned write once an owner window is dropped unfinished. -/

namespace Medulla.Mutation.State

open Library.Checked Library.Transaction Types.Batch Types.Records
open Library.OrderedTable (Table)

variable {u : Unit}

/-! ### Tables -/

structure Ledger where
  batches : Table String MutationBatchRecord
  maintenance : Table String String
  version : ℕ
  fence : Option ScopeFence
  outbox : Table OutboxKey MutationOutboxRecord
  privatePayloads : Table String (List UInt8)
  topicIndex : Table IndexKey Unit
  consumers : Table String String
  deliveries : Table DeliveryKey OutboxDelivery
  cursors : Table String MutationProjectionCursor
  claimCursors : Table String OutboxClaimCursor
  expiryCursors : Table String (Option OutboxPosition)
  pruneCursors : Table String PruneCursor
  rewindCursors : Table String RewindCursor
  backfill : Option IndexBackfillState
  fairness : Table String OutboxConsumerState
  replayNonces : Table String String
  replayOperations : Table String OperationReplayRow
  classes : Table String MutationClass

def Ledger.bound (initialVersion : ℕ) : Ledger where
  batches := .empty
  maintenance := .empty
  version := initialVersion
  fence := none
  outbox := .empty
  privatePayloads := .empty
  topicIndex := .empty
  consumers := .empty
  deliveries := .empty
  cursors := .empty
  claimCursors := .empty
  expiryCursors := .empty
  pruneCursors := .empty
  rewindCursors := .empty
  backfill := none
  fairness := .empty
  replayNonces := .empty
  replayOperations := .empty
  classes := .empty

/-- The handle a store serves one scope through: the bound identity, its serving principal, whether
the layout owns no tables, and the store's authentication of sealed private payloads. -/
structure OwnedStoreHandle where
  identity : MutationScopeIdentity
  principal : String
  ledgerOnly : Bool
  authenticatePrivate : List UInt8 → String → Bool

/-! ### Admission -/

inductive AdmissionState
  | idle
  | applying (batch : MutationBatch) (owner : Bool)
  | finished (batch : MutationBatch)
  | replayed (batch : MutationBatch) (record : MutationBatchRecord)
      (finished : Option MutationBatch)
  | poisoned

structure Write where
  owner : OwnedStoreHandle
  ledger : Ledger
  admission : AdmissionState

def Write.opened (owner : OwnedStoreHandle) (ledger : Ledger) : Write := ⟨owner, ledger, .idle⟩

namespace AdmissionState

def admitApplyBatch (b : MutationBatch) : AdmissionState → Except String AdmissionState
  | .idle | .finished _ | .replayed _ _ _ => .ok (.applying b false)
  | .applying _ _ => .error "another mutation batch is already admitted"
  | .poisoned => .error "mutation write is poisoned"

/-- Record that a batch resolved to an already durable receipt. -/
def rememberReplayedBatch (b : MutationBatch) (r : MutationBatchRecord) :
    AdmissionState → Except String AdmissionState
  | .idle => .ok (.replayed b r none)
  | .replayed existing existingRecord last =>
    if existing = b then
      if existingRecord.batch = r.batch then .ok (.replayed existing existingRecord last)
      else .error "a replayed batch record does not match its admitted batch"
    else .ok (.replayed b r last)
  | .finished f => .ok (.replayed b r (some f))
  | .poisoned => .error "mutation write is poisoned"
  | .applying _ _ => .error "a replayed batch cannot follow an admitted one"

def replayedRecord (b : MutationBatch) : AdmissionState → Except String (Option MutationBatchRecord)
  | .replayed existing r last =>
    if existing = b then .ok (some r)
    else if last = some b then .ok none
    else .error "mutation replay commit does not match its admitted batch"
  | _ => .ok none

def openOwner (b : MutationBatch) : AdmissionState → Except String AdmissionState
  | .applying admitted owner =>
    if admitted = b ∧ owner = false then .ok (.applying admitted true)
    else .error "owner write does not match the admitted batch"
  | .poisoned => .error "mutation write is poisoned"
  | _ => .error "owner write requires an admitted mutation batch"

def finishOwner : AdmissionState → Except String Unit
  | .applying _ true => .ok ()
  | .poisoned => .error "mutation write is poisoned"
  | _ => .error "owner write completion does not match its admission"

/-- Terminal metadata may be written only for the admitted batch, after its owner window. -/
def validateFinish (ledgerOnly : Bool) (b : MutationBatch) : AdmissionState → Except String Unit
  | .applying admitted owner =>
    if admitted = b ∧ (ledgerOnly || owner) = true then .ok ()
    else .error "mutation batch owner work is unfinished or mismatched"
  | .replayed _ _ _ => .error "a replayed member cannot be finished"
  | .poisoned => .error "mutation write is poisoned"
  | _ => .error "mutation batch owner work is unfinished or mismatched"

def finishBatch (ledgerOnly : Bool) (b : MutationBatch) :
    AdmissionState → Except String AdmissionState
  | .applying admitted owner =>
    if admitted = b ∧ (ledgerOnly || owner) = true then .ok (.finished b)
    else .error "mutation batch owner work is unfinished or mismatched"
  | .poisoned => .error "mutation write is poisoned"
  | _ => .error "mutation batch owner work is unfinished or mismatched"

def validateCommit (b : MutationBatch) : AdmissionState → Except String Unit
  | .finished f =>
    if f = b then .ok () else .error "mutation commit does not match a finished batch"
  | .replayed existing _ last =>
    if existing = b ∨ last = some b then .ok ()
    else .error "mutation commit does not match a finished batch"
  | .poisoned => .error "mutation write is poisoned"
  | _ => .error "mutation commit does not match a finished batch"

def admittedBatch : AdmissionState → Except String MutationBatch
  | .applying b _ | .finished b | .replayed b _ _ => .ok b
  | .poisoned => .error "mutation write is poisoned"
  | .idle => .error "mutation write has no admitted batch"

def admittedBatchId (s : AdmissionState) : Except String String := do
  let b ← s.admittedBatch
  require (b.batchId ≠ "") "admitted mutation batch has no batch id"
  return b.batchId

end AdmissionState

/-! ### Reading and writing through a write -/

namespace Write

def readLedger {α : Type} (f : Ledger → Except String α) : Txn Write α :=
  Txn.read fun w => f w.ledger

/-- A ledger write that happens as a whole or fails before it. -/
def updateLedger (f : Ledger → Except String Ledger) : Txn Write Unit :=
  Txn.update fun w => (f w.ledger).map fun l => { w with ledger := l }

def modifyLedger (f : Ledger → Ledger) : Txn Write Unit := updateLedger fun l => .ok (f l)

def updateAdmission (f : AdmissionState → Except String AdmissionState) : Txn Write Unit :=
  Txn.update fun w => (f w.admission).map fun a => { w with admission := a }

def verifyScope (identity : MutationScopeIdentity) : Txn Write Unit :=
  Txn.read fun w =>
    require (identity = w.owner.identity) "mutation capability does not serve this scope"

variable {w w' : Write}

theorem readLedger_ok {α : Type} {f : Ledger → Except String α} {a : α} :
    readLedger f w = .ok a w' ↔ f w.ledger = .ok a ∧ w = w' := Txn.read_ok

theorem updateLedger_ok {f : Ledger → Except String Ledger} :
    updateLedger f w = .ok u w' ↔ ∃ l, f w.ledger = .ok l ∧ w' = { w with ledger := l } := by
  unfold updateLedger
  rw [Txn.update_ok]
  cases f w.ledger <;> simp [Except.map, eq_comm]

theorem modifyLedger_ok {f : Ledger → Ledger} :
    modifyLedger f w = .ok u w' ↔ w' = { w with ledger := f w.ledger } := by
  simp [modifyLedger, updateLedger_ok]

theorem updateAdmission_ok {f : AdmissionState → Except String AdmissionState} :
    updateAdmission f w = .ok u w' ↔
      ∃ a, f w.admission = .ok a ∧ w' = { w with admission := a } := by
  unfold updateAdmission
  rw [Txn.update_ok]
  cases f w.admission <;> simp [Except.map, eq_comm]

theorem verifyScope_ok {identity : MutationScopeIdentity} :
    verifyScope identity w = .ok u w' ↔ identity = w.owner.identity ∧ w = w' := by
  unfold verifyScope
  rw [Txn.read_ok, require_eq_ok]

end Write

end Medulla.Mutation.State
