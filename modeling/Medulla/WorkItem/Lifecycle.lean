import Medulla.WorkItem.Rows

/-! # Renewing, committing, cancelling and deferring

The four transitions of an item that exists. Each loads the row by its identity and answers a refusal
without writing when the tenant, the status or the lease does not allow the transition. None of them
looks at the `node_type` of the row. -/

namespace Medulla.WorkItem.Lifecycle

open Library.Checked Rows

/-! ### Renew -/

/-- The lease a request speaks for. -/
structure FenceKey where
  tenant : String
  workItemId : String
  lease : Lease

/-- The lease test of renew and defer: commit's, of a row of the tenant. -/
def FenceKey.isValid (fence : FenceKey) (row : Row) (now : ℕ) : Bool :=
  row.tenant = fence.tenant && row.leaseIsValid fence.lease now

structure RenewRequest where
  fence : FenceKey
  now : ℕ
  leaseMs : ℕ

inductive RenewStatus
  | missing
  | fenced
  | renewed
  deriving DecidableEq

/-- A row with its lease renewed. -/
def renewedRow (row : Row) (now leaseMs : ℕ) : Row :=
  { row with
    status := .running
    heartbeatAt := now
    updatedAt := now
    leaseExpiresAt := now + leaseMs }

/-- Extend the caller's live lease. -/
def renewWorkItemLease (request : RenewRequest) (g : Graph) : Except String (Graph × RenewStatus) := do
  rejectIf (isBlank request.fence.lease.owner = true ∨ request.leaseMs = 0)
    "RenewWorkItemLease requires worker_id and non-zero lease_ms"
  let found ← g.load request.fence.workItemId
  match found with
  | none => return (g, .missing)
  | some row =>
    return if request.fence.isValid row request.now then
        (g.write request.fence.workItemId (renewedRow row request.now request.leaseMs), .renewed)
      else (g, .fenced)

/-! ### Commit -/

/-- What a worker reports. -/
inductive Outcome
  | succeeded
  | failed
  | cancelled
  | other (text : String)
  deriving DecidableEq

/-- A terminal result. `receipts` are the rows of an outcome extension, through the keys of a
WorkItem; `completion` says that it completes an ordinary run. -/
structure CommitRequest where
  fence : FenceKey
  outcome : Outcome
  resultRef : Option String
  errorRef : Option String
  retryable : Bool
  now : ℕ
  receipts : Option (List (String × Option Row))
  completion : Bool
  answers : Answers

/-- The answer to a commit. -/
inductive CommitStatus
  | missing
  | noop
  | fenced
  | succeeded
  | failed
  | cancelled
  | deadLetter
  | retryScheduled
  deriving DecidableEq

/-- The answer to a commit with the rows it changed. -/
structure Committed where
  status : CommitStatus
  changedWorkItemIds : List String
  deriving DecidableEq

/-- The refusals of a commit, in order: another tenant's item is missing, a terminal one stays as it
is, and a lease that does not hold is fenced. -/
def commitPrecheck (request : CommitRequest) (row : Row) : Option CommitStatus :=
  if row.tenant ≠ request.fence.tenant then some .missing
  else if row.status.isTerminal then some .noop
  else if row.leaseIsValid request.fence.lease request.now then none
  else some .fenced

def validateOrdinaryCompletion (request : CommitRequest) : Except String Unit :=
  if request.completion then do
    answered request.answers.completion
    rejectIf (request.receipts.isSome = true ∨ request.retryable = true ∨
        (request.outcome ≠ .succeeded ∧ request.resultRef.isSome = true))
      ("ordinary completion requires an exclusive final result without failed answer artifacts")
  else .ok ()

def ensureReceiptRowsAbsent (g : Graph) : List (String × Option Row) → Except String Unit
  | [] => .ok ()
  | (id, _) :: rest => do
    rejectIf ((g.nodes.get id).isSome = true)
      ("terminal receipt node '" ++ id ++ "' already exists")
    ensureReceiptRowsAbsent g rest

/-- The receipt nodes of a commit are new and allowed. -/
def validateExtension (request : CommitRequest) (g : Graph) : Except String Unit :=
  match request.receipts with
  | none => .ok ()
  | some receipts => do
    answered request.answers.extension
    ensureReceiptRowsAbsent g receipts

/-- The wait before a retry: doubled with every attempt. -/
def backoff (row : Row) : ℕ := max row.backoffBase 1000 * 2 ^ min (row.attempt - 1) 31

/-- Whether a commit puts the item back in the queue. -/
def retries (request : CommitRequest) (row : Row) : Bool :=
  request.outcome = .failed && request.retryable && row.attempt < row.attemptCeiling

/-- The status an outcome leaves. -/
def terminalStatus (request : CommitRequest) : Status × CommitStatus :=
  match request.outcome with
  | .succeeded => (.succeeded, .succeeded)
  | .cancelled => (.cancelled, .cancelled)
  | _ => if request.retryable then (.deadLetter, .deadLetter) else (.failed, .failed)

/-- The committed status on the row: a retryable failure below the ceiling is rescheduled with both
fences raised, anything else is terminal. -/
def applyStatus (request : CommitRequest) (row : Row) : Row × CommitStatus :=
  if retries request row then
    ({ row with
      status := .ready
      nextRetryAt := request.now + backoff row
      leaseEpoch := saturatingAdd u64Max request.fence.lease.epoch 1
      fencingToken := saturatingAdd u64Max request.fence.lease.token 1 }, .retryScheduled)
  else
    ({ row with status := (terminalStatus request).1, completedAt := request.now },
      (terminalStatus request).2)

def recordResultRefs (request : CommitRequest) (row : Row) : Row :=
  { row with
    resultRef := request.resultRef
    errorRef := request.errorRef
    leaseOwner := ""
    lastLeaseOwner := request.fence.lease.owner
    leaseExpiresAt := 0
    updatedAt := request.now }

/-- A child with one dependency less to wait for. -/
def releasedRow (row : Row) (now : ℕ) : Row :=
  { row with
    depCount := row.depCount - 1
    status := if row.depCount - 1 = 0 ∧ row.status = .submitted then .ready else row.status
    updatedAt := now }

/-- Count down every child of a succeeded item; children that are gone are passed over. -/
def releaseDownstream (now : ℕ) : List String → Graph → Except String (Graph × List String)
  | [], g => .ok (g, [])
  | child :: rest, g => do
    let found ← g.load child
    match found with
    | none => releaseDownstream now rest g
    | some row => do
      let (released, changed) ← releaseDownstream now rest (g.write child (releasedRow row now))
      return (released, child :: changed)

def applyReceiptRows : List (String × Option Row) → Graph → Graph
  | [], g => g
  | (id, payload) :: rest, g => applyReceiptRows rest (g.put id payload)

/-- The children a success releases. -/
def releasedChildren (status : CommitStatus) (row : Row) : List String :=
  if status = .succeeded then row.downstreamIds.getD [] else []

def writtenReceipts (status : CommitStatus) (request : CommitRequest) :
    List (String × Option Row) :=
  if status = .retryScheduled then [] else request.receipts.getD []

/-- Writes an outcome: a retry, or the end with its children and receipts. -/
def applyCommit (request : CommitRequest) (row : Row) (g : Graph) :
    Except String (Graph × Committed) := do
  rejectIf (request.outcome ≠ .succeeded ∧ request.outcome ≠ .failed ∧ request.outcome ≠ .cancelled)
    "CommitWorkItemResult outcome must be succeeded, failed, or cancelled"
  validateExtension request g
  answered request.answers.terminalHold
  let (applied, status) := applyStatus request row
  let written := g.write request.fence.workItemId (recordResultRefs request applied)
  let (released, changed) ← releaseDownstream request.now (releasedChildren status row) written
  return (applyReceiptRows (writtenReceipts status request) released,
    ⟨status, request.fence.workItemId :: changed⟩)

/-- Commits the result of an attempt. -/
def commitWorkItemResult (request : CommitRequest) (g : Graph) :
    Except String (Graph × Committed) := do
  let found ← g.load request.fence.workItemId
  match found with
  | none => return (g, ⟨.missing, []⟩)
  | some row => do
    validateOrdinaryCompletion request
    match commitPrecheck request row with
    | some refusal => return (g, ⟨refusal, []⟩)
    | none => applyCommit request row g

/-! ### Cancel -/

structure CancelRequest where
  tenant : String
  workItemId : String
  reasonRef : Option String
  now : ℕ
  answers : Answers

inductive CancelStatus
  | missing
  | noop
  | inFlight
  | notCancellable
  | cancelled
  deriving DecidableEq

/-- A cancellation is refused while a lease stands. -/
def cancelRefusal (row : Row) (now : ℕ) : Option CancelStatus :=
  if row.status.isTerminal then some .noop
  else if row.status.isLive = true ∧ now ≤ row.leaseExpiresAt then some .inFlight
  else if row.status = .submitted ∨ row.status = .ready ∨ row.status.isLive = true then none
  else some .notCancellable

/-- The next epoch and token. -/
def raisedFences (operation : String) (row : Row) : Except String (ℕ × ℕ) := do
  let nextEpoch ← okOr (checkedAdd u64Max row.leaseEpoch 1) (operation ++ " lease epoch overflow")
  let nextToken ← okOr (checkedAdd u64Max row.fencingToken 1)
    (operation ++ " fencing token overflow")
  return (nextEpoch, nextToken)

/-- A row whose lease is given up under raised fences. -/
def releaseLease (row : Row) (fences : ℕ × ℕ) : Row :=
  { row with
    leaseOwner := ""
    leaseExpiresAt := 0
    leaseEpoch := fences.1
    fencingToken := fences.2 }

/-- A cancelled row. -/
def cancelledRow (row : Row) (request : CancelRequest) (fences : ℕ × ℕ) : Row :=
  releaseLease
    { row with
      status := .cancelled
      completedAt := request.now
      updatedAt := request.now
      lastLeaseOwner := if row.leaseOwner = "" then row.lastLeaseOwner else row.leaseOwner
      cancelReasonRef := request.reasonRef }
    fences

def applyCancel (request : CancelRequest) (row : Row) (g : Graph) :
    Except String (Graph × CancelStatus) := do
  let fences ← raisedFences "CancelWorkItem" row
  answered request.answers.terminalHold
  return (g.write request.workItemId (cancelledRow row request fences), .cancelled)

/-- Cancels an item. -/
def cancelWorkItem (request : CancelRequest) (g : Graph) :
    Except String (Graph × CancelStatus) := do
  let found ← g.load request.workItemId
  match found with
  | none => return (g, .missing)
  | some row =>
    if row.tenant ≠ request.tenant then return (g, .missing)
    else
      match cancelRefusal row request.now with
      | some refusal => return (g, refusal)
      | none => applyCancel request row g

/-! ### Defer -/

structure DeferRequest where
  fence : FenceKey
  nextRetryAt : ℕ
  reasonRef : Option String
  now : ℕ

inductive DeferStatus
  | missing
  | fenced
  | deferred
  deriving DecidableEq

/-- A row put off to a later time. -/
def deferredRow (row : Row) (request : DeferRequest) (fences : ℕ × ℕ) : Row :=
  releaseLease
    { row with
      status := .ready
      nextRetryAt := request.nextRetryAt
      attempt := row.attempt - 1
      deferCount := saturatingAdd u64Max row.deferCount 1
      updatedAt := request.now
      deferReasonRef := request.reasonRef }
    fences

def applyDefer (request : DeferRequest) (row : Row) (g : Graph) :
    Except String (Graph × DeferStatus) := do
  let fences ← raisedFences "DeferWorkItem" row
  return (g.write request.fence.workItemId (deferredRow row request fences), .deferred)

/-- Give a leased item back without counting the attempt. -/
def deferWorkItem (request : DeferRequest) (g : Graph) : Except String (Graph × DeferStatus) := do
  rejectIf (request.nextRetryAt < request.now)
    "DeferWorkItem next_retry_at_ms must not precede now_ms"
  let found ← g.load request.fence.workItemId
  match found with
  | none => return (g, .missing)
  | some row =>
    if request.fence.isValid row request.now then applyDefer request row g
    else return (g, .fenced)

end Medulla.WorkItem.Lifecycle
