import Medulla.WorkItem.Rows

/-! # Claiming a WorkItem

One pass over the node rows counts the tenant's live leases, retires expired leases that are at their
attempt ceiling, and collects the rows that may be granted. -/

namespace Medulla.WorkItem.Claim

open Library.Checked Rows

/-- A worker's request for an item. -/
structure ClaimWorkItemRequest where
  tenantRef : String
  workItemId : Option String
  queueRef : Option String
  resourceClass : Option String
  fairnessGroup : Option String
  workerRef : String
  now : ℕ
  leaseMs : ℕ
  maxTenantInFlight : ℕ

/-! ### One row -/

/-- A row whose last attempt ran out. -/
def retireExhaustedLease (row : Row) (now nextEpoch : ℕ) : Row :=
  { row with
    status := .deadLetter
    leaseEpoch := nextEpoch
    fencingToken := nextEpoch
    leaseOwner := ""
    leaseExpiresAt := 0
    completedAt := now
    updatedAt := now
    errorRef := some "lease_exhausted" }

/-- A row whose lease ran out, ready again. -/
def reclaimExpiredLease (row : Row) (nextEpoch : ℕ) : Row :=
  { row with
    status := .ready
    leaseEpoch := nextEpoch
    fencingToken := nextEpoch
    leaseOwner := ""
    leaseExpiresAt := 0 }

def misses (selector : Option String) (value : String) : Bool := selector.any fun s => s ≠ value

/-- The selection filter: ready, matching every selector, past its backoff, within its deadline. -/
def isExcluded (row : Row) (request : ClaimWorkItemRequest) : Bool :=
  row.status ≠ .ready || misses request.queueRef row.queue ||
    misses request.resourceClass row.resourceClass ||
    misses request.fairnessGroup row.fairnessGroup || request.now < row.nextRetryAt ||
    row.deadline.any fun deadline => deadline < seconds request.now

/-- What the scan decides about one row. -/
inductive RowOutcome
  | skip
  | inFlight
  | exhausted (row : Row)
  | candidate (row : Row)
  deriving DecidableEq

/-- What becomes of a lease that ran out. -/
def reclaim (row : Row) (now : ℕ) : Except String (Bool × Row) := do
  let nextEpoch ← row.nextClaimEpoch
  return if row.attemptCeiling ≤ row.attempt then (true, retireExhaustedLease row now nextEpoch)
    else (false, reclaimExpiredLease row nextEpoch)

def select (request : ClaimWorkItemRequest) (row : Row) : RowOutcome :=
  if isExcluded row request then .skip else .candidate row

/-- What the scan of a claim makes of a row. -/
def classifyRow (request : ClaimWorkItemRequest) (id : String) (row : Row) :
    Except String RowOutcome :=
  if row.isWorkItem = false ∨ row.tenant ≠ request.tenantRef then .ok .skip
  else if row.status.isLive = true ∧ request.now < row.leaseExpiresAt then .ok .inFlight
  else if request.workItemId.any (fun selected => selected ≠ id) = true then .ok .skip
  else if row.status.isLive = true then do
    let (retired, reclaimed) ← reclaim row request.now
    return if retired then .exhausted reclaimed else select request reclaimed
  else .ok (select request row)

/-! ### The scan -/

/-- The deadline of a candidate in the sort key. The filter has let no past deadline through. -/
def candidateDeadline (row : Row) : ℕ := (row.deadline.map millis).getD u64Max

/-- The order of candidates: priority bucket, deadline, creation, identity. -/
def sortsBefore (a b : String × Row) : Bool :=
  let bucket (c : String × Row) := c.2.prioBucket.toNat
  let deadline (c : String × Row) := candidateDeadline c.2
  let created (c : String × Row) := millis c.2.createdAt
  bucket a < bucket b || bucket a = bucket b && (deadline a < deadline b ||
    deadline a = deadline b && (created a < created b || created a = created b && a.1 < b.1))

/-- What a scan has found. -/
structure Scan where
  inflight : ℕ := 0
  candidates : List (String × Row) := []
  exhausted : List (String × Row) := []

def Scan.take (scan : Scan) (id : String) : RowOutcome → Scan
  | .skip => scan
  | .inFlight => { scan with inflight := saturatingAdd u32Max scan.inflight 1 }
  | .exhausted row => { scan with exhausted := scan.exhausted ++ [(id, row)] }
  | .candidate row => { scan with candidates := scan.candidates ++ [(id, row)] }

/-- Scan rows in order; a payload that is no property map is passed over. -/
def scanRows (request : ClaimWorkItemRequest) : Scan → List (String × Option Row) →
    Except String Scan
  | scan, [] => .ok scan
  | scan, (_, none) :: rest => scanRows request scan rest
  | scan, (id, some row) :: rest => do
    let outcome ← classifyRow request id row
    scanRows request (scan.take id outcome) rest

/-- The best candidate in the claim order. -/
def selectCandidate : List (String × Row) → Option (String × Row)
  | [] => none
  | candidate :: rest =>
    match selectCandidate rest with
    | none => some candidate
    | some best => if sortsBefore best candidate then some best else some candidate

/-! ### The claim -/

/-- A row leased to a worker. -/
def grantLease (row : Row) (worker : String) (now leaseUntil epoch : ℕ) : Row :=
  { row with
    status := .leased
    leaseOwner := worker
    lastLeaseOwner := worker
    leaseEpoch := epoch
    fencingToken := epoch
    leaseExpiresAt := leaseUntil
    workItemFence := "lease-fence-v1:" ++ toString epoch
    heartbeatAt := now
    updatedAt := now
    attempt := saturatingAdd u64Max row.attempt 1 }

/-- Writes the rows whose attempts are used up. -/
def writeExhausted : List (String × Row) → Graph → Graph
  | [], g => g
  | (id, row) :: rest, g => writeExhausted rest (g.write id row)

/-- The answer to a claim. -/
inductive ClaimReason
  | claimed
  | tenantQuota
  | empty
  deriving DecidableEq

/-- A lease with its item. -/
structure Grant where
  workItemId : String
  lease : Lease
  leaseExpiresAt : ℕ
  attempt : ℕ
  maxAttempts : ℕ
  deriving DecidableEq

/-- The result of a claim; `retired` are the rows it dead-lettered. -/
structure Claimed where
  reason : ClaimReason
  grant : Option Grant
  tenantInFlight : ℕ
  retired : List String
  deriving DecidableEq

def Claimed.changedWorkItemIds (result : Claimed) : List String :=
  result.retired ++ (result.grant.map Grant.workItemId).toList

def validateClaim (request : ClaimWorkItemRequest) : Except String Unit :=
  rejectIf (isBlank request.tenantRef = true ∨ isBlank request.workerRef = true ∨
      request.leaseMs = 0 ∨ ¬ (1 ≤ request.maxTenantInFlight ∧ request.maxTenantInFlight ≤ 4096))
    "ClaimWorkItem request violates the current protocol contract"

def applyClaimed (request : ClaimWorkItemRequest) (scan : Scan) (id : String) (row : Row)
    (g : Graph) : Except String (Graph × Claimed) := do
  let epoch ← row.nextClaimEpoch
  let granted := grantLease row request.workerRef request.now (request.now + request.leaseMs) epoch
  return (g.write id granted,
    { reason := .claimed
      grant := some ⟨id, ⟨request.workerRef, epoch, epoch⟩,
        saturatingAdd u64Max request.now request.leaseMs, granted.attempt, row.attemptCeiling⟩
      tenantInFlight := saturatingAdd u32Max scan.inflight 1
      retired := scan.exhausted.map Prod.fst })

def notClaimed (reason : ClaimReason) (scan : Scan) : Claimed :=
  ⟨reason, none, scan.inflight, scan.exhausted.map Prod.fst⟩

/-- Claims the best candidate, within the tenant's quota. -/
def claimFromScan (request : ClaimWorkItemRequest) (scan : Scan) (g : Graph) :
    Except String (Graph × Claimed) :=
  let retired := writeExhausted scan.exhausted g
  if request.maxTenantInFlight ≤ scan.inflight then .ok (retired, notClaimed .tenantQuota scan)
  else
    match selectCandidate scan.candidates with
    | none => .ok (retired, notClaimed .empty scan)
    | some (id, row) => applyClaimed request scan id row retired

/-- Scans all rows and claims one. -/
def claimWorkItem (request : ClaimWorkItemRequest) (g : Graph) :
    Except String (Graph × Claimed) := do
  validateClaim request
  let scan ← scanRows request {} g.nodes.rows
  claimFromScan request scan g

end Medulla.WorkItem.Claim
