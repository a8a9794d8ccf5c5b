import Medulla.Lane.Lifecycle
import Medulla.Resource.Machine

/-! # Runs of the lane operations

Lane operations, native WorkItem operations and resource operations in any order on one graph. A
WorkItem or resource operation is a write of graph rows: before it commits, the link of every stored
hold is checked, and a WorkItem that ends takes its hold with it. A lane operation commits without
that check. Its answer is kept under its key for replays, refusals included, up to a number of
answers a tenant. -/

namespace Medulla.Lane.Machine

open Library Library.Checked Library.OrderedTable WorkItem.Rows WorkItem.Lifecycle Resource.Requests
open Resource.Extension Holds Quota Links Tables Lifecycle
open Resource.Admission (Ledger)

/-! ### Lane mutations -/

/-- The lane operations. -/
inductive Mutation
  | reserve (request : ReserveRequest)
  | renew (request : Tables.RenewRequest)
  | observe (request : ObserveRequest)
  | finish (request : FinishRequest)
  | cleanup (request : CleanupRequest)
  | quotaUpdate (request : QuotaUpdateRequest)

namespace Mutation

/-- The key a repeated request is recognised by. -/
def idempotencyKey : Mutation → String × String
  | .reserve request => (request.tenantRef, request.idempotencyKey)
  | .renew request => (request.tenantRef, request.idempotencyKey)
  | .observe request => (request.tenantRef, request.idempotencyKey)
  | .finish request => (request.tenantRef, request.idempotencyKey)
  | .cleanup request => (request.tenantRef, request.idempotencyKey)
  | .quotaUpdate request => (request.tenantRef, request.idempotencyKey)

def methodName : Mutation → String
  | .reserve _ => "reserve"
  | .renew _ => "renew"
  | .observe _ => "observe"
  | .finish _ => "finish"
  | .cleanup _ => "cleanup-complete"
  | .quotaUpdate _ => "quota-policy-update"

/-- The mutation at another time: the clock of the caller is never used. -/
def normalizeNow (now : ℕ) : Mutation → Mutation
  | .reserve request => .reserve { request with now := now }
  | .renew request => .renew { request with now := now }
  | .observe request => .observe { request with now := now }
  | .finish request => .finish { request with now := now }
  | .cleanup request => .cleanup { request with now := now }
  | .quotaUpdate request => .quotaUpdate { request with now := now }

end Mutation

/-- The bounds of a request. -/
def validateMethodBounds (graph : String) (m : Mutation) : Except Decision Unit := do
  text graph
  match m with
  | .reserve request => validateReserveBounds request
  | .renew request => validateRenewBounds request
  | .observe request => validateObserveBounds request
  | .finish request => validateFinishBounds request
  | .cleanup request => validateCleanupBounds request
  | .quotaUpdate request => validateQuotaUpdateBounds request

/-- The answer of a lane operation. -/
inductive Reply
  | hold (result : HoldResult)
  | quota (result : QuotaResult)

def emptyInputConflict : Mutation → Reply
  | .quotaUpdate _ => .quota ⟨.conflict, none, emptyCharge 0, 0⟩
  | _ => .hold (holdResult .inputConflict none 0)

/-- A gate that stopped with an answer leaves the tables as they were. -/
def settle {ρ : Type} (reply : ρ → Reply) (lanes : Lanes) :
    Gate ρ (Lanes × ρ) → Except String (Lanes × Reply)
  | .ok (lanes', result) => .ok (lanes', reply result)
  | .error (.refused result) => .ok (lanes, reply result)
  | .error (.failed message) => .error message

/-- One operation on the tables. -/
def mutate (world : World) (lanes : Lanes) : Mutation → Except String (Lanes × Reply)
  | .reserve request => settle .hold lanes (applyReserve world request lanes)
  | .renew request => settle .hold lanes (applyRenew world request lanes)
  | .observe request => settle .hold lanes (applyObserve world request lanes)
  | .finish request => settle .hold lanes (applyFinish world request lanes)
  | .cleanup request => settle .hold lanes (applyCleanup world request lanes)
  | .quotaUpdate request => settle .quota lanes (applyQuotaUpdate request lanes)

/-! ### Replays -/

/-- A stored answer with the digest of its request. -/
structure Invocation where
  method : String
  requestDigest : String
  result : Reply

/-- Kept answers, by tenant and key. -/
abbrev Invocations := Table (String ×ₗ String) Invocation

def maxInvocationsPerTenant : ℕ := 256

/-- Most keys of one tenant that are looked at. -/
def maxInvocationRepairScan : ℕ := 4096

def durableInvocationBounds (row : Invocation) : Except String Unit :=
  failing "stored lane invocation: " (fingerprint row.requestDigest)

/-- The stored answer of a repeated request. -/
def loadInvocation (digest : Mutation → String) (invocations : Invocations) (m : Mutation) :
    Except String (Option (Bool × Reply)) :=
  match invocations.get (toLex m.idempotencyKey) with
  | none => .ok none
  | some stored => do
    durableInvocationBounds stored
    return some (stored.method = m.methodName ∧ stored.requestDigest = digest m, stored.result)

def collectInvocationKeys (invocations : Invocations) (tenant : String) : Except String (List String) :=
  do
    let keys := invocations.rows.filterMap fun row =>
      if (ofLex row.1).1 = tenant then some (ofLex row.1).2 else none
    failing "stored lane invocation: " (boundedTexts keys)
    rejectIf (maxInvocationRepairScan < keys.length)
      "lane invocation table exceeds bounded repair capacity"
    return keys

/-- The newest invocations and the current one. -/
def retainedInvocationKeys (keys : List String) (current : String) : List String :=
  let newest := keys.reverse.take maxInvocationsPerTenant
  if current ∈ newest then newest else current :: newest.dropLast

/-- Drops the invocations beyond the newest. -/
def pruneInvocations (tenant current : String) (invocations : Invocations) :
    Except String Invocations := do
  let keys ← collectInvocationKeys invocations tenant
  return if keys.length ≤ maxInvocationsPerTenant then invocations
    else invocations.filter fun key _ =>
      (ofLex key).1 ≠ tenant || (ofLex key).2 ∈ retainedInvocationKeys keys current

/-- Stores an answer and prunes the old ones. -/
def storeInvocation (digest : Mutation → String) (m : Mutation) (result : Reply)
    (invocations : Invocations) : Except String Invocations := do
  let row : Invocation := ⟨m.methodName, digest m, result⟩
  durableInvocationBounds row
  pruneInvocations m.idempotencyKey.1 m.idempotencyKey.2
    (invocations.insert (toLex m.idempotencyKey) row)

/-! ### The graph -/

/-- The rows of one graph: WorkItems and resources, the lane tables and the kept answers. -/
structure State where
  ledger : Ledger
  lanes : Lanes
  invocations : Invocations

/-- An empty graph without lanes. -/
def State.fresh (name : String) : State := ⟨.fresh ⟨name, .empty, 0⟩, .fresh, .empty⟩

/-- What the operations take from outside: the digests and codecs of WorkItems, the digest of a hold's
identity, and the digest of a request without its time. -/
structure Context where
  resource : Resource.Machine.Context
  sha : String → String
  requestDigest : Mutation → String

/-- The check before every graph commit: each hold has its WorkItem. -/
def validateCurrentLaneLinks (codecs : Codecs) (items : Graph) (lanes : Lanes) :
    Except String Unit := do
  mapError (fun _ => "development lane graph key is invalid") (failing "" (text items.name))
  validateHoldLinks codecs items lanes.holds.rows

/-- What the lane operations read of a graph. -/
def worldOf (ctx : Context) (s : State) : World :=
  ⟨ctx.resource.codecs, ctx.sha, s.ledger.items, s.ledger.reservations⟩

/-- **Commit a lane mutation** at a time. A replay answers what was kept. -/
def commitDevelopmentLane (ctx : Context) (now : ℕ) (m : Mutation) (s : State) :
    Except String (State × Reply) := do
  let m := m.normalizeNow now
  failing "development lane request: " (validateMethodBounds s.ledger.items.name m)
  let replay ← loadInvocation ctx.requestDigest s.invocations m
  match replay with
  | some (true, result) => return (s, result)
  | some (false, _) => return (s, emptyInputConflict m)
  | none => do
    let (lanes, result) ← mutate (worldOf ctx s) s.lanes m
    let invocations ← storeInvocation ctx.requestDigest m result s.invocations
    return ({ s with lanes := lanes, invocations := invocations }, result)

/-! ### WorkItems that end -/

/-- How a commit leaves its WorkItem. -/
def commitEnding (request : CommitRequest) (row : Row) : Ending :=
  { status := if retries request row then none else some (terminalStatus request).1
    advance := false
    fence := rowFence (recordResultRefs request (applyStatus request row).1) }

/-- How a cancellation leaves its WorkItem. -/
def cancelEnding (request : CancelRequest) (row : Row) (fences : ℕ × ℕ) : Ending :=
  ⟨some .cancelled, true, rowFence (cancelledRow row request fences)⟩

/-- A commit carries the hold of its WorkItem along. -/
def commitLanes (codecs : Codecs) (items : Graph) (request : CommitRequest) (lanes : Lanes) :
    Except String Lanes :=
  match items.nodes.get request.fence.workItemId with
  | some (some row) =>
    if (commitPrecheck request row).isNone then
      transitionWorkItemTerminalHold codecs row request.fence.workItemId (commitEnding request row)
        lanes
    else .ok lanes
  | _ => .ok lanes

/-- A cancellation carries the hold of its WorkItem along. -/
def cancelLanes (codecs : Codecs) (items : Graph) (request : CancelRequest) (lanes : Lanes) :
    Except String Lanes :=
  match items.nodes.get request.workItemId with
  | some (some row) =>
    if row.tenant = request.tenant ∧ cancelRefusal row request.now = none then do
      let fences ← raisedFences "CancelWorkItem" row
      transitionWorkItemTerminalHold codecs row request.workItemId (cancelEnding request row fences)
        lanes
    else .ok lanes
  | _ => .ok lanes

/-- The lane side of a WorkItem operation. -/
def workItemLanes (codecs : Codecs) (items : Graph) (lanes : Lanes) :
    WorkItem.Machine.Call → Except String Lanes
  | .commit request => commitLanes codecs items request lanes
  | .cancel request => cancelLanes codecs items request lanes
  | _ => .ok lanes

def refusalOf {α : Type} : Except String α → Option String
  | .ok _ => none
  | .error message => some message

def receiptKinds : List String := ["run_trace", "tool_call", "outcome_evaluation"]

/-- The refusal of a receipt node of another kind. -/
def unboundReceipt : String × Option Row → Option String
  | (_, none) => none
  | (id, some row) =>
    if row.kind ∈ receiptKinds then none
    else some ("receipt node '" ++ id ++ "' kind is not bound")

def answeredCommit (request : CommitRequest) (lanes : Except String Lanes) : CommitRequest :=
  { request with answers :=
    { request.answers with
      extension := ((request.receipts.getD []).findSome? unboundReceipt).or request.answers.extension
      terminalHold := refusalOf lanes } }

def answeredCancel (request : CancelRequest) (lanes : Except String Lanes) : CancelRequest :=
  { request with answers := { request.answers with terminalHold := refusalOf lanes } }

/-- An operation with the answers of the checks that are in the model. -/
def answeredCall (lanes : Except String Lanes) : WorkItem.Machine.Call → WorkItem.Machine.Call
  | .commit request => .commit (answeredCommit request lanes)
  | .cancel request => .cancel (answeredCancel request lanes)
  | call => call

/-! ### Metadata -/

/-- The field that a compare-and-set writes. Rows have no view of the checkpoint reference: whether
its expected value is the stored one is said by the request. -/
inductive MetadataField
  | checkpointId (expectedIsStored : Bool)
  | metadata (expected next : String)
  | prioBucket (expected next : ℤ)

structure CasMetadataRequest where
  tenantRef : String
  workItemId : String
  expectedStatus : List Status
  expectedLease : Option Lease
  field : MetadataField
  now : ℕ

/-- The WorkItem is as the request expects it. -/
def casMetadataPreconditionsOk (request : CasMetadataRequest) (row : Row) (now : ℕ) : Bool :=
  row.status ∈ request.expectedStatus && row.nodeType = "WorkItem" &&
    row.tenant = request.tenantRef &&
    request.expectedLease.all fun lease => row.fences = lease && now < row.leaseExpiresAt

/-- Exchanges one metadata field. -/
def applyCasMetadataField (field : MetadataField) (row : Row) : Option Row :=
  match field with
  | .checkpointId expectedIsStored => if expectedIsStored then some row else none
  | .metadata expected next => if row.metadata = expected then some { row with metadata := next } else none
  | .prioBucket expected next =>
    if row.prioBucket = expected then some { row with prioBucket := next } else none

/-- Compare-and-set one field of a WorkItem. -/
def casWorkItemMetadata (request : CasMetadataRequest) (now : ℕ) (g : Graph) : Except String Graph := do
  rejectIf (request.expectedStatus = []) "CasWorkItemMetadata requires a non-empty expected_status"
  rejectIf (isBlank request.tenantRef = true ∨ isBlank request.workItemId = true)
    "CasWorkItemMetadata requires tenant_ref and work_item_id"
  let found ← g.load request.workItemId
  match found with
  | none => return g
  | some row =>
    if casMetadataPreconditionsOk request row now then
      match applyCasMetadataField request.field row with
      | none => return g
      | some next => return g.write request.workItemId { next with updatedAt := request.now }
    else return g

/-! ### Operations -/

/-- The operations that write a graph with lanes. -/
inductive Op
  | lane (now : ℕ) (m : Mutation)
  | workItem (call : WorkItem.Machine.Call)
  | casMetadata (now : ℕ) (request : CasMetadataRequest)
  | updateHost (request : HostUpdateRequest)
  | resource (mode : Resource.Lifecycle.Mode) (request : ReservationRequest)

/-- The rows are written if the link check passes. -/
def commitRows (ctx : Context) (s : State) : Except String State := do
  validateCurrentLaneLinks ctx.resource.codecs s.ledger.items s.lanes
  return s

/-- The rows an operation writes. -/
def writeRows (ctx : Context) (s : State) : Op → Except String State
  | .lane now m => do
    let (s, _) ← commitDevelopmentLane ctx now m s
    return s
  | .workItem call => do
    let lanes := workItemLanes ctx.resource.codecs s.ledger.items s.lanes call
    let (items, _) ← WorkItem.Machine.apply ctx.resource.digests s.ledger.items
      (answeredCall lanes call)
    let lanes ← lanes
    return { s with ledger := { s.ledger with items := items }, lanes := lanes }
  | .casMetadata now request => do
    let items ← casWorkItemMetadata request now s.ledger.items
    return { s with ledger := { s.ledger with items := items } }
  | .updateHost request => do
    let (ledger, _) ← Resource.Admission.applyUpdateResourceHost request s.ledger
    return { s with ledger := ledger }
  | .resource mode request => do
    let (ledger, _) ← Resource.Lifecycle.applyResourceReservationLifecycle ctx.resource.codecs mode
      request s.ledger
    return { s with ledger := ledger }

/-- A lane operation commits what it wrote, any other one only after the link check. -/
def checked (ctx : Context) (s : State) : Op → Except String State
  | .lane _ _ => .ok s
  | _ => commitRows ctx s

/-- **Apply an operation**: the state it commits, or why it commits nothing. -/
def apply (ctx : Context) (s : State) (op : Op) : Except String State := do
  let written ← writeRows ctx s op
  checked ctx written op

/-- The state after one operation; one that fails is rolled back. -/
def step (ctx : Context) (s : State) (op : Op) : State :=
  match apply ctx s op with
  | .ok s' => s'
  | .error _ => s

def run (ctx : Context) : State → List Op → State := Transaction.run (step ctx)

end Medulla.Lane.Machine
