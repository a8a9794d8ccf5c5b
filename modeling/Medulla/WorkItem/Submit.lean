import Mathlib.Data.List.Destutter
import Mathlib.Data.List.Sort
import Medulla.WorkItem.Rows

/-! # Submitting WorkItems

A submission resolves its dependencies in the same transaction: each is an existing WorkItem of the
tenant, and those that have not succeeded are counted and get the new item in their downstream index,
which the terminal transition of the parent later walks. -/

namespace Medulla.WorkItem.Submit

open Library.Checked Rows

/-! ### Requests -/

def maxSubmitRefBytes : ℕ := 1048576

def maxSubmitDependencies : ℕ := 1024

def maxSubmitProvenanceRefs : ℕ := 64

def maxSubmitMetadataBytes : ℕ := 65536

def maxSubmitBatch : ℕ := 128

def maxSubmitBatchChangedIds : ℕ := 4096

def maxQuotaScan : ℕ := 50000

/-- A submission. The context's graph is in its sanitised spelling and the metadata is encoded; the
deadline is a finite double of seconds. -/
structure SubmitWorkItemRequest where
  tenantId : String
  contextGraph : String
  idempotencyKey : String
  commandDigest : String
  kind : String
  policyDigest : String
  catalogDigest : String
  modelDigest : String
  inputRef : String
  dependsOn : List String
  maxTenantInFlight : ℕ
  maxAttempts : ℕ
  priority : ℤ
  deadline : Option ℚ
  provenanceRefs : List String
  metadata : String
  workItemId : Option String
  runId : Option String
  conversation : Option String

/-- Hexadecimal digests of a list of texts: of the texts with their lengths, and of the texts
separated by zero bytes. -/
structure Digests where
  framed : List String → String
  joined : List String → String

/-- Digests for runs on fixed inputs. -/
def plainDigests : Digests := ⟨fun _ => "", fun _ => ""⟩

/-- The commit a submission rides in: the authoritative clock and the admitted caller. -/
structure Scope where
  now : ℕ
  actor : Option String
  answers : Answers

/-! ### Validation -/

def isHexDigit (c : Char) : Bool :=
  ('0' ≤ c && c ≤ '9') || ('a' ≤ c && c ≤ 'f') || ('A' ≤ c && c ≤ 'F')

/-- A text that is not blank and not too long. -/
def validateField (field value : String) : Except String Unit :=
  rejectIf (isBlank value = true ∨ maxSubmitRefBytes < value.utf8ByteSize)
    ("SubmitWorkItem " ++ field ++ " is outside native bounds")

/-- The identity of a request: its tenant, graph and key. -/
def validateIdentity (graph : String) (request : SubmitWorkItemRequest) : Except String Unit := do
  rejectIf (isBlank request.tenantId = true ∨ request.contextGraph ≠ graph)
    "SubmitWorkItem context graph/tenant is invalid"
  validateField "idempotency_key" request.idempotencyKey
  validateField "command_digest" request.commandDigest
  validateField "kind" request.kind
  validateField "policy_digest" request.policyDigest
  validateField "catalog_digest" request.catalogDigest
  validateField "model_digest" request.modelDigest

/-- The digests and references of a request. -/
def validateRefs (request : SubmitWorkItemRequest) : Except String Unit := do
  rejectIf (request.commandDigest.utf8ByteSize ≠ 64 ∨
      request.commandDigest.toList.all isHexDigit = false)
    "SubmitWorkItem command_digest must be a SHA-256 hex value"
  rejectIf (maxSubmitRefBytes < request.inputRef.utf8ByteSize)
    "SubmitWorkItem input_ref exceeds native payload bound"
  rejectIf (maxSubmitDependencies < request.dependsOn.length)
    "SubmitWorkItem dependency count exceeds native bound"

/-- The admission limit: zero stands for the greatest. -/
def maxInflight (request : SubmitWorkItemRequest) : ℕ :=
  if request.maxTenantInFlight = 0 then 4096 else request.maxTenantInFlight

/-- The limits of a request. -/
def validateLimits (request : SubmitWorkItemRequest) : Except String Unit := do
  rejectIf (¬ (1 ≤ maxInflight request ∧ maxInflight request ≤ 4096) ∨ request.maxAttempts = 0 ∨
      4096 < request.maxAttempts ∨ ¬ (-1024 ≤ request.priority ∧ request.priority ≤ 1024))
    "SubmitWorkItem admission/max_attempts/priority is outside native bounds"
  rejectIf (request.deadline.any (fun deadline => deadline < 0) = true)
    "SubmitWorkItem deadline_unix is invalid"
  rejectIf (maxSubmitProvenanceRefs < request.provenanceRefs.length ∨
      request.provenanceRefs.any (fun r => isBlank r || maxSubmitRefBytes < r.utf8ByteSize) = true)
    "SubmitWorkItem provenance_refs exceed native bounds"
  rejectIf (maxSubmitMetadataBytes < request.metadata.utf8ByteSize)
    "SubmitWorkItem metadata exceeds native bound"

/-! ### Dependencies -/

def sortedDependencies (request : SubmitWorkItemRequest) : List String :=
  (request.dependsOn.insertionSort (· ≤ ·)).destutter (· ≠ ·)

/-- The dependencies, sorted, with none named twice. -/
def dependenciesUnique (request : SubmitWorkItemRequest) : Except String (List String) := do
  rejectIf ((sortedDependencies request).length ≠ request.dependsOn.length)
    "SubmitWorkItem dependencies must be unique"
  return sortedDependencies request

/-- Whether an existing WorkItem of the tenant is still to succeed. -/
def resolveDependency (g : Graph) (tenant dependency : String) : Except String Bool := do
  rejectIf (isBlank dependency = true ∨ 512 < dependency.utf8ByteSize)
    "SubmitWorkItem dependency id is outside native bounds"
  let found ← g.load dependency
  let row ← okOr found ("SubmitWorkItem dependency '" ++ dependency ++ "' was not found")
  rejectIf (row.isWorkItem = false)
    ("SubmitWorkItem dependency '" ++ dependency ++ "' is not a WorkItem")
  rejectIf (row.tenant ≠ tenant) "ACCESS_DENIED: WorkItem dependency tenant mismatch"
  return decide (row.status ≠ .succeeded)

/-- The dependencies that have not succeeded; all must be items of the tenant. -/
def pendingDependencies (g : Graph) (tenant : String) : List String → Except String (List String)
  | [] => .ok []
  | dependency :: rest => do
    let pending ← resolveDependency g tenant dependency
    let later ← pendingDependencies g tenant rest
    return if pending then dependency :: later else later

/-! ### Admission -/

/-- A row that counts against the tenant's quota. -/
def isInflightRow (tenant : String) (row : Row) : Bool :=
  row.isWorkItem && row.tenant = tenant && !row.status.isTerminal && row.status ≠ .completed

/-- Counts the tenant's rows, up to the scan bound. -/
def countInflight (tenant : String) : ℕ → ℕ → List (String × Option Row) → Except String ℕ
  | _, inflight, [] => .ok inflight
  | scanned, inflight, (_, payload) :: rest =>
    if maxQuotaScan < scanned + 1 then
      .error "ADMISSION_BACKPRESSURE: WorkItem quota scan exceeds native bound"
    else
      match payload with
      | none => .error "invalid durable payload"
      | some row =>
        countInflight tenant (scanned + 1)
          (if isInflightRow tenant row then saturatingAdd u64Max inflight 1 else inflight) rest

/-- The id of the item of a run. -/
def runWorkItemId (H : Digests) (graph tenant run : String) : Except String String := do
  rejectIf (isBlank run = true ∨ 512 < run.utf8ByteSize)
    "run admission requires a bounded nonempty run_id"
  return "work-item:" ++ H.framed ["run-admission", graph, tenant, run]

/-- Only the owner of a run submits for it. -/
def admitOwner (H : Digests) (graph : String) (request : SubmitWorkItemRequest)
    (actor : Option String) : Except String Unit :=
  match request.runId with
  | none => .ok ()
  | some run => do
    rejectIf (request.workItemId.isSome = true)
      "run admission cannot attach a caller-selected WorkItem"
    let _ ← runWorkItemId H graph request.tenantId run
    require (actor.any (fun a => a ≠ "") = true)
      "ACCESS_DENIED: run admission requires verified caller attribution"

/-- The chosen identity: the run's, the caller's, or the one of the idempotency key. -/
def chosenId (H : Digests) (graph : String) (request : SubmitWorkItemRequest) :
    Except String String :=
  match request.runId with
  | some run => runWorkItemId H graph request.tenantId run
  | none => .ok (request.workItemId.getD
      ("work-item:" ++ H.joined [graph, request.tenantId, request.idempotencyKey]))

/-- The id of a new item, not in use. -/
def resolveId (H : Digests) (g : Graph) (request : SubmitWorkItemRequest) :
    Except String String := do
  let id ← chosenId H g.name request
  rejectIf (isBlank id = true ∨ 512 < id.utf8ByteSize)
    "SubmitWorkItem work_item_id is outside native bounds"
  rejectIf ((g.nodes.get id).isSome = true)
    "IDEMPOTENCY_CONFLICT: work_item_id is already present"
  return id

/-! ### Conversations -/

def headId (H : Digests) (tenant context : String) : String :=
  "conversation-head:" ++ H.framed ["conversation-head", tenant, context]

def headRow (tenant : String) : Row := { nodeType := "ConversationHead", tenant := tenant }

def checkHead : Option (Option Row) → Except String Unit
  | none => .ok ()
  | some none => .error "invalid durable payload"
  | some (some row) => require (row.nodeType = "ConversationHead")
      "ACCESS_DENIED: conversation owner is unavailable"

/-- Reserves the head of a conversation. -/
def reserve (H : Digests) (g : Graph) (request : SubmitWorkItemRequest) (answers : Answers) :
    Except String (Graph × List String) := do
  answered answers.conversation
  match request.conversation with
  | none => return (g, [])
  | some context => do
    require (request.runId.isSome = true) "CONVERSATION_INVALID: native run identity is required"
    let id := headId H request.tenantId context
    checkHead (g.nodes.get id)
    return (g.put id (some (headRow request.tenantId)), [id])

/-! ### Writing -/

/-- The row of a new item. -/
def newRow (request : SubmitWorkItemRequest) (dependencies pending : List String)
    (sequence now : ℕ) : Row where
  nodeType := "WorkItem"
  tenant := request.tenantId
  kind := request.kind
  queue := request.kind
  status := if pending.length = 0 then .ready else .submitted
  prioBucket := request.priority
  payloadRef := request.inputRef
  dependsOn := dependencies
  depCount := pending.length
  downstreamIds := some []
  backoffBase := 1000
  maxAttempts := request.maxAttempts
  createdAt := seconds now
  updatedAt := now
  deadline := request.deadline
  metadata := request.metadata
  commandSequence := sequence

/-- Enters an item among the children of its dependency. -/
def indexDownstream (g : Graph) (id dependency : String) : Except String Graph := do
  let found ← g.load dependency
  let parent ← okOr found ("SubmitWorkItem dependency '" ++ dependency ++ "' disappeared")
  let ids ← okOr parent.downstreamIds
    ("SubmitWorkItem dependency '" ++ dependency ++ "' has invalid downstream index")
  return if id ∈ ids then g
    else g.write dependency { parent with downstreamIds := some (ids ++ [id]) }

/-- Enters an item among the children of all its dependencies. -/
def indexAll (id : String) : Graph → List String → Except String Graph
  | g, [] => .ok g
  | g, dependency :: rest => do
    let g ← indexDownstream g id dependency
    indexAll id g rest

/-- The answer to a submission. -/
structure Submitted where
  workItemId : String
  status : Status
  commandSequence : ℕ
  dependencyCount : ℕ
  admittedCount : ℕ
  maxTenantInFlight : ℕ
  changedWorkItemIds : List String
  deriving DecidableEq

def resolveDependencies (g : Graph) (request : SubmitWorkItemRequest) :
    Except String (List String × List String) := do
  validateIdentity g.name request
  validateRefs request
  validateLimits request
  let dependencies ← dependenciesUnique request
  let pending ← pendingDependencies g request.tenantId dependencies
  return (dependencies, pending)

/-- Submits one item. -/
def submitWorkItem (H : Digests) (request : SubmitWorkItemRequest) (scope : Scope) (g : Graph) :
    Except String (Graph × Submitted) := do
  admitOwner H g.name request scope.actor
  let (dependencies, pending) ← resolveDependencies g request
  let inflight ← countInflight request.tenantId 0 0 g.nodes.rows
  rejectIf (maxInflight request ≤ inflight)
    ("TENANT_QUOTA: tenant has " ++ toString inflight ++ " in-flight WorkItems (limit " ++
      toString (maxInflight request) ++ ")")
  let id ← resolveId H g request
  let sequence ← okOr (checkedAdd u64Max g.commandSequence 1) "WorkItem command sequence exhausted"
  let (reserved, head) ← reserve H { g with commandSequence := sequence } request scope.answers
  let row := newRow request dependencies pending sequence scope.now
  let written ← indexAll id (reserved.write id row) pending
  return (written, ⟨id, row.status, sequence, dependencies.length, saturatingAdd u64Max inflight 1,
    maxInflight request, id :: pending ++ head⟩)

/-! ### Batches -/

/-- A batch of submissions of one tenant. -/
structure SubmitWorkItemsRequest where
  tenantId : String
  contextGraph : String
  idempotencyKey : String
  requests : List SubmitWorkItemRequest

/-- A child of a batch belongs to its tenant and graph. -/
def validateBatchChild (graph tenant : String) (child : SubmitWorkItemRequest) :
    Except String Unit := do
  rejectIf (child.runId.isSome = true) "run admission requires a single SubmitWorkItem"
  rejectIf (child.tenantId ≠ tenant ∨ child.contextGraph ≠ graph)
    "SubmitWorkItems child context scope mismatch"

/-- Submits the children of a batch one after another. -/
def submitChildren (H : Digests) (tenant : String) (scope : Scope) :
    List SubmitWorkItemRequest → Graph → Except String (Graph × List Submitted)
  | [], g => .ok (g, [])
  | child :: rest, g => do
    validateBatchChild g.name tenant child
    let (g, result) ← submitWorkItem H child scope g
    let (g, results) ← submitChildren H tenant scope rest g
    return (g, result :: results)

def changedBound (requests : List SubmitWorkItemRequest) : ℕ :=
  (requests.map fun child => child.dependsOn.length + 1).sum

/-- Submits a batch, all or nothing. -/
def submitWorkItems (H : Digests) (request : SubmitWorkItemsRequest) (scope : Scope) (g : Graph) :
    Except String (Graph × List Submitted) := do
  rejectIf (request.requests = [] ∨ maxSubmitBatch < request.requests.length)
    "SubmitWorkItems batch is outside native bounds"
  rejectIf (isBlank request.idempotencyKey = true ∨ request.contextGraph ≠ g.name)
    "SubmitWorkItems context/idempotency is invalid"
  rejectIf (maxSubmitBatchChangedIds < changedBound request.requests)
    "SubmitWorkItems changed-row result exceeds native bound"
  submitChildren H request.tenantId scope request.requests g

end Medulla.WorkItem.Submit
