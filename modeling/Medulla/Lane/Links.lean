import Medulla.Lane.Holds
import Medulla.Resource.Extension

/-! # Holds and their WorkItems

A hold is an authority only together with the WorkItem attempt it was reserved for. The operations
prove the WorkItem row before they act (`loadWorkItem`), and a commit of graph rows proves that every
stored hold still has its row (`validateHoldLinks`): the same tenant and kind, the same attempt and
fences, an owner and a status that fit the state of the hold, and the intent that the hold was made
from. -/

namespace Medulla.Lane.Links

open Library.Checked WorkItem.Rows Resource.Requests Resource.Extension Holds

variable {codecs : Codecs} {items items' : Graph} {row : Row} {holds : List (String × DurableHold)}

/-! ### Intents -/

/-- The kind of a WorkItem that holds a lane, or that cleans one up. -/
inductive WorkItemKind
  | lifecycle
  | cleanup

/-- The kind a WorkItem row stores. -/
def workItemKindName : WorkItemKind → String
  | .lifecycle => "lane.lifecycle"
  | .cleanup => "lane.cleanup"

def textField (fields : Fields) (key : String) : Option String := (fields.lookup key).bind Json.asStr

def numberField (fields : Fields) (key : String) : Option ℕ := (fields.lookup key).bind Json.asU64

def nullableField (fields : Fields) (key : String) : Option (Option String) :=
  match fields.lookup key with
  | some .null => some none
  | some (.text s) => some (some s)
  | _ => none

def targetKindOf : String → Option TargetKind
  | "local" => some .localHost
  | "inventory_alias" => some .inventoryAlias
  | _ => none

def intentKeys : List String :=
  ["schema_version", "tenant_ref", "request_id", "lane_id", "repository_id", "base_ref", "base_sha",
    "branch", "host_target_kind", "host_target_alias", "host_ref", "resource_reservation_id",
    "workspace_ref", "worktree_locator", "owner_id", "session_id", "fairness_group",
    "quota_policy_name", "quota_policy_version", "predicted_disk_bytes", "ttl_ms",
    "input_fingerprint"]

/-- Reads an intent, with no unknown field. -/
def intentOf (fields : Fields) : Option Intent := do
  guard (fields.all fun field => field.1 ∈ intentKeys)
  let version ← textField fields "schema_version"
  guard (version = "1")
  let tenantRef ← textField fields "tenant_ref"
  let requestId ← textField fields "request_id"
  let laneId ← textField fields "lane_id"
  let repositoryId ← textField fields "repository_id"
  let baseRef ← textField fields "base_ref"
  let baseSha ← textField fields "base_sha"
  let branch ← textField fields "branch"
  let hostTargetKind ← (textField fields "host_target_kind").bind targetKindOf
  let hostTargetAlias ← nullableField fields "host_target_alias"
  let hostRef ← textField fields "host_ref"
  let resourceReservationId ← textField fields "resource_reservation_id"
  let workspaceRef ← textField fields "workspace_ref"
  let worktreeLocator ← textField fields "worktree_locator"
  let ownerId ← textField fields "owner_id"
  let sessionId ← textField fields "session_id"
  let fairnessGroup ← textField fields "fairness_group"
  let quotaPolicyName ← textField fields "quota_policy_name"
  let quotaPolicyVersion ← textField fields "quota_policy_version"
  let predictedDiskBytes ← numberField fields "predicted_disk_bytes"
  let ttl ← numberField fields "ttl_ms"
  let inputFingerprint ← textField fields "input_fingerprint"
  return ⟨tenantRef, requestId, laneId, repositoryId, baseRef, baseSha, branch, hostTargetKind,
    hostTargetAlias, hostRef, resourceReservationId, workspaceRef, worktreeLocator, ownerId,
    sessionId, fairnessGroup, quotaPolicyName, quotaPolicyVersion, predictedDiskBytes, ttl,
    inputFingerprint⟩

/-- The fields of a cleanup intent; others are refused. -/
def cleanupKeys : List String := ["schema_version", "hold_id", "lane_id", "expected_hold_revision"]

/-- Reads a cleanup intent, with no unknown field. -/
def cleanupIntentOf (fields : Fields) : Option CleanupIntent := do
  guard (fields.all fun field => field.1 ∈ cleanupKeys)
  let version ← textField fields "schema_version"
  guard (version = "1")
  let holdId ← textField fields "hold_id"
  let laneId ← textField fields "lane_id"
  let expectedHoldRevision ← numberField fields "expected_hold_revision"
  return ⟨holdId, laneId, expectedHoldRevision⟩

/-- An object under the repository projection of a row's metadata. -/
def projectionField (codecs : Codecs) (row : Row) (key : String) : Option Fields := do
  let outer ← (codecs.metadata row.metadata).asObject
  let repository ← (outer.lookup "repository_work_item").bind Json.asObject
  (repository.lookup key).bind Json.asObject

/-- The lane intent a WorkItem carries. -/
def laneIntentValue (codecs : Codecs) (row : Row) : Except Decision Intent :=
  match (projectionField codecs row "development_lane_intent").bind intentOf with
  | some intent => .ok intent
  | none => .error .inputConflict

/-- The cleanup intent a WorkItem carries. -/
def laneCleanupValue (codecs : Codecs) (row : Row) : Except Decision CleanupIntent :=
  match (projectionField codecs row "development_lane_cleanup").bind cleanupIntentOf with
  | none => .error .inputConflict
  | some intent => do
    rejectIf (intent.holdId = "" ∨ intent.laneId = "" ∨ intent.expectedHoldRevision = 0) .inputConflict
    fingerprint intent.holdId
    text intent.laneId
    return intent

/-- The bounds of an intent. -/
def intentValidate (intent : Intent) : Except Decision Unit := do
  boundedTexts [intent.tenantRef, intent.requestId, intent.laneId, intent.repositoryId,
    intent.baseRef]
  Holds.baseSha intent.baseSha
  boundedTexts [intent.branch, intent.workspaceRef]
  relativeLocator intent.worktreeLocator
  boundedTexts [intent.ownerId, intent.sessionId, intent.fairnessGroup, intent.quotaPolicyName,
    intent.quotaPolicyVersion]
  fingerprint intent.inputFingerprint
  rejectIf (intent.predictedDiskBytes = 0 ∨ maxDiskBytes < intent.predictedDiskBytes ∨
    intent.ttl = 0 ∨ maxTtl < intent.ttl) .invalid
  rejectIf ((intent.hostTargetKind = .localHost) = (intent.hostTargetAlias.isSome = true)) .invalid
  optionalText intent.hostTargetAlias
  boundedTexts [intent.hostRef, intent.resourceReservationId]

/-- The intent is the one the hold was made for. -/
def laneIntentMatchesHold (intent : Intent) (row : DurableHold) : Bool :=
  intent.tenantRef = row.hold.tenantRef && intent.requestId = row.hold.requestId &&
    intent.laneId = row.hold.laneId && intent.repositoryId = row.hold.repositoryId &&
    intent.baseRef = row.hold.baseRef && intent.baseSha = row.hold.baseSha &&
    intent.branch = row.hold.branch && intent.hostTargetKind = row.hold.hostTargetKind &&
    intent.hostTargetAlias = row.hold.hostTargetAlias && intent.hostRef = row.hold.hostRef &&
    intent.workspaceRef = row.hold.workspaceRef &&
    intent.worktreeLocator = row.hold.worktreeLocator && intent.ownerId = row.hold.ownerId &&
    intent.sessionId = row.hold.sessionId && intent.fairnessGroup = row.hold.fairnessGroup &&
    intent.quotaPolicyName = row.hold.quotaPolicyName &&
    intent.quotaPolicyVersion = row.hold.quotaPolicyVersion &&
    intent.predictedDiskBytes = row.hold.predictedDiskBytes && intent.ttl = row.ttl &&
    intent.inputFingerprint = row.hold.inputFingerprint &&
    intent.resourceReservationId = row.resourceReservationId

/-! ### Proving a WorkItem -/

/-- The WorkItem attempt a request presents. -/
structure Presented where
  workItemId : String
  tenant : String
  owner : Option String
  fence : Fence

/-- The row is a WorkItem of the tenant and kind. -/
def workItemIdentityDecision (row : Row) (tenant : String) (kind : WorkItemKind) :
    Except Decision Unit := do
  rejectIf (row.nodeType ≠ "WorkItem") .notFound
  rejectIf (row.tenant ≠ tenant) .wrongTenant
  rejectIf (row.kind ≠ workItemKindName kind) .wrongKind

/-- The presented fence is the stored one. -/
def workItemTupleDecision (row : Row) (fence : Fence) : Except Decision Unit := do
  rejectIf (fence.attempt = 0 ∨ fence.leaseEpoch = 0 ∨ fence.fencingToken = 0 ∨
    fence.workItemFence = "") .invalid
  rejectIf (row.attempt ≠ fence.attempt) .wrongAttempt
  rejectIf (row.leaseEpoch ≠ fence.leaseEpoch) .wrongLeaseEpoch
  rejectIf (row.fencingToken ≠ fence.fencingToken) .wrongFence
  rejectIf (row.workItemFence ≠ fence.workItemFence) .wrongFence

/-- The lease is as the request needs it. -/
def workItemLeaseDecision (row : Row) (requireTerminal : Bool) (now : ℕ) : Except Decision Unit := do
  rejectIf (requireTerminal ≠ row.status.isTerminal) .terminal
  rejectIf (row.status.isTerminal = false ∧ row.status.isLive = false) .wrongOwner
  rejectIf (row.status.isTerminal = false ∧ row.leaseExpiresAt ≤ now) .expired

/-- The presented owner holds the lease, or held it last. -/
def workItemOwnerDecision (row : Row) (owner : Option String) : Except Decision Unit :=
  rejectIf (owner.any fun expected =>
    (if row.status.isTerminal || !row.status.isLive then row.lastLeaseOwner else row.leaseOwner) ≠
      expected) .wrongOwner

/-- The stored intent is valid and the expected one. -/
def workItemLifecycleProjection (codecs : Codecs) (row : Row) (tenant : String)
    (owner : Option String) (expected : Option Intent) : Except Decision Intent := do
  let stored ← laneIntentValue codecs row
  rejectIf (stored.tenantRef ≠ tenant) .wrongTenant
  rejectIf (owner.any fun expectedOwner => stored.ownerId ≠ expectedOwner) .wrongOwner
  rejectIf (expected.any fun intent => stored ≠ intent) .inputConflict
  return stored

/-- The stored cleanup intent is the expected one. -/
def workItemCleanupProjection (codecs : Codecs) (row : Row) (expected : CleanupIntent) :
    Except Decision Unit := do
  let stored ← laneCleanupValue codecs row
  rejectIf (stored ≠ expected) .inputConflict

def loadWorkItemProps (items : Graph) (id : String) : Except Decision Row :=
  match items.nodes.get id with
  | none => .error .notFound
  | some none => .error .invalid
  | some (some row) => .ok row

/-- Reads a presented WorkItem and checks it. -/
def loadPresented (items : Graph) (presented : Presented) (kind : WorkItemKind)
    (requireTerminal : Bool) (now : ℕ) : Except Decision Row := do
  let row ← loadWorkItemProps items presented.workItemId
  workItemIdentityDecision row presented.tenant kind
  workItemTupleDecision row presented.fence
  workItemLeaseDecision row requireTerminal now
  workItemOwnerDecision row presented.owner
  return row

/-- **Prove a lifecycle WorkItem**: its row, and the intent in it. -/
def loadLifecycleWorkItem (codecs : Codecs) (items : Graph) (presented : Presented)
    (requireTerminal : Bool) (now : ℕ) (expected : Option Intent) :
    Except Decision (Row × Intent) := do
  let row ← loadPresented items presented .lifecycle requireTerminal now
  let intent ← workItemLifecycleProjection codecs row presented.tenant presented.owner expected
  return (row, intent)

/-- **Prove a cleanup WorkItem** that is under a lease. -/
def loadCleanupWorkItem (codecs : Codecs) (items : Graph) (presented : Presented) (now : ℕ)
    (expected : CleanupIntent) : Except Decision Unit := do
  let row ← loadPresented items presented .cleanup false now
  workItemCleanupProjection codecs row expected

/-! ### The link check -/

def lifecycleWorkItemOwnerMatches (row : Row) (owner : String) : Bool :=
  if row.status.isLive then row.leaseOwner = owner
  else row.status.isTerminal && row.leaseOwner = "" && row.lastLeaseOwner = owner

/-- The WorkItem does not carry the hold's fence. -/
def checkpointLifecycleFenceMismatch (row : Row) (hold : Hold) : Bool :=
  row.nodeType ≠ "WorkItem" || row.tenant ≠ hold.tenantRef ||
    row.kind ≠ workItemKindName .lifecycle || rowFence row ≠ hold.fence ||
    !lifecycleWorkItemOwnerMatches row hold.ownerId

/-- The cleanup WorkItem does not carry its fence. -/
def checkpointCleanupFenceMismatch (row : Row) (hold : Hold) (fence : Fence) : Bool :=
  row.nodeType ≠ "WorkItem" || row.tenant ≠ hold.tenantRef ||
    row.kind ≠ workItemKindName .cleanup || rowFence row ≠ fence ||
    !(row.status.isTerminal || row.status.isLive)

/-- A live WorkItem has a hold without an outcome. -/
def checkpointLiveStatusMatches (row : DurableHold) (status : Status) : Bool :=
  status.isLive && row.terminalState.isNone && row.terminalExpectedHoldRevision.isNone

/-- An expired hold has a row under a lease or an ended one, and no outcome. -/
def checkpointExpiredStatusMatches (row : DurableHold) (status : Status) : Bool :=
  (status.isLive || status.isTerminal) && row.terminalState.isNone &&
    row.terminalExpectedHoldRevision.isNone && row.hold.tombstone && !row.hold.activeCountCharged

/-- An ended WorkItem has a hold with its outcome. -/
def checkpointTerminalOutcomeMatches (row : DurableHold) (status : Status) : Bool :=
  status.isTerminal && row.terminalState = some status && row.terminalExpectedHoldRevision.isSome &&
    row.hold.tombstone && !row.hold.activeCountCharged

/-- The state of a hold fits the status of its WorkItem. -/
def checkpointLifecycleStatusMatches (row : DurableHold) (status : Status) : Bool :=
  match row.hold.state with
  | .allocating => checkpointLiveStatusMatches row status
  | .active => checkpointLiveStatusMatches row status
  | .submitted => checkpointLiveStatusMatches row status
  | .cleanupPending => checkpointTerminalOutcomeMatches row status && row.hold.retainedDiskBytes ≠ 0
  | .released => checkpointTerminalOutcomeMatches row status && row.hold.retainedDiskBytes ≠ 0
  | .expired => checkpointExpiredStatusMatches row status
  | .cleaned => checkpointTerminalOutcomeMatches row status && row.hold.retainedDiskBytes = 0
  | .aborted => true
  | .absent => true

def linkedRow (items : Graph) (id absent invalid : String) : Except String Row :=
  match items.nodes.get id with
  | none => .error absent
  | some none => .error invalid
  | some (some row) => .ok row

def validateCleanupIntent (codecs : Codecs) (item : Row) (expected : CleanupIntent) :
    Except String Unit :=
  match laneCleanupValue codecs item with
  | .error _ => .error "checkpoint cleaned lane cleanup intent missing"
  | .ok cleanup => rejectIf (cleanup ≠ expected) "checkpoint cleaned lane cleanup intent mismatch"

/-- The cleanup WorkItem of a hold is there and fits. -/
def validateCheckpointCleanupLink (codecs : Codecs) (items : Graph) (row : DurableHold) :
    Except String Unit := do
  let id ← okOr row.hold.cleanupWorkItemId "checkpoint cleaned lane cleanup WorkItem missing"
  let fence ← okOr row.hold.cleanupFence "checkpoint cleaned lane cleanup fence missing"
  let revision ← okOr row.cleanupExpectedHoldRevision
    "checkpoint cleaned lane cleanup revision missing"
  let item ← linkedRow items id "checkpoint would orphan a cleaned lane cleanup WorkItem"
    "checkpoint cleanup WorkItem decode failed"
  rejectIf (checkpointCleanupFenceMismatch item row.hold fence = true)
    "checkpoint cleaned lane cleanup WorkItem fence mismatch"
  validateCleanupIntent codecs item ⟨row.hold.holdId, row.hold.laneId, revision⟩

/-- The WorkItem's intent is the one of the hold. -/
def validateIntentLink (codecs : Codecs) (item : Row) (row : DurableHold) : Except String Unit :=
  match laneIntentValue codecs item with
  | .error _ => .error "checkpoint development lane intent missing"
  | .ok intent => rejectIf (laneIntentMatchesHold intent row = false)
      "checkpoint development lane intent mismatch"

/-- **The link of one hold.** -/
def validateCheckpointHoldLink (codecs : Codecs) (items : Graph) (row : DurableHold) :
    Except String Unit := do
  let item ← linkedRow items row.hold.workItemId "checkpoint would orphan a development lane hold"
    "checkpoint WorkItem decode failed"
  rejectIf (checkpointLifecycleFenceMismatch item row.hold = true)
    "checkpoint development lane WorkItem fence mismatch"
  rejectIf (checkpointLifecycleStatusMatches row item.status = false)
    "checkpoint development lane WorkItem status/state mismatch"
  validateIntentLink codecs item row
  if row.hold.state = .cleaned then validateCheckpointCleanupLink codecs items row else return ()

def isLinked (row : DurableHold) : Bool := row.hold.state ≠ .absent && row.hold.state ≠ .aborted

def holdsInBounds : List (String × DurableHold) → Except String Unit
  | [] => .ok ()
  | (_, row) :: rest => do
    durableHoldBounds row
    holdsInBounds rest

def validateLinked (codecs : Codecs) (items : Graph) (row : DurableHold) : Except String Unit :=
  if isLinked row then validateCheckpointHoldLink codecs items row else .ok ()

/-- Every linked hold has its WorkItem. -/
def linksHold (codecs : Codecs) (items : Graph) : List (String × DurableHold) → Except String Unit
  | [] => .ok ()
  | (_, row) :: rest => do
    validateLinked codecs items row
    linksHold codecs items rest

/-- **The check of every commit of graph rows**: all stored holds are in bounds, and those that are
linked have their links. -/
def validateHoldLinks (codecs : Codecs) (items : Graph) (holds : List (String × DurableHold)) :
    Except String Unit := do
  holdsInBounds holds
  linksHold codecs items holds

/-! ### What the check says -/

theorem holdsInBounds_ok : ∀ {holds : List (String × DurableHold)},
    holdsInBounds holds = .ok () ↔ ∀ entry ∈ holds, durableHoldBounds entry.2 = .ok ()
  | [] => by simp [holdsInBounds]
  | (id, row) :: rest => by
    unfold holdsInBounds
    rw [check_eq_ok, holdsInBounds_ok]
    simp

theorem linksHold_ok : ∀ {holds : List (String × DurableHold)},
    linksHold codecs items holds = .ok () ↔ ∀ entry ∈ holds, isLinked entry.2 = true →
      validateCheckpointHoldLink codecs items entry.2 = .ok ()
  | [] => by simp [linksHold]
  | (id, row) :: rest => by
    unfold linksHold validateLinked
    rw [check_eq_ok, linksHold_ok]
    by_cases hlinked : isLinked row = true
    · simp [hlinked]
    · simp [hlinked]

theorem validateHoldLinks_ok :
    validateHoldLinks codecs items holds = .ok () ↔
      ∀ entry ∈ holds, durableHoldBounds entry.2 = .ok () ∧ (isLinked entry.2 = true →
        validateCheckpointHoldLink codecs items entry.2 = .ok ()) := by
  unfold validateHoldLinks
  rw [check_eq_ok, holdsInBounds_ok, linksHold_ok]
  exact ⟨fun h entry hentry => ⟨h.1 entry hentry, h.2 entry hentry⟩,
    fun h => ⟨fun entry hentry => (h entry hentry).1, fun entry hentry => (h entry hentry).2⟩⟩

/-! ### What the check depends on -/

/-- The WorkItem rows are the same. -/
def SameWorkItems (items items' : Graph) : Prop :=
  ∀ id row, items.nodes.get id = some (some row) → row.isWorkItem = true →
    items'.nodes.get id = items.nodes.get id

theorem linkedRow_ok {id absent invalid : String} :
    linkedRow items id absent invalid = .ok row ↔ items.nodes.get id = some (some row) := by
  unfold linkedRow
  split <;> rename_i h <;> simp [h]

theorem SameWorkItems.linkedRow (h : SameWorkItems items items') {id absent invalid : String}
    (hrow : Links.linkedRow items id absent invalid = .ok row) (hitem : row.isWorkItem = true) :
    Links.linkedRow items' id absent invalid = .ok row := by
  rw [linkedRow_ok] at hrow ⊢
  rw [h id row hrow hitem, hrow]

theorem isWorkItem_of_lifecycle {hold : Hold}
    (h : checkpointLifecycleFenceMismatch row hold = false) : row.isWorkItem = true := by
  by_contra hother
  have htype : row.nodeType ≠ "WorkItem" := by simpa [Row.isWorkItem] using hother
  unfold checkpointLifecycleFenceMismatch at h
  simp [htype] at h

theorem isWorkItem_of_cleanup {hold : Hold} {fence : Fence}
    (h : checkpointCleanupFenceMismatch row hold fence = false) : row.isWorkItem = true := by
  by_contra hother
  have htype : row.nodeType ≠ "WorkItem" := by simpa [Row.isWorkItem] using hother
  unfold checkpointCleanupFenceMismatch at h
  simp [htype] at h

theorem SameWorkItems.cleanupLink {row : DurableHold} (hsame : SameWorkItems items items')
    (h : validateCheckpointCleanupLink codecs items row = .ok ()) :
    validateCheckpointCleanupLink codecs items' row = .ok () := by
  obtain ⟨id, hid, h⟩ := unbind h
  obtain ⟨fence, hfence, h⟩ := unbind h
  obtain ⟨revision, hrevision, h⟩ := unbind h
  obtain ⟨item, hitem, h⟩ := unbind h
  obtain ⟨u, hmismatch, h⟩ := unbind h
  have hworkItem : item.isWorkItem = true := by
    rw [rejectIf_eq_ok, Bool.not_eq_true] at hmismatch
    exact isWorkItem_of_cleanup hmismatch
  refine bind_eq_ok.mpr ⟨id, hid, bind_eq_ok.mpr ⟨fence, hfence, bind_eq_ok.mpr ⟨revision, hrevision, ?_⟩⟩⟩
  exact bind_eq_ok.mpr ⟨item, hsame.linkedRow hitem hworkItem, bind_eq_ok.mpr ⟨u, hmismatch, h⟩⟩

theorem SameWorkItems.holdLink {row : DurableHold} (hsame : SameWorkItems items items')
    (h : validateCheckpointHoldLink codecs items row = .ok ()) :
    validateCheckpointHoldLink codecs items' row = .ok () := by
  obtain ⟨item, hitem, h⟩ := unbind h
  obtain ⟨u, hmismatch, h⟩ := unbind h
  obtain ⟨u', hstatus, h⟩ := unbind h
  obtain ⟨u'', hintent, h⟩ := unbind h
  have hworkItem : item.isWorkItem = true := by
    rw [rejectIf_eq_ok, Bool.not_eq_true] at hmismatch
    exact isWorkItem_of_lifecycle hmismatch
  have hcleaned : (if row.hold.state = .cleaned then validateCheckpointCleanupLink codecs items' row
      else pure ()) = Except.ok () := by
    split_ifs at h ⊢
    · exact hsame.cleanupLink h
    · rfl
  refine bind_eq_ok.mpr ⟨item, hsame.linkedRow hitem hworkItem, bind_eq_ok.mpr ⟨u, hmismatch, ?_⟩⟩
  exact bind_eq_ok.mpr ⟨u', hstatus, bind_eq_ok.mpr ⟨u'', hintent, hcleaned⟩⟩

/-- **The check looks at WorkItems only**: a write that leaves them alone does not change it. -/
theorem SameWorkItems.validateHoldLinks
    (hsame : SameWorkItems items items') (h : Links.validateHoldLinks codecs items holds = .ok ()) :
    Links.validateHoldLinks codecs items' holds = .ok () := by
  rw [validateHoldLinks_ok] at h ⊢
  intro entry hentry
  obtain ⟨hbounds, hlink⟩ := h entry hentry
  exact ⟨hbounds, fun hlinked => hsame.holdLink (hlink hlinked)⟩

end Medulla.Lane.Links
