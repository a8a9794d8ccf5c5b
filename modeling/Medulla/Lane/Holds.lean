import Medulla.Resource.Requests
import Medulla.WorkItem.Rows

/-! # Development lane holds

A lane is a branch, a worktree and a place on a host that one attempt of a WorkItem holds for a time.
The WorkItem asks for it in its intent; the hold is the durable row that answers, and it stays as a
tombstone after the lane is given back. -/

namespace Medulla.Lane.Holds

open Library.Checked WorkItem.Rows Resource.Requests

/-! ### Bounds of texts -/

def maxText : ℕ := 512

def maxFingerprint : ℕ := 67

/-- Longest time to live, in milliseconds. -/
def maxTtl : ℕ := 7 * 24 * 60 * 60 * 1000

def maxDiskBytes : ℕ := 2 ^ 50

def maxCount : ℕ := 2 ^ 32

def globalPolicyKey : String := "*"

/-- The answer to a request. -/
inductive Decision
  | accepted
  | idempotent
  | stale
  | conflict
  | inputConflict
  | quota
  | policy
  | drained
  | notFound
  | wrongKind
  | wrongTenant
  | wrongOwner
  | wrongAttempt
  | wrongLeaseEpoch
  | wrongFence
  | expired
  | terminal
  | cleanupRequired
  | exclusivity
  | invalid

/-- A text within the native bounds: not empty, not long, without control characters. -/
def text (value : String) : Except Decision Unit :=
  rejectIf (value = "" ∨ maxText < value.utf8ByteSize ∨ value.toList.any (fun c => c.val < 0x20))
    .invalid

/-- All of these are bounded texts. -/
def boundedTexts : List String → Except Decision Unit
  | [] => .ok ()
  | value :: rest => do
    text value
    boundedTexts rest

def isLowerHex (c : Char) : Bool := isAsciiHexdigit c && !c.isUpper

/-- A digest with its version, in lower hex digits. -/
def fingerprint (value : String) : Except Decision Unit :=
  rejectIf (value.utf8ByteSize ≠ maxFingerprint ∨ ¬ ("v1:".toList <+: value.toList) ∨
    (value.toList.drop 3).all isLowerHex = false) .invalid

/-- A git hash. -/
def baseSha (value : String) : Except Decision Unit :=
  rejectIf ((value.utf8ByteSize ≠ 40 ∧ value.utf8ByteSize ≠ 64) ∨
    value.toList.all isLowerHex = false) .invalid

/-- A path below the managed root: not absolute, and no part of it empty or a step up. -/
def relativeLocator (value : String) : Except Decision Unit := do
  text value
  rejectIf (value.toList.head? = some '/' ∨ '\\' ∈ value.toList ∨
    (value.toList.splitOn '/').any (fun part => part = [] || part = ['.'] || part = ['.', '.']))
    .invalid

/-! ### Scopes -/

/-- What a limit counts over. -/
inductive Scope
  | tenant
  | owner
  | session
  | workspace
  | repository
  | host
  | global
  deriving DecidableEq

/-- What a counter counts. -/
inductive Metric
  | count
  | predicted
  | observed
  | retained
  deriving DecidableEq

/-- One value for each scope. -/
structure PerScope where
  tenant : ℕ := 0
  owner : ℕ := 0
  session : ℕ := 0
  workspace : ℕ := 0
  repository : ℕ := 0
  host : ℕ := 0
  global : ℕ := 0

namespace PerScope

def get (values : PerScope) : Scope → ℕ
  | .tenant => values.tenant
  | .owner => values.owner
  | .session => values.session
  | .workspace => values.workspace
  | .repository => values.repository
  | .host => values.host
  | .global => values.global

def all (n : ℕ) : PerScope := ⟨n, n, n, n, n, n, n⟩

def toList (values : PerScope) : List ℕ :=
  [values.tenant, values.owner, values.session, values.workspace, values.repository, values.host,
    values.global]

end PerScope

def scopes : List Scope := [.tenant, .owner, .session, .workspace, .repository, .host, .global]

/-! ### Rows -/

/-- What a lane is wanted for. -/
structure Intent where
  tenantRef : String
  requestId : String
  laneId : String
  repositoryId : String
  baseRef : String
  baseSha : String
  branch : String
  hostTargetKind : TargetKind
  hostTargetAlias : Option String
  hostRef : String
  resourceReservationId : String
  workspaceRef : String
  worktreeLocator : String
  ownerId : String
  sessionId : String
  fairnessGroup : String
  quotaPolicyName : String
  quotaPolicyVersion : String
  predictedDiskBytes : ℕ
  ttl : ℕ
  inputFingerprint : String
  deriving DecidableEq

/-- What a cleanup WorkItem cleans. -/
structure CleanupIntent where
  holdId : String
  laneId : String
  expectedHoldRevision : ℕ
  deriving DecidableEq

/-- The charges reported to a caller, by metric and scope. -/
structure QuotaCharge where
  count : PerScope
  predicted : PerScope
  observed : PerScope
  retained : PerScope
  revision : ℕ
  policyRevision : ℕ

/-- The states of a hold. -/
inductive HoldState
  | allocating
  | active
  | submitted
  | released
  | expired
  | cleanupPending
  | cleaned
  | aborted
  | absent
  deriving DecidableEq

namespace HoldState

/-- The states of a hold whose work goes on. -/
def isLive : HoldState → Bool
  | .allocating => true
  | .active => true
  | .submitted => true
  | _ => false

end HoldState

/-- Which attempt of a WorkItem a request speaks for. -/
structure Fence where
  attempt : ℕ
  leaseEpoch : ℕ
  fencingToken : ℕ
  workItemFence : String
  deriving DecidableEq

/-- The fence a WorkItem row stores. -/
def rowFence (row : Row) : Fence :=
  ⟨row.attempt, row.leaseEpoch, row.fencingToken, row.workItemFence⟩

/-- A hold. `fence` is that of the attempt it was reserved for, as far as the hold followed it. -/
structure Hold where
  holdId : String
  laneId : String
  tenantRef : String
  requestId : String
  workItemId : String
  ownerId : String
  sessionId : String
  fairnessGroup : String
  workspaceRef : String
  repositoryId : String
  baseRef : String
  baseSha : String
  branch : String
  worktreeLocator : String
  hostTargetKind : TargetKind
  hostTargetAlias : Option String
  hostRef : String
  quotaPolicyName : String
  quotaPolicyVersion : String
  inputFingerprint : String
  predictedDiskBytes : ℕ
  observedDiskBytes : ℕ
  retainedDiskBytes : ℕ
  activeCountCharged : Bool
  quotaCharge : QuotaCharge
  state : HoldState
  fence : Fence
  holdRevision : ℕ
  lifecycleRevision : ℕ
  allocationRevision : ℕ
  cleanupRevision : ℕ
  expiresAt : ℕ
  lastRenewedAt : ℕ
  cleanupWorkItemId : Option String
  cleanupFence : Option Fence
  tombstone : Bool

/-- A hold with the bookkeeping that stays inside. The source tuple of a terminal transition is there
as a whole or not at all. -/
structure DurableHold where
  hold : Hold
  observationRevision : ℕ
  lastObservedAt : Option ℕ
  terminalState : Option Status
  terminalExpectedHoldRevision : Option ℕ
  cleanupRemovalProofRef : Option String
  cleanupExpectedHoldRevision : Option ℕ
  terminalSource : Option Fence
  resourceReservationId : String
  ttl : ℕ

/-! ### Bounds of stored rows -/

/-- A counter within its native bounds. -/
def fenceCounter (n : ℕ) : Bool := 1 ≤ n && n ≤ maxCount

def Fence.counters (fence : Fence) : List ℕ := [fence.attempt, fence.leaseEpoch, fence.fencingToken]

/-- The texts of a hold that must be bounded. -/
def holdTexts (row : DurableHold) : List String :=
  [row.hold.holdId, row.hold.laneId, row.hold.tenantRef, row.hold.requestId, row.hold.workItemId,
    row.hold.ownerId, row.hold.sessionId, row.hold.fairnessGroup, row.hold.workspaceRef,
    row.hold.repositoryId, row.hold.baseRef, row.hold.branch, row.hold.hostRef,
    row.resourceReservationId, row.hold.fence.workItemFence, row.hold.quotaPolicyName,
    row.hold.quotaPolicyVersion]

def decisionName : Decision → String
  | .accepted => "accepted"
  | .idempotent => "idempotent"
  | .stale => "stale"
  | .conflict => "conflict"
  | .inputConflict => "input_conflict"
  | .quota => "quota"
  | .policy => "policy"
  | .drained => "drained"
  | .notFound => "not_found"
  | .wrongKind => "wrong_kind"
  | .wrongTenant => "wrong_tenant"
  | .wrongOwner => "wrong_owner"
  | .wrongAttempt => "wrong_attempt"
  | .wrongLeaseEpoch => "wrong_lease_epoch"
  | .wrongFence => "wrong_fence"
  | .expired => "expired"
  | .terminal => "terminal"
  | .cleanupRequired => "cleanup_required"
  | .exclusivity => "exclusivity"
  | .invalid => "invalid"

/-- A refused bound as a failure. -/
def failing {α : Type} (context : String) : Except Decision α → Except String α
  | .ok a => .ok a
  | .error decision => .error (context ++ decisionName decision)

@[simp]
theorem failing_eq_ok {α : Type} {context : String} {x : Except Decision α} {a : α} :
    failing context x = .ok a ↔ x = .ok a := by
  cases x <;> simp [failing]

def optionalText : Option String → Except Decision Unit
  | none => .ok ()
  | some value => text value

/-- The text bounds of a stored hold. -/
def durableHoldTextBounds (row : DurableHold) : Except String Unit := do
  failing "stored development lane hold: " (boundedTexts (holdTexts row))
  failing "stored development lane hold: " (fingerprint row.hold.holdId)
  failing "stored development lane hold: " (Holds.baseSha row.hold.baseSha)
  failing "stored development lane hold: " (relativeLocator row.hold.worktreeLocator)
  failing "stored development lane hold: " (fingerprint row.hold.inputFingerprint)
  failing "stored development lane hold: " (optionalText row.hold.hostTargetAlias)
  rejectIf ((row.hold.hostTargetKind = .localHost) = (row.hold.hostTargetAlias.isSome = true))
    "stored lane host target does not match its alias"

/-- The disk bounds of a stored hold. -/
def durableHoldQuotaBounds (row : DurableHold) : Except String Unit := do
  rejectIf (maxDiskBytes < row.hold.predictedDiskBytes)
    "stored predicted disk exceeds native bound"
  rejectIf (maxDiskBytes < row.hold.observedDiskBytes) "stored observed disk exceeds native bound"
  rejectIf (maxDiskBytes < row.hold.retainedDiskBytes) "stored retained disk exceeds native bound"
  rejectIf (row.hold.quotaCharge.count.toList.any (fun n => maxCount < n))
    "stored lane quota count exceeds native bound"
  rejectIf ((row.hold.quotaCharge.predicted.toList ++ row.hold.quotaCharge.observed.toList ++
      row.hold.quotaCharge.retained.toList).any (fun n => maxDiskBytes < n))
    "stored lane quota disk charge exceeds native bound"
  rejectIf (maxCount < row.hold.quotaCharge.revision ∨ maxCount < row.hold.quotaCharge.policyRevision)
    "stored lane quota revision exceeds native bound"

def holdRevisions (row : DurableHold) : List ℕ :=
  [row.observationRevision, row.hold.holdRevision, row.hold.lifecycleRevision,
    row.hold.allocationRevision, row.hold.cleanupRevision]

/-- The bounds of a stored hold's fence, lifetime and revisions. -/
def durableHoldFenceBounds (row : DurableHold) : Except String Unit := do
  rejectIf (row.ttl = 0 ∨ maxTtl < row.ttl) "stored lane TTL exceeds native bound"
  rejectIf (row.hold.fence.counters.all fenceCounter = false ∨
    (holdRevisions row).any (fun n => maxCount < n)) "stored lane fence is invalid"
  rejectIf (row.hold.expiresAt < row.hold.lastRenewedAt ∨
      row.lastObservedAt.any (fun observedAt => row.hold.expiresAt < observedAt))
    "stored lane observation timestamp is invalid"

def optionalCounter (name : String) (value : Option ℕ) : Except String Unit :=
  rejectIf (value.any (fun n => !fenceCounter n)) (name ++ " exceeds native bound")

/-- The bounds of a stored hold's cleanup and terminal counters. -/
def durableHoldOptionalCounterBounds (row : DurableHold) : Except String Unit := do
  optionalCounter "stored cleanup attempt" (row.hold.cleanupFence.map Fence.attempt)
  optionalCounter "stored cleanup lease epoch" (row.hold.cleanupFence.map Fence.leaseEpoch)
  optionalCounter "stored cleanup fencing token" (row.hold.cleanupFence.map Fence.fencingToken)
  optionalCounter "stored terminal hold revision" row.terminalExpectedHoldRevision
  optionalCounter "stored cleanup hold revision" row.cleanupExpectedHoldRevision
  optionalCounter "stored terminal source attempt" (row.terminalSource.map Fence.attempt)
  optionalCounter "stored terminal source lease epoch" (row.terminalSource.map Fence.leaseEpoch)
  optionalCounter "stored terminal source fencing token" (row.terminalSource.map Fence.fencingToken)

/-- The bounds of a stored hold's outcome. -/
def durableHoldTerminalBounds (row : DurableHold) : Except String Unit := do
  rejectIf (row.terminalState.any (fun status => !status.isTerminal))
    "stored development lane terminal state is invalid"
  failing "stored development lane hold: " (optionalText row.hold.cleanupWorkItemId)
  failing "stored development lane hold: "
    (optionalText (row.hold.cleanupFence.map Fence.workItemFence))
  durableHoldOptionalCounterBounds row
  failing "stored development lane hold: " (optionalText row.cleanupRemovalProofRef)
  failing "stored development lane hold: "
    (optionalText (row.terminalSource.map Fence.workItemFence))

/-- **The bounds of a stored hold**, checked when the row is read and when it is written. -/
def durableHoldBounds (row : DurableHold) : Except String Unit := do
  durableHoldTextBounds row
  durableHoldQuotaBounds row
  durableHoldFenceBounds row
  durableHoldTerminalBounds row

end Medulla.Lane.Holds
