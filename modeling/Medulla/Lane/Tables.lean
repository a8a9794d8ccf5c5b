import Medulla.Lane.Links
import Medulla.Lane.Quota

/-! # Lane tables

The requests and the answers of the lane operations, the tables they write and the steps they share. -/

namespace Medulla.Lane.Tables

open Library.Checked Library.OrderedTable WorkItem.Rows Holds Quota

/-! ### Requests -/

/-- Whose attempt of which WorkItem a request is about. -/
structure Correlation where
  tenantRef : String
  workItemId : String
  ownerId : String
  fence : Fence

/-- A request to reserve a lane. -/
structure ReserveRequest extends Correlation where
  intent : Intent
  idempotencyKey : String
  now : ℕ

/-- What every request on an existing hold names. -/
structure HoldRequest extends Correlation where
  holdId : String
  expectedHoldRevision : ℕ
  idempotencyKey : String
  now : ℕ

/-- Extends a hold. -/
structure RenewRequest extends HoldRequest where
  ttl : ℕ

/-- Reports the disk a hold uses. -/
structure ObserveRequest extends HoldRequest where
  observedDiskBytes : ℕ
  observationRevision : ℕ

/-- The outcome that a finish reports. -/
inductive TerminalState
  | succeeded
  | failed
  | cancelled
  | deadLetter

def TerminalState.status : TerminalState → Status
  | .succeeded => .succeeded
  | .failed => .failed
  | .cancelled => .cancelled
  | .deadLetter => .deadLetter

/-- Ends a hold with its WorkItem. -/
structure FinishRequest extends HoldRequest where
  terminalState : TerminalState

/-- Ends a hold's cleanup, with the cleanup WorkItem's fence and the proof of removal. -/
structure CleanupRequest extends HoldRequest where
  cleanupWorkItemId : String
  cleanupFence : Fence
  removalProofRef : String

/-- Installs a tenant's policy, or the global one. -/
structure QuotaUpdateRequest where
  tenantRef : String
  policy : Policy
  expectedPolicyRevision : ℕ
  expectedPolicyVersion : Option String
  idempotencyKey : String
  now : ℕ

/-! ### Results -/

/-- A hold as callers see it. -/
def publicHold (hold : Hold) : Hold :=
  { hold with worktreeLocator := "redacted", hostRef := "redacted", hostTargetAlias := none }

/-- The answer to a request about a hold. -/
structure HoldResult where
  decision : Decision
  hold : Option Hold
  holdRevision : ℕ
  lifecycleRevision : ℕ
  tombstone : Bool
  quotaCharge : Option QuotaCharge

/-- The answer of a hold operation. -/
def holdResult (decision : Decision) (row : Option DurableHold) (policyRevision : ℕ) : HoldResult :=
  { decision := decision
    hold := row.map fun value => publicHold value.hold
    holdRevision := (row.map fun value => value.hold.holdRevision).getD 0
    lifecycleRevision := (row.map fun value => value.hold.lifecycleRevision).getD 0
    tombstone := (row.map fun value => value.hold.tombstone).getD false
    quotaCharge := row.map fun value =>
      holdCharge (publicHold value.hold) value.hold.holdRevision policyRevision }

structure QuotaResult where
  decision : Decision
  policy : Option Policy
  counters : QuotaCharge
  policyRevision : ℕ

/-! ### Gates -/

/-- How an operation stops before it has written: with an answer, or with a failed transaction. -/
inductive Stop (ρ : Type)
  | refused (result : ρ)
  | failed (message : String)

/-- A step that may stop with an answer or fail. -/
abbrev Gate (ρ α : Type) := Except (Stop ρ) α

/-- A failed read fails the whole operation. -/
def orFail {ρ α : Type} : Except String α → Gate ρ α
  | .ok a => .ok a
  | .error message => .error (.failed message)

/-- A refusal is answered. -/
def orRefuse {ρ α : Type} (answer : Decision → ρ) : Except Decision α → Gate ρ α
  | .ok a => .ok a
  | .error decision => .error (.refused (answer decision))

/-- An absent row is answered. -/
def orElseRefuse {ρ α : Type} (result : ρ) : Option α → Gate ρ α
  | some a => .ok a
  | none => .error (.refused result)

@[simp]
theorem orFail_eq_ok {ρ α : Type} {x : Except String α} {a : α} :
    (orFail x : Gate ρ α) = .ok a ↔ x = .ok a := by
  cases x <;> simp [orFail]

@[simp]
theorem orRefuse_eq_ok {ρ α : Type} {answer : Decision → ρ} {x : Except Decision α} {a : α} :
    orRefuse answer x = .ok a ↔ x = .ok a := by
  cases x <;> simp [orRefuse]

@[simp]
theorem orElseRefuse_eq_ok {ρ α : Type} {result : ρ} {x : Option α} {a : α} :
    orElseRefuse result x = .ok a ↔ x = some a := by
  cases x <;> simp [orElseRefuse]

/-! ### Tables -/

/-- The tables of the lanes. -/
structure Lanes where
  holds : Table String DurableHold
  tenantIndex : Table (String ×ₗ String) String
  laneIndex : Table (String ×ₗ String) String
  branchIndex : Table (String ×ₗ String) String
  worktreeIndex : Table String String
  workItemIndex : Table (String ×ₗ ℕ) String
  meters : Meters
  policies : Policies

/-- No hold, policy or counter is stored. -/
def Lanes.fresh : Lanes :=
  ⟨.empty, .empty, .empty, .empty, .empty, .empty, ⟨.empty, .empty⟩, .empty⟩

/-- Reads a hold and checks its bounds. -/
def holdLoad (lanes : Lanes) (id : String) : Except String (Option DurableHold) :=
  match lanes.holds.get id with
  | none => .ok none
  | some row => do
    durableHoldBounds row
    return some row

/-- Stores a hold within its bounds. -/
def holdEncode (row : DurableHold) (lanes : Lanes) : Except String Lanes := do
  durableHoldBounds row
  return { lanes with holds := lanes.holds.insert row.hold.holdId row }

theorem holdLoad_eq_some {lanes : Lanes} {id : String} {row : DurableHold}
    (h : holdLoad lanes id = .ok (some row)) :
    lanes.holds.get id = some row ∧ durableHoldBounds row = .ok () := by
  unfold holdLoad at h
  split at h
  · cases h
  · rename_i stored hget
    rw [check_eq_ok] at h
    obtain ⟨hbounds, h⟩ := h
    cases h
    exact ⟨hget, hbounds⟩

/-- Reads an index entry and checks the id it holds. -/
def indexed (context : String) (entry : Option String) : Except String (Option String) :=
  match entry with
  | none => .ok none
  | some id => do
    failing context (fingerprint id)
    return some id

def laneIndexKey (hold : Hold) : String ×ₗ String := toLex (hold.tenantRef, hold.laneId)

def branchIndexKey (hold : Hold) : String ×ₗ String := toLex (hold.tenantRef, branchKey hold)

def workItemIndexKey (id : String) (attempt : ℕ) : String ×ₗ ℕ := toLex (id, attempt)

def tenantIndexKey (hold : Hold) : String ×ₗ String := toLex (hold.tenantRef, hold.holdId)

def workItemIndexId (lanes : Lanes) (id : String) (attempt : ℕ) : Except String (Option String) :=
  indexed "lane WorkItem index hold: " (lanes.workItemIndex.get (workItemIndexKey id attempt))

def indexHoldId (lanes : Lanes) (id : String) : Except String String := do
  let row ← okOr (lanes.holds.get id) "development lane index points to a missing hold"
  durableHoldBounds row
  return id

/-- Enters a hold into the exclusivity indexes. -/
def putIndexes (hold : Hold) (lanes : Lanes) : Except String Lanes := do
  failing "lane index hold: " (fingerprint hold.holdId)
  return { lanes with
    laneIndex := lanes.laneIndex.insert (laneIndexKey hold) hold.holdId
    branchIndex := lanes.branchIndex.insert (branchIndexKey hold) hold.holdId
    worktreeIndex := lanes.worktreeIndex.insert (worktreeKey hold) hold.holdId
    workItemIndex := lanes.workItemIndex.insert (workItemIndexKey hold.workItemId hold.fence.attempt)
      hold.holdId
    tenantIndex := lanes.tenantIndex.insert (tenantIndexKey hold) hold.holdId }

/-- An index entry may be removed: it is there and names this hold. -/
def removable (context missing other : String) (entry : Option String) (holdId : String) :
    Except String Unit := do
  let found ← indexed context entry
  let existing ← okOr found missing
  rejectIf (existing ≠ holdId) other

/-- Takes a hold out of the exclusivity indexes. -/
def removeIndexes (hold : Hold) (lanes : Lanes) : Except String Lanes := do
  removable "lane index hold: " "development lane exclusivity index is missing"
    "development lane exclusivity index points to another hold"
    (lanes.laneIndex.get (laneIndexKey hold)) hold.holdId
  removable "lane branch index hold: " "development lane branch index is missing"
    "development lane branch index points to another hold"
    (lanes.branchIndex.get (branchIndexKey hold)) hold.holdId
  removable "lane index hold: " "development lane exclusivity index is missing"
    "development lane exclusivity index points to another hold"
    (lanes.worktreeIndex.get (worktreeKey hold)) hold.holdId
  removable "lane WorkItem index hold: " "development lane WorkItem index is missing"
    "development lane WorkItem index points to another hold"
    (lanes.workItemIndex.get (workItemIndexKey hold.workItemId hold.fence.attempt)) hold.holdId
  let tombstone ← indexed "lane tenant index hold: " (lanes.tenantIndex.get (tenantIndexKey hold))
  let _ ← okOr tombstone "development lane tenant tombstone index is missing"
  return { lanes with
    laneIndex := lanes.laneIndex.remove (laneIndexKey hold)
    branchIndex := lanes.branchIndex.remove (branchIndexKey hold)
    worktreeIndex := lanes.worktreeIndex.remove (worktreeKey hold)
    workItemIndex :=
      lanes.workItemIndex.remove (workItemIndexKey hold.workItemId hold.fence.attempt) }

/-- Charges a hold's counters in all scopes. -/
def charge (tenant : String) (hold : Hold) (delta : Charge) (revisions : Revisions) (lanes : Lanes) :
    Except String Lanes := do
  let loaded ← loadScopeCounters lanes.meters.counters hold revisions
  let meters ← applyCounterDelta tenant loaded delta revisions lanes.meters
  return { lanes with meters := meters }

/-! ### Shared steps -/

def nextRevision (n : ℕ) (name : String) : Except String ℕ :=
  okOr (checkedAdd u64Max n 1) ("development lane " ++ name ++ " revision overflow")

/-- The request comes from the attempt that owns the hold. -/
def holdCorrelationsMatch (hold : Hold) (request : Correlation) : Except Decision Unit := do
  rejectIf (hold.tenantRef ≠ request.tenantRef) .wrongTenant
  rejectIf (hold.workItemId ≠ request.workItemId) .conflict
  rejectIf (hold.ownerId ≠ request.ownerId) .wrongOwner
  rejectIf (hold.fence.attempt ≠ request.fence.attempt) .wrongAttempt
  rejectIf (hold.fence.leaseEpoch ≠ request.fence.leaseEpoch) .wrongLeaseEpoch
  rejectIf (hold.fence.fencingToken ≠ request.fence.fencingToken ∨
    hold.fence.workItemFence ≠ request.fence.workItemFence) .wrongFence

/-- The last observation is recent enough for the policy. -/
def observationFresh (row : DurableHold) (policy : Policy) (now : ℕ) : Bool :=
  row.lastObservedAt.any fun observedAt =>
    observedAt ≤ now && now - observedAt ≤ policy.maxObservationStaleness

/-- What a hold gives back when it stops being active. -/
def releaseCharge (hold : Hold) : Charge :=
  { active := some false
    predicted := some ⟨false, hold.predictedDiskBytes⟩
    observed := some ⟨false, hold.observedDiskBytes⟩
    retained := some ⟨true, max hold.predictedDiskBytes hold.observedDiskBytes⟩ }

/-- A hold that has run out: its disk is retained. -/
def expiredHold (hold : Hold) (holdRevision lifecycleRevision policyRevision : ℕ) : Hold :=
  let expired : Hold := { hold with
    activeCountCharged := false
    retainedDiskBytes := max hold.predictedDiskBytes hold.observedDiskBytes
    state := .expired
    tombstone := true
    holdRevision := holdRevision
    lifecycleRevision := lifecycleRevision }
  { expired with quotaCharge := holdCharge expired holdRevision policyRevision }

/-- Expires a hold and moves its charge to the retained disk. -/
def expireActiveHold (row : DurableHold) (revisions : Revisions) (lanes : Lanes) :
    Except String (Lanes × DurableHold) := do
  let lanes ← charge row.hold.tenantRef row.hold (releaseCharge row.hold) revisions lanes
  let holdRevision ← nextRevision row.hold.holdRevision "hold"
  let lifecycleRevision ← nextRevision row.hold.lifecycleRevision "lifecycle"
  let row := { row with
    hold := expiredHold row.hold holdRevision lifecycleRevision revisions.tenant }
  let lanes ← holdEncode row lanes
  return (lanes, row)

def holdNoLongerActive (hold : Hold) : Bool := hold.tombstone || !hold.activeCountCharged

def ttlOutsidePolicy (ttl : ℕ) (policy : Policy) : Bool := ttl < policy.minTtl || policy.maxTtl < ttl

/-- The tenant's and the global policy, both needed. -/
def currentPolicies (lanes : Lanes) (tenant : String) :
    Gate HoldResult (DurablePolicy × DurablePolicy) := do
  let found ← orFail (loadPolicy lanes.policies tenant)
  let policy ← orElseRefuse (holdResult .policy none 0) found
  let found ← orFail (loadGlobalPolicy lanes.policies)
  let globalPolicy ← orElseRefuse (holdResult .policy none policy.policyRevision) found
  return (policy, globalPolicy)

def revisionsOf (policies : DurablePolicy × DurablePolicy) : Revisions :=
  ⟨policies.1.policyRevision, policies.2.policyRevision⟩

def loadHold (lanes : Lanes) (id : String) (revision : ℕ) : Gate HoldResult DurableHold := do
  let found ← orFail (holdLoad lanes id)
  orElseRefuse (holdResult .notFound none revision) found

def refusal (row : DurableHold) (revision : ℕ) (decision : Decision) : HoldResult :=
  holdResult decision (some row) revision

end Medulla.Lane.Tables
