import Medulla.Lane.Tables

/-! # Lane operations

The six mutations of the lane tables, and the one that a WorkItem that ends makes. A hold is reserved
as active, renewed and observed while its WorkItem is under a lease, and becomes pending cleanup when
its WorkItem ends. -/

namespace Medulla.Lane.Lifecycle

open Library.Checked Library.OrderedTable WorkItem.Rows Resource.Requests Resource.Extension
open Holds Quota Links Tables

/-! ### Bounds of requests -/

def fenceComplete (fence : Fence) : Except Decision Unit :=
  rejectIf (fence.attempt = 0 ∨ fence.leaseEpoch = 0 ∨ fence.fencingToken = 0) .invalid

def correlationTexts (request : Correlation) (rest : List String) : List String :=
  request.tenantRef :: request.workItemId :: request.ownerId :: request.fence.workItemFence :: rest

/-- The bounds of a reserve request. -/
def validateReserveBounds (request : ReserveRequest) : Except Decision Unit := do
  intentValidate request.intent
  boundedTexts (correlationTexts request.toCorrelation [request.idempotencyKey])
  fenceComplete request.fence

/-- The bounds every request on a hold has. -/
def validateHoldBounds (request : HoldRequest) : Except Decision Unit := do
  boundedTexts (correlationTexts request.toCorrelation [request.holdId, request.idempotencyKey])
  fenceComplete request.fence

/-- The bounds of a renew request. -/
def validateRenewBounds (request : RenewRequest) : Except Decision Unit := do
  validateHoldBounds request.toHoldRequest
  rejectIf (request.ttl = 0 ∨ maxTtl < request.ttl) .invalid

/-- The bounds of an observation. -/
def validateObserveBounds (request : ObserveRequest) : Except Decision Unit := do
  validateHoldBounds request.toHoldRequest
  rejectIf (maxDiskBytes < request.observedDiskBytes) .invalid

/-- The bounds of a finish request. -/
def validateFinishBounds (request : FinishRequest) : Except Decision Unit :=
  validateHoldBounds request.toHoldRequest

/-- The bounds of a cleanup request. -/
def validateCleanupBounds (request : CleanupRequest) : Except Decision Unit := do
  validateHoldBounds request.toHoldRequest
  boundedTexts [request.cleanupWorkItemId, request.cleanupFence.workItemFence,
    request.removalProofRef]
  fenceComplete request.cleanupFence

/-- The bounds of a policy update. -/
def validateQuotaUpdateBounds (request : QuotaUpdateRequest) : Except Decision Unit := do
  text request.tenantRef
  text request.idempotencyKey
  optionalText request.expectedPolicyVersion
  policyValidate request.policy

/-! ### Reserve -/

/-- The request and its intent name different things. -/
def reserveRequestInconsistent (request : ReserveRequest) : Bool :=
  request.tenantRef ≠ request.intent.tenantRef || request.ownerId ≠ request.intent.ownerId ||
    request.workItemId = "" || request.fence.attempt = 0 || request.fence.leaseEpoch = 0 ||
    request.fence.fencingToken = 0 || request.fence.workItemFence = "" ||
    request.idempotencyKey = ""

def reserveRequestDecision (request : ReserveRequest) : Except Decision Unit := do
  intentValidate request.intent
  rejectIf (reserveRequestInconsistent request = true) .invalid
  boundedTexts (correlationTexts request.toCorrelation [request.idempotencyKey])

/-- The intent names another policy, or a time to live outside its window. -/
def reservePolicyMismatch (policy : Policy) (intent : Intent) : Bool :=
  policy.policyName ≠ intent.quotaPolicyName || policy.policyVersion ≠ intent.quotaPolicyVersion ||
    ttlOutsidePolicy intent.ttl policy

/-- The two policies agree with each other and with the request, and neither is draining. -/
def reservePolicyRefusal (policies : DurablePolicy × DurablePolicy) (intent : Intent) :
    Except Decision Unit := do
  rejectIf (policies.2.policy.drainOnly = true) .drained
  rejectIf (policies.1.globalPolicyRevision ≠ policies.2.policyRevision) .conflict
  rejectIf (globalPolicyEqual policies.1.policy policies.2.policy = false) .conflict
  rejectIf (reservePolicyMismatch policies.1.policy intent = true) .policy
  rejectIf (policies.1.policy.drainOnly = true) .drained

/-- The policies a reservation is admitted under. -/
def reservePolicyGate (lanes : Lanes) (request : ReserveRequest) :
    Gate HoldResult (DurablePolicy × DurablePolicy) := do
  let tenant ← orFail (loadPolicy lanes.policies request.tenantRef)
  let shared ← orFail (loadGlobalPolicy lanes.policies)
  let policy ← orElseRefuse (holdResult .policy none 0) tenant
  let globalPolicy ← orElseRefuse (holdResult .policy none policy.policyRevision) shared
  orRefuse (fun decision => holdResult decision none policy.policyRevision)
    (reservePolicyRefusal (policy, globalPolicy) request.intent)
  return (policy, globalPolicy)

/-- The stored hold is the one requested. -/
def holdImmutableEqual (row : DurableHold) (request : ReserveRequest) : Bool :=
  row.hold.workItemId = request.workItemId && row.hold.tenantRef = request.tenantRef &&
    row.hold.ownerId = request.ownerId && row.hold.fence = request.fence &&
    row.hold.laneId = request.intent.laneId && row.hold.requestId = request.intent.requestId &&
    row.hold.repositoryId = request.intent.repositoryId &&
    row.hold.baseRef = request.intent.baseRef && row.hold.baseSha = request.intent.baseSha &&
    row.hold.branch = request.intent.branch &&
    row.hold.workspaceRef = request.intent.workspaceRef &&
    row.hold.worktreeLocator = request.intent.worktreeLocator &&
    row.hold.hostRef = request.intent.hostRef &&
    row.hold.hostTargetKind = request.intent.hostTargetKind &&
    row.hold.hostTargetAlias = request.intent.hostTargetAlias &&
    row.resourceReservationId = request.intent.resourceReservationId &&
    row.ttl = request.intent.ttl && row.hold.sessionId = request.intent.sessionId &&
    row.hold.fairnessGroup = request.intent.fairnessGroup &&
    row.hold.quotaPolicyName = request.intent.quotaPolicyName &&
    row.hold.quotaPolicyVersion = request.intent.quotaPolicyVersion &&
    row.hold.predictedDiskBytes = request.intent.predictedDiskBytes &&
    row.hold.inputFingerprint = request.intent.inputFingerprint

/-- A WorkItem attempt that has a hold already has another one. -/
def attemptGate (lanes : Lanes) (request : ReserveRequest) (id : String) (revision : ℕ) :
    Gate HoldResult Unit := do
  let entry ← orFail (workItemIndexId lanes request.workItemId request.fence.attempt)
  match entry with
  | none => return ()
  | some existing =>
    match indexHoldId lanes existing with
    | .error _ => .error (.failed "development lane WorkItem index is orphaned")
    | .ok existing =>
      if existing ≠ id then .error (.refused (holdResult .inputConflict none revision))
      else .error (.failed "development lane WorkItem index disagrees with hold identity")

/-- A request is about a new hold, unless it is a replay. -/
def reserveIdentityGate (lanes : Lanes) (request : ReserveRequest) (id : String) (revision : ℕ) :
    Gate HoldResult Unit := do
  let found ← orFail (holdLoad lanes id)
  match found with
  | some existing =>
    if holdImmutableEqual existing request then
      .error (.refused (holdResult .idempotent (some existing) revision))
    else .error (.refused (holdResult .inputConflict none revision))
  | none => attemptGate lanes request id revision

/-- The resource reservation does not belong to the requesting attempt. -/
def resourceFenceMismatch (resource : ReservationRecord) (request : ReserveRequest) : Bool :=
  resource.state ≠ .reserved || resource.expiresAt ≤ request.now ||
    resource.tenantRef ≠ request.tenantRef || resource.workItemId ≠ request.workItemId ||
    resource.ownerId ≠ request.ownerId || resource.attempt ≠ request.fence.attempt ||
    resource.leaseEpoch ≠ request.fence.leaseEpoch ||
    resource.fencingToken ≠ request.fence.fencingToken ||
    resource.fence ≠ request.fence.workItemFence

def resourceTargetMatches (resource : ReservationRecord) (intent : Intent) : Bool :=
  match intent.hostTargetKind with
  | .localHost => resource.targetKind = .localHost && resource.targetAlias.isNone
  | .inventoryAlias =>
    resource.targetKind = .inventoryAlias && resource.targetAlias = intent.hostTargetAlias

/-- The resource reservation is not for the lane's host and input. -/
def resourcePlacementMismatch (resource : ReservationRecord) (intent : Intent) (hostRef : String) :
    Bool :=
  resource.hostRef ≠ hostRef || resource.inputFingerprint ≠ intent.inputFingerprint ||
    resource.repositoryId ≠ intent.repositoryId || resource.branch ≠ intent.branch ||
    !resourceTargetMatches resource intent

/-- **The reservation is not the one of the request.** -/
def resourceReservationMismatch (resource : ReservationRecord) (request : ReserveRequest)
    (hostRef : String) : Bool :=
  resourceFenceMismatch resource request ||
    resourcePlacementMismatch resource request.intent hostRef

/-- An index entry is free, or the hold's own. -/
def exclusivePair (lanes : Lanes) (entry : Option String) (id : String) : Except Decision Unit :=
  match entry with
  | none => .ok ()
  | some existing =>
    if existing = id then .ok ()
    else
      match indexHoldId lanes existing with
      | .error _ => .error .invalid
      | .ok _ => .error .exclusivity

/-- Lane, branch and worktree are free, and every counter has room. -/
def reserveAdmissionGate (lanes : Lanes) (hold : Hold) (policy : Policy) (revisions : Revisions) :
    Gate HoldResult (List ScopeCounter) := do
  let answer := fun decision => holdResult decision none revisions.tenant
  let lane ← orFail (indexed "lane index hold: " (lanes.laneIndex.get (laneIndexKey hold)))
  orRefuse answer (exclusivePair lanes lane hold.holdId)
  let branch ← orFail
    (indexed "lane branch index hold: " (lanes.branchIndex.get (branchIndexKey hold)))
  orRefuse answer (exclusivePair lanes branch hold.holdId)
  let worktree ← orFail (indexed "lane index hold: " (lanes.worktreeIndex.get (worktreeKey hold)))
  orRefuse answer (exclusivePair lanes worktree hold.holdId)
  let loaded ← orFail (loadScopeCounters lanes.meters.counters hold revisions)
  orRefuse answer (reserveCounterCheck policy hold.predictedDiskBytes loaded)
  return loaded

/-- The hold a reservation writes. -/
def reservedHold (request : ReserveRequest) (id : String) (expiresAt policyRevision : ℕ) : Hold :=
  let hold : Hold :=
    { holdId := id
      laneId := request.intent.laneId
      tenantRef := request.tenantRef
      requestId := request.intent.requestId
      workItemId := request.workItemId
      ownerId := request.ownerId
      sessionId := request.intent.sessionId
      fairnessGroup := request.intent.fairnessGroup
      workspaceRef := request.intent.workspaceRef
      repositoryId := request.intent.repositoryId
      baseRef := request.intent.baseRef
      baseSha := request.intent.baseSha
      branch := request.intent.branch
      worktreeLocator := request.intent.worktreeLocator
      hostTargetKind := request.intent.hostTargetKind
      hostTargetAlias := request.intent.hostTargetAlias
      hostRef := request.intent.hostRef
      quotaPolicyName := request.intent.quotaPolicyName
      quotaPolicyVersion := request.intent.quotaPolicyVersion
      inputFingerprint := request.intent.inputFingerprint
      predictedDiskBytes := request.intent.predictedDiskBytes
      observedDiskBytes := 0
      retainedDiskBytes := 0
      activeCountCharged := true
      quotaCharge := emptyCharge policyRevision
      state := .active
      fence := request.fence
      holdRevision := 1
      lifecycleRevision := 1
      allocationRevision := 1
      cleanupRevision := 0
      expiresAt := expiresAt
      lastRenewedAt := request.now
      cleanupWorkItemId := none
      cleanupFence := none
      tombstone := false }
  { hold with quotaCharge := holdCharge hold 1 policyRevision }

/-- The stored row a reservation writes. -/
def reservedRow (request : ReserveRequest) (hold : Hold) : DurableHold :=
  { hold := hold
    observationRevision := 0
    lastObservedAt := none
    terminalState := none
    terminalExpectedHoldRevision := none
    cleanupRemovalProofRef := none
    cleanupExpectedHoldRevision := none
    terminalSource := none
    resourceReservationId := request.intent.resourceReservationId
    ttl := request.intent.ttl }

def Correlation.presented (request : Correlation) : Presented :=
  ⟨request.workItemId, request.tenantRef, some request.ownerId, request.fence⟩

/-- What an operation reads outside the lane tables. -/
structure World where
  codecs : Codecs
  sha : String → String
  items : Graph
  reservations : Table String DurableReservation

/-- **Reserve a lane** for an attempt of a WorkItem. -/
def applyReserve (world : World) (request : ReserveRequest) (lanes : Lanes) :
    Gate HoldResult (Lanes × HoldResult) := do
  orRefuse (fun decision => holdResult decision none 0) (reserveRequestDecision request)
  let policies ← reservePolicyGate lanes request
  let revisions := revisionsOf policies
  let answer := fun decision => holdResult decision none revisions.tenant
  let id := holdId world.sha request.intent
  reserveIdentityGate lanes request id revisions.tenant
  let (_, stored) ← orRefuse answer (loadLifecycleWorkItem world.codecs world.items
    (Correlation.presented request.toCorrelation) false request.now (some request.intent))
  let resource ← orElseRefuse (answer .notFound)
    (world.reservations.get stored.resourceReservationId)
  orRefuse answer (rejectIf
    (resourceReservationMismatch resource.record request stored.hostRef = true) .wrongFence)
  let expiresAt ← orFail (okOr (checkedAdd u64Max request.now request.intent.ttl)
    "development lane expiry overflow")
  let hold := reservedHold request id expiresAt revisions.tenant
  let loaded ← reserveAdmissionGate lanes hold policies.1.policy revisions
  let meters ← orFail (applyCounterDelta request.tenantRef loaded
    { active := some true, predicted := some ⟨true, hold.predictedDiskBytes⟩ } revisions lanes.meters)
  let lanes ← orFail (putIndexes hold { lanes with meters := meters })
  let row := reservedRow request hold
  let lanes ← orFail (holdEncode row lanes)
  return (lanes, refusal row revisions.tenant .accepted)

/-! ### Renew and observe -/

/-- The WorkItem behind a request proves its fence and intent. -/
def proveLifecycle (world : World) (request : HoldRequest) (fence : Fence) (row : DurableHold)
    (requireTerminal : Bool) (answer : Decision → HoldResult) : Gate HoldResult Row := do
  let (item, intent) ← orRefuse answer (loadLifecycleWorkItem world.codecs world.items
    ⟨request.workItemId, request.tenantRef, some request.ownerId, fence⟩ requireTerminal request.now
    none)
  orRefuse answer (rejectIf (laneIntentMatchesHold intent row = false) .inputConflict)
  return item

/-- The part that renewing and observing share: the hold that the request is about, found under the
current policies, and still active. -/
def activeHoldGate (request : HoldRequest) (row : DurableHold) (revision : ℕ) (ended : Decision) :
    Gate HoldResult Unit := do
  orRefuse (refusal row revision) (holdCorrelationsMatch row.hold request.toCorrelation)
  orRefuse (refusal row revision) (rejectIf (holdNoLongerActive row.hold = true) ended)
  orRefuse (refusal row revision)
    (rejectIf (row.hold.holdRevision ≠ request.expectedHoldRevision) .stale)

/-- Expires a hold and answers so. -/
def expire (row : DurableHold) (revisions : Revisions) (lanes : Lanes) :
    Gate HoldResult (Lanes × HoldResult) := do
  let (lanes, row) ← orFail (expireActiveHold row revisions lanes)
  return (lanes, refusal row revisions.tenant .expired)

/-- A hold with its new expiry. -/
def renewedHold (hold : Hold) (now expiresAt holdRevision lifecycleRevision policyRevision : ℕ) :
    Hold :=
  let renewed : Hold := { hold with
    state := .active
    expiresAt := expiresAt
    lastRenewedAt := now
    holdRevision := holdRevision
    lifecycleRevision := lifecycleRevision }
  { renewed with quotaCharge := holdCharge renewed holdRevision policyRevision }

/-- Renews a hold that has not run out. -/
def renewLiveHold (world : World) (request : RenewRequest) (row : DurableHold)
    (globalPolicy : Policy) (revisions : Revisions) (lanes : Lanes) :
    Gate HoldResult (Lanes × HoldResult) := do
  let answer := refusal row revisions.tenant
  let _ ← proveLifecycle world request.toHoldRequest request.fence row false answer
  orRefuse answer (rejectIf (observationFresh row globalPolicy request.now = false) .stale)
  let expiresAt ← orFail (okOr (checkedAdd u64Max request.now request.ttl)
    "development lane renewal expiry overflow")
  let holdRevision ← orFail (nextRevision row.hold.holdRevision "hold")
  let lifecycleRevision ← orFail (nextRevision row.hold.lifecycleRevision "lifecycle")
  let hold := renewedHold row.hold request.now expiresAt holdRevision lifecycleRevision
    revisions.tenant
  let row := { row with hold := hold }
  let lanes ← orFail (holdEncode row lanes)
  return (lanes, refusal row revisions.tenant .accepted)

def renewRequestIncomplete (request : RenewRequest) : Bool :=
  request.tenantRef = "" || request.workItemId = "" || request.ownerId = "" ||
    request.holdId = "" || request.idempotencyKey = "" || request.ttl = 0

/-- **Renew a hold**, or let it expire. -/
def applyRenew (world : World) (request : RenewRequest) (lanes : Lanes) :
    Gate HoldResult (Lanes × HoldResult) := do
  orRefuse (fun decision => holdResult decision none 0)
    (rejectIf (renewRequestIncomplete request = true) .invalid)
  let policies ← currentPolicies lanes request.tenantRef
  let revisions := revisionsOf policies
  orRefuse (fun decision => holdResult decision none revisions.tenant)
    (rejectIf (ttlOutsidePolicy request.ttl policies.2.policy = true) .policy)
  let row ← loadHold lanes request.holdId revisions.tenant
  activeHoldGate request.toHoldRequest row revisions.tenant .terminal
  if row.hold.expiresAt ≤ request.now then expire row revisions lanes
  else renewLiveHold world request row policies.2.policy revisions lanes

/-- The order of observations: an older revision or fewer bytes are stale, and the same revision is a
replay only with the same bytes. -/
def observationOrderingRefusal (request : ObserveRequest) (row : DurableHold) :
    Except Decision Unit :=
  if request.observationRevision < row.observationRevision ∨
      request.observedDiskBytes < row.hold.observedDiskBytes then .error .stale
  else if request.observationRevision ≠ row.observationRevision then .ok ()
  else if request.observedDiskBytes = row.hold.observedDiskBytes then .error .idempotent
  else .error .stale

/-- A hold with its new observation. -/
def observedRow (row : DurableHold) (request : ObserveRequest) (holdRevision policyRevision : ℕ) :
    DurableHold :=
  let observed : Hold := { row.hold with
    observedDiskBytes := request.observedDiskBytes
    holdRevision := holdRevision }
  { row with
    observationRevision := request.observationRevision
    lastObservedAt := some request.now
    hold := { observed with quotaCharge := holdCharge observed holdRevision policyRevision } }

/-- Charges the growth of an observation. -/
def chargeObserved (tenant : String) (row : DurableHold) (delta : ℕ) (revisions : Revisions)
    (lanes : Lanes) : Except String Lanes :=
  if 0 < delta then charge tenant row.hold { observed := some ⟨true, delta⟩ } revisions lanes
  else .ok lanes

/-- Records an observation of a hold that has not run out. -/
def observeLiveHold (world : World) (request : ObserveRequest) (row : DurableHold)
    (revisions : Revisions) (lanes : Lanes) : Gate HoldResult (Lanes × HoldResult) := do
  let answer := refusal row revisions.tenant
  let _ ← proveLifecycle world request.toHoldRequest request.fence row false answer
  orRefuse answer (observationOrderingRefusal request row)
  let delta ← orFail (okOr (checkedSub request.observedDiskBytes row.hold.observedDiskBytes)
    "development lane observation regressed")
  let holdRevision ← orFail (nextRevision row.hold.holdRevision "hold")
  let row := observedRow row request holdRevision revisions.tenant
  let lanes ← orFail (chargeObserved request.tenantRef row delta revisions lanes)
  let lanes ← orFail (holdEncode row lanes)
  return (lanes, refusal row revisions.tenant .accepted)

def observeRequestIncomplete (request : ObserveRequest) : Bool :=
  request.tenantRef = "" || request.workItemId = "" || request.ownerId = "" ||
    request.holdId = "" || request.idempotencyKey = "" || request.observationRevision = 0

/-- **Observe a hold**, or let it expire. -/
def applyObserve (world : World) (request : ObserveRequest) (lanes : Lanes) :
    Gate HoldResult (Lanes × HoldResult) := do
  orRefuse (fun decision => holdResult decision none 0)
    (rejectIf (observeRequestIncomplete request = true) .invalid)
  let policies ← currentPolicies lanes request.tenantRef
  let revisions := revisionsOf policies
  let row ← loadHold lanes request.holdId revisions.tenant
  activeHoldGate request.toHoldRequest row revisions.tenant .cleanupRequired
  if row.hold.expiresAt ≤ request.now then expire row revisions lanes
  else observeLiveHold world request row revisions lanes

/-! ### Finish -/

/-- A hold with the outcome of its WorkItem. -/
def finishedRow (row : DurableHold) (status : Status) (fence : Fence) (source : Option Fence)
    (holdRevision lifecycleRevision policyRevision : ℕ) : DurableHold :=
  let finished : Hold := { row.hold with
    fence := fence
    activeCountCharged := false
    retainedDiskBytes := max row.hold.predictedDiskBytes row.hold.observedDiskBytes
    state := .cleanupPending
    tombstone := true
    holdRevision := holdRevision
    lifecycleRevision := lifecycleRevision }
  { row with
    terminalState := some status
    terminalExpectedHoldRevision := some row.hold.holdRevision
    terminalSource := source
    hold := { finished with quotaCharge := holdCharge finished holdRevision policyRevision } }

/-- Turn the active charge of a hold into a retained one, under the fence of the ended row. -/
def transitionTerminalHold (row : DurableHold) (status : Status) (fence : Fence)
    (source : Option Fence) (revisions : Revisions) (lanes : Lanes) :
    Except String (Lanes × DurableHold) := do
  rejectIf (status.isTerminal = false) "development lane terminal state is invalid"
  let lanes ← charge row.hold.tenantRef row.hold (releaseCharge row.hold) revisions lanes
  let holdRevision ← nextRevision row.hold.holdRevision "hold"
  let lifecycleRevision ← nextRevision row.hold.lifecycleRevision "lifecycle"
  let row := finishedRow row status fence source holdRevision lifecycleRevision revisions.tenant
  let lanes ← holdEncode row lanes
  return (lanes, row)

/-- The request repeats the tuple that an earlier finish moved away from. -/
def finishSourceTupleMatches (row : DurableHold) (request : FinishRequest) : Bool :=
  !row.hold.activeCountCharged && row.terminalSource = some request.fence &&
    row.hold.tenantRef = request.tenantRef && row.hold.workItemId = request.workItemId &&
    row.hold.ownerId = request.ownerId

/-- Which tuples of the hold a request repeats. -/
structure FinishReplayMatches where
  sourceTuple : Bool
  currentTuple : Bool

/-- What a finish of a hold that has given up its charge answers: the same outcome is a replay. -/
def retainedDecision (row : DurableHold) (request : FinishRequest) (matched : FinishReplayMatches) :
    Decision :=
  let revisionMatches :=
    row.terminalExpectedHoldRevision = some request.expectedHoldRevision ||
      (row.terminalSource.isSome && matched.currentTuple &&
        row.hold.holdRevision = request.expectedHoldRevision)
  if row.terminalState = some request.terminalState.status ∧ revisionMatches = true then .idempotent
  else .inputConflict

/-- A finish of a hold that has given up its charge: it still has to prove the ended WorkItem. -/
def finishRetainedReplay (world : World) (request : FinishRequest) (row : DurableHold)
    (matched : FinishReplayMatches) (revision : ℕ) : Gate HoldResult (Lanes × HoldResult) := do
  let answer := refusal row revision
  let fence := if matched.sourceTuple then row.hold.fence else request.fence
  let (item, intent) ← orRefuse answer (loadLifecycleWorkItem world.codecs world.items
    ⟨request.workItemId, request.tenantRef, some request.ownerId, fence⟩ true request.now none)
  orRefuse answer (rejectIf (item.status ≠ request.terminalState.status ∨
    laneIntentMatchesHold intent row = false) .inputConflict)
  .error (.refused (answer (retainedDecision row request matched)))

/-- Finishes a hold whose WorkItem has ended. -/
def finishLiveHold (world : World) (request : FinishRequest) (row : DurableHold)
    (revisions : Revisions) (lanes : Lanes) : Gate HoldResult (Lanes × HoldResult) := do
  let answer := refusal row revisions.tenant
  orRefuse answer (rejectIf (row.hold.holdRevision ≠ request.expectedHoldRevision) .stale)
  let (item, intent) ← orRefuse answer (loadLifecycleWorkItem world.codecs world.items
    ⟨request.workItemId, request.tenantRef, some request.ownerId, request.fence⟩ true request.now
    none)
  orRefuse answer (rejectIf (item.status ≠ request.terminalState.status) .inputConflict)
  orRefuse answer (rejectIf (laneIntentMatchesHold intent row = false) .inputConflict)
  let (lanes, row) ← orFail (transitionTerminalHold row request.terminalState.status request.fence
    none revisions lanes)
  return (lanes, refusal row revisions.tenant .accepted)

def finishRequestIncomplete (request : FinishRequest) : Bool :=
  request.tenantRef = "" || request.workItemId = "" || request.ownerId = "" ||
    request.holdId = "" || request.idempotencyKey = ""

/-- The request is about the current tuple of the hold, or about the one it moved away from. -/
def finishTuples (row : DurableHold) (request : FinishRequest) (revision : ℕ) :
    Gate HoldResult FinishReplayMatches :=
  match holdCorrelationsMatch row.hold request.toCorrelation with
  | .ok _ => .ok ⟨finishSourceTupleMatches row request, true⟩
  | .error decision =>
    if finishSourceTupleMatches row request then .ok ⟨true, false⟩
    else .error (.refused (refusal row revision decision))

/-- **Finish a hold** whose WorkItem has ended. -/
def applyFinish (world : World) (request : FinishRequest) (lanes : Lanes) :
    Gate HoldResult (Lanes × HoldResult) := do
  orRefuse (fun decision => holdResult decision none 0)
    (rejectIf (finishRequestIncomplete request = true) .invalid)
  let policies ← currentPolicies lanes request.tenantRef
  let revisions := revisionsOf policies
  let row ← loadHold lanes request.holdId revisions.tenant
  let matched ← finishTuples row request revisions.tenant
  if row.hold.activeCountCharged then finishLiveHold world request row revisions lanes
  else finishRetainedReplay world request row matched revisions.tenant

/-! ### WorkItems that end -/

def holdNotLive (hold : Hold) : Bool := hold.tombstone || !hold.state.isLive

/-- The row is not the WorkItem of the hold. -/
def workItemIdentityMismatch (before : Row) (hold : Hold) : Bool :=
  before.nodeType ≠ "WorkItem" || before.kind ≠ workItemKindName .lifecycle ||
    before.tenant ≠ hold.tenantRef || !before.status.isLive

/-- The row before the end is of another attempt or of another owner. -/
def workItemFenceMismatch (before : Row) (hold : Hold) (id : String) : Bool :=
  hold.workItemId ≠ id || hold.fence ≠ rowFence before || before.leaseOwner ≠ hold.ownerId

/-- The counter of the ended row: a cancellation raises it. -/
def expectedTerminalCounter (value : ℕ) (advance : Bool) (overflow : String) : Except String ℕ :=
  if advance then okOr (checkedAdd u64Max value 1) overflow else .ok value

/-- The fence after an ending does not follow the one before. -/
def terminalTupleInvalid (before : Row) (leaseEpoch fencingToken : ℕ) (next : Fence) : Bool :=
  next.attempt = 0 || next.attempt ≠ before.attempt || next.leaseEpoch = 0 ||
    next.leaseEpoch ≠ leaseEpoch || next.fencingToken = 0 || next.fencingToken ≠ fencingToken ||
    next.workItemFence = "" || next.workItemFence ≠ before.workItemFence

/-- How a WorkItem operation leaves the row. -/
structure Ending where
  status : Option Status
  advance : Bool
  fence : Fence

/-- Carries a hold along with its WorkItem. -/
def transitionLinkedHold (codecs : Codecs) (before : Row) (id : String) (ending : Ending)
    (row : DurableHold) (lanes : Lanes) : Except String Lanes := do
  rejectIf (holdNotLive row.hold = true) "development lane active hold has an invalid live state"
  rejectIf (workItemIdentityMismatch before row.hold = true ∨
      workItemFenceMismatch before row.hold id = true)
    "development lane WorkItem/hold pre-terminal fence mismatch"
  let intent ← okOr (laneIntentValue codecs before).toOption
    "development lane WorkItem intent is missing"
  rejectIf (laneIntentMatchesHold intent row = false)
    "development lane WorkItem/hold intent mismatch"
  let status ← okOr ending.status ("development lane WorkItem terminalization requires a " ++
    "non-retryable outcome while a hold is active")
  let leaseEpoch ← expectedTerminalCounter before.leaseEpoch ending.advance
    "development lane cancel lease epoch overflow"
  let fencingToken ← expectedTerminalCounter before.fencingToken ending.advance
    "development lane cancel fencing token overflow"
  rejectIf (terminalTupleInvalid before leaseEpoch fencingToken ending.fence = true)
    "development lane terminal WorkItem tuple is invalid"
  let tenant ← loadPolicy lanes.policies row.hold.tenantRef
  let policy ← okOr tenant "development lane terminal transition has no tenant policy"
  let shared ← loadGlobalPolicy lanes.policies
  let globalPolicy ← okOr shared "development lane terminal transition has no global policy"
  let (lanes, _) ← transitionTerminalHold row status ending.fence (some (rowFence before))
    (revisionsOf (policy, globalPolicy)) lanes
  return lanes

/-- The hold of a WorkItem's attempt. -/
def linkedHold (lanes : Lanes) (id : String) (attempt : ℕ) : Except String (Option DurableHold) :=
  if attempt = 0 then .ok none
  else do
    let entry ← workItemIndexId lanes id attempt
    match entry with
    | none => return none
    | some holdId =>
      let found ← holdLoad lanes holdId
      let row ← okOr found "development lane WorkItem index points to a missing hold"
      return if row.hold.activeCountCharged then some row else none

/-- **The lane side of a WorkItem that ends**: its attempt may have a hold, which ends with it. A hold
that has given up its charge is left alone. -/
def transitionWorkItemTerminalHold (codecs : Codecs) (before : Row) (id : String) (ending : Ending)
    (lanes : Lanes) : Except String Lanes := do
  let found ← linkedHold lanes id before.attempt
  match found with
  | none => return lanes
  | some row => transitionLinkedHold codecs before id ending row lanes

/-! ### Cleanup -/

def cleanupRequestIncomplete (request : CleanupRequest) : Bool :=
  request.tenantRef = "" || request.workItemId = "" || request.ownerId = "" ||
    request.holdId = "" || request.cleanupWorkItemId = "" ||
    request.cleanupWorkItemId = request.workItemId || request.idempotencyKey = "" ||
    request.removalProofRef = ""

/-- Both WorkItems of a cleanup: the ended one of the hold, and the one that cleans up. -/
def cleanupWorkItemDecision (world : World) (request : CleanupRequest) (row : DurableHold)
    (revision : ℕ) : Gate HoldResult Unit := do
  let answer := refusal row revision
  let _ ← proveLifecycle world request.toHoldRequest request.fence row true answer
  orRefuse answer (fenceComplete request.cleanupFence)
  orRefuse answer (loadCleanupWorkItem world.codecs world.items
    ⟨request.cleanupWorkItemId, request.tenantRef, none, request.cleanupFence⟩ request.now
    ⟨row.hold.holdId, row.hold.laneId, request.expectedHoldRevision⟩)

/-- The request is the one the hold was cleaned by. -/
def cleanupReplayMatches (row : DurableHold) (request : CleanupRequest) : Bool :=
  row.cleanupExpectedHoldRevision = some request.expectedHoldRevision &&
    row.cleanupRemovalProofRef = some request.removalProofRef &&
    row.hold.cleanupWorkItemId = some request.cleanupWorkItemId &&
    row.hold.cleanupFence = some request.cleanupFence

/-- A cleanup repeated after its success. -/
def cleanupTombstoneReplay (world : World) (request : CleanupRequest) (row : DurableHold)
    (revision : ℕ) : Gate HoldResult (Lanes × HoldResult) := do
  cleanupWorkItemDecision world request row revision
  orRefuse (refusal row revision)
    (rejectIf (cleanupReplayMatches row request = false) .inputConflict)
  .error (.refused (refusal row revision .idempotent))

/-- A hold after its cleanup. -/
def cleanedRow (row : DurableHold) (request : CleanupRequest)
    (cleanupRevision holdRevision lifecycleRevision policyRevision : ℕ) : DurableHold :=
  let cleaned : Hold := { row.hold with
    retainedDiskBytes := 0
    state := .cleaned
    cleanupWorkItemId := some request.cleanupWorkItemId
    cleanupFence := some request.cleanupFence
    cleanupRevision := cleanupRevision
    holdRevision := holdRevision
    lifecycleRevision := lifecycleRevision }
  { row with
    cleanupRemovalProofRef := some request.removalProofRef
    cleanupExpectedHoldRevision := some request.expectedHoldRevision
    hold := { cleaned with quotaCharge := holdCharge cleaned holdRevision policyRevision } }

/-- Cleans a hold: its indexes and its retained disk are freed. -/
def cleanupLiveHold (world : World) (request : CleanupRequest) (row : DurableHold)
    (revisions : Revisions) (lanes : Lanes) : Gate HoldResult (Lanes × HoldResult) := do
  cleanupWorkItemDecision world request row revisions.tenant
  let lanes ← orFail (charge request.tenantRef row.hold
    { retained := some ⟨false, row.hold.retainedDiskBytes⟩ } revisions lanes)
  let lanes ← orFail (removeIndexes row.hold lanes)
  let cleanupRevision ← orFail (nextRevision row.hold.cleanupRevision "cleanup")
  let holdRevision ← orFail (nextRevision row.hold.holdRevision "hold")
  let lifecycleRevision ← orFail (nextRevision row.hold.lifecycleRevision "lifecycle")
  let row := cleanedRow row request cleanupRevision holdRevision lifecycleRevision revisions.tenant
  let lanes ← orFail (holdEncode row lanes)
  return (lanes, refusal row revisions.tenant .accepted)

/-- The states a cleanup starts from. -/
def isCleanable : HoldState → Bool
  | .cleanupPending => true
  | .released => true
  | .expired => true
  | _ => false

/-- **Complete the cleanup of a hold.** -/
def applyCleanup (world : World) (request : CleanupRequest) (lanes : Lanes) :
    Gate HoldResult (Lanes × HoldResult) := do
  orRefuse (fun decision => holdResult decision none 0)
    (rejectIf (cleanupRequestIncomplete request = true) .invalid)
  orFail (failing "cleanup proof: " (text request.removalProofRef))
  let policies ← currentPolicies lanes request.tenantRef
  let revisions := revisionsOf policies
  let row ← loadHold lanes request.holdId revisions.tenant
  orRefuse (fun decision => holdResult decision none revisions.tenant)
    (rejectIf (row.hold.tenantRef ≠ request.tenantRef) .notFound)
  orRefuse (refusal row revisions.tenant)
    (holdCorrelationsMatch row.hold request.toCorrelation)
  if row.hold.state = .cleaned then cleanupTombstoneReplay world request row revisions.tenant
  else do
    orRefuse (refusal row revisions.tenant)
      (rejectIf (isCleanable row.hold.state = false) .cleanupRequired)
    orRefuse (refusal row revisions.tenant)
      (rejectIf (row.hold.holdRevision ≠ request.expectedHoldRevision) .stale)
    cleanupLiveHold world request row revisions lanes

/-! ### Quota updates -/

/-- A hold that is never stored: the scopes of a tenant, for a look at its counters. -/
def probe (tenant : String) (policyRevision : ℕ) : Hold :=
  { holdId := "snapshot"
    laneId := "snapshot"
    tenantRef := tenant
    requestId := "snapshot"
    workItemId := "snapshot"
    ownerId := "snapshot"
    sessionId := "snapshot"
    fairnessGroup := "snapshot"
    workspaceRef := "snapshot"
    repositoryId := "snapshot"
    baseRef := "snapshot"
    baseSha := "0123456789012345678901234567890123456789"
    branch := "snapshot"
    worktreeLocator := "snapshot"
    hostTargetKind := .localHost
    hostTargetAlias := none
    hostRef := "snapshot-host"
    quotaPolicyName := "snapshot"
    quotaPolicyVersion := "1"
    inputFingerprint := "v1:" ++ String.ofList (List.replicate 64 '0')
    predictedDiskBytes := 0
    observedDiskBytes := 0
    retainedDiskBytes := 0
    activeCountCharged := false
    quotaCharge := emptyCharge policyRevision
    state := .absent
    fence := ⟨1, 1, 1, "snapshot"⟩
    holdRevision := 0
    lifecycleRevision := 0
    allocationRevision := 0
    cleanupRevision := 0
    expiresAt := 0
    lastRenewedAt := 0
    cleanupWorkItemId := none
    cleanupFence := none
    tombstone := false }

def policyScopeRows (counters : Counters) (tenant : String) (revisions : Revisions) :
    Except String (List ScopeCounter) :=
  loadScopeCounters counters (probe tenant revisions.tenant) revisions

/-- The charges of a tenant as a policy update answers them. -/
def policyCounterSnapshot (counters : Counters) (tenant : String) (revisions : Revisions) :
    Except String QuotaCharge := do
  let loaded ← policyScopeRows counters tenant revisions
  let tenantRow ← okOr (loaded.find? fun row => row.scope = .tenant)
    "tenant counter missing from scope set"
  let globalRow ← okOr (loaded.find? fun row => row.scope = .global)
    "global counter missing from scope set"
  return snapshotCharge tenantRow.value globalRow.value revisions.tenant

/-- The revisions an update expects. -/
def quotaExpectations (request : QuotaUpdateRequest) (current : Option DurablePolicy)
    (revision : ℕ) : Except Decision Unit := do
  rejectIf (request.expectedPolicyRevision ≠ revision) .stale
  rejectIf (request.expectedPolicyVersion.any fun expected =>
    current.all fun value => value.policy.policyVersion ≠ expected) .conflict

/-- The charges exceed the limits over all tenants. -/
def globalPressure (charged : QuotaCharge) (policy : Policy) : Bool :=
  policy.countLimit.global < charged.count.global ||
    policy.predictedLimit.global < charged.predicted.global ||
    policy.observedLimit.global < charged.observed.global ||
    policy.retainedLimit.global < charged.retained.global

def revisionOf (policy : Option DurablePolicy) : ℕ := (policy.map DurablePolicy.policyRevision).getD 0

def quotaRefusal (current : Option DurablePolicy) (charged : QuotaCharge) (decision : Decision) :
    QuotaResult :=
  ⟨decision, current.map DurablePolicy.policy, charged, revisionOf current⟩

/-- **Update the policy of the graph.** -/
def applyGlobalQuotaUpdate (request : QuotaUpdateRequest) (lanes : Lanes) :
    Gate QuotaResult (Lanes × QuotaResult) := do
  let current ← orFail (loadGlobalPolicy lanes.policies)
  let charged ← orFail (policyCounterSnapshot lanes.meters.counters globalPolicyKey
    ⟨0, revisionOf current⟩)
  let answer := quotaRefusal current charged
  orRefuse answer (quotaExpectations request current (revisionOf current))
  orRefuse answer (rejectIf (globalPressure charged request.policy = true ∧
    request.policy.drainOnly = false) .quota)
  let next ← orFail (okOr (checkedAdd u64Max (revisionOf current) 1)
    "development lane global policy revision overflow")
  let charged ← orFail (policyCounterSnapshot lanes.meters.counters globalPolicyKey ⟨0, next⟩)
  return ({ lanes with policies := lanes.policies.insert globalPolicyKey ⟨request.policy, next, next⟩ },
    ⟨.accepted, some request.policy, charged, next⟩)

/-- The policy of the graph, made from the first one of a tenant. -/
def seedGlobal (shared : Option DurablePolicy) (policy : Policy) (policies : Policies) : Policies :=
  match shared with
  | none => policies.insert globalPolicyKey ⟨policy, 1, 1⟩
  | some _ => policies

/-- **Update the policy of a tenant.** -/
def applyTenantQuotaUpdate (request : QuotaUpdateRequest) (lanes : Lanes) :
    Gate QuotaResult (Lanes × QuotaResult) := do
  let current ← orFail (loadPolicy lanes.policies request.tenantRef)
  let shared ← orFail (loadGlobalPolicy lanes.policies)
  let charged ← orFail (policyCounterSnapshot lanes.meters.counters request.tenantRef
    ⟨revisionOf current, revisionOf shared⟩)
  let answer := quotaRefusal current charged
  orRefuse answer (quotaExpectations request current (revisionOf current))
  orRefuse answer (rejectIf (shared.any fun row => !globalPolicyEqual request.policy row.policy)
    .conflict)
  let next ← orFail (okOr (checkedAdd u64Max (revisionOf current) 1)
    "development lane policy revision overflow")
  let rows ← orFail (policyScopeRows lanes.meters.counters request.tenantRef
    ⟨revisionOf current, revisionOf shared⟩)
  orRefuse answer (rejectIf (policyPressure rows request.policy = true ∨
    indexedPolicyPressure lanes.meters.pressure request.tenantRef request.policy = true) .quota)
  let globalRevision := if shared.isNone then 1 else revisionOf shared
  let charged ← orFail (policyCounterSnapshot lanes.meters.counters request.tenantRef
    ⟨next, globalRevision⟩)
  let policies := lanes.policies.insert request.tenantRef ⟨request.policy, next, globalRevision⟩
  return ({ lanes with policies := seedGlobal shared request.policy policies },
    ⟨.accepted, some request.policy, charged, next⟩)

/-- **Update a policy.** -/
def applyQuotaUpdate (request : QuotaUpdateRequest) (lanes : Lanes) :
    Gate QuotaResult (Lanes × QuotaResult) := do
  let answer := fun decision => (⟨decision, none, emptyCharge 0, 0⟩ : QuotaResult)
  orRefuse answer (rejectIf (request.tenantRef = "" ∨ request.idempotencyKey = "") .invalid)
  orRefuse answer (policyValidate request.policy)
  if request.tenantRef = globalPolicyKey then applyGlobalQuotaUpdate request lanes
  else applyTenantQuotaUpdate request lanes

theorem applyQuotaUpdate_ok {request : QuotaUpdateRequest} {lanes lanes' : Lanes} {result : QuotaResult}
    (h : applyQuotaUpdate request lanes = .ok (lanes', result)) :
    ∃ policies, lanes' = { lanes with policies := policies } := by
  obtain ⟨_, -, h⟩ := unbind h
  obtain ⟨_, -, h⟩ := unbind h
  split_ifs at h
  · obtain ⟨_, -, h⟩ := unbind h
    obtain ⟨_, -, h⟩ := unbind h
    obtain ⟨_, -, h⟩ := unbind h
    obtain ⟨_, -, h⟩ := unbind h
    obtain ⟨_, -, h⟩ := unbind h
    obtain ⟨_, -, h⟩ := unbind h
    cases h
    exact ⟨_, rfl⟩
  · obtain ⟨_, -, h⟩ := unbind h
    obtain ⟨_, -, h⟩ := unbind h
    obtain ⟨_, -, h⟩ := unbind h
    obtain ⟨_, -, h⟩ := unbind h
    obtain ⟨_, -, h⟩ := unbind h
    obtain ⟨_, -, h⟩ := unbind h
    obtain ⟨_, -, h⟩ := unbind h
    obtain ⟨_, -, h⟩ := unbind h
    obtain ⟨_, -, h⟩ := unbind h
    cases h
    exact ⟨_, rfl⟩

end Medulla.Lane.Lifecycle
