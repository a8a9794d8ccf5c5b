import Medulla.Resource.Admission

/-! # The lifecycle of a reservation

One function serves the three lifecycle methods. Its phases run in order: the request and the stored
row, the WorkItem row and its fence, its status and extension; then either the release or reclaim of
the stored row, or the admission of a new one. -/

namespace Medulla.Resource.Lifecycle

open Library.Checked Library.OrderedTable WorkItem.Rows Requests Extension
open Admission

/-- The lifecycle operations. -/
inductive Mode
  | reserve
  | release
  | reclaim
  deriving DecidableEq

/-- A phase decides the request or goes on. -/
inductive LifecycleStep (α : Type)
  | proceed (value : α)
  | decided (result : ReservationResult)

def LifecycleStep.ofOption : Option ReservationResult → LifecycleStep Unit
  | some result => .decided result
  | none => .proceed ()

/-- Go on with the next phase; a decided request changes nothing. -/
def continueWith {α : Type} (l : Ledger) (step : LifecycleStep α)
    (next : α → Except String (Ledger × ReservationResult)) :
    Except String (Ledger × ReservationResult) :=
  match step with
  | .decided result => .ok (l, result)
  | .proceed value => next value

/-! ### The request and the stored row -/

/-- The refusals of a reserve request by its window. -/
def resourceReserveWindowPrecheck (request : ReservationRequest) : Option ReservationResult :=
  if request.expectedLifecycleRevision.any (fun revision => revision ≠ 0) then
    some (refusal .inputConflict request)
  else if request.now < request.reservedAt ∨ request.expiresAt ≤ request.now then
    some (refusal .policy request)
  else none

/-- A live row is matched against its revision, a terminal one against the revision that ended it. -/
def resourceLifecycleRevisionPrecheck (request : ReservationRequest) (stored : DurableReservation) :
    Option ReservationResult :=
  if stored.record.state = .reserved then
    if request.expectedLifecycleRevision = some stored.record.lifecycleRevision then none
    else some (resourceResultPayload .stale request (some stored.record) none stored.fairnessDebt [])
  else if request.expectedLifecycleRevision = stored.record.expectedLifecycleRevision then none
  else some (resourceResultPayload .inputConflict request (some stored.record) none
    stored.fairnessDebt [])

/-- The answer to a request whose row already says how it ended. -/
def idempotent (l : Ledger) (request : ReservationRequest) (stored : DurableReservation) :
    ReservationResult :=
  resourceResultPayload .idempotent request (some stored.record)
    (l.hosts.get stored.record.hostRef) stored.fairnessDebt []

/-- Another tenant's row is a conflict, and changed terms are another input. -/
def resourceStoredRowMismatch (request : ReservationRequest) (stored : DurableReservation) :
    Option ReservationResult :=
  if stored.record.tenantRef ≠ request.tenantRef then some (refusal .conflict request)
  else if resourceRequestMatchesRecord request stored.record = false then
    some (resourceResultPayload .inputConflict request none none stored.fairnessDebt [])
  else none

def revisionMismatch (mode : Mode) (request : ReservationRequest) (stored : DurableReservation) :
    Option ReservationResult :=
  if mode = .reserve then none else resourceLifecycleRevisionPrecheck request stored

/-- The answer to a request on a reservation that has ended. -/
def terminalReplay (l : Ledger) (request : ReservationRequest) (stored : DurableReservation) :
    Option ReservationResult :=
  if stored.record.state = .reserved then none else some (idempotent l request stored)

/-- The answers an existing reservation gives at once. -/
def resourceExistingReservationPrecheck (l : Ledger) (mode : Mode) (request : ReservationRequest)
    (stored : DurableReservation) : Option ReservationResult :=
  (resourceStoredRowMismatch request stored).or
    ((revisionMismatch mode request stored).or (terminalReplay l request stored))

/-- The checks before the WorkItem is read. -/
def resourceLifecyclePrecheck (mode : Mode) (request : ReservationRequest) (l : Ledger) :
    Except String (LifecycleStep Unit) := do
  resourceValidateRequest request
  rejectIf (request.expiresAt ≤ request.reservedAt ∨
      maxResourceTtl < request.expiresAt - request.reservedAt) "resource TTL violates the native bound"
  let window := if mode = .reserve then resourceReserveWindowPrecheck request else none
  let stored := (l.reservations.get request.reservationId).bind
    (resourceExistingReservationPrecheck l mode request)
  return .ofOption (window.or stored)

/-! ### The WorkItem row -/

/-- The fence read from the row, and whether it is past that of the request. -/
structure WorkItemFence where
  attempt : ℕ
  leaseEpoch : ℕ
  fencingToken : ℕ
  superseded : Bool

/-- The fence text a reservation is admitted with. -/
def resourceExpectedFence (fencingToken : ℕ) : String := toString fencingToken

/-- The extension of the WorkItem agrees with the request. -/
def resourceValidateExtension (codecs : Codecs) (row : Row) (request : ReservationRequest) :
    Except Decision Unit :=
  match resourceMetadataMaps (codecs.metadata row.metadata) with
  | .error _ => .error .policy
  | .ok (repository, extension) =>
    match resourceExtensionMatches repository extension request with
    | .error _ => .error .policy
    | .ok agrees => if agrees then .ok () else .error .inputConflict

/-- Who holds the lease, or held it last. -/
def leaseHolder (row : Row) : String :=
  if row.status.isLive then row.leaseOwner else row.lastLeaseOwner

/-- The request comes from the holder of the lease. -/
def resourceValidateWorkItemOwnerAndExtension (codecs : Codecs) (row : Row)
    (request : ReservationRequest) (superseded : Bool) : Except Decision Unit := do
  rejectIf (superseded = false ∧ leaseHolder row ≠ request.ownerId) .stale
  resourceValidateExtension codecs row request

/-- The WorkItem has moved on from the request's attempt. -/
def isSuperseded (row : Row) (request : ReservationRequest) : Bool :=
  request.attempt < row.attempt || row.leaseEpoch ≠ request.leaseEpoch ||
    row.fencingToken ≠ request.fencingToken

/-- The WorkItem is the one the request speaks for. -/
def resourceValidateWorkItem (codecs : Codecs) (row : Row) (request : ReservationRequest)
    (allowSuperseded : Bool) : Except Decision WorkItemFence := do
  rejectIf (row.nodeType ≠ "WorkItem" ∨ row.tenant ≠ request.tenantRef) .notFound
  rejectIf (isSuperseded row request = true ∧
      ¬ (allowSuperseded = true ∧ request.attempt < row.attempt)) .stale
  rejectIf (request.fence ≠ resourceExpectedFence request.fencingToken) .stale
  resourceValidateWorkItemOwnerAndExtension codecs row request (isSuperseded row request)
  return ⟨row.attempt, row.leaseEpoch, row.fencingToken, isSuperseded row request⟩

def resourceLoadAndValidateWorkItem (codecs : Codecs) (l : Ledger) (mode : Mode)
    (request : ReservationRequest) : Except String (LifecycleStep (Row × WorkItemFence)) := do
  let found ← l.items.load request.workItemId
  match found with
  | none => return .decided (refusal .notFound request)
  | some row =>
    match resourceValidateWorkItem codecs row request (mode = .reclaim) with
    | .ok fence => return .proceed (row, fence)
    | .error decision => return .decided (refusal decision request)

/-- The status of the WorkItem does not allow the operation. -/
def statusRefused (mode : Mode) (request : ReservationRequest) (fence : WorkItemFence) (row : Row) :
    Bool :=
  if mode = .reserve then !row.status.isLive || row.leaseExpiresAt ≤ request.now
  else (mode ≠ .reclaim || !fence.superseded) && !(row.status.isLive || row.status.isTerminal)

def fingerprintMismatch (codecs : Codecs) (mode : Mode) (request : ReservationRequest) (row : Row) :
    Except String Bool :=
  if mode = .reserve then do
    let expected ← resourceRecomputedFingerprint codecs (codecs.metadata row.metadata) request
    return expected ≠ request.inputFingerprint
  else .ok false

def resourceValidateWorkItemStatusAndExtension (codecs : Codecs) (mode : Mode)
    (request : ReservationRequest) (fence : WorkItemFence) (row : Row) :
    Except String (LifecycleStep Fields) :=
  if statusRefused mode request fence row then .ok (.decided (refusal .stale request))
  else do
    let (_, extension) ← mapError (fun _ => "WorkItem resource admission extension is invalid")
      (resourceMetadataMaps (codecs.metadata row.metadata))
    let mismatch ← fingerprintMismatch codecs mode request row
    return if mismatch then .decided (refusal .inputConflict request) else .proceed extension

/-! ### Release and reclaim -/

/-- A reclaim is too early: the reservation or its lease still stands. -/
def resourceReclaimPolicyPrecheck (request : ReservationRequest) (stored : DurableReservation)
    (row : Row) : Option ReservationResult :=
  if request.now < stored.record.expiresAt ∨
      (row.status.isLive = true ∧ request.now < row.leaseExpiresAt) then
    some (resourceResultPayload .policy request (some stored.record) none stored.fairnessDebt [])
  else none

/-- How an operation ends a reservation. -/
def endState (mode : Mode) (fence : WorkItemFence) : RecordState :=
  if mode = .reclaim then if fence.superseded then .superseded else .reclaimed else .released

/-- The row of an ended reservation. -/
def resourceBuildReleasedRecord (stored : DurableReservation) (request : ReservationRequest)
    (mode : Mode) (fence : WorkItemFence) (debt : ℕ) : DurableReservation :=
  { record :=
      { stored.record with
        state := endState mode fence
        revision := saturatingAdd u64Max stored.record.revision 1
        lifecycleRevision := saturatingAdd u64Max stored.record.lifecycleRevision 1
        expectedLifecycleRevision := request.expectedLifecycleRevision
        tombstone := true }
    held := {}
    fairnessDebt := debt }

/-- Frees the keys a reservation holds. -/
def releaseKeys (id : String) : List String → Table String String → Table String String
  | [], t => t
  | key :: rest, t => releaseKeys id rest (if t.get key = some id then t.remove key else t)

/-- Unblocks a disk policy that has room again. -/
def reopenDiskPolicy (request : ReservationRequest) (host : DurableHost)
    (policies : Table String DiskPolicy) : Table String DiskPolicy :=
  match policies.get (diskKey request.toTerms) with
  | none => policies
  | some policy =>
    if policy.lowWatermarkMib = request.diskLowWatermarkMib ∧
        policy.highWatermarkMib = request.diskHighWatermarkMib ∧
        policy.lowWatermarkMib.any (fun low =>
          saturatingAdd u64Max host.diskUsedMib host.held.diskMib ≤ low) = true then
      policies.insert (diskKey request.toTerms)
        { policy with blocked := false, revision := saturatingAdd u64Max policy.revision 1 }
    else policies

/-- Gives back all a reservation is charged. -/
def releaseCharge (mode : Mode) (request : ReservationRequest) (stored : DurableReservation)
    (fence : WorkItemFence) (host : DurableHost) (l : Ledger) :
    Except String (Ledger × ReservationResult) := do
  let held ← Amounts.checkedSubAll host.held stored.held
  let freed := host.withHeld held
  let debt := (l.fairness.get (resourceFairnessScopeKey request.tenantRef
    request.fairnessGroup)).getD 0
  let next := resourceBuildReleasedRecord stored request mode fence debt
  let concurrency ← lower "resource concurrency" l.concurrency
    (resourceConcurrencyScopeKey request.concurrencyKey)
  let antiAffinity ← adjustAll (lower "resource anti-affinity") (affinityKeys request.toTerms)
    l.antiAffinity
  return ({ l with
      hosts := l.hosts.insert host.hostRef freed
      reservations := l.reservations.insert stored.record.reservationId next
      concurrency := concurrency
      antiAffinity := antiAffinity
      exclusivity := releaseKeys request.reservationId (resourceExclusivityKeys request.toTerms)
        l.exclusivity
      diskPolicies := reopenDiskPolicy request freed l.diskPolicies },
    resourceResultPayload .accepted request (some next.record) (some freed) debt
      [request.workItemId])

/-- A reservation that finds its row, and a row that has ended. -/
def releaseReplay (l : Ledger) (mode : Mode) (request : ReservationRequest)
    (stored : DurableReservation) : Option ReservationResult :=
  if stored.record.state ≠ .reserved ∨ mode = .reserve then some (idempotent l request stored)
  else none

def releasePrecheck (l : Ledger) (mode : Mode) (request : ReservationRequest)
    (stored : DurableReservation) (row : Row) : Option ReservationResult :=
  (resourceStoredRowMismatch request stored).or ((releaseReplay l mode request stored).or
    (if mode = .reclaim then resourceReclaimPolicyPrecheck request stored row else none))

/-- Ends a reservation. -/
def resourceCommitReleaseOrReclaim (mode : Mode) (request : ReservationRequest)
    (stored : DurableReservation) (fence : WorkItemFence) (row : Row) (l : Ledger) :
    Except String (Ledger × ReservationResult) :=
  match releasePrecheck l mode request stored row with
  | some result => .ok (l, result)
  | none =>
    match l.hosts.get stored.record.hostRef with
    | none => .ok (l, resourceResultPayload .policy request (some stored.record) none
        stored.fairnessDebt [])
    | some host => releaseCharge mode request stored fence host l

/-! ### Admission -/

/-- Another reservation of the attempt was admitted. -/
def resourceCheckAttemptWinnerConflict (request : ReservationRequest) (l : Ledger) :
    Except String (LifecycleStep Unit) :=
  match l.attempts.get (toLex (request.workItemId, request.attempt)) with
  | none => .ok (.proceed ())
  | some winner => do
    rejectIf ((l.reservations.get winner).isNone = true)
      "resource reservation attempt index references missing reservation"
    return if winner ≠ request.reservationId then .decided (refusal .conflict request)
      else .proceed ()

def resourceAdmissionRefusal (decision : Decision) (request : ReservationRequest)
    (host : DurableHost) : ReservationResult :=
  resourceResultPayload decision request none (some host) 0 []

/-- The host's heartbeat is recent. -/
def resourceValidateHostFreshness (host : DurableHost) (now : ℕ) : Decision :=
  if now < host.heartbeatAt then .staleHost
  else if host.heartbeatTtl < now - host.heartbeatAt then .staleHost
  else if host.draining then .drained
  else if host.quarantined then .quarantined
  else .accepted

/-- The host is one the request may run on. -/
def resourceAdmitCheckHostEligibility (request : ReservationRequest) (host : DurableHost)
    (extension : Fields) : Except String (Option Decision) :=
  if request.expectedHostRevision.any (fun expected => expected ≠ host.revision) then
    .ok (some .staleHost)
  else if resourceValidateHostFreshness host request.now ≠ .accepted then
    .ok (some (resourceValidateHostFreshness host request.now))
  else if request.requiredLabels.all (fun label => label ∈ host.labels) = false then
    .ok (some .labels)
  else do
    let selected ← resourceTargetSelectionMatches extension host
    return if selected && resourceSelectedTargetMatchesRequest request host then none
      else some .policy

def fitsThree (a b c bound : ℕ) : Bool :=
  ((checkedAdd u64Max a b).bind fun sum => checkedAdd u64Max sum c).any fun sum => sum ≤ bound

/-- What is observed, held and asked for fits the host. -/
def resourceCapacitySum (host : DurableHost) (requirement : Amounts) : Bool :=
  fitsThree host.observed.cpuWeight host.held.cpuWeight requirement.cpuWeight
      host.capacity.cpuWeight &&
    fitsThree host.observed.memoryMib host.held.memoryMib requirement.memoryMib
      host.capacity.memoryMib &&
    fitsThree host.observed.diskMib host.held.diskMib requirement.diskMib host.capacity.diskMib &&
    fitsThree host.observed.processSlots host.held.processSlots requirement.processSlots
      host.capacity.processSlots

/-- Anti-affinity, concurrency, exclusivity and capacity allow the request. -/
def resourceAdmitCheckIndexGates (request : ReservationRequest) (host : DurableHost) (l : Ledger) :
    Option Decision :=
  if (affinityKeys request.toTerms).any (fun key => readCount l.antiAffinity key ≠ 0) then
    some .antiAffinity
  else if request.concurrencyLimit.any (fun limit =>
      limit ≤ readCount l.concurrency (resourceConcurrencyScopeKey request.concurrencyKey)) then
    some .concurrency
  else if (resourceExclusivityKeys request.toTerms).any
      (fun key => (l.exclusivity.get key).isSome) then
    some .exclusivity
  else if resourceCapacitySum host request.requirement = false then some .capacity
  else none

/-- The disk that is neither used nor held. -/
def availableDisk (host : DurableHost) : ℕ :=
  ((checkedSub host.diskCapacityMib host.diskUsedMib).bind fun free =>
    checkedSub free host.held.diskMib).getD 0

/-- The disk policy allows the request. -/
def resourceAdmitCheckDisk (request : ReservationRequest) (host : DurableHost)
    (policy : Option DiskPolicy) (policyRowCount : ℕ) : Option Decision :=
  if policy = none ∧ maxResourceHostDiskPolicies ≤ policyRowCount then some .policy
  else if policy.any (fun p => p.lowWatermarkMib ≠ request.diskLowWatermarkMib ||
      p.highWatermarkMib ≠ request.diskHighWatermarkMib) then some .policy
  else if availableDisk host < request.requirement.diskMib then some .disk
  else none

/-- A blocked policy opens at its low mark and an open one blocks at its high mark. -/
def resourceDiskPolicyBlocked (previously : Bool) (predicted : ℕ) (low high : Option ℕ) : Bool :=
  if previously then low.all fun mark => mark < predicted else high.any fun mark => mark ≤ predicted

def bumpedPolicy (request : ReservationRequest) (policy : Option DiskPolicy) (blocked : Bool) :
    DiskPolicy :=
  ⟨blocked, request.diskLowWatermarkMib, request.diskHighWatermarkMib,
    (policy.map fun p => saturatingAdd u64Max p.revision 1).getD 1⟩

/-- The disk hysteresis: write the policy row, and refuse when it is blocked. -/
def resourceAdmitApplyDiskPolicy (request : ReservationRequest) (host : DurableHost)
    (policies : Table String DiskPolicy) :
    Except String (Table String DiskPolicy × Option Decision) := do
  let policy := policies.get (diskKey request.toTerms)
  let used ← okOr (checkedAdd u64Max host.diskUsedMib host.held.diskMib)
    "resource disk accounting overflow"
  let predicted ← okOr (checkedAdd u64Max used request.requirement.diskMib)
    "resource disk accounting overflow"
  let blocked := resourceDiskPolicyBlocked (policy.any DiskPolicy.blocked) predicted
    request.diskLowWatermarkMib request.diskHighWatermarkMib
  let written := policies.insert (diskKey request.toTerms) (bumpedPolicy request policy blocked)
  return if blocked then (written, some .disk)
    else if policy.all (fun p => p.blocked ≠ blocked) then (written, none)
    else (policies, none)

/-- The row of a new reservation. -/
def resourceBuildRecord (request : ReservationRequest) (host : DurableHost) : ReservationRecord :=
  { request.toTerms with
    capacitySnapshot := host.capacity
    hostRevision := host.revision
    selectedTarget := (host.targetKind, host.targetAlias, host.labels.insertionSort (· ≤ ·))
    expectedLifecycleRevision := none
    state := .reserved
    revision := 1
    lifecycleRevision := 1
    tombstone := false }

/-- Takes keys for a reservation. -/
def takeKeys (id : String) : List String → Table String String → Table String String
  | [], t => t
  | key :: rest, t => takeKeys id rest (t.insert key id)

/-- Admits a reservation and charges all it holds. -/
def resourceCommitReserveAdmission (request : ReservationRequest) (host : DurableHost) (l : Ledger) :
    Except String (Ledger × ReservationResult) := do
  let fairnessKey := resourceFairnessScopeKey request.tenantRef request.fairnessGroup
  let debt ← okOr (checkedAdd u64Max ((l.fairness.get fairnessKey).getD 0) request.fairnessCost)
    "resource fairness debt overflow"
  let held ← Amounts.checkedAddAll host.held request.requirement
  let charged := host.withHeld held
  let record := resourceBuildRecord request charged
  let concurrency ← raise "resource concurrency" l.concurrency
    (resourceConcurrencyScopeKey request.concurrencyKey)
  let antiAffinity ← adjustAll (raise "resource anti-affinity") (affinityKeys request.toTerms)
    l.antiAffinity
  return ({ l with
      fairness := l.fairness.insert fairnessKey debt
      hosts := l.hosts.insert host.hostRef charged
      reservations := l.reservations.insert request.reservationId ⟨record, request.requirement, debt⟩
      attempts := l.attempts.insert (toLex (request.workItemId, request.attempt))
        request.reservationId
      exclusivity := takeKeys request.reservationId (resourceExclusivityKeys request.toTerms)
        l.exclusivity
      concurrency := concurrency
      antiAffinity := antiAffinity },
    resourceResultPayload .accepted request (some record) (some charged) debt [request.workItemId])

/-- Admits a request to its host, or refuses it. -/
def resourceAdmitToHost (request : ReservationRequest) (extension : Fields) (host : DurableHost)
    (l : Ledger) : Except String (Ledger × ReservationResult) := do
  let policies ← resourceCollectDiskPolicyRows l request.hostRef
  let eligibility ← resourceAdmitCheckHostEligibility request host extension
  match eligibility.or ((resourceAdmitCheckIndexGates request host l).or
      (resourceAdmitCheckDisk request host (l.diskPolicies.get (diskKey request.toTerms))
        policies.length)) with
  | some decision => return (l, resourceAdmissionRefusal decision request host)
  | none => do
    let (diskPolicies, blocked) ← resourceAdmitApplyDiskPolicy request host l.diskPolicies
    match blocked with
    | some decision =>
      return ({ l with diskPolicies := diskPolicies }, resourceAdmissionRefusal decision request host)
    | none => resourceCommitReserveAdmission request host { l with diskPolicies := diskPolicies }

def resourceAdmitReserveHost (request : ReservationRequest) (extension : Fields) (l : Ledger) :
    Except String (Ledger × ReservationResult) := do
  let winner ← resourceCheckAttemptWinnerConflict request l
  continueWith l winner fun _ =>
    match l.hosts.get request.hostRef with
    | none => .ok (l, refusal .notFound request)
    | some host => resourceAdmitToHost request extension host l

/-! ### The operation -/

def commitLifecycle (mode : Mode) (request : ReservationRequest) (row : Row) (fence : WorkItemFence)
    (extension : Fields) (l : Ledger) : Except String (Ledger × ReservationResult) :=
  match l.reservations.get request.reservationId with
  | some stored => resourceCommitReleaseOrReclaim mode request stored fence row l
  | none =>
    if mode = .reserve then resourceAdmitReserveHost request extension l
    else .ok (l, refusal .notFound request)

/-- One lifecycle operation. -/
def applyResourceReservationLifecycle (codecs : Codecs) (mode : Mode) (request : ReservationRequest)
    (l : Ledger) : Except String (Ledger × ReservationResult) := do
  let precheck ← resourceLifecyclePrecheck mode request l
  continueWith l precheck fun _ => do
    let loaded ← resourceLoadAndValidateWorkItem codecs l mode request
    continueWith l loaded fun (row, fence) => do
      let checked ← resourceValidateWorkItemStatusAndExtension codecs mode request fence row
      continueWith l checked fun extension => commitLifecycle mode request row fence extension l

end Medulla.Resource.Lifecycle
