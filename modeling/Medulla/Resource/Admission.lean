import Mathlib.Data.Prod.Lex
import Medulla.Resource.Extension
import Medulla.WorkItem.Rows

/-! # Admitting, releasing and reclaiming

The ledger of one graph: what each host holds, every reservation ever accepted, the winner of each
attempt of a WorkItem, and the indexes of exclusivity keys, concurrency scopes and anti-affinity tags.
A reservation charges all of them from its request; a release or a reclaim takes the charge back, from
the request again, after the request was found equal to the stored record in every field. -/

namespace Medulla.Resource.Admission

open Library.Checked Library.OrderedTable WorkItem.Rows Requests

/-! ### The ledger -/

/-- The tables of the resource ledger. -/
structure Ledger where
  items : Graph
  hosts : Table String DurableHost
  reservations : Table String DurableReservation
  attempts : Table (String ×ₗ ℕ) String
  exclusivity : Table String String
  fairness : Table String ℕ
  concurrency : Table String ℕ
  antiAffinity : Table (String ×ₗ String) ℕ
  diskPolicies : Table String DiskPolicy

/-- No host and no reservation. -/
def Ledger.fresh (items : Graph) : Ledger :=
  ⟨items, .empty, .empty, .empty, .empty, .empty, .empty, .empty, .empty⟩

/-! ### Keys -/

/-- A composite key; no component has the separator. -/
def resourceScopeKey (parts : List String) : String := "\x00".intercalate parts

def resourceConcurrencyScopeKey (key : String) : String := resourceScopeKey ["global", key]

def resourceFairnessScopeKey (tenant group : String) : String := resourceScopeKey [tenant, group]

/-- The keys a reservation holds alone. -/
def resourceExclusivityKeys (terms : Terms) : List String :=
  (if terms.repositoryExclusive then
    [resourceScopeKey ["tenant", terms.tenantRef, "repository", terms.repositoryId]] else []) ++
  if terms.branchExclusive then
    [resourceScopeKey ["tenant", terms.tenantRef, "branch", terms.repositoryId, terms.branch]] else []

/-- The key of a disk policy of a host. -/
def diskKey (terms : Terms) : String := terms.hostRef ++ "\x00" ++ terms.diskPolicyKey

/-! ### Counters -/

def putCount {K : Type} [LinearOrder K] (t : Table K ℕ) (key : K) (n : ℕ) : Table K ℕ :=
  if n = 0 then t.remove key else t.insert key n

def readCount {K : Type} [LinearOrder K] (t : Table K ℕ) (key : K) : ℕ := (t.get key).getD 0

def raise {K : Type} [LinearOrder K] (name : String) (t : Table K ℕ) (key : K) :
    Except String (Table K ℕ) := do
  let next ← okOr (checkedAdd u64Max (readCount t key) 1) (name ++ " counter overflow")
  return putCount t key next

def lower {K : Type} [LinearOrder K] (name : String) (t : Table K ℕ) (key : K) :
    Except String (Table K ℕ) := do
  let next ← okOr (checkedSub (readCount t key) 1) (name ++ " counter underflow")
  return putCount t key next

def adjustAll {K : Type} [LinearOrder K] (adjust : Table K ℕ → K → Except String (Table K ℕ)) :
    List K → Table K ℕ → Except String (Table K ℕ)
  | [], t => .ok t
  | key :: rest, t => do
    let next ← adjust t key
    adjustAll adjust rest next

def affinityKeys (terms : Terms) : List (String ×ₗ String) :=
  terms.antiAffinity.map fun tag => toLex (terms.hostRef, tag)

/-! ### Results -/

inductive Decision
  | accepted
  | idempotent
  | stale
  | conflict
  | inputConflict
  | capacity
  | policy
  | drained
  | quarantined
  | staleHost
  | labels
  | antiAffinity
  | disk
  | concurrency
  | exclusivity
  | notFound
  deriving DecidableEq

structure ReservationResult where
  decision : Decision
  reservationId : String
  workItemId : String
  attempt : ℕ
  leaseEpoch : ℕ
  fencingToken : ℕ
  lifecycleRevision : ℕ
  hostRef : String
  hostRevision : ℕ
  record : Option ReservationRecord
  state : RecordState
  held : Amounts
  fairnessDebt : ℕ
  tombstone : Bool
  changedWorkItemIds : List String

def recordHeld (record : ReservationRecord) : Amounts :=
  if record.state = .reserved then record.requirement else {}

def resourceResultPayload (decision : Decision) (request : ReservationRequest)
    (record : Option ReservationRecord) (host : Option DurableHost) (fairnessDebt : ℕ)
    (changed : List String) : ReservationResult :=
  let terms := (record.map ReservationRecord.toTerms).getD request.toTerms
  { decision := decision
    reservationId := terms.reservationId
    workItemId := request.workItemId
    attempt := terms.attempt
    leaseEpoch := terms.leaseEpoch
    fencingToken := terms.fencingToken
    lifecycleRevision := (record.map ReservationRecord.lifecycleRevision).getD 0
    hostRef := terms.hostRef
    hostRevision := (host.map DurableHost.revision).getD 0
    record := record
    state := (record.map ReservationRecord.state).getD .absent
    held := (record.map recordHeld).getD {}
    fairnessDebt := fairnessDebt
    tombstone := (record.map ReservationRecord.tombstone).getD false
    changedWorkItemIds := changed }

def refusal (decision : Decision) (request : ReservationRequest) : ReservationResult :=
  resourceResultPayload decision request none none 0 []

/-! ### Host updates -/

def resolveResourceHostUpdateTargetKind (request : HostUpdateRequest) : Except String Unit :=
  rejectIf ((request.targetKind = .localHost) ≠ (request.targetAlias = none))
    "resource host target_alias does not match target_kind"

def validateResourceHostUpdateIdentity (request : HostUpdateRequest) : Except String Unit := do
  resourceText request.tenantRef "resource host tenant_ref"
  resourceText request.hostRef "resource host_ref"
  resourceLabels request.labels "resource host labels"
  resourceText (request.targetAlias.getD "local") "resource host target_alias"

def resourceHostHeartbeatBoundsViolated (request : HostUpdateRequest) : Bool :=
  request.heartbeatTtl < 1000 || 86400000 < request.heartbeatTtl ||
    request.now < request.heartbeatAt || request.heartbeatTtl < request.now - request.heartbeatAt

def resourceHostCapacityBoundsViolated (request : HostUpdateRequest) : Bool :=
  resourceRequirementDimensionsInvalid request.capacity

def resourceHostDiskBoundsViolated (request : HostUpdateRequest) : Bool :=
  request.diskCapacityMib < request.diskUsedMib || request.diskCapacityMib = 0 ||
    maxResourceDimension < request.diskCapacityMib || maxResourceDimension < request.diskUsedMib

def resourceHostObservedBoundsViolated (request : HostUpdateRequest) : Bool :=
  request.capacity.cpuWeight < request.observed.cpuWeight ||
    request.capacity.memoryMib < request.observed.memoryMib ||
    request.capacity.diskMib < request.observed.diskMib ||
    request.capacity.processSlots < request.observed.processSlots ||
    maxResourceDimension < request.observed.cpuWeight ||
    maxResourceDimension < request.observed.memoryMib ||
    maxResourceDimension < request.observed.diskMib ||
    maxResourceDimension < request.observed.processSlots

def validateResourceHostUpdateTelemetryBounds (request : HostUpdateRequest) : Except String Unit :=
  rejectIf (resourceHostHeartbeatBoundsViolated request = true ∨
      resourceHostCapacityBoundsViolated request = true ∨
      resourceHostDiskBoundsViolated request = true ∨
      resourceHostObservedBoundsViolated request = true ∨ request.revision = 0)
    "resource host update violates telemetry bounds"

def validateResourceHostUpdateRequest (request : HostUpdateRequest) : Except String Unit := do
  validateResourceHostUpdateIdentity request
  resolveResourceHostUpdateTargetKind request
  validateResourceHostUpdateTelemetryBounds request

def fits (a b bound : ℕ) : Bool := (checkedAdd u64Max a b).any fun sum => sum ≤ bound

def resourceHostUpdateExceedsCapacity (request : HostUpdateRequest) (host : DurableHost) : Bool :=
  !fits request.observed.cpuWeight host.held.cpuWeight request.capacity.cpuWeight ||
    !fits request.observed.memoryMib host.held.memoryMib request.capacity.memoryMib ||
    !fits request.observed.diskMib host.held.diskMib request.capacity.diskMib ||
    !fits request.diskUsedMib host.held.diskMib request.diskCapacityMib ||
    !fits request.observed.processSlots host.held.processSlots request.capacity.processSlots

inductive HostUpdateReason
  | accepted
  | conflict
  | staleHost

structure HostUpdateResult where
  reason : HostUpdateReason
  host : DurableHost
  policies : List (String × DiskPolicy)

def checkResourceHostUpdateConflicts (request : HostUpdateRequest) (host : DurableHost) :
    Option HostUpdateReason :=
  if host.targetKind ≠ request.targetKind ∨ host.targetAlias ≠ request.targetAlias then
    some .conflict
  else if request.revision ≤ host.revision then some .staleHost
  else if resourceHostUpdateExceedsCapacity request host then some .conflict
  else none

/-- The new row: the telemetry of the request, the holds and the first tenant of the row. -/
def buildResourceHostFromUpdate (request : HostUpdateRequest) (current : Option DurableHost) :
    DurableHost :=
  { tenantRef := (current.map DurableHost.tenantRef).getD request.tenantRef
    hostRef := request.hostRef
    revision := request.revision
    capacity := request.capacity
    observed := request.observed
    heartbeatAt := request.heartbeatAt
    heartbeatTtl := request.heartbeatTtl
    now := request.now
    draining := request.draining
    quarantined := request.quarantined
    labels := request.labels
    targetKind := request.targetKind
    targetAlias := request.targetAlias
    diskUsedMib := request.diskUsedMib
    diskCapacityMib := request.diskCapacityMib
    held := (current.map DurableHost.held).getD {} }

def collectDiskPolicies (hostRef : String) :
    List (String × DiskPolicy) → List (String × DiskPolicy) →
      Except String (List (String × DiskPolicy))
  | collected, [] => .ok collected
  | collected, (key, policy) :: rest =>
    let start := hostRef ++ "\x00"
    if maxResourceHostDiskPolicies ≤ collected.length then
      .error "resource disk-policy scan exceeds native bound"
    else if start.toList.isPrefixOf key.toList then do
      let policyKey := String.ofList (key.toList.drop start.length)
      resourceText policyKey "resource disk_policy_key"
      collectDiskPolicies hostRef (collected ++ [(policyKey, policy)]) rest
    else if key < start then collectDiskPolicies hostRef collected rest
    else .ok collected

def resourceCollectDiskPolicyRows (l : Ledger) (hostRef : String) :
    Except String (List (String × DiskPolicy)) :=
  collectDiskPolicies hostRef [] l.diskPolicies.rows

def applyUpdateResourceHost (request : HostUpdateRequest) (l : Ledger) :
    Except String (Ledger × HostUpdateResult) := do
  validateResourceHostUpdateRequest request
  let policies ← resourceCollectDiskPolicyRows l request.hostRef
  let current := l.hosts.get request.hostRef
  let host := buildResourceHostFromUpdate request current
  let updated := ({ l with hosts := l.hosts.insert request.hostRef host }, ⟨.accepted, host, policies⟩)
  match current with
  | none => return updated
  | some row =>
    match checkResourceHostUpdateConflicts request row with
    | some reason => return (l, ⟨reason, row, policies⟩)
    | none => return updated

/-! ### The replay comparison -/

def resourceRequestMatchesIdentity (request : ReservationRequest) (record : ReservationRecord) :
    Bool :=
  request.reservationId = record.reservationId && request.tenantRef = record.tenantRef &&
    request.ownerId = record.ownerId && request.workItemId = record.workItemId &&
    request.fence = record.fence && request.attempt = record.attempt &&
    request.leaseEpoch = record.leaseEpoch && request.fencingToken = record.fencingToken

def resourceRequestMatchesPlacement (request : ReservationRequest) (record : ReservationRecord) :
    Bool :=
  request.inputFingerprint = record.inputFingerprint && request.hostRef = record.hostRef &&
    request.profileName = record.profileName && request.profileVersion = record.profileVersion &&
    request.requirement = record.requirement && request.targetKind.text = record.targetKind.text &&
    request.targetAlias = record.targetAlias && request.repositoryId = record.repositoryId

def resourceRequestMatchesAdmission (request : ReservationRequest) (record : ReservationRecord) :
    Bool :=
  request.branch = record.branch && request.concurrencyKey = record.concurrencyKey &&
    request.concurrencyLimit = record.concurrencyLimit &&
    request.repositoryExclusive = record.repositoryExclusive &&
    request.branchExclusive = record.branchExclusive &&
    request.requiredLabels = record.requiredLabels && request.antiAffinity = record.antiAffinity &&
    request.fairnessGroup = record.fairnessGroup

def resourceRequestMatchesAccounting (request : ReservationRequest) (record : ReservationRecord) :
    Bool :=
  request.fairnessCost = record.fairnessCost &&
    request.diskLowWatermarkMib = record.diskLowWatermarkMib &&
    request.diskHighWatermarkMib = record.diskHighWatermarkMib &&
    request.diskPolicyKey = record.diskPolicyKey && request.reservedAt = record.reservedAt &&
    request.expiresAt = record.expiresAt &&
    request.expectedHostRevision = record.expectedHostRevision

def resourceRequestMatchesRecord (request : ReservationRequest) (record : ReservationRecord) : Bool :=
  resourceRequestMatchesIdentity request record && resourceRequestMatchesPlacement request record &&
    resourceRequestMatchesAdmission request record && resourceRequestMatchesAccounting request record

theorem TargetKind.text_injective {a b : TargetKind} (h : a.text = b.text) : a = b := by
  cases a <;> cases b <;> first | rfl | exact absurd h (by decide)

theorem resourceRequestMatchesRecord_iff {request : ReservationRequest} {record : ReservationRecord} :
    resourceRequestMatchesRecord request record = true ↔ request.toTerms = record.toTerms := by
  constructor
  · intro h
    simp only [resourceRequestMatchesRecord, resourceRequestMatchesIdentity,
      resourceRequestMatchesPlacement, resourceRequestMatchesAdmission,
      resourceRequestMatchesAccounting, Bool.and_eq_true, decide_eq_true_eq] at h
    obtain ⟨⟨⟨hidentity, hplacement⟩, hadmission⟩, haccounting⟩ := h
    have hkind := TargetKind.text_injective hplacement.1.1.2
    refine Terms.ext ?_ ?_ ?_ ?_ ?_ ?_ ?_ ?_ ?_ ?_ ?_ ?_ ?_ hkind ?_ ?_ ?_ ?_ ?_ ?_ ?_ ?_ ?_ ?_ ?_ ?_
      ?_ ?_ ?_ ?_ ?_ <;> tauto
  · intro h
    simp only [resourceRequestMatchesRecord, resourceRequestMatchesIdentity,
      resourceRequestMatchesPlacement, resourceRequestMatchesAdmission,
      resourceRequestMatchesAccounting, h, Bool.and_eq_true, decide_eq_true_eq, and_self]

end Medulla.Resource.Admission
