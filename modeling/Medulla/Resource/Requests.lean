import Mathlib.Data.List.Sort
import Medulla.Library.Strings
import Medulla.Library.Checked

/-! # Requests of the resource ledger

A host publishes what it has and what it uses; a reservation asks one host for four amounts on behalf of
one attempt of a WorkItem. -/

namespace Medulla.Resource.Requests

open Library.Checked

/-! ### Amounts -/

/-- The four dimensions of a host. -/
inductive Dimension
  | cpuWeight
  | memoryMib
  | diskMib
  | processSlots

/-- A requirement, a capacity, an observation or a hold: one amount for each dimension. -/
@[ext]
structure Amounts where
  cpuWeight : ℕ := 0
  memoryMib : ℕ := 0
  diskMib : ℕ := 0
  processSlots : ℕ := 0
  deriving DecidableEq

namespace Amounts

def get (a : Amounts) : Dimension → ℕ
  | .cpuWeight => a.cpuWeight
  | .memoryMib => a.memoryMib
  | .diskMib => a.diskMib
  | .processSlots => a.processSlots

/-- Add within 64 bits, naming the dimension that overflows. -/
def checkedAddAll (a b : Amounts) : Except String Amounts := do
  let cpuWeight ← okOr (checkedAdd u64Max a.cpuWeight b.cpuWeight)
    "resource host cpu accounting overflow"
  let memoryMib ← okOr (checkedAdd u64Max a.memoryMib b.memoryMib)
    "resource host memory accounting overflow"
  let diskMib ← okOr (checkedAdd u64Max a.diskMib b.diskMib)
    "resource host disk accounting overflow"
  let processSlots ← okOr (checkedAdd u64Max a.processSlots b.processSlots)
    "resource host process accounting overflow"
  return ⟨cpuWeight, memoryMib, diskMib, processSlots⟩

def checkedSubAll (a b : Amounts) : Except String Amounts := do
  let cpuWeight ← okOr (checkedSub a.cpuWeight b.cpuWeight) "resource host cpu accounting underflow"
  let memoryMib ← okOr (checkedSub a.memoryMib b.memoryMib)
    "resource host memory accounting underflow"
  let diskMib ← okOr (checkedSub a.diskMib b.diskMib) "resource host disk accounting underflow"
  let processSlots ← okOr (checkedSub a.processSlots b.processSlots)
    "resource host process accounting underflow"
  return ⟨cpuWeight, memoryMib, diskMib, processSlots⟩

theorem checkedAddAll_eq_ok {a b c : Amounts} (h : checkedAddAll a b = .ok c) (d : Dimension) :
    c.get d = a.get d + b.get d := by
  obtain ⟨cpu, hcpu, h⟩ := unbind h
  obtain ⟨memory, hmemory, h⟩ := unbind h
  obtain ⟨disk, hdisk, h⟩ := unbind h
  obtain ⟨slots, hslots, h⟩ := unbind h
  cases h
  rw [okOr_eq_ok, checkedAdd_eq_some] at hcpu hmemory hdisk hslots
  cases d
  · exact hcpu.1.symm
  · exact hmemory.1.symm
  · exact hdisk.1.symm
  · exact hslots.1.symm

theorem checkedSubAll_eq_ok {a b c : Amounts} (h : checkedSubAll a b = .ok c) (d : Dimension) :
    c.get d + b.get d = a.get d := by
  obtain ⟨cpu, hcpu, h⟩ := unbind h
  obtain ⟨memory, hmemory, h⟩ := unbind h
  obtain ⟨disk, hdisk, h⟩ := unbind h
  obtain ⟨slots, hslots, h⟩ := unbind h
  cases h
  rw [okOr_eq_ok, checkedSub_eq_some] at hcpu hmemory hdisk hslots
  cases d <;> simp only [get] <;> omega

theorem checkedSubAll_of_le {a b : Amounts} (h : ∀ d, b.get d ≤ a.get d) :
    ∃ c, checkedSubAll a b = .ok c := by
  have hcpu := h .cpuWeight
  have hmemory := h .memoryMib
  have hdisk := h .diskMib
  have hslots := h .processSlots
  simp only [get] at hcpu hmemory hdisk hslots
  refine ⟨⟨a.cpuWeight - b.cpuWeight, a.memoryMib - b.memoryMib, a.diskMib - b.diskMib,
    a.processSlots - b.processSlots⟩, ?_⟩
  unfold checkedSubAll checkedSub
  rw [if_pos hcpu, if_pos hmemory, if_pos hdisk, if_pos hslots]
  rfl

end Amounts

/-! ### Data -/

inductive TargetKind
  | localHost
  | inventoryAlias
  deriving DecidableEq

def TargetKind.text : TargetKind → String
  | .localHost => "local"
  | .inventoryAlias => "inventory_alias"

/-- The fields that a reservation fixes for good. -/
@[ext]
structure Terms where
  tenantRef : String
  workItemId : String
  ownerId : String
  fence : String
  leaseEpoch : ℕ
  fencingToken : ℕ
  attempt : ℕ
  reservationId : String
  inputFingerprint : String
  profileName : String
  profileVersion : String
  hostRef : String
  requirement : Amounts
  targetKind : TargetKind
  targetAlias : Option String
  repositoryId : String
  branch : String
  concurrencyKey : String
  concurrencyLimit : Option ℕ
  repositoryExclusive : Bool
  branchExclusive : Bool
  requiredLabels : List String
  antiAffinity : List String
  fairnessGroup : String
  fairnessCost : ℕ
  diskLowWatermarkMib : Option ℕ
  diskHighWatermarkMib : Option ℕ
  diskPolicyKey : String
  reservedAt : ℕ
  expiresAt : ℕ
  expectedHostRevision : Option ℕ
  deriving DecidableEq

/-- A request to reserve, release or reclaim. -/
structure ReservationRequest extends Terms where
  idempotencyKey : String
  now : ℕ
  expectedLifecycleRevision : Option ℕ

variable {request : ReservationRequest}

inductive RecordState
  | reserved
  | released
  | reclaimed
  | expired
  | superseded
  | absent
  deriving DecidableEq

structure ReservationRecord extends Terms where
  capacitySnapshot : Amounts
  hostRevision : ℕ
  selectedTarget : TargetKind × Option String × List String
  expectedLifecycleRevision : Option ℕ
  state : RecordState
  revision : ℕ
  lifecycleRevision : ℕ
  tombstone : Bool

structure DurableReservation where
  record : ReservationRecord
  held : Amounts
  fairnessDebt : ℕ

structure DurableHost where
  tenantRef : String
  hostRef : String
  revision : ℕ
  capacity : Amounts
  observed : Amounts
  heartbeatAt : ℕ
  heartbeatTtl : ℕ
  now : ℕ
  draining : Bool
  quarantined : Bool
  labels : List String
  targetKind : TargetKind
  targetAlias : Option String
  diskUsedMib : ℕ
  diskCapacityMib : ℕ
  held : Amounts

def DurableHost.withHeld (host : DurableHost) (held : Amounts) : DurableHost :=
  { host with held := held }

structure HostUpdateRequest where
  tenantRef : String
  hostRef : String
  revision : ℕ
  capacity : Amounts
  observed : Amounts
  heartbeatAt : ℕ
  heartbeatTtl : ℕ
  now : ℕ
  draining : Bool
  quarantined : Bool
  labels : List String
  targetKind : TargetKind
  targetAlias : Option String
  diskUsedMib : ℕ
  diskCapacityMib : ℕ

structure DiskPolicy where
  blocked : Bool
  lowWatermarkMib : Option ℕ
  highWatermarkMib : Option ℕ
  revision : ℕ

/-! ### Bounds -/

def maxResourceText : ℕ := 256

def maxResourceLabels : ℕ := 128

def maxResourceHostDiskPolicies : ℕ := 128

def maxResourceTtl : ℕ := 7 * 24 * 60 * 60 * 1000

def maxResourceDimension : ℕ := 1000000000000

/-! ### Texts -/

def isControl (c : Char) : Bool := c.val < 0x20 || (0x7f ≤ c.val && c.val ≤ 0x9f)

def resourceText (value name : String) : Except String Unit := do
  rejectIf (value.isEmpty = true ∨ maxResourceText < value.utf8ByteSize)
    (name ++ " is empty or exceeds 256 bytes")
  rejectIf (value.toList.any isControl = true) (name ++ " contains a control character")

def resourceOptionalText (value : Option String) (name : String) : Except String Unit :=
  match value with
  | some text => resourceText text name
  | none => .ok ()

def resourceLabelsFrom (name : String) : List String → List String → Except String Unit
  | _, [] => .ok ()
  | seen, value :: rest => do
    resourceText value name
    rejectIf (value ∈ seen) (name ++ " contains a duplicate value")
    resourceLabelsFrom name (value :: seen) rest

def resourceLabels (values : List String) (name : String) : Except String Unit := do
  rejectIf (maxResourceLabels < values.length) (name ++ " exceeds 128 entries")
  resourceLabelsFrom name [] values

theorem resourceLabelsFrom_nodup {name : String} : ∀ {seen values : List String} {u : Unit},
    resourceLabelsFrom name seen values = .ok u → values.Nodup ∧ ∀ v ∈ values, v ∉ seen
  | _, [], _, _ => ⟨List.nodup_nil, by simp⟩
  | seen, value :: rest, _, h => by
    obtain ⟨_, -, h⟩ := unbind h
    obtain ⟨_, hseen, h⟩ := unbind h
    rw [rejectIf_eq_ok] at hseen
    obtain ⟨hnodup, hrest⟩ := resourceLabelsFrom_nodup h
    refine ⟨List.nodup_cons.mpr ⟨fun hmem => hrest value hmem (.head _), hnodup⟩, ?_⟩
    intro v hv
    rcases List.mem_cons.mp hv with rfl | hv
    · exact hseen
    · exact fun hmem => hrest v hv (.tail _ hmem)

theorem resourceLabels_nodup {values : List String} {name : String} {u : Unit}
    (h : resourceLabels values name = .ok u) : values.Nodup := by
  obtain ⟨_, -, h⟩ := unbind h
  exact (resourceLabelsFrom_nodup h).1

/-- An ASCII digit of a lowercase or uppercase hexadecimal number. -/
def isAsciiHexdigit (c : Char) : Bool := c.isDigit || ('a' ≤ c && c ≤ 'f') || ('A' ≤ c && c ≤ 'F')

def resourceFingerprint (value name : String) : Except String Unit := do
  resourceText value name
  rejectIf (value.utf8ByteSize ≠ 67 ∨ value.toList.take 3 ≠ ['v', '1', ':'] ∨
      (value.toList.drop 3).all isAsciiHexdigit = false)
    (name ++ " must be v1:<64 lowercase hex characters>")
  rejectIf ((value.toList.drop 3).any Char.isUpper = true) (name ++ " must use lowercase hex")

/-- Read an unsigned 64-bit number; a leading plus sign and leading zeros are accepted. -/
def parseU64 (value : String) : Option ℕ :=
  let digits : List Char := if value.toList.head? = some '+' then value.toList.tail else value.toList
  let n := digits.foldl (fun n c => n * 10 + (c.toNat - '0'.toNat)) 0
  if digits ≠ [] ∧ digits.all Char.isDigit = true ∧ n ≤ u64Max then some n else none

/-! ### Reservation requests -/

def resourceValidateRequestIdentity (request : ReservationRequest) : Except String Unit := do
  resourceText request.tenantRef "resource tenant_ref"
  resourceText request.workItemId "resource work_item_id"
  resourceText request.ownerId "resource owner_id"
  resourceText request.fence "resource fence"
  resourceText request.reservationId "resource reservation_id"
  resourceText request.profileName "resource profile_name"
  resourceText request.profileVersion "resource profile_version"
  let parsed ← okOr (parseU64 request.profileVersion)
    "resource profile_version must be a canonical integer"
  rejectIf (toString parsed ≠ request.profileVersion)
    "resource profile_version must be a canonical integer"

def resourceValidateRequestSelectors (request : ReservationRequest) : Except String Unit := do
  resourceText request.hostRef "resource host_ref"
  resourceText request.targetKind.text "resource target_kind"
  rejectIf ((request.targetKind = .localHost) ≠ (request.targetAlias = none))
    "resource target_alias does not match target_kind"
  resourceOptionalText request.targetAlias "resource target_alias"
  resourceText request.repositoryId "resource repository_id"
  resourceText request.branch "resource branch"
  resourceText request.concurrencyKey "resource concurrency_key"
  resourceText request.fairnessGroup "resource fairness_group"
  resourceText request.diskPolicyKey "resource disk_policy_key"
  resourceText request.idempotencyKey "resource idempotency_key"
  resourceFingerprint request.inputFingerprint "resource input_fingerprint"
  resourceLabels request.requiredLabels "resource required_labels"
  resourceLabels request.antiAffinity "resource anti_affinity"

def resourceRequirementDimensionsInvalid (requirement : Amounts) : Bool :=
  requirement.cpuWeight = 0 || requirement.memoryMib = 0 || requirement.diskMib = 0 ||
    requirement.processSlots = 0 || maxResourceDimension < requirement.cpuWeight ||
    maxResourceDimension < requirement.memoryMib || maxResourceDimension < requirement.diskMib ||
    maxResourceDimension < requirement.processSlots

def resourceValidateRequestRequirement (request : ReservationRequest) : Except String Unit := do
  rejectIf (request.attempt = 0) "resource attempt must be positive"
  rejectIf (resourceRequirementDimensionsInvalid request.requirement = true)
    "resource requirement dimensions must be positive"
  rejectIf (request.concurrencyLimit = some 0) "resource concurrency_limit must be positive"
  rejectIf (request.fairnessCost = 0) "resource fairness_cost must be positive"
  rejectIf (maxResourceDimension < request.fairnessCost)
    "resource fairness_cost exceeds the native bound"

def watermarksCrossed (request : ReservationRequest) : Bool :=
  match request.diskLowWatermarkMib, request.diskHighWatermarkMib with
  | some low, some high => high < low
  | _, _ => false

def resourceValidateRequestWindow (request : ReservationRequest) : Except String Unit := do
  rejectIf (watermarksCrossed request = true) "resource disk low watermark exceeds high watermark"
  rejectIf (request.expiresAt ≤ request.reservedAt) "resource expiry must be after reservation time"
  rejectIf (maxResourceTtl < request.expiresAt - request.reservedAt)
    "resource TTL exceeds the native bound"

def resourceValidateRequest (request : ReservationRequest) : Except String Unit := do
  resourceValidateRequestIdentity request
  resourceValidateRequestSelectors request
  resourceValidateRequestRequirement request
  resourceValidateRequestWindow request

section
variable {request' : ReservationRequest} (hterms : request'.toTerms = request.toTerms)
  (hkey : resourceText request'.idempotencyKey "resource idempotency_key" = .ok ())
include hterms hkey

theorem resourceValidateRequestSelectors_of_terms
    (h : resourceValidateRequestSelectors request = .ok ()) :
    resourceValidateRequestSelectors request' = .ok () := by
  simp only [resourceValidateRequestSelectors, check_eq_ok] at h ⊢
  rw [hterms]
  obtain ⟨h1, h2, h3, h4, h5, h6, h7, h8, h9, -, h11⟩ := h
  exact ⟨h1, h2, h3, h4, h5, h6, h7, h8, h9, hkey, h11⟩

theorem resourceValidateRequest_of_terms
    (h : resourceValidateRequest request = .ok ()) : resourceValidateRequest request' = .ok () := by
  simp only [resourceValidateRequest, check_eq_ok] at h ⊢
  obtain ⟨hidentity, hselectors, hrequirement, hwindow⟩ := h
  refine ⟨?_, resourceValidateRequestSelectors_of_terms hterms hkey hselectors, ?_, ?_⟩
  · unfold resourceValidateRequestIdentity at hidentity ⊢
    rw [hterms]
    exact hidentity
  · unfold resourceValidateRequestRequirement at hrequirement ⊢
    rw [hterms]
    exact hrequirement
  · unfold resourceValidateRequestWindow watermarksCrossed at hwindow ⊢
    rw [hterms]
    exact hwindow

end

theorem antiAffinity_nodup (h : resourceValidateRequest request = .ok ()) :
    request.antiAffinity.Nodup := by
  simp only [resourceValidateRequest, resourceValidateRequestSelectors, check_eq_ok] at h
  obtain ⟨-, ⟨-, -, -, -, -, -, -, -, -, -, -, -, h⟩, -⟩ := h
  exact resourceLabels_nodup h

end Medulla.Resource.Requests
