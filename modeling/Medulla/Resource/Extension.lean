import Medulla.Resource.Requests

/-! # The resource extension of a WorkItem

A WorkItem that takes resources carries, in its metadata, the repository projection it was made from
and under it the resolved resource profile. A request is admitted only if it says what these say:
every requirement, label, key, watermark and flag is compared with the metadata, and the fingerprint
of a reservation is a digest of both. -/

namespace Medulla.Resource.Extension

open Library.Checked Requests

/-! ### Values -/

/-- A value of the metadata. A number that is not an unsigned 64-bit one is kept as its text. -/
inductive Json
  | null
  | bool (b : Bool)
  | unsigned (n : ℕ)
  | number (text : String)
  | text (s : String)
  | array (values : List Json)
  | object (fields : List (String × Json))

/-- The members of an object, in order. -/
abbrev Fields := List (String × Json)

namespace Json

def asStr : Json → Option String
  | .text s => some s
  | _ => none

def asU64 : Json → Option ℕ
  | .unsigned n => some n
  | _ => none

def asBool : Json → Option Bool
  | .bool b => some b
  | _ => none

def asArray : Json → Option (List Json)
  | .array values => some values
  | _ => none

def asObject : Json → Option Fields
  | .object fields => some fields
  | _ => none

end Json

/-- A member that is not null. -/
def present (map : Fields) (key : String) : Option Json :=
  match map.lookup key with
  | some .null => none
  | found => found

/-! ### Private texts -/

/-- The digit of a character in the URL-safe alphabet. -/
def b64Digit (c : Char) : Option ℕ :=
  if 'A' ≤ c ∧ c ≤ 'Z' then some (c.toNat - 'A'.toNat)
  else if 'a' ≤ c ∧ c ≤ 'z' then some (c.toNat - 'a'.toNat + 26)
  else if '0' ≤ c ∧ c ≤ '9' then some (c.toNat - '0'.toNat + 52)
  else if c = '-' then some 62
  else if c = '_' then some 63
  else none

def b64Char (n : ℕ) : Char :=
  if n < 26 then Char.ofNat ('A'.toNat + n)
  else if n < 52 then Char.ofNat ('a'.toNat + (n - 26))
  else if n < 62 then Char.ofNat ('0'.toNat + (n - 52))
  else if n = 62 then '-'
  else '_'

def utf8Bytes (cs : List Char) : List ℕ :=
  cs.flatMap fun c => (String.utf8EncodeChar c).map UInt8.toNat

/-- The bytes of a text in padded base64. -/
def b64Encode : List ℕ → List Char
  | [] => []
  | [a] => [b64Char (a / 4), b64Char (a % 4 * 16), '=', '=']
  | [a, b] => [b64Char (a / 4), b64Char (a % 4 * 16 + b / 16), b64Char (b % 16 * 4), '=']
  | a :: b :: c :: rest =>
    b64Char (a / 4) :: b64Char (a % 4 * 16 + b / 16) :: b64Char (b % 16 * 4 + c / 64) ::
      b64Char (c % 64) :: b64Encode rest

/-- Groups of three characters, with a dot between them. -/
def dotted : List Char → List Char
  | a :: b :: c :: d :: rest => a :: b :: c :: '.' :: dotted (d :: rest)
  | cs => cs

/-- The canonical spelling of a private text. -/
def resourceB64Urlsafe (value : String) : String :=
  String.ofList ("opaque:v1:".toList ++ dotted (b64Encode (utf8Bytes value.toList)))

/-- Decodes base64 text, in groups of four characters. -/
def b64Decode (name : String) : List Char → Except String (List ℕ)
  | [] => .ok []
  | c₁ :: c₂ :: c₃ :: c₄ :: rest => do
    let a ← okOr (b64Digit c₁) (name ++ " has invalid base64")
    let b ← okOr (b64Digit c₂) (name ++ " has invalid base64")
    let first := (a * 4 + b / 16) % 256
    if c₃ = '=' then do
      rejectIf (c₄ ≠ '=') (name ++ " has invalid base64 padding")
      let bytes ← b64Decode name rest
      return first :: bytes
    else do
      let c ← okOr (b64Digit c₃) (name ++ " has invalid base64")
      let second := (b * 16 + c / 4) % 256
      if c₄ = '=' then do
        let bytes ← b64Decode name rest
        return first :: second :: bytes
      else do
        let d ← okOr (b64Digit c₄) (name ++ " has invalid base64")
        let bytes ← b64Decode name rest
        return first :: second :: (c * 64 + d) % 256 :: bytes
  | _ => .ok []

/-- The characters that bytes spell, without the checks of the encoding. -/
def utf8Chars : List ℕ → List Char
  | [] => []
  | a :: b :: c :: d :: rest =>
    if a < 0x80 then Char.ofNat a :: utf8Chars (b :: c :: d :: rest)
    else if a < 0xe0 then Char.ofNat (a % 32 * 64 + b % 64) :: utf8Chars (c :: d :: rest)
    else if a < 0xf0 then
      Char.ofNat (a % 16 * 4096 + b % 64 * 64 + c % 64) :: utf8Chars (d :: rest)
    else Char.ofNat (a % 8 * 262144 + b % 64 * 4096 + c % 64 * 64 + d % 64) :: utf8Chars rest
  | [a, b, c] =>
    if a < 0x80 then Char.ofNat a :: utf8Chars [b, c]
    else if a < 0xe0 then Char.ofNat (a % 32 * 64 + b % 64) :: utf8Chars [c]
    else [Char.ofNat (a % 16 * 4096 + b % 64 * 64 + c % 64)]
  | [a, b] =>
    if a < 0x80 then Char.ofNat a :: utf8Chars [b] else [Char.ofNat (a % 32 * 64 + b % 64)]
  | [a] => [Char.ofNat a]

/-- Valid bytes are those that the characters they spell are encoded as. -/
def fromUtf8 (bytes : List ℕ) : Option String :=
  let cs := utf8Chars bytes
  if utf8Bytes cs = bytes then some (String.ofList cs) else none

/-- What follows the marker of an opaque text. -/
def opaqueTail (value : String) : Option (List Char) :=
  if value.toList.take 10 = "opaque:v1:".toList then some (value.toList.drop 10) else none

/-- Read a private text; only its canonical spelling is accepted. -/
def resourceB64Value (value name : String) : Except String String := do
  let tail ← okOr (opaqueTail value) (name ++ " is not an opaque:v1 value")
  let encoded := tail.filter (· ≠ '.')
  rejectIf (encoded = [] ∨ (String.ofList encoded).utf8ByteSize % 4 ≠ 0 ∨
      512 < (String.ofList encoded).utf8ByteSize) (name ++ " has invalid opaque:v1 length")
  let bytes ← b64Decode name encoded
  let decoded ← okOr (fromUtf8 bytes) (name ++ " is not UTF-8")
  resourceText decoded name
  rejectIf (resourceB64Urlsafe decoded ≠ value) (name ++ " is not canonical opaque:v1 encoding")
  return decoded

/-- Reads a text, plain or opaque. -/
def resourceOpaqueString (value : Option Json) (name : String) : Except String (Option String) :=
  match value with
  | none => .ok none
  | some .null => .ok none
  | some (.text s) => do
    let text ← resourceB64Value s name
    return some text
  | some _ => .error (name ++ " must be an opaque string or null")

def resourceOpaqueStrings (name : String) : List Json → Except String (List String)
  | [] => .ok []
  | value :: rest => do
    let text ← resourceOpaqueString (some value) name
    let first ← okOr text (name ++ " contains a null value")
    let others ← resourceOpaqueStrings name rest
    return first :: others

/-- A bounded array of distinct private texts, sorted. -/
def resourceOpaqueSequence (value : Option Json) (name : String) : Except String (List String) := do
  let values ← okOr (value.bind Json.asArray) (name ++ " must be an opaque string array")
  rejectIf (maxResourceLabels < values.length) (name ++ " exceeds 128 entries")
  let decoded ← resourceOpaqueStrings name values
  resourceLabels decoded name
  return decoded.insertionSort (· ≤ ·)

/-! ### Fields of the metadata -/

/-- The repository object of a WorkItem's metadata and its resource extension. -/
def resourceMetadataMaps (metadata : Json) : Except String (Fields × Fields) := do
  let outer ← okOr metadata.asObject "WorkItem resource admission metadata is missing"
  let repository ← okOr ((outer.lookup "repository_work_item").bind Json.asObject)
    "WorkItem resource admission extension is missing"
  let resource ← okOr ((repository.lookup "resource_reservation").bind Json.asObject)
    "WorkItem resource reservation extension is missing"
  return (repository, resource)

/-- Reads a required text. -/
def resourceMetadataString (map : Fields) (key name : String) : Except String String := do
  let text ← resourceOpaqueString (map.lookup key) name
  okOr text (name ++ " is missing")

/-- Reads a required number. -/
def resourceMetadataU64 (map : Fields) (key name : String) : Except String ℕ :=
  okOr ((map.lookup key).bind Json.asU64) (name ++ " is missing or invalid")

def resourceU64Matches (map : Fields) (key : String) (expected : ℕ) (name : String) :
    Except String Bool := do
  let actual ← resourceMetadataU64 map key name
  return actual = expected

def resourceOptionalU64Matches (map : Fields) (key : String) (expected : Option ℕ) (name : String) :
    Except String Bool :=
  match present map key with
  | none => .ok (expected = none)
  | some value => do
    let actual ← okOr value.asU64 (name ++ " is invalid")
    return some actual = expected

def resourceBoolMatches (map : Fields) (key : String) (expected : Bool) (name : String) :
    Except String Bool := do
  let actual ← okOr ((map.lookup key).bind Json.asBool) (name ++ " is missing or invalid")
  return actual = expected

def plainText (map : Fields) (key message : String) : Except String String :=
  okOr ((map.lookup key).bind Json.asStr) message

/-- The version of the resource profile, as text and number. -/
def profileVersion (extension : Fields) : Except String (String × ℕ) := do
  let text ← resourceMetadataString extension "profile_version" "resource profile_version"
  let number ← okOr (parseU64 text) "resource profile_version must be a canonical integer"
  rejectIf (toString number ≠ text) "resource profile_version must use canonical integer spelling"
  return (text, number)

/-! ### The comparison with a request -/

/-- The extension has the known schema and authority. -/
def validateResourceExtensionAuthority (extension : Fields) : Except String Unit :=
  rejectIf ((extension.lookup "schema_version").bind Json.asStr ≠ some "1" ∨
      (extension.lookup "resolved_profile_authority").bind Json.asStr ≠
        some "repository_manager:resource_profile_registry:v1")
    "WorkItem resource extension is legacy or lacks resolved-profile authority"

/-- The branch of the extension; an exclusive one must be explicit. -/
def resolveResourceExtensionBranch (extension : Fields) (request : ReservationRequest) :
    Except String String := do
  let branch ← resourceMetadataString extension "branch" "resource branch"
  rejectIf (request.branchExclusive = true ∧
      (extension.lookup "branch_explicit").bind Json.asBool ≠ some true)
    "branch-exclusive WorkItem has no explicit branch"
  return branch

/-- The labels of the extension and of the request. -/
structure ResourceLabelSets where
  labels : List String
  requestLabels : List String
  antiAffinity : List String
  requestAntiAffinity : List String

def resourceExtensionResolveLabels (extension : Fields) (request : ReservationRequest) :
    Except String ResourceLabelSets := do
  let labels ← resourceOpaqueSequence (extension.lookup "host_labels") "resource host_labels"
  let antiAffinity ← resourceOpaqueSequence (extension.lookup "anti_affinity")
    "resource anti_affinity"
  return ⟨labels, request.requiredLabels.insertionSort (· ≤ ·), antiAffinity,
    request.antiAffinity.insertionSort (· ≤ ·)⟩

/-- The fingerprint of the WorkItem is the stored one. -/
def verifyResourceExtensionWorkItemDigest (repository extension : Fields) : Except String Bool := do
  let digest ← plainText extension "work_item_input_fingerprint"
    "work_item_input_fingerprint is missing"
  resourceFingerprint digest "work_item_input_fingerprint"
  let stored ← plainText repository "immutable_input_digest"
    "repository immutable_input_digest is missing"
  return stored.utf8ByteSize = 64 &&
    stored.toList.all (fun c => isAsciiHexdigit c && !c.isUpper) && digest = "v1:" ++ stored

structure ResourceExtensionProfileFields where
  profileVersion : String
  profileName : String
  repositoryId : String
  concurrencyKey : String
  fairnessGroup : String
  diskPolicyKey : String

def resolveResourceExtensionProfileFields (extension : Fields) :
    Except String ResourceExtensionProfileFields := do
  let (version, _) ← profileVersion extension
  let profileName ← resourceMetadataString extension "profile_name" "resource profile_name"
  let repositoryId ← resourceMetadataString extension "repository_id" "resource repository_id"
  let concurrencyKey ← resourceMetadataString extension "concurrency_key" "resource concurrency_key"
  let fairnessGroup ← resourceMetadataString extension "fairness_group" "resource fairness_group"
  let diskPolicyKey ← resourceMetadataString extension "disk_policy_key" "resource disk_policy_key"
  return ⟨version, profileName, repositoryId, concurrencyKey, fairnessGroup, diskPolicyKey⟩

structure ResourceExtensionRepositoryFields where
  repositoryIdOuter : String
  ownerIdOuter : String
  outerTargetKind : String
  outerTargetAlias : Option String
  tenantId : String

def resolveResourceExtensionRepositoryFields (repository : Fields) :
    Except String ResourceExtensionRepositoryFields := do
  let repositoryId ← resourceMetadataString repository "repository_id" "repository repository_id"
  let ownerId ← resourceMetadataString repository "owner_id" "repository owner_id"
  let targetKind ← plainText repository "target_kind" "repository target_kind is missing"
  let targetAlias ← resourceOpaqueString (repository.lookup "target_alias") "repository target_alias"
  let tenant ← plainText repository "tenant_id" "repository tenant_id is missing"
  let tenantId ← resourceB64Value tenant "repository tenant_id"
  return ⟨repositoryId, ownerId, targetKind, targetAlias, tenantId⟩

/-- The kind of target, with an alias if it needs one. -/
def resolveResourceExtensionTargetKind (extension : Fields) (targetAlias : Option String) :
    Except String String := do
  let kind ← plainText extension "target_kind" "resource target_kind is missing"
  rejectIf (kind ≠ "local" ∧ kind ≠ "inventory_alias") "resource target_kind is invalid"
  rejectIf ((kind = "local") ≠ (targetAlias = none)) "resource target_alias does not match target_kind"
  return kind

/-- The request is for the item the extension describes. -/
def resourceExtensionIdentityMatches (request : ReservationRequest) (branch kind : String)
    (targetAlias : Option String) (profile : ResourceExtensionProfileFields)
    (repository : ResourceExtensionRepositoryFields) : Bool :=
  profile.profileName = request.profileName && profile.profileVersion = request.profileVersion &&
    profile.repositoryId = request.repositoryId &&
    repository.repositoryIdOuter = request.repositoryId &&
    repository.ownerIdOuter = request.ownerId && repository.tenantId = request.tenantRef &&
    branch = request.branch && kind = repository.outerTargetKind &&
    targetAlias = repository.outerTargetAlias && profile.concurrencyKey = request.concurrencyKey

/-- Evaluate a comparison only if those before it held. -/
def andThen (first : Bool) (next : Except String Bool) : Except String Bool :=
  if first then next else .ok false

/-- The request asks for what the extension says. -/
def resourceExtensionRequirementsMatch (extension : Fields) (request : ReservationRequest) :
    Except String Bool := do
  let cpu ← resourceU64Matches extension "cpu_weight" request.requirement.cpuWeight
    "resource cpu_weight"
  let memory ← andThen cpu (resourceU64Matches extension "memory_mib" request.requirement.memoryMib
    "resource memory_mib")
  let disk ← andThen memory (resourceU64Matches extension "disk_mib" request.requirement.diskMib
    "resource disk_mib")
  andThen disk (resourceU64Matches extension "process_slots" request.requirement.processSlots
    "resource process_slots")

/-- The request has the affinities and exclusivities of the extension. -/
def resourceExtensionAffinityAndExclusivityMatches (extension : Fields)
    (request : ReservationRequest) (sets : ResourceLabelSets) (fairnessGroup : String) :
    Except String Bool := do
  let limit ← andThen (sets.labels = sets.requestLabels &&
      sets.antiAffinity = sets.requestAntiAffinity && fairnessGroup = request.fairnessGroup)
    (resourceOptionalU64Matches extension "concurrency_limit" request.concurrencyLimit
      "resource concurrency_limit")
  let repository ← andThen limit (resourceBoolMatches extension "repository_exclusive"
    request.repositoryExclusive "resource repository_exclusive")
  andThen repository (resourceBoolMatches extension "branch_exclusive" request.branchExclusive
    "resource branch_exclusive")

/-- The request has the disk policy of the extension. -/
def resourceExtensionDiskPolicyMatches (extension : Fields) (request : ReservationRequest)
    (diskPolicyKey : String) : Except String Bool := do
  let low ← resourceOptionalU64Matches extension "disk_low_watermark_mib" request.diskLowWatermarkMib
    "resource disk_low_watermark_mib"
  let high ← andThen low (resourceOptionalU64Matches extension "disk_high_watermark_mib"
    request.diskHighWatermarkMib "resource disk_high_watermark_mib")
  andThen (high && diskPolicyKey = request.diskPolicyKey)
    (resourceOptionalU64Matches extension "fairness_cost" (some request.fairnessCost)
      "resource fairness_cost")

/-- The request has the policies of the extension. -/
def resourceExtensionPolicyMatches (extension : Fields) (request : ReservationRequest)
    (sets : ResourceLabelSets) (profile : ResourceExtensionProfileFields) : Except String Bool := do
  let affinity ← resourceExtensionAffinityAndExclusivityMatches extension request sets
    profile.fairnessGroup
  andThen affinity (resourceExtensionDiskPolicyMatches extension request profile.diskPolicyKey)

def resourceExtensionFinalMatch (repository extension : Fields) (request : ReservationRequest)
    (branch : String) (sets : ResourceLabelSets) (targetAlias : Option String) :
    Except String Bool := do
  let profile ← resolveResourceExtensionProfileFields extension
  let outer ← resolveResourceExtensionRepositoryFields repository
  let kind ← resolveResourceExtensionTargetKind extension targetAlias
  let requirements ← resourceExtensionRequirementsMatch extension request
  let policy ← resourceExtensionPolicyMatches extension request sets profile
  return resourceExtensionIdentityMatches request branch kind targetAlias profile outer &&
    requirements && policy

/-- The request agrees with the extension in every field. -/
def resourceExtensionMatches (repository extension : Fields) (request : ReservationRequest) :
    Except String Bool := do
  validateResourceExtensionAuthority extension
  let branch ← resolveResourceExtensionBranch extension request
  let sets ← resourceExtensionResolveLabels extension request
  let targetAlias ← resourceOpaqueString (extension.lookup "target_alias") "resource target_alias"
  let bound ← verifyResourceExtensionWorkItemDigest repository extension
  andThen bound (resourceExtensionFinalMatch repository extension request branch sets targetAlias)

/-! ### Targets -/

/-- A target a WorkItem asks for. -/
structure TargetPolicy where
  kind : String
  targetAlias : Option String
  capabilityLabels : List String

def resourceTargetPolicyValue (value : Option Json) (name : String) : Except String TargetPolicy := do
  let map ← okOr (value.bind Json.asObject) (name ++ " is missing")
  let kind ← plainText map "kind" (name ++ ".kind is missing")
  rejectIf (kind ≠ "local" ∧ kind ≠ "inventory_alias") (name ++ ".kind is invalid")
  let targetAlias ← resourceOpaqueString (map.lookup "alias") (name ++ ".alias")
  rejectIf ((kind = "local") ≠ (targetAlias = none)) (name ++ ".alias does not match kind")
  let labels ← resourceOpaqueSequence (map.lookup "capability_labels") (name ++ ".capability_labels")
  return ⟨kind, targetAlias, labels⟩

/-- The host is one the extension allows. -/
def resourceTargetSelectionMatches (extension : Fields) (host : DurableHost) : Except String Bool :=
  match present extension "required_target" with
  | some value => do
    let required ← resourceTargetPolicyValue (some value) "resource required_target"
    return required.kind = host.targetKind.text && required.targetAlias = host.targetAlias
  | none => do
    let preferred ← resourceTargetPolicyValue (extension.lookup "preferred_target")
      "resource preferred_target"
    return host.targetKind.text = "local" || preferred.kind = "inventory_alias"

def resourceSelectedTargetMatchesRequest (request : ReservationRequest) (host : DurableHost) : Bool :=
  request.targetKind.text = host.targetKind.text && request.targetAlias = host.targetAlias

/-! ### Fingerprints -/

/-- What a reservation's fingerprint is taken over. -/
structure FingerprintPayload where
  attempt : ℕ
  branch : String
  fence : String
  jobId : String
  ownerId : String
  profileName : String
  profileVersion : ℕ
  repositoryId : String
  reservationId : String
  tenantId : String
  ttlSeconds : ℕ
  workItemId : String
  antiAffinity : List String
  concurrencyKey : String
  requirement : Amounts
  diskHighWatermarkMib : Option ℕ
  diskLowWatermarkMib : Option ℕ
  fairnessGroup : String
  hostLabels : List String
  preferredTarget : TargetPolicy
  priority : ℕ
  queueDeadline : Json
  requiredTarget : Option TargetPolicy

/-- Reading metadata, and the digest of a fingerprint. -/
structure Codecs where
  metadata : String → Json
  digest : FingerprintPayload → String

/-- A deadline with the short form of the UTC offset. -/
def canonicalDeadline : Json → Json
  | .text s =>
    if s.endsWith "+00:00" then .text (String.ofList (s.toList.take (s.length - 6)) ++ "Z")
    else .text s
  | value => value

def requiredTarget (extension : Fields) : Except String (Option TargetPolicy) :=
  match present extension "required_target" with
  | some value => do
    let target ← resourceTargetPolicyValue (some value) "resource required_target"
    return some target
  | none => .ok none

/-- Collects the payload of the fingerprint. -/
def resourceFingerprintInputs (metadata : Json) (request : ReservationRequest) :
    Except String FingerprintPayload := do
  let (repository, extension) ← resourceMetadataMaps metadata
  let jobId ← resourceMetadataString repository "job_id" "repository job_id"
  let hostLabels ← resourceOpaqueSequence (extension.lookup "host_labels") "resource host_labels"
  let antiAffinity ← resourceOpaqueSequence (extension.lookup "anti_affinity")
    "resource anti_affinity"
  let required ← requiredTarget extension
  let preferred ← resourceTargetPolicyValue (extension.lookup "preferred_target")
    "resource preferred_target"
  let (_, version) ← profileVersion extension
  let priority ← resourceMetadataU64 repository "priority" "repository priority"
  let ttl ← okOr (checkedSub request.expiresAt request.reservedAt) "resource TTL underflow"
  rejectIf (ttl = 0 ∨ ttl % 1000 ≠ 0) "resource TTL must be an integral number of seconds"
  return {
    attempt := request.attempt
    branch := request.branch
    fence := request.fence
    jobId := jobId
    ownerId := request.ownerId
    profileName := request.profileName
    profileVersion := version
    repositoryId := request.repositoryId
    reservationId := request.reservationId
    tenantId := request.tenantRef
    ttlSeconds := ttl / 1000
    workItemId := request.workItemId
    antiAffinity := antiAffinity
    concurrencyKey := request.concurrencyKey
    requirement := request.requirement
    diskHighWatermarkMib := request.diskHighWatermarkMib
    diskLowWatermarkMib := request.diskLowWatermarkMib
    fairnessGroup := request.fairnessGroup
    hostLabels := hostLabels
    preferredTarget := preferred
    priority := priority
    queueDeadline := canonicalDeadline ((repository.lookup "queue_deadline").getD .null)
    requiredTarget := required }

/-- The fingerprint of a request, taken anew. -/
def resourceRecomputedFingerprint (codecs : Codecs) (metadata : Json)
    (request : ReservationRequest) : Except String String := do
  let payload ← resourceFingerprintInputs metadata request
  return "v1:" ++ codecs.digest payload

end Medulla.Resource.Extension
