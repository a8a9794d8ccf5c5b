import Medulla.Library.Strings
import Medulla.Library.Checked

/-! # Mutation batches

The universal durable mutation unit of `medulla-types` and the checks every persistence path runs on
it before a batch is admitted. An operation envelope carries its two replay digests as values; no
result depends on how they are computed. The serde schema numbers, the self-check digest of a scope
identity and the canonical payload digest of an envelope only refuse malformed encodings of a batch
and are not represented. -/

namespace Medulla.Types.Batch

open Library.Checked Library.Strings

/-! ### Identity -/

inductive DurabilityDomain
  | graphRows | graphSnapshot | rdfDataset | sqlCatalog | blobStore | kvStore | timeSeries
  | analyticsJob | semanticIndex | broker | crossModal | multiGraph | lifecycle | controlPlane
  deriving DecidableEq

/-- A domain whose state and version counter live in its own store may never ride a graph scope. -/
def DurabilityDomain.forbiddenInGraphScope : DurabilityDomain → Bool
  | .blobStore | .kvStore | .timeSeries | .analyticsJob | .semanticIndex => true
  | _ => false

/-- Typed logical owner of a durable mutation. -/
inductive MutationScope
  | graph (graph : String)
  | native (domain : DurabilityDomain) (resource : String)
  deriving DecidableEq

/-- Tenant, typed logical owner and lifecycle generation. -/
structure MutationScopeIdentity where
  tenant : String
  scope : MutationScope
  incarnationId : String
  deriving DecidableEq

def reservedSystemTenant : String := "__eg_system__"

/-! ### Envelope -/

abbrev Digest256 := String

/-- Capabilities verified at admission. -/
inductive MutationCapability
  | unversionedSystemMutation
  deriving DecidableEq

structure OperationReplayIdentity where
  idempotencyKey : String
  authorityScope : String
  authority : String
  canonicalPayloadDigest : Digest256
  digest : Digest256
  deriving DecidableEq

/-- The admission header of a caller operation, with the identity and the attempt nonce digest it
derives. -/
structure OperationEnvelope where
  actor : String
  operationIdentity : OperationReplayIdentity
  nonceReplayDigest : Digest256
  servingPrincipal : String
  verifiedCapabilities : List MutationCapability
  deriving DecidableEq

def OperationEnvelope.idempotencyKey (e : OperationEnvelope) : String :=
  e.operationIdentity.idempotencyKey

def OperationEnvelope.operationReplayDigest (e : OperationEnvelope) : Digest256 :=
  e.operationIdentity.digest

structure MaintenanceEnvelope where
  servingPrincipal : String
  kind : String
  subject : String
  maintenanceKey : String
  deriving DecidableEq

inductive MutationEnvelope
  | operation (envelope : OperationEnvelope)
  | maintenance (envelope : MaintenanceEnvelope)
  deriving DecidableEq

def MutationEnvelope.idempotencyKey : MutationEnvelope → String
  | .operation e => e.idempotencyKey
  | .maintenance e => e.maintenanceKey

def MutationEnvelope.servingPrincipal : MutationEnvelope → String
  | .operation e => e.servingPrincipal
  | .maintenance e => e.servingPrincipal

def MutationEnvelope.operation? : MutationEnvelope → Option OperationEnvelope
  | .operation e => some e
  | .maintenance _ => none

def MutationEnvelope.isMaintenance : MutationEnvelope → Bool
  | .operation _ => false
  | .maintenance _ => true

/-! ### The batch -/

/-- The wire method of an operation; only `ApplyMutation` is read by the ledger. -/
inductive Method
  | applyMutation (eventType query : String)
  | other (name : String)
  deriving DecidableEq

structure MutationOperation where
  ordinal : ℕ
  domain : DurabilityDomain
  method : Method
  deriving DecidableEq

/-- A notification to publish after commit. -/
structure MutationOutboxIntent where
  topic : String
  key : String
  payload : List UInt8
  headers : List (String × String)
  deriving DecidableEq

structure MutationStateDescriptor where
  algorithm : String
  digest : String
  sourceGraphVersion : ℕ
  targetGraphVersion : ℕ
  deriving DecidableEq

/-- Explicit OCC semantics. -/
inductive VersionExpectation
  | graph (version : ℕ)
  | native (version : ℕ)
  | unversioned
  deriving DecidableEq

/-- Exact version transition committed with a durable record. -/
inductive CommittedVersion
  | graph (source target : ℕ)
  | native (source target : ℕ)
  | none
  deriving DecidableEq

def CommittedVersion.target : CommittedVersion → Option ℕ
  | .graph _ t => some t
  | .native _ t => some t
  | .none => Option.none

def CommittedVersion.checkedGraph (source : ℕ) : Except String CommittedVersion := do
  let target ← okOr (checkedAdd u64Max source 1) "graph mutation version overflow"
  return .graph source target

def CommittedVersion.checkedNative (source : ℕ) : Except String CommittedVersion := do
  let target ← okOr (checkedAdd u64Max source 1) "native mutation version overflow"
  return .native source target

structure MutationBatch where
  batchId : String
  envelope : MutationEnvelope
  identity : MutationScopeIdentity
  placementEpoch : ℕ
  versionExpectation : VersionExpectation
  fencingToken : Option ℕ
  authoritativeState : Option MutationStateDescriptor
  operations : List MutationOperation
  outbox : List MutationOutboxIntent
  createdAtMs : ℕ
  deriving DecidableEq

namespace MutationBatch

/-- The caller-stable retry key, read through the envelope. -/
def idempotencyKey (b : MutationBatch) : String := b.envelope.idempotencyKey

def servingPrincipal (b : MutationBatch) : String := b.envelope.servingPrincipal

def isMaintenance (b : MutationBatch) : Bool := b.envelope.isMaintenance

def route (b : MutationBatch) : ℕ × ℕ := (b.placementEpoch, b.fencingToken.getD 0)

end MutationBatch

/-! ### Validation -/

/-- Unicode `White_Space`, as Rust's `trim` reads it. -/
def isWhitespace (c : Char) : Bool :=
  let n := c.toNat
  (9 ≤ n && n ≤ 13) || n = 32 || n = 0x85 || n = 0xA0 || n = 0x1680 ||
    (0x2000 ≤ n && n ≤ 0x200A) || n = 0x2028 || n = 0x2029 || n = 0x202F || n = 0x205F || n = 0x3000

/-- Unicode `Cc`, as Rust's `char::is_control` reads it. -/
def isControl (c : Char) : Bool :=
  let n := c.toNat
  n < 32 || (0x7F ≤ n && n ≤ 0x9F)

/-- Whether `trim` would change the text. -/
def isPadded (s : String) : Bool :=
  (s.toList.head?.any isWhitespace) || (s.toList.getLast?.any isWhitespace)

instance decidableIsPadded (s : String) (b : Bool) : Decidable (isPadded s = b) :=
  decidable_of_iff (((chars s).head?.any isWhitespace || (chars s).getLast?.any isWhitespace) = b)
    (by rw [chars_eq, isPadded])

/-- A key text is present, unpadded and free of control characters. -/
def validateRequired (value label : String) : Except String Unit :=
  require (value ≠ "" ∧ isPadded value = false ∧ value.toList.any isControl = false)
    (label ++ " is invalid")

def isLowerHex (c : Char) : Bool := ('0' ≤ c && c ≤ '9') || ('a' ≤ c && c ≤ 'f')

/-- Rust `str::strip_prefix`, on the characters of a text. -/
def afterPrefix (p s : String) : Option (List Char) :=
  if p.toList.isPrefixOf s.toList then some (s.toList.drop p.toList.length) else none

instance decidableAfterPrefix (p s : String) (f : List Char → Bool) (b : Bool) :
    Decidable ((afterPrefix p s).any f = b) :=
  decidable_of_iff ((if (chars p).isPrefixOf (chars s) then some ((chars s).drop (chars p).length)
    else none).any f = b) (by rw [chars_eq, chars_eq, afterPrefix])

def validateServingPrincipal (principal : String) : Except String Unit :=
  require ((afterPrefix "principal:sha256:" principal).any
      fun digest => digest.length = 64 && digest.all isLowerHex)
    "mutation principal authority must be an opaque digest"

def repositoryEnrichmentTopUpKind : String := "repository_enrichment_top_up"

def repositoryEnrichmentPendingTopic : String := "repository.enrichment.pending"

def validTopUpSubject (subject : String) : Bool :=
  (afterPrefix "outbox-replacement:" subject).any fun d => d.length = 64 && d.all isLowerHex

namespace MutationBatch

/-- The reserved zero-operation parent of a replacement intent. -/
def isRepositoryEnrichmentTopUp (b : MutationBatch) : Bool :=
  match b.envelope, b.identity.scope, b.versionExpectation, b.outbox with
  | .maintenance e, .graph _, .graph _, [intent] =>
    b.operations.isEmpty && b.authoritativeState.isNone && (0 < b.placementEpoch) &&
      b.fencingToken.isSome && (e.kind = repositoryEnrichmentTopUpKind) &&
      validTopUpSubject e.subject && (intent.topic = repositoryEnrichmentPendingTopic) &&
      (intent.key = b.batchId) && intent.headers.isEmpty
  | _, _, _, _ => false

def validateOperation (scope : MutationScope) (expected : ℕ) (o : MutationOperation) :
    Except String Unit := do
  require (o.ordinal = expected)
    ("mutation operation ordinal " ++ toString o.ordinal ++ " is not contiguous at index " ++
      toString expected)
  match scope with
  | .graph _ =>
    require (o.domain.forbiddenInGraphScope = false)
      "graph mutation scope contains a store-authoritative operation"
  | .native domain _ =>
    require (o.domain = domain) "native mutation scope domain does not match its operation"

def validateOperationsFrom (scope : MutationScope) : ℕ → List MutationOperation → Except String Unit
  | _, [] => .ok ()
  | n, o :: os => do
    validateOperation scope n o
    validateOperationsFrom scope (n + 1) os

/-- Operations are present and contiguous, and their domains fit the scope. -/
def validateOperations (b : MutationBatch) : Except String Unit :=
  if b.operations.isEmpty then
    require (b.isRepositoryEnrichmentTopUp = true)
      "mutation batch must contain at least one operation"
  else validateOperationsFrom b.identity.scope 0 b.operations

def validateVersionExpectation (b : MutationBatch) : Except String Unit :=
  match b.identity.scope, b.versionExpectation with
  | .graph _, .graph _ => .ok ()
  | .native _ _, .native _ => .ok ()
  | .native domain _, .unversioned =>
    require (b.identity.tenant = reservedSystemTenant ∧
        (domain = .controlPlane ∨ domain = .lifecycle) ∧
        (b.envelope.operation?.any fun e =>
          e.verifiedCapabilities.contains .unversionedSystemMutation) = true)
      ("unversioned mutation requires reserved-system tenant, control-plane/lifecycle scope, " ++
        "and verified capability")
  | _, _ => .error "mutation version expectation does not match its typed scope"

/-- A staged graph image names its own version step. -/
def validateAuthoritativeState (b : MutationBatch) : Except String Unit :=
  match b.authoritativeState with
  | none => .ok ()
  | some state => do
    require ((state.algorithm = "sha256" ∨ state.algorithm = "sha256-row-delta-v2" ∨
        state.algorithm = "sha256-row-delta-schema-sources") ∧
        state.digest.toList.length = 64 ∧ state.digest.toList.all isLowerHex = true)
      "authoritative state requires a supported lowercase sha256 descriptor"
    let expectedTarget ← okOr (checkedAdd u64Max state.sourceGraphVersion 1)
      "authoritative state source version overflow"
    require (state.targetGraphVersion = expectedTarget)
      "authoritative state target version must be exactly source version plus one"
    require (b.versionExpectation = .graph state.sourceGraphVersion)
      "authoritative graph state source version must equal graph version expectation"

def validateOutbox : List MutationOutboxIntent → Except String Unit
  | [] => .ok ()
  | intent :: rest => do
    validateRequired intent.topic "mutation outbox topic"
    validateRequired intent.key "mutation outbox key"
    validateOutbox rest

def validatePlacement (b : MutationBatch) : Except String Unit :=
  require (0 < b.placementEpoch → b.fencingToken.isSome = true)
    "placed mutation requires a fencing token"

def validate (b : MutationBatch) : Except String Unit := do
  validateServingPrincipal b.servingPrincipal
  validateRequired b.batchId "mutation batch_id"
  validateRequired b.idempotencyKey "mutation idempotency_key"
  b.validateOperations
  b.validateVersionExpectation
  b.validateAuthoritativeState
  validateOutbox b.outbox
  b.validatePlacement

end MutationBatch

/-! ### Write budget -/

/-- Most operations, intents or headers one batch may carry. -/
def maxMutationOperations : ℕ := 100000

def maxMutationWriteBytes : ℕ := 67108864

def accountWriteBytes (total added : ℕ) : Except String ℕ :=
  if total + added ≤ maxMutationWriteBytes then .ok (total + added)
  else .error "mutation write exceeds its byte budget"

def accountAll : ℕ → List ℕ → Except String ℕ
  | total, [] => .ok total
  | total, n :: ns => do
    let total ← accountWriteBytes total n
    accountAll total ns

def accountIntents : ℕ → ℕ → List MutationOutboxIntent → Except String ℕ
  | bytes, _, [] => .ok bytes
  | bytes, headers, intent :: rest => do
    let bytes ← accountAll bytes
      [intent.topic.utf8ByteSize, intent.key.utf8ByteSize, intent.payload.length]
    require (headers + intent.headers.length ≤ maxMutationOperations)
      "mutation write exceeds its header budget"
    let bytes ← accountAll bytes
      (intent.headers.flatMap fun h => [h.1.utf8ByteSize, h.2.utf8ByteSize])
    accountIntents bytes (headers + intent.headers.length) rest

/-- Bound the collections and the directly owned bytes before anything is encoded. -/
def MutationBatch.validateWriteBudget (b : MutationBatch) : Except String Unit := do
  b.validate
  require (b.operations.length ≤ maxMutationOperations ∧ b.outbox.length ≤ maxMutationOperations)
    "mutation write exceeds its collection budget"
  let bytes ← accountAll 0
    [b.batchId.utf8ByteSize, b.idempotencyKey.utf8ByteSize, b.servingPrincipal.utf8ByteSize]
  let bytes ← accountAll bytes (b.envelope.operation?.toList.map fun e => e.actor.utf8ByteSize)
  let bytes ← match b.authoritativeState with
    | some state => accountAll bytes [state.algorithm.utf8ByteSize, state.digest.utf8ByteSize]
    | none => .ok bytes
  let _ ← accountIntents bytes 0 b.outbox
  return ()

end Medulla.Types.Batch
