import Mathlib.Data.Prod.Lex
import Medulla.Lane.Holds

/-! # Quota of development lanes

A policy bounds four metrics in each of the seven scopes. The scopes of a hold are counter rows under
their own keys, changed together by the charge of the hold: a counter row is read through its bounds
and its policy revision, and written as it is. -/

namespace Medulla.Lane.Quota

open Library.Checked Library.OrderedTable Holds

/-! ### Policies -/

/-- The limits of a tenant, or of all tenants together. -/
structure Policy where
  policyName : String
  policyVersion : String
  countLimit : PerScope
  predictedLimit : PerScope
  observedLimit : PerScope
  retainedLimit : PerScope
  minTtl : ℕ
  maxTtl : ℕ
  maxObservationStaleness : ℕ
  drainOnly : Bool

/-- The limit of a metric in a scope. -/
def policyLimit (policy : Policy) (scope : Scope) : Metric → ℕ
  | .count => policy.countLimit.get scope
  | .predicted => policy.predictedLimit.get scope
  | .observed => policy.observedLimit.get scope
  | .retained => policy.retainedLimit.get scope

def policyTtlBounded (policy : Policy) : Bool :=
  policy.minTtl ≠ 0 && policy.minTtl ≤ policy.maxTtl && policy.maxTtl ≤ Holds.maxTtl &&
    policy.maxObservationStaleness ≤ Holds.maxTtl

/-- A policy within the native bounds. -/
def policyValidate (policy : Policy) : Except Decision Unit := do
  text policy.policyName
  text policy.policyVersion
  rejectIf (policyTtlBounded policy = false ∨ policy.countLimit.toList.all fenceCounter = false ∨
    (policy.predictedLimit.toList ++ policy.observedLimit.toList ++ policy.retainedLimit.toList).all
      (fun n => 1 ≤ n && n ≤ maxDiskBytes) = false) .invalid

/-- A stored policy with its revisions. -/
structure DurablePolicy where
  policy : Policy
  policyRevision : ℕ
  globalPolicyRevision : ℕ

def durablePolicyBounds (row : DurablePolicy) : Except String Unit := do
  failing "stored development lane policy: " (policyValidate row.policy)
  rejectIf (fenceCounter row.policyRevision = false ∨ fenceCounter row.globalPolicyRevision = false)
    "stored development lane policy revision is invalid"

abbrev Policies := Table String DurablePolicy

/-- Reads a tenant's policy and checks its bounds. -/
def loadPolicy (policies : Policies) (tenant : String) : Except String (Option DurablePolicy) :=
  match policies.get tenant with
  | none => .ok none
  | some row => do
    durablePolicyBounds row
    return some row

/-- Reads the policy over all tenants. -/
def loadGlobalPolicy (policies : Policies) : Except String (Option DurablePolicy) :=
  loadPolicy policies globalPolicyKey

/-- The controls of the graph as a whole agree. -/
def globalPolicyEqual (left right : Policy) : Bool :=
  left.countLimit.global = right.countLimit.global &&
    left.predictedLimit.global = right.predictedLimit.global &&
    left.observedLimit.global = right.observedLimit.global &&
    left.retainedLimit.global = right.retainedLimit.global && left.minTtl = right.minTtl &&
    left.maxTtl = right.maxTtl &&
    left.maxObservationStaleness = right.maxObservationStaleness &&
    left.drainOnly = right.drainOnly

/-! ### Counters -/

/-- What the holds of one scope value are charged. -/
structure Counter where
  activeCount : ℕ := 0
  predictedDiskBytes : ℕ := 0
  observedDiskBytes : ℕ := 0
  retainedDiskBytes : ℕ := 0
  revision : ℕ := 0
  policyRevision : ℕ := 0
  globalPolicyRevision : ℕ := 0

def Counter.get (counter : Counter) : Metric → ℕ
  | .count => counter.activeCount
  | .predicted => counter.predictedDiskBytes
  | .observed => counter.observedDiskBytes
  | .retained => counter.retainedDiskBytes

/-- The bounds of a stored counter. -/
def durableCounterBounds (value : Counter) : Except String Unit :=
  rejectIf (maxCount < value.activeCount ∨ maxDiskBytes < value.predictedDiskBytes ∨
      maxDiskBytes < value.observedDiskBytes ∨ maxDiskBytes < value.retainedDiskBytes ∨
      maxCount < value.revision ∨ maxCount < value.policyRevision ∨
      maxCount < value.globalPolicyRevision)
    "stored development lane counter exceeds native bounds"

/-- The name and the value of a scope for a hold. -/
def scopeValue (hold : Hold) : Scope → String × String
  | .tenant => ("tenant", hold.tenantRef)
  | .owner => ("owner", hold.ownerId)
  | .session => ("session", hold.sessionId)
  | .workspace => ("workspace", hold.workspaceRef)
  | .repository => ("repository", hold.repositoryId)
  | .host => ("host", hold.hostRef)
  | .global => ("global", "*")

/-- The key of the counter of a scope for a hold. -/
def scopeKey (scope : Scope) (hold : Hold) : String :=
  match scope with
  | .global => "global\x00*"
  | _ => (scopeValue hold scope).1 ++ "\x00" ++ hold.tenantRef ++ "\x00" ++ (scopeValue hold scope).2

abbrev Counters := Table String Counter

/-- A counter loaded for a scope. -/
structure ScopeCounter where
  key : String
  scope : Scope
  value : Counter

/-- The policy revisions a charge is made under. -/
structure Revisions where
  tenant : ℕ
  global : ℕ

/-- A counter is not ahead of the policy it is read under. -/
def checkRevision (scope : Scope) (value : Counter) (revisions : Revisions) : Except String Unit :=
  match scope with
  | .global => rejectIf (revisions.global < value.globalPolicyRevision)
      "development lane global counter has a future global policy revision"
  | _ => rejectIf (revisions.tenant < value.policyRevision)
      "development lane counter has a future policy revision"

/-- Reads a counter, zero if it is absent. -/
def loadCounter (counters : Counters) (key : String) (scope : Scope) (revisions : Revisions) :
    Except String Counter :=
  match counters.get key with
  | none => do
    checkRevision scope {} revisions
    return {}
  | some value => do
    durableCounterBounds value
    checkRevision scope value revisions
    return value

def loadScopes (counters : Counters) (hold : Hold) (revisions : Revisions) :
    List Scope → Except String (List ScopeCounter)
  | [] => .ok []
  | scope :: rest => do
    let value ← loadCounter counters (scopeKey scope hold) scope revisions
    let loaded ← loadScopes counters hold revisions rest
    return ⟨scopeKey scope hold, scope, value⟩ :: loaded

/-- Reads the counters of a hold in all scopes. -/
def loadScopeCounters (counters : Counters) (hold : Hold) (revisions : Revisions) :
    Except String (List ScopeCounter) :=
  loadScopes counters hold revisions scopes

/-! ### Pressure -/

/-- A key of the pressure index: tenant, scope, metric, value and counter. -/
abbrev PressureKey := String ×ₗ String ×ₗ String ×ₗ ℕ ×ₗ String

abbrev Pressure := Table PressureKey Unit

def pressureScopeName : Scope → Option String
  | .owner => some "owner"
  | .session => some "session"
  | .workspace => some "workspace"
  | .repository => some "repository"
  | .host => some "host"
  | .tenant => none
  | .global => none

def pressureMetricName : Metric → String
  | .count => "count"
  | .predicted => "predicted"
  | .observed => "observed"
  | .retained => "retained"

/-- The key that orders the counters of a scope and metric by value. -/
def pressureKey (tenant scope metric : String) (value : ℕ) (counterKey : String) : PressureKey :=
  toLex (tenant, toLex (scope, toLex (metric, toLex (value, counterKey))))

/-- Put one value of a counter in the place of another; zero has no row. -/
def pressureReplace (tenant : String) (scope : Scope) (metric : Metric) (old new : ℕ)
    (counterKey : String) (pressure : Pressure) : Pressure :=
  match pressureScopeName scope with
  | none => pressure
  | some name =>
    let removed := if 0 < old then
        pressure.remove (pressureKey tenant name (pressureMetricName metric) old counterKey)
      else pressure
    if 0 < new then
      removed.insert (pressureKey tenant name (pressureMetricName metric) new counterKey) ()
    else removed

def pressureValue (tenant scope metric : String) (key : PressureKey) : Option ℕ :=
  let (keyTenant, rest) := ofLex key
  let (keyScope, rest) := ofLex rest
  let (keyMetric, rest) := ofLex rest
  if keyTenant = tenant ∧ keyScope = scope ∧ keyMetric = metric then some (ofLex rest).1 else none

/-- The highest counter of a tenant in a scope. -/
def pressureMax (pressure : Pressure) (tenant : String) (scope : Scope) (metric : Metric) : ℕ :=
  match pressureScopeName scope with
  | none => 0
  | some name =>
    ((pressure.rows.filterMap fun row =>
      pressureValue tenant name (pressureMetricName metric) row.1).getLast?).getD 0

/-! ### Changes -/

/-- Add or take away. -/
structure Delta where
  increase : Bool
  amount : ℕ

/-- Adds or subtracts a charge, within the native bounds. -/
def adjust (value : ℕ) (delta : Option Delta) (name : String) : Except String ℕ :=
  match delta with
  | none => .ok value
  | some ⟨true, amount⟩ =>
    okOr (checkedAdd u64Max value amount) ("development lane " ++ name ++ " counter overflow")
  | some ⟨false, amount⟩ =>
    okOr (checkedSub value amount) ("development lane " ++ name ++ " counter underflow")

/-- What changes in every counter of a hold. -/
structure Charge where
  active : Option Bool := none
  predicted : Option Delta := none
  observed : Option Delta := none
  retained : Option Delta := none

/-- Charges one counter. -/
def chargeCounter (charge : Charge) (revisions : Revisions) (row : ScopeCounter) :
    Except String ScopeCounter := do
  let activeCount ← adjust row.value.activeCount (charge.active.map fun increase => ⟨increase, 1⟩)
    "active_count"
  let predicted ← adjust row.value.predictedDiskBytes charge.predicted "predicted_disk_bytes"
  let observed ← adjust row.value.observedDiskBytes charge.observed "observed_disk_bytes"
  let retained ← adjust row.value.retainedDiskBytes charge.retained "retained_disk_bytes"
  let revision ← okOr (checkedAdd u64Max row.value.revision 1)
    "development lane counter revision overflow"
  return { row with value :=
    { activeCount := activeCount
      predictedDiskBytes := predicted
      observedDiskBytes := observed
      retainedDiskBytes := retained
      revision := revision
      policyRevision := if row.scope = .global then row.value.policyRevision else revisions.tenant
      globalPolicyRevision :=
        if row.scope = .global then revisions.global else row.value.globalPolicyRevision } }

/-- Moves the pressure entries of a counter to its new values. -/
def pressureCounter (tenant : String) (old new : ScopeCounter) (pressure : Pressure) : Pressure :=
  [Metric.count, .predicted, .observed, .retained].foldl (fun index metric =>
    pressureReplace tenant old.scope metric (old.value.get metric) (new.value.get metric) old.key
      index) pressure

/-- The counters and their pressure index. -/
structure Meters where
  counters : Counters
  pressure : Pressure

/-- Charges the loaded counters one after another. -/
def chargeAll (tenant : String) (charge : Charge) (revisions : Revisions) :
    List ScopeCounter → Meters → Except String (List ScopeCounter × Meters)
  | [], meters => .ok ([], meters)
  | row :: rest, meters => do
    let next ← chargeCounter charge revisions row
    let (charged, meters) ← chargeAll tenant charge revisions rest
      { meters with pressure := pressureCounter tenant row next meters.pressure }
    return (next :: charged, meters)

def putCounters : List ScopeCounter → Counters → Counters
  | [], counters => counters
  | row :: rest, counters => putCounters rest (counters.insert row.key row.value)

/-- Charges all counters of a hold and stores them. -/
def applyCounterDelta (tenant : String) (loaded : List ScopeCounter) (charge : Charge)
    (revisions : Revisions) (meters : Meters) : Except String Meters := do
  let (charged, meters) ← chargeAll tenant charge revisions loaded meters
  return { meters with counters := putCounters charged meters.counters }

/-! ### Charges of holds -/

/-- What one hold is charged. -/
def holdCharge (hold : Hold) (revision policyRevision : ℕ) : QuotaCharge :=
  { count := .all (if hold.activeCountCharged then 1 else 0)
    predicted := .all (if hold.activeCountCharged then hold.predictedDiskBytes else 0)
    observed := .all (if hold.activeCountCharged then hold.observedDiskBytes else 0)
    retained := .all hold.retainedDiskBytes
    revision := revision
    policyRevision := policyRevision }

def emptyCharge (policyRevision : ℕ) : QuotaCharge :=
  ⟨.all 0, .all 0, .all 0, .all 0, 0, policyRevision⟩

def snapshotCharge (tenant global : Counter) (policyRevision : ℕ) : QuotaCharge :=
  { count := { tenant := tenant.activeCount, global := global.activeCount }
    predicted := { tenant := tenant.predictedDiskBytes, global := global.predictedDiskBytes }
    observed := { tenant := tenant.observedDiskBytes, global := global.observedDiskBytes }
    retained := { tenant := tenant.retainedDiskBytes, global := global.retainedDiskBytes }
    revision := max tenant.revision global.revision
    policyRevision := policyRevision }

/-! ### Limits -/

/-- One more hold fits into every counter that was read. -/
def reserveCounterCheck (policy : Policy) (predicted : ℕ) : List ScopeCounter → Except Decision Unit
  | [] => .ok ()
  | row :: rest => do
    rejectIf (u64Max < row.value.activeCount + 1 ∨
        u64Max < row.value.predictedDiskBytes + predicted ∨
        policyLimit policy row.scope .count < row.value.activeCount + 1 ∨
        policyLimit policy row.scope .predicted < row.value.predictedDiskBytes + predicted ∨
        policyLimit policy row.scope .observed < row.value.observedDiskBytes ∨
        policyLimit policy row.scope .retained < row.value.retainedDiskBytes) .quota
    reserveCounterCheck policy predicted rest

/-- A counter exceeds its limit. -/
def policyPressure (counters : List ScopeCounter) (policy : Policy) : Bool :=
  counters.any fun row => [Metric.count, .predicted, .observed, .retained].any fun metric =>
    policyLimit policy row.scope metric < row.value.get metric

/-- The highest counter of some scope exceeds its limit. -/
def indexedPolicyPressure (pressure : Pressure) (tenant : String) (policy : Policy) : Bool :=
  [Scope.owner, .session, .workspace, .repository, .host].any fun scope =>
    [Metric.count, .predicted, .observed, .retained].any fun metric =>
      policyLimit policy scope metric < pressureMax pressure tenant scope metric

/-! ### Keys -/

/-- The key of a hold's branch in its tenant. -/
def branchKey (hold : Hold) : String := hold.repositoryId ++ "\x00" ++ hold.branch

/-- The key of a hold's worktree. -/
def worktreeKey (hold : Hold) : String :=
  hold.hostRef ++ "\x00" ++ hold.workspaceRef ++ "\x00" ++ hold.worktreeLocator

/-- The id of the hold of a request. -/
def holdId (sha : String → String) (intent : Intent) : String :=
  "v1:" ++ sha ("development-lane-hold-v1\x00" ++ intent.tenantRef ++ "\x00" ++ intent.requestId)

end Medulla.Lane.Quota
