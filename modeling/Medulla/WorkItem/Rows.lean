import Medulla.Library.Doubles
import Medulla.Library.OrderedTable
import Medulla.Types.Batch

/-! # WorkItem rows

A WorkItem is a node row of its graph: a property map that the native operations read and write
through named keys. `Row` is that map seen through the keys: a missing or ill-typed property reads
as the empty string or zero, as in the source. `Row` is the view of any node; a WorkItem is a row
whose `node_type` says so. A payload that is not a property map is a node without a view.

Times are milliseconds, but for the two that order the candidates of a claim: a deadline and a time of
creation are doubles of seconds, by their exact value. A row without a lease has the owner `""` and the
expiry `0`. -/

namespace Medulla.WorkItem.Rows

open Library.Checked Library.OrderedTable

variable {id : String}

def isBlank (s : String) : Bool := s.toList.all Types.Batch.isWhitespace

instance decidableIsBlank (s : String) (b : Bool) : Decidable (isBlank s = b) :=
  decidable_of_iff ((Library.Strings.chars s).all Types.Batch.isWhitespace = b)
    (by rw [Library.Strings.chars_eq, isBlank])

/-! ### Status -/

/-- The states of a WorkItem. -/
inductive Status
  | submitted
  | ready
  | leased
  | running
  | succeeded
  | failed
  | cancelled
  | deadLetter
  | completed
  | other (text : String)
  deriving DecidableEq

namespace Status

/-- A worker holds it. -/
def isLive : Status → Bool
  | .leased => true
  | .running => true
  | _ => false

/-- It has ended. -/
def isTerminal : Status → Bool
  | .succeeded => true
  | .failed => true
  | .cancelled => true
  | .deadLetter => true
  | _ => false

end Status

/-! ### Rows -/

/-- A node's property map, through the keys of a WorkItem. `downstreamIds` is `none` when the
property is not an array; `prioBucket` is read as an unsigned number, so a negative one reads as
zero. -/
structure Row where
  nodeType : String := ""
  tenant : String := ""
  kind : String := ""
  queue : String := ""
  status : Status := .other ""
  prioBucket : ℤ := 0
  resourceClass : String := ""
  fairnessGroup : String := ""
  payloadRef : String := ""
  dependsOn : List String := []
  depCount : ℕ := 0
  downstreamIds : Option (List String) := some []
  nextRetryAt : ℕ := 0
  backoffBase : ℕ := 0
  leaseOwner : String := ""
  lastLeaseOwner : String := ""
  leaseEpoch : ℕ := 0
  fencingToken : ℕ := 0
  leaseExpiresAt : ℕ := 0
  workItemFence : String := ""
  attempt : ℕ := 0
  maxAttempts : ℕ := 0
  deferCount : ℕ := 0
  createdAt : ℚ := 0
  updatedAt : ℕ := 0
  completedAt : ℕ := 0
  heartbeatAt : ℕ := 0
  deadline : Option ℚ := none
  resultRef : Option String := none
  errorRef : Option String := none
  cancelReasonRef : Option String := none
  deferReasonRef : Option String := none
  metadata : String := ""
  commandSequence : ℕ := 0
  rowRevision : ℕ := 0
  deriving DecidableEq

namespace Row

def isWorkItem (row : Row) : Bool := row.nodeType = "WorkItem"

/-- How many attempts a row has, at least one. -/
def attemptCeiling (row : Row) : ℕ := max row.maxAttempts 1

/-- The expired lease is put out of reach by a fence above both counters. -/
def nextClaimEpoch (row : Row) : Except String ℕ :=
  okOr (checkedAdd u64Max (max row.leaseEpoch row.fencingToken) 1)
    "ClaimWorkItem lease fence overflow"

/-- A row with its next revision. -/
def revised (row : Row) : Row := { row with rowRevision := saturatingAdd u64Max row.rowRevision 1 }

end Row

theorem isWorkItem_of_nodeType {row row' : Row} (h : row'.nodeType = row.nodeType) :
    row'.isWorkItem = row.isWorkItem := by
  unfold Row.isWorkItem
  rw [h]

/-! ### Seconds -/

/-- A time in milliseconds as a double of seconds. -/
def seconds (now : ℕ) : ℚ := Library.Doubles.nearest (Library.Doubles.nearest now / 1000)

/-- **The milliseconds of a double of seconds**: the rounded product, truncated and saturating. -/
def millis (time : ℚ) : ℕ := Library.Doubles.toU64 (Library.Doubles.nearest (time * 1000))

/-! ### Leases -/

/-- A lease, by its owner, epoch and token. -/
structure Lease where
  owner : String
  epoch : ℕ
  token : ℕ
  deriving DecidableEq

def Row.fences (row : Row) : Lease := ⟨row.leaseOwner, row.leaseEpoch, row.fencingToken⟩

/-- The lease of a live row. -/
def Row.lease? (row : Row) : Option Lease := if row.status.isLive then some row.fences else none

/-- The lease is the stored one and has not run out. -/
def Row.leaseIsValid (row : Row) (lease : Lease) (now : ℕ) : Bool :=
  row.leaseOwner = lease.owner && row.status.isLive && row.leaseEpoch = lease.epoch &&
    row.fencingToken = lease.token && now ≤ row.leaseExpiresAt

theorem Row.leaseIsValid_iff {row : Row} {lease : Lease} {now : ℕ} :
    row.leaseIsValid lease now = true ↔ row.lease? = some lease ∧ now ≤ row.leaseExpiresAt := by
  unfold Row.leaseIsValid Row.lease? Row.fences
  cases hlive : row.status.isLive with
  | false => simp
  | true =>
    obtain ⟨owner, epoch, token⟩ := lease
    simp
    tauto

/-! ### The graph -/

/-- A graph's nodes; a payload that does not decode is none. -/
structure Graph where
  name : String
  nodes : Table String (Option Row)
  commandSequence : ℕ

namespace Graph

/-- Writes a payload. -/
def put (g : Graph) (id : String) (payload : Option Row) : Graph :=
  { g with nodes := g.nodes.insert id payload }

/-- Writes a row under its next revision. -/
def write (g : Graph) (id : String) (row : Row) : Graph := g.put id (some row.revised)

/-- Reads a row; one that does not decode fails. -/
def load (g : Graph) (id : String) : Except String (Option Row) :=
  match g.nodes.get id with
  | none => .ok none
  | some none => .error "invalid durable payload"
  | some (some row) => .ok (some row)

theorem load_eq_none {g : Graph} : g.load id = .ok none ↔ g.nodes.get id = none := by
  unfold load
  split <;> rename_i h <;> simp [h]

theorem load_eq_some {g : Graph} {row : Row} :
    g.load id = .ok (some row) ↔ g.nodes.get id = some (some row) := by
  unfold load
  split <;> rename_i h <;> simp [h]

@[simp]
theorem get_put_self (g : Graph) (id : String) (payload : Option Row) :
    (g.put id payload).nodes.get id = some payload :=
  Table.get_insert_self _ _ _

theorem get_put_of_ne (g : Graph) {other : String} (payload : Option Row) (h : other ≠ id) :
    (g.put id payload).nodes.get other = g.nodes.get other :=
  Table.get_insert_of_ne _ _ h

@[simp]
theorem get_write_self (g : Graph) (id : String) (row : Row) :
    (g.write id row).nodes.get id = some (some row.revised) :=
  Table.get_insert_self _ _ _

theorem get_write_of_ne (g : Graph) {other : String} (row : Row) (h : other ≠ id) :
    (g.write id row).nodes.get other = g.nodes.get other :=
  Table.get_insert_of_ne _ _ h

end Graph

/-! ### Checks outside the model -/

/-- What the checks of other subsystems answer to one call: the conversation order of a submission, the
bindings of an outcome, and the development-lane hold of the item. An answer is a refusal or nothing. -/
structure Answers where
  conversation : Option String := none
  completion : Option String := none
  extension : Option String := none
  terminalHold : Option String := none

/-- Pass unless a check refused. -/
def answered : Option String → Except String Unit
  | none => .ok ()
  | some refusal => .error refusal

@[simp]
theorem answered_eq_ok {answer : Option String} {u : Unit} :
    answered answer = .ok u ↔ answer = none := by
  cases answer <;> simp [answered]

end Medulla.WorkItem.Rows
