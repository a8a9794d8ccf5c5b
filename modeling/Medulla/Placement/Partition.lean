import Medulla.Library.Checked
import Medulla.Library.OrderedTable
import Mathlib.Data.Prod.Lex

/-! # Virtual partitions and the journal of a move

A partition is a tenant with an inclusive range of the hash space; its placement row says which group
owns it, at which routing epoch, and whether it is moving. -/

namespace Medulla.Placement.Partition

open Library.Checked

/-! ### Keys and entries -/

/-- A range of a tenant's hashes. -/
structure PartitionKey where
  tenant : String
  rangeStart : ℕ
  rangeEnd : ℕ
  deriving DecidableEq

/-- The components of a key, in the order the rows are scanned. -/
def PartitionKey.parts (k : PartitionKey) : Lex (String × Lex (ℕ × ℕ)) :=
  toLex (k.tenant, toLex (k.rangeStart, k.rangeEnd))

theorem PartitionKey.parts_injective : Function.Injective PartitionKey.parts := by
  intro p q h
  cases p
  cases q
  simpa [PartitionKey.parts] using h

instance : LinearOrder PartitionKey :=
  LinearOrder.lift' PartitionKey.parts PartitionKey.parts_injective

namespace PartitionKey

/-- All hashes of a tenant. -/
def whole (tenant : String) : PartitionKey := ⟨tenant, 0, u64Max⟩

/-- A hash lies in the range. -/
def contains (k : PartitionKey) (h : ℕ) : Bool := k.rangeStart ≤ h && h ≤ k.rangeEnd

theorem contains_iff {k : PartitionKey} {h : ℕ} :
    k.contains h ↔ k.rangeStart ≤ h ∧ h ≤ k.rangeEnd := by
  simp [contains]

theorem whole_contains {tenant : String} {h : ℕ} : (whole tenant).contains h ↔ h ≤ u64Max := by
  simp only [contains_iff, whole, Nat.zero_le, true_and]

end PartitionKey

/-- Whether a partition is served or moves. -/
inductive PartitionState
  | active
  | moving (target : ℕ)
  deriving DecidableEq

/-- What a placement row says about its partition. -/
structure Owner where
  group : ℕ
  epoch : ℕ
  state : PartitionState
  deriving DecidableEq

/-- A row of the catalog. -/
structure PlacementEntry extends Owner where
  key : PartitionKey

/-! ### The journal of a move -/

/-- The stages of a move. -/
inductive MoveStage
  | planned
  | moving
  | transferring
  | readyForCutover
  | cutoverCommitted
  | aborting
  | completed
  | aborted
  deriving DecidableEq

/-- The move is over. -/
def MoveStage.terminal : MoveStage → Bool
  | .completed | .aborted => true
  | _ => false

/-- The durable record of a move. -/
structure PartitionMoveJournal where
  moveId : String
  key : PartitionKey
  source : ℕ
  target : ℕ
  originalEpoch : ℕ
  graphs : List String
  completedGraphs : List String
  stage : MoveStage
  deriving DecidableEq

def maxPartitionMoveGraphs : ℕ := 16384

def maxPartitionMoveGraphBytes : ℕ := 4 * 1024 * 1024

def maxPartitionMoveGraphNameBytes : ℕ := 4096

/-- The graphs of a move are not too many. -/
def graphInventoryIsWithinLimits (graphs : List String) : Bool :=
  graphs.length ≤ maxPartitionMoveGraphs &&
    (graphs.map String.utf8ByteSize).sum ≤ maxPartitionMoveGraphBytes

def graphNamesAreValid (graphs : List String) : Bool :=
  graphs.all fun graph => graph ≠ "" && graph.utf8ByteSize ≤ maxPartitionMoveGraphNameBytes

def isSortedUnique : List String → Bool
  | a :: b :: rest => a < b && isSortedUnique (b :: rest)
  | _ => true

/-- Both inventories are strictly sorted, and what is completed was planned. -/
def completedGraphsAreValid (journal : PartitionMoveJournal) : Bool :=
  isSortedUnique journal.graphs && isSortedUnique journal.completedGraphs &&
    journal.completedGraphs.all fun graph => journal.graphs.contains graph

def noGraphCompleted (journal : PartitionMoveJournal) : Bool := journal.completedGraphs.isEmpty

def everyGraphCompleted (journal : PartitionMoveJournal) : Bool :=
  journal.completedGraphs = journal.graphs

/-- The graphs transferred fit the stage. -/
def progressMatchesStage (journal : PartitionMoveJournal) : Bool :=
  match journal.stage with
  | .planned | .moving => noGraphCompleted journal
  | .readyForCutover | .cutoverCommitted | .completed => everyGraphCompleted journal
  | .transferring | .aborting | .aborted => true

/-- A number as eight bytes, the highest first. -/
def toBeBytes (n : ℕ) : List UInt8 := (List.range 8).reverse.map fun i => UInt8.ofNat (n / 256 ^ i)

def utf8Bytes (s : String) : List UInt8 := s.toList.flatMap String.utf8EncodeChar

/-- The id of a move: the digest of its partition, the epoch it started at, its target and its graphs.
The graphs stand behind their lengths, the tenant does not. -/
def partitionMoveId (sha256 : List UInt8 → String) (key : PartitionKey) (originalEpoch target : ℕ)
    (graphs : List String) : String :=
  sha256 (utf8Bytes "medulla/partition-move/v1\x00" ++ utf8Bytes key.tenant ++
    toBeBytes key.rangeStart ++ toBeBytes key.rangeEnd ++ toBeBytes originalEpoch ++
    toBeBytes target ++
    graphs.flatMap fun graph => toBeBytes graph.utf8ByteSize ++ utf8Bytes graph)

section
variable (sha256 : List UInt8 → String)

def insertName (name : String) : List String → List String
  | [] => [name]
  | a :: rest =>
    if name < a then name :: a :: rest
    else if name = a then a :: rest
    else a :: insertName name rest

/-- Names sorted, each once. -/
def sortDedup (names : List String) : List String := names.foldr insertName []

/-- Plans a move of an active partition. -/
def PartitionMoveJournal.new (entry : PlacementEntry) (target : ℕ) (graphs : List String) :
    Except String PartitionMoveJournal := do
  rejectIf (entry.group = target ∨ entry.state ≠ .active)
    "partition move requires an active source and a distinct target"
  rejectIf (graphInventoryIsWithinLimits graphs = false)
    "partition move graph inventory exceeds the limit"
  rejectIf (graphNamesAreValid (sortDedup graphs) = false)
    "partition move graph inventory is invalid"
  pure
    { moveId := partitionMoveId sha256 entry.key entry.epoch target (sortDedup graphs)
      key := entry.key
      source := entry.group
      target := target
      originalEpoch := entry.epoch
      graphs := sortDedup graphs
      completedGraphs := []
      stage := .planned }

/-- A journal is consistent with itself. -/
def PartitionMoveJournal.validate (journal : PartitionMoveJournal) : Bool :=
  journal.moveId =
      partitionMoveId sha256 journal.key journal.originalEpoch journal.target journal.graphs &&
    journal.key.rangeStart ≤ journal.key.rangeEnd &&
    journal.source ≠ journal.target &&
    graphInventoryIsWithinLimits journal.graphs &&
    graphNamesAreValid journal.graphs &&
    completedGraphsAreValid journal &&
    progressMatchesStage journal

/-- Two records of one move. -/
def sameMoveIdentity (current next : PartitionMoveJournal) : Bool :=
  current.moveId = next.moveId && current.key = next.key && current.source = next.source &&
    current.target = next.target && current.originalEpoch = next.originalEpoch &&
    current.graphs = next.graphs

def retainsCompletedGraphs (current next : PartitionMoveJournal) : Bool :=
  current.completedGraphs.all fun graph => next.completedGraphs.contains graph

/-- **The table of stage changes.** -/
def stageStepIsPermitted : MoveStage → MoveStage → Bool
  | .planned, .planned | .planned, .moving | .planned, .transferring | .planned, .aborting => true
  | .moving, .moving | .moving, .transferring | .moving, .aborting => true
  | .transferring, .transferring | .transferring, .readyForCutover
  | .transferring, .aborting => true
  | .readyForCutover, .readyForCutover | .readyForCutover, .cutoverCommitted
  | .readyForCutover, .aborting => true
  | .cutoverCommitted, .cutoverCommitted | .cutoverCommitted, .completed => true
  | .aborting, .aborting | .aborting, .cutoverCommitted | .aborting, .aborted => true
  | .completed, .completed => true
  | .aborted, .aborted => true
  | _, _ => false

/-- A journal may be replaced by `next`: a later record of the same move, or a new start of an aborted
one. -/
def PartitionMoveJournal.permitsSuccessor (journal next : PartitionMoveJournal) : Bool :=
  next.validate sha256 && sameMoveIdentity journal next &&
    ((journal.stage = .aborted && next.stage = .planned) ||
      (retainsCompletedGraphs journal next && stageStepIsPermitted journal.stage next.stage))

end

/-! ### Fences -/

/-- How a catalog row stands to a journal. -/
structure PlacementFence where
  activeSource : Bool
  movingSource : Bool
  activeTarget : Bool

def PlacementFence.observe (entry : PlacementEntry) (journal : PartitionMoveJournal) :
    PlacementFence :=
  let onSource := entry.group = journal.source ∧ entry.epoch = journal.originalEpoch
  { activeSource := onSource ∧ entry.state = .active
    movingSource := onSource ∧ entry.state = .moving journal.target
    activeTarget := entry.group = journal.target ∧ entry.epoch > journal.originalEpoch ∧
      entry.state = .active }

def PlacementFence.sourceRoute (fence : PlacementFence) : Bool :=
  fence.activeSource || fence.movingSource

/-- The stage of a move fits its row. -/
def stageMatchesFence (stage : MoveStage) (fence : PlacementFence) : Bool :=
  match stage with
  | .planned => fence.sourceRoute
  | .moving | .transferring => fence.movingSource
  | .readyForCutover => fence.movingSource || fence.activeTarget
  | .cutoverCommitted => fence.activeTarget
  | .aborting => fence.sourceRoute || fence.activeTarget
  | .completed | .aborted => false

/-- Each unfinished journal claims a partition of its own, and agrees with that partition's row. -/
def validateActiveJournals (entries : List PlacementEntry) :
    List PartitionKey → List PartitionMoveJournal → Except String Unit
  | _, [] => .ok ()
  | claimed, journal :: rest => do
    rejectIf (journal.key ∈ claimed) "multiple active move journals claim one partition"
    let entry ← okOr (entries.find? fun entry => entry.key = journal.key)
      "active move journal has no placement entry"
    rejectIf (stageMatchesFence journal.stage (.observe entry journal) = false)
      "move journal and placement fence disagree"
    validateActiveJournals entries (journal.key :: claimed) rest

def drivesMovingEntry (journal : PartitionMoveJournal) (entry : PlacementEntry) (target : ℕ) :
    Bool :=
  journal.key = entry.key && journal.source = entry.group && journal.target = target &&
    journal.originalEpoch = entry.epoch

/-- A moving row has exactly one unfinished journal; an active row needs none. -/
def movingPartitionIsDriven (active : List PartitionMoveJournal) (entry : PlacementEntry) : Bool :=
  match entry.state with
  | .active => true
  | .moving target => active.countP (fun journal => drivesMovingEntry journal entry target) = 1

/-- Every moving row has a journal that drives it. -/
def validateMovingPartitions (entries : List PlacementEntry)
    (active : List PartitionMoveJournal) : Except String Unit :=
  rejectIf (entries.all (movingPartitionIsDriven active) = false)
    "moving partition has no unique durable recovery journal"

end Medulla.Placement.Partition
