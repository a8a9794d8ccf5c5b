import Medulla.Library.Resumption
import Medulla.Placement.Catalog

/-! # Moving a partition

A move writes its journal before each of its side effects: planned, moving, transferring (again after each
graph), ready for cutover, cutover committed, completed; an abort writes its intent, gives the row back and
writes that it is done. Journal and row are separate commits, so that a crash can come between any two. At
start-up every unfinished journal is checked against the rows (`validateMoveRecoveryState`) and driven on
(`reconcileMoves`). The calls are programs that read the catalog and commit one command at a time; what
they ask of the node they run on is an `Environment`. -/

namespace Medulla.Placement.Moves

open Library.Checked Library.Resumption Placement.Partition Catalog

/-- A program over the catalog. -/
abbrev Placing := Program PlacementCatalog Command

/-- The node that a call runs on: who leads the placement group, which groups run, which tenants are
prepared, and what storage says of a graph. -/
structure Environment where
  requireLocalGroupLeader : Except String Unit
  requirePlacementLeader : Except String Unit
  running : ℕ → Bool
  consensusTenantIsPrepared : String → Bool
  verifyGraphDurable : String → Except String ℕ
  groupOf : String → ℕ

/-! ### Graph names -/

/-- The tenant and the rest of a graph's name. -/
def splitTenantKey (graphName : String) : String × String :=
  match graphName.toList.span (· ≠ ':') with
  | (_, []) => (graphName, graphName)
  | (tenant, _ :: rest) =>
    if tenant.isEmpty then (graphName, graphName) else (String.ofList tenant, String.ofList rest)

def coversGraph (key : PartitionKey) (graphName : String) : Bool :=
  (splitTenantKey graphName).1 = key.tenant && key.contains (fnv1a (splitTenantKey graphName).2)

/-- The graphs of a partition. -/
def partitionGraphs (registry : List String) (tenant : String) (range : ℕ × ℕ) :
    Except String (List String) := do
  rejectIf (range.1 > range.2) "partition move range is invalid"
  let graphs := sortDedup (registry.filter (coversGraph ⟨tenant, range.1, range.2⟩))
  rejectIf (graphs.length > maxPartitionMoveGraphs)
    "partition move graph inventory exceeds the limit"
  pure graphs

/-- The group that serves a graph. -/
def routeGraph (env : Environment) (c : PlacementCatalog) (graphName : String) : PlacementRoute :=
  c.route (splitTenantKey graphName).1 (splitTenantKey graphName).2 (env.groupOf graphName)

section
variable (sha256 : List UInt8 → String) (env : Environment)

/-! ### Journals -/

/-- A journal that is read must be valid and stand under its own id. -/
def checkedJournal (id : String) (journal : PartitionMoveJournal) :
    Except String PartitionMoveJournal := do
  rejectIf (journal.validate sha256 = false ∨ journal.moveId ≠ id)
    "partition move journal failed its integrity fence"
  pure journal

/-- All journals, if each is valid. -/
def moveJournals (c : PlacementCatalog) : Except String (List PartitionMoveJournal) :=
  c.journals.rows.mapM fun r => checkedJournal sha256 r.1 r.2

def moveJournal (c : PlacementCatalog) (id : String) :
    Except String (Option PartitionMoveJournal) :=
  match c.journals.get id with
  | none => .ok none
  | some journal => (checkedJournal sha256 id journal).map some

/-- **The start-up check**: every unfinished journal agrees with the row of its partition, and every
moving row has exactly one of them. -/
def validateMoveRecoveryState (c : PlacementCatalog) :
    Except String (List PartitionMoveJournal) := do
  let journals ← moveJournals sha256 c
  let active := journals.filter fun journal => !journal.stage.terminal
  validateActiveJournals c.scanAllEntries [] active
  validateMovingPartitions c.scanAllEntries active
  pure active

def permittedBy (journal : PartitionMoveJournal) : Option PartitionMoveJournal → Except String Unit
  | none => .ok ()
  | some current =>
    rejectIf (current.permitsSuccessor sha256 journal = false)
      "partition move journal transition is not monotonic"

/-- Writes a journal that may follow the stored one. -/
def persistMoveJournal (journal : PartitionMoveJournal) : Placing Unit := do
  let current ← .asks fun c => moveJournal sha256 c journal.moveId
  .lift (permittedBy sha256 journal current)
  .lift (rejectIf (journal.validate sha256 = false) "invalid partition move journal")
  let _ ← .perform (.moveJournalMethod journal)
  pure ()

/-! ### Plans -/

def reservePlanEpoch : List Command → Placing Bool
  | [] => pure true
  | step :: rest => do
    let took ← .perform step
    if took then reservePlanEpoch rest else pure false

/-- Commits the methods of a plan one after another. -/
def commitPlanMethods (requireSuccess : Bool) : List Command → Placing Unit
  | [] => pure ()
  | method :: rest => do
    let accepted ← .perform method
    if requireSuccess && !accepted then
      .lift (.error "placement row CAS fence rejected the stale proposal")
    else commitPlanMethods requireSuccess rest

/-- Reserves a plan's epoch and commits its methods. -/
def commitPlacementPlan (plan : PendingWrite) : Placing Bool := do
  let reserved ← reservePlanEpoch (plan.epochAllocation.toList.flatMap reserveSteps)
  if reserved then do
    commitPlanMethods plan.requireSuccess plan.methods
    pure true
  else pure false

def admitPlacementChange (tenant : String) : Except String Unit := do
  rejectIf (env.consensusTenantIsPrepared tenant = true)
    "placement change conflicts with a prepared transaction"
  env.requirePlacementLeader

/-- Marks a partition as moving. -/
def placementStartMove (tenant : String) (range : ℕ × ℕ) (target : ℕ) : Placing Unit := do
  .lift (admitPlacementChange env tenant)
  let plan ← .asks fun c => c.planStartMove tenant range target
  let _ ← commitPlacementPlan plan
  pure ()

def maxPlacementEpochRetries : ℕ := 8

/-- Cuts over, again if another plan took the epoch. -/
def fenceCutoverLoop (tenant : String) (range : ℕ × ℕ) (target : ℕ) : ℕ → Placing ℕ
  | 0 => .lift (.error "placement epoch CAS contention exceeded retry bound")
  | n + 1 => do
    let plan ← .asks fun c => c.planFenceCutover tenant range target
    let committed ← commitPlacementPlan plan
    if committed then pure plan.epoch else fenceCutoverLoop tenant range target n

def placementFenceCutover (tenant : String) (range : ℕ × ℕ) (target : ℕ) : Placing ℕ := do
  .lift (admitPlacementChange env tenant)
  fenceCutoverLoop tenant range target maxPlacementEpochRetries

/-- Gives a moving partition back to its source. -/
def placementAbortMove (tenant : String) (range : ℕ × ℕ) (source target originalEpoch : ℕ) :
    Placing Unit := do
  .lift (admitPlacementChange env tenant)
  let plan ← .asks fun c => c.planAbortMove tenant range source target originalEpoch
  let _ ← commitPlacementPlan plan
  pure ()

/-! ### Driving a move -/

structure ReshardReport where
  graph : String
  fromGroup : ℕ
  toGroup : ℕ
  nodesTransferred : ℕ
  deriving DecidableEq

structure PlacementMoveReport where
  tenant : String
  range : ℕ × ℕ
  target : ℕ
  epoch : ℕ
  graphs : List ReshardReport
  deriving DecidableEq

def keyRange (key : PartitionKey) : ℕ × ℕ := (key.rangeStart, key.rangeEnd)

def partitionEntry (tenant : String) (range : ℕ × ℕ) : Placing PlacementEntry :=
  .asks fun c => okOr (c.partitionEntry tenant range) "partition placement entry not found"

def journalEntry (journal : PartitionMoveJournal) : Placing PlacementEntry :=
  partitionEntry journal.key.tenant (keyRange journal.key)

/-- Checks that one graph may go to its new group. -/
def reshardGraph (graphName : String) (toGroup : ℕ) : Placing ReshardReport := do
  let route ← .asks fun c => .ok (routeGraph env c graphName)
  .lift do
    rejectIf (route.group = toGroup) s!"graph '{graphName}' is already owned by group {toGroup}"
    rejectIf (env.running toGroup = false)
      s!"reshard target group {toGroup} is not running on this node"
    let nodes ← env.verifyGraphDurable graphName
    pure ⟨graphName, route.group, toGroup, nodes⟩

/-- Transfers the graphs of a move that are not yet recorded. -/
def transferGraphs : List String → PartitionMoveJournal → Placing PartitionMoveJournal
  | [], journal => pure journal
  | graph :: rest, journal =>
    if journal.completedGraphs.contains graph then transferGraphs rest journal
    else do
      let _ ← reshardGraph env graph journal.target
      let journal :=
        { journal with completedGraphs := sortDedup (journal.completedGraphs ++ [graph]) }
      persistMoveJournal sha256 journal
      transferGraphs rest journal

def verifyGraphs : List String → Except String (List ℕ)
  | [] => .ok []
  | graph :: rest => do
    let nodes ← env.verifyGraphDurable graph
    let others ← verifyGraphs rest
    pure (nodes :: others)

/-- Transfers all graphs of a move and records that it is ready. -/
def transferMoveGraphs (journal : PartitionMoveJournal) : Placing PartitionMoveJournal := do
  let journal := { journal with stage := .transferring }
  persistMoveJournal sha256 journal
  let journal ← transferGraphs sha256 env journal.graphs journal
  let journal := { journal with stage := .readyForCutover }
  persistMoveJournal sha256 journal
  let _ ← .lift (verifyGraphs env journal.graphs)
  pure journal

/-- Marks the row of a planned move. -/
def startMoveIfActive (journal : PartitionMoveJournal) (entry : PlacementEntry) :
    Placing (PartitionMoveJournal × PlacementEntry) :=
  if (PlacementFence.observe entry journal).activeSource = false then pure (journal, entry)
  else do
    placementStartMove env journal.key.tenant (keyRange journal.key) journal.target
    let journal := { journal with stage := .moving }
    persistMoveJournal sha256 journal
    let entry ← journalEntry journal
    pure (journal, entry)

def reloadReadyForCutover (moveId : String) : Placing PartitionMoveJournal := do
  let journal ← .asks fun c => moveJournal sha256 c moveId
  .lift do
    let journal ← okOr journal "partition move journal disappeared before cutover"
    rejectIf (journal.stage ≠ .readyForCutover) "partition move intent changed before cutover"
    pure journal

/-- Brings a move through its cutover. -/
def cutOverMove (journal : PartitionMoveJournal) (entry : PlacementEntry) :
    Placing (PartitionMoveJournal × ℕ) := do
  .lift (rejectIf (journal.stage = .aborting) "aborting partition move cannot be driven forward")
  let (journal, entry) ← startMoveIfActive sha256 env journal entry
  .lift (rejectIf ((PlacementFence.observe entry journal).movingSource = false)
    "partition move placement no longer matches its journal")
  let journal ← transferMoveGraphs sha256 env journal
  let journal ← reloadReadyForCutover sha256 journal.moveId
  .lift env.requireLocalGroupLeader
  let epoch ← placementFenceCutover env journal.key.tenant (keyRange journal.key) journal.target
  let journal := { journal with stage := .cutoverCommitted }
  persistMoveJournal sha256 journal
  pure (journal, epoch)

def completionReports (journal : PartitionMoveJournal) : Except String (List ReshardReport) := do
  let nodes ← verifyGraphs env journal.graphs
  pure ((journal.graphs.zip nodes).map fun g => ⟨g.1, journal.source, journal.target, g.2⟩)

/-- Verifies the graphs at the target and ends the move. -/
def completeMove (journal : PartitionMoveJournal) (range : ℕ × ℕ) (epoch : ℕ) :
    Placing PlacementMoveReport := do
  let reports ← .lift (completionReports env journal)
  persistMoveJournal sha256 { journal with stage := .completed }
  pure ⟨journal.key.tenant, range, journal.target, epoch, reports⟩

/-- Up to the cutover, or only its record when the row shows that it was committed. -/
def passCutover (journal : PartitionMoveJournal) (entry : PlacementEntry) :
    Placing (PartitionMoveJournal × ℕ) :=
  if (PlacementFence.observe entry journal).activeTarget = true then do
    let journal := { journal with stage := .cutoverCommitted }
    persistMoveJournal sha256 journal
    pure (journal, entry.epoch)
  else cutOverMove sha256 env journal entry

/-- **Drive a move to its end.** -/
def driveMove (journal : PartitionMoveJournal) : Placing PlacementMoveReport := do
  .lift (rejectIf (env.running journal.target = false) "partition move target group is unavailable")
  let entry ← journalEntry journal
  let (journal, epoch) ← passCutover sha256 env journal entry
  completeMove sha256 env journal (keyRange journal.key) epoch

/-! ### Aborting a move -/

def moveIsPostCutover (journal : PartitionMoveJournal) : Placing Bool := do
  let entry ← journalEntry journal
  pure (PlacementFence.observe entry journal).activeTarget

/-- An abort that comes too late ends the move at its target. -/
def reconcileAbortForward (journal : PartitionMoveJournal) : Placing Unit := do
  let journal := { journal with stage := .cutoverCommitted }
  persistMoveJournal sha256 journal
  let _ ← driveMove sha256 env journal
  .lift (.error "partition move passed its rollback fence and was reconciled forward")

/-- Records that the source serves the partition again. -/
def restoreSourceRoute (journal : PartitionMoveJournal) : Placing Unit :=
  persistMoveJournal sha256 { journal with stage := .aborted }

def refuseAbort (journal : PartitionMoveJournal) : Placing Unit :=
  if journal.stage = .aborting then do
    let _ ← driveMove sha256 env journal
    .lift (.error "partition move passed its rollback fence")
  else .lift (.error "partition move passed its rollback fence")

def persistAborting (journal : PartitionMoveJournal) : Placing PartitionMoveJournal :=
  if journal.stage ≠ .aborting then do
    persistMoveJournal sha256 { journal with stage := .aborting }
    pure { journal with stage := .aborting }
  else pure journal

def giveBack (journal : PartitionMoveJournal) (fence : PlacementFence) : Placing Unit :=
  if fence.activeTarget = true then reconcileAbortForward sha256 env journal
  else if fence.movingSource = true then do
    placementAbortMove env journal.key.tenant (keyRange journal.key) journal.source journal.target
      journal.originalEpoch
    restoreSourceRoute sha256 journal
  else if fence.activeSource = false then
    .lift (.error "partition move placement no longer matches its journal")
  else restoreSourceRoute sha256 journal

/-- Aborts a move that is not cut over. -/
def abortMoveUnlocked (journal : PartitionMoveJournal) : Placing Unit := do
  .lift (rejectIf (journal.stage.terminal = true) "partition move is already terminal")
  let post ← moveIsPostCutover journal
  if post then refuseAbort sha256 env journal
  else do
    let journal ← persistAborting sha256 journal
    let entry ← journalEntry journal
    giveBack sha256 env journal (PlacementFence.observe entry journal)

/-! ### The calls -/

/-- Resumes the unfinished move of a partition, or plans one. -/
def chooseJournal (tenant : String) (range : ℕ × ℕ) (target : ℕ) (graphs : List String) :
    Option PartitionMoveJournal → Placing PartitionMoveJournal
  | some journal =>
    if journal.target ≠ target ∨ journal.graphs ≠ graphs then
      .lift (.error "partition already has a different active move plan")
    else pure journal
  | none => do
    let entry ← partitionEntry tenant range
    let journal ← .lift (PartitionMoveJournal.new sha256 entry target graphs)
    persistMoveJournal sha256 journal
    pure journal

/-- **Move a partition to a group.** -/
def movePartition (registry : List String) (tenant : String) (range : ℕ × ℕ) (target : ℕ) :
    Placing PlacementMoveReport := do
  .lift env.requireLocalGroupLeader
  let graphs ← .lift (partitionGraphs registry tenant range)
  let active ← .asks fun c => validateMoveRecoveryState sha256 c
  let journal ← chooseJournal sha256 tenant range target graphs
    (active.find? fun journal => journal.key = ⟨tenant, range.1, range.2⟩)
  driveMove sha256 env journal

/-- **Abort a move**, under the guard of its partition. -/
def abortMove (moveId : String) : Placing Unit := do
  .lift env.requireLocalGroupLeader
  let journal ← .asks fun c => moveJournal sha256 c moveId
  let journal ← .lift (okOr journal "partition move journal not found")
  abortMoveUnlocked sha256 env journal

def reconcileUnfinished (journal : PartitionMoveJournal) : Placing (Option PlacementMoveReport) :=
  if journal.stage = .aborting then do
    let post ← moveIsPostCutover journal
    if post then do
      let report ← driveMove sha256 env journal
      pure (some report)
    else do
      abortMoveUnlocked sha256 env journal
      pure none
  else do
    let report ← driveMove sha256 env journal
    pure (some report)

/-- Resumes one move after a restart. -/
def reconcileMove (moveId : String) : Placing (Option PlacementMoveReport) := do
  let journal ← .asks fun c => moveJournal sha256 c moveId
  let journal ← .lift (okOr journal "partition move journal disappeared during recovery")
  if journal.stage.terminal then pure none
  else reconcileUnfinished sha256 env journal

/-- Resumes the moves one after another. -/
def reconcileListed : List PartitionMoveJournal → Placing (List PlacementMoveReport)
  | [] => pure []
  | listed :: rest => do
    let report ← reconcileMove sha256 env listed.moveId
    let reports ← reconcileListed rest
    pure (report.toList ++ reports)

/-- **Recovery at start-up.** -/
def reconcileMoves : Placing (List PlacementMoveReport) := do
  .lift env.requireLocalGroupLeader
  let listed ← .asks fun c => validateMoveRecoveryState sha256 c
  reconcileListed sha256 env listed

end

end Medulla.Placement.Moves
