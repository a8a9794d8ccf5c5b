import Medulla.Solve.DualAscent

/-! # Deterministic branch and bound

A depth-first search over an explicit stack of pending nodes, limited by a node budget. -/

namespace Medulla.Solve.BranchAndBound

open Library.Checked Programme Verifier Propagate DualAscent

variable {δ : Type}

/-! ### Configuration -/

def maxNodeBudget : ℕ := 1000000000

def maxCertificateLeaves : ℕ := 2 ^ 20

/-- Why a configuration was refused. -/
inductive ConfigError
  | nodeBudgetOutOfRange (value : ℕ)
  | certificateLeavesOutOfRange (value : ℕ)
  | denominatorOutOfRange (value : ℕ)
  | negativeAcceptedGap
  deriving DecidableEq

/-- The limits of a solve: those the verifier reads, the leaves a certificate may carry and the
denominator of the bounds. -/
structure SolverConfigSpec extends SolverConfig where
  maxCertificateLeaves : ℕ
  boundDenominator : ℕ

/-- The limits of a configuration. -/
def SolverConfigSpec.check (spec : SolverConfigSpec) : Except ConfigError Unit := do
  rejectIf (¬ (1 ≤ spec.nodeBudget ∧ spec.nodeBudget ≤ maxNodeBudget))
    (ConfigError.nodeBudgetOutOfRange spec.nodeBudget)
  rejectIf (¬ (1 ≤ spec.maxCertificateLeaves ∧ spec.maxCertificateLeaves ≤ BranchAndBound.maxCertificateLeaves))
    (ConfigError.certificateLeavesOutOfRange spec.maxCertificateLeaves)
  rejectIf (¬ (1 ≤ spec.boundDenominator ∧ spec.boundDenominator ≤ maxBoundDenominator))
    (ConfigError.denominatorOutOfRange spec.boundDenominator)
  rejectIf (spec.acceptedGap < 0) ConfigError.negativeAcceptedGap

/-! ### The recorder -/

/-- The proof nodes recorded so far, and the least value of a bound leaf. -/
structure Recorder where
  nodes : List ProofNode
  leaves : ℕ
  maxLeaves : ℕ
  overflowed : Bool
  minBound : Option ℤ

namespace Recorder

def new (maxLeaves : ℕ) : Recorder := ⟨[], 0, maxLeaves, false, none⟩

def push (r : Recorder) (node : ProofNode) : Recorder :=
  if r.overflowed then r else { r with nodes := r.nodes ++ [node] }

def leaf (r : Recorder) (proof : LeafProof) : Recorder :=
  let leaves := saturatingAdd u32Max r.leaves 1
  let counted := { r with leaves := leaves }
  (if r.maxLeaves < leaves then { counted with overflowed := true, nodes := [] } else counted).push
    (.leaf proof)

def branch (r : Recorder) (var : VarId) (first : Bool) : Recorder := r.push (.branch var first)

def forced (r : Recorder) (f : Forcing) : Recorder := r.push (.forced f.var f.value f.row)

def boundLeaf (r : Recorder) (dual : LagrangeDual) (value : ℤ) : Recorder :=
  { r with minBound := some (r.minBound.elim value fun current => min current value) }.leaf
    (.bound dual)

def infeasibleNumerator (relation : Relation) (exceeds : Bool) : ℤ :=
  match relation, exceeds with
  | .lessEqual, _ => -1
  | .equal, true => -1
  | .greaterEqual, _ => 1
  | .equal, false => 1

/-- Close a path on a row that no completion satisfies. -/
def infeasibleLeaf (r : Recorder) (relation : Relation) (row : RowId) (exceeds : Bool) : Recorder :=
  r.leaf (.infeasible ⟨1, [⟨row, infeasibleNumerator relation exceeds⟩]⟩)

def intoTree (r : Recorder) : Option (List ProofNode) := if r.overflowed then none else some r.nodes

end Recorder

def nodeRows : ProofNode → List RowId
  | .forced _ _ row => [row]
  | .leaf (.infeasible dual) => dual.entries.map DualEntry.row
  | .leaf (.bound _) => []
  | .branch _ _ => []

/-- The rows a tree uses, each once. -/
def coreRows (nodes : List ProofNode) : List RowId :=
  dedupAdjacent ((nodes.flatMap nodeRows).insertionSort (· ≤ ·))

/-! ### The search -/

/-- A node waiting to be expanded: undo to `trailLen`, then apply `fix`. -/
structure Pending where
  trailLen : ℕ
  fix : Option (VarId × Bool)
  parent : Option NodeBound

/-- The state of the search. -/
structure Search where
  config : SolverConfigSpec
  state : SearchState
  queue : RowQueue
  recorder : Recorder
  incumbent : Option (List Bool × ℤ)
  stack : List Pending
  root : NodeBound
  nodesExpanded : ℕ
  exhausted : Bool

namespace Search

def new (model : Model δ) (config : SolverConfigSpec) : Search where
  config := config
  state := .new model
  queue := .new model.rows.length
  recorder := .new config.maxCertificateLeaves
  incumbent := Propagate.greedy model
  stack := [⟨0, none, none⟩]
  root := dualAscent model (.new model) config.boundDenominator
  nodesExpanded := 0
  exhausted := false

/-- Closes a node the budget does not reach. -/
def closeOpen (s : Search) (node : Pending) : Search :=
  let parent := node.parent.getD s.root
  { s with exhausted := true, recorder := s.recorder.boundLeaf parent.dual parent.value }

def closeInfeasible (model : Model δ) (s : Search) (row : RowId) : Search :=
  let spec := rowAt model row
  let exceeds : Bool := spec.rhs < (s.state.activity row).1
  { s with recorder := s.recorder.infeasibleLeaf spec.relation row exceeds }

/-- A value is better than the incumbent. -/
def improves (s : Search) (value : ℤ) : Bool :=
  match s.incumbent with
  | none => true
  | some (_, best) => value < best

/-- Every row holds: the best completion is the optimum of this subtree. -/
def closeComplete (model : Model δ) (s : Search) : Search :=
  let (selected, value) := completion model s.state
  { s with
    incumbent := if s.improves value then some (selected, value) else s.incumbent
    recorder := s.recorder.boundLeaf ⟨1, []⟩ value }

/-- A bound is no better than the incumbent. -/
def isPruned (s : Search) (value : ℤ) : Bool :=
  match s.incumbent with
  | none => false
  | some (_, best) => best ≤ value

/-- Prunes a node by its bound, or branches. -/
def boundOrBranch (model : Model δ) (s : Search) (var : VarId) (first : Bool) : Search :=
  let bound := dualAscent model s.state s.config.boundDenominator
  if s.isPruned bound.value then
    { s with recorder := s.recorder.boundLeaf bound.dual bound.value }
  else
    let child value : Pending := ⟨s.state.trail.length, some (var, value), some bound⟩
    { s with
      recorder := s.recorder.branch var first
      stack := child first :: child (!first) :: s.stack }

def enter (model : Model δ) (s : Search) (node : Pending) : SearchState × RowQueue :=
  let state := s.state.undoTo model node.trailLen
  match node.fix with
  | some (var, value) => fixAndQueue model state s.queue var value
  | none => (state, s.queue.pushAll)

/-- Propagates a node and decides it. -/
def expand (model : Model δ) (s : Search) (node : Pending) : Search :=
  let entered := s.enter model node
  let (p, infeasible) := propagate model entered.1 entered.2
  let s := { s with
    state := p.state
    queue := p.queue
    recorder := p.forced.foldl Recorder.forced s.recorder }
  match infeasible with
  | some row => s.closeInfeasible model row
  | none =>
    match choose model s.state with
    | .complete => s.closeComplete model
    | .branch var first => s.boundOrBranch model var first

/-- Takes one node from the stack. -/
def step (model : Model δ) (s : Search) (node : Pending) : Search :=
  if s.config.nodeBudget ≤ s.nodesExpanded then s.closeOpen node
  else { s with nodesExpanded := s.nodesExpanded + 1 }.expand model node

/-- Take nodes until none is pending. -/
def runFrom (model : Model δ) : ℕ → Search → Search
  | 0, s => s
  | fuel + 1, s =>
    match s.stack with
    | [] => s
    | node :: rest => runFrom model fuel ({ s with stack := rest }.step model node)

/-- Rounds that are enough: the nodes of a complete binary tree over the variables. -/
def rounds (model : Model δ) : ℕ := 2 ^ (model.variableCount + 1)

def run (model : Model δ) (s : Search) : Search := runFrom model (rounds model) s

end Search

/-! ### The certificate -/

/-- What the search established, reduced to the facts the status depends on. -/
structure Established where
  exhausted : Bool
  incumbent : Option ℤ
  lowerBound : Option ℤ
  treeCore : Option (List RowId)
  nodesExpanded : ℕ
  acceptedGap : ℤ

def completedFeasible (best : ℤ) (e : Established) : SolveStatus × Option ℤ :=
  if e.treeCore.isSome ∨ e.lowerBound.any (fun bound => best ≤ bound) then (.optimal, some best)
  else (.optimalByDeterministicSearch e.nodesExpanded, e.lowerBound)

def completedInfeasible (e : Established) : SolveStatus × Option ℤ :=
  match e.treeCore with
  | some core => (.infeasible core, none)
  | none => (.infeasibleByDeterministicSearch e.nodesExpanded, none)

def exhaustedFeasible (best : ℤ) (e : Established) : SolveStatus × Option ℤ :=
  match e.lowerBound with
  | none => (.budgetExhausted, none)
  | some bound =>
    if best - bound ≤ 0 then (.optimal, some best)
    else if best - bound ≤ e.acceptedGap then (.feasibleWithGap (best - bound), some bound)
    else (.budgetExhausted, some bound)

/-- The status of a finished search. -/
def classify (e : Established) : SolveStatus × Option ℤ :=
  match e.incumbent, e.exhausted with
  | some best, false => completedFeasible best e
  | none, false => completedInfeasible e
  | some best, true => exhaustedFeasible best e
  | none, true => (.budgetExhausted, e.lowerBound)

def Search.established (s : Search) : Established where
  exhausted := s.exhausted
  incumbent := s.incumbent.map Prod.snd
  lowerBound := if s.recorder.intoTree.isSome then s.recorder.minBound else some s.root.value
  treeCore := s.recorder.intoTree.map coreRows
  nodesExpanded := s.nodesExpanded
  acceptedGap := s.config.acceptedGap

/-- The certificate of a finished search. -/
def Search.finish (model : Model δ) (s : Search) : Certificate δ where
  modelDigest := model.digest
  config := s.config.toSolverConfig
  status := (classify s.established).1
  incumbent := s.incumbent.bind fun best =>
    (model.objectiveValue best.1).map fun objective => ⟨best.1, objective⟩
  lowerBound := (classify s.established).2
  proof := match s.recorder.intoTree with
    | some nodes => .tree nodes
    | none => .root s.root.dual
  nodesExpanded := s.nodesExpanded

/-- Solve a model to proven optimality, proven infeasibility or the node budget. -/
def solve (model : Model δ) (config : SolverConfigSpec) : Certificate δ :=
  ((Search.new model config).run model).finish model

end Medulla.Solve.BranchAndBound
