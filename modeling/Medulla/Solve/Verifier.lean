import Medulla.Solve.Programme

/-! # The certificate verifier

The verifier trusts the model and nothing else: it re-checks the incumbent row by row, evaluates
every dual itself with checked arithmetic, walks the proof tree with its own path, and only then
asks whether the claimed status follows. -/

namespace Medulla.Solve.Verifier

open Library.Checked Programme

/-! ### Certificates -/

structure DualEntry where
  row : RowId
  numerator : ℤ

/-- Multipliers of rows over a common denominator. -/
structure LagrangeDual where
  denominator : ℕ
  entries : List DualEntry

/-- Why a leaf of the tree needs no search. -/
inductive LeafProof
  | bound (dual : LagrangeDual)
  | infeasible (dual : LagrangeDual)

/-- A step of the recorded search tree. -/
inductive ProofNode
  | branch (var : VarId) (first : Bool)
  | forced (var : VarId) (value : Bool) (row : RowId)
  | leaf (proof : LeafProof)

/-- The evidence of a certificate: a whole tree, or the root dual alone. -/
inductive BoundProof
  | tree (nodes : List ProofNode)
  | root (dual : LagrangeDual)

/-- What a certificate claims. -/
inductive SolveStatus
  | optimal
  | optimalByDeterministicSearch (nodesExpanded : ℕ)
  | feasibleWithGap (gap : ℤ)
  | infeasible (core : List RowId)
  | infeasibleByDeterministicSearch (nodesExpanded : ℕ)
  | budgetExhausted

/-- A claimed selection with its value. -/
structure Incumbent where
  selected : List Bool
  objective : ObjectiveValue

structure SolverConfig where
  nodeBudget : ℕ
  acceptedGap : ℤ

/-- What a solver hands over. -/
structure Certificate (δ : Type) where
  modelDigest : δ
  config : SolverConfig
  status : SolveStatus
  incumbent : Option Incumbent
  lowerBound : Option ℤ
  proof : BoundProof
  nodesExpanded : ℕ

/-! ### Verdicts -/

/-- What a certificate proves. -/
inductive Verdict
  | provenOptimal (objective : ℤ)
  | provenInfeasible (core : List RowId)
  | provenGap (incumbent lowerBound : ℤ)
  | optimalityRequiresReplay (objective lowerBound : ℤ)
  | infeasibilityRequiresReplay
  | unresolved (incumbent lowerBound : Option ℤ)
  deriving DecidableEq

/-- Why a claimed status does not follow. -/
inductive StatusDefect
  | missingIncumbent
  | unexpectedIncumbent
  | wrongProofKind
  | noBoundLeaf
  | boundBelowIncumbent
  | lowerBoundMismatch
  | lowerBoundAboveProof
  | gapMismatch
  | gapNotAccepted
  | gapAccepted
  | coreMismatch
  | nodeCountMismatch
  deriving DecidableEq

/-- Why a certificate was rejected. -/
inductive VerifyError
  | modelDigestMismatch
  | assignmentLength (expected found : ℕ)
  | rowViolated (row : RowId)
  | objectiveMismatch
  | variableOutOfRange (node : ℕ) (var : VarId)
  | variableAlreadyFixed (node : ℕ) (var : VarId)
  | rowOutOfRange (node : ℕ) (row : RowId)
  | forcedUnjustified (node : ℕ)
  | dualMalformed (node : ℕ)
  | arithmeticOverflow (node : ℕ)
  | leafNotInfeasible (node : ℕ)
  | treeIncomplete
  | trailingNodes (node : ℕ)
  | status (defect : StatusDefect)
  deriving DecidableEq

def orReject {α : Type} (x : Option α) (e : VerifyError) : Except VerifyError α :=
  match x with
  | some a => .ok a
  | none => .error e

/-- Reject the status unless the condition holds. -/
def requireStatus (c : Prop) [Decidable c] (defect : StatusDefect) : Except VerifyError Unit :=
  if c then .ok () else .error (.status defect)

/-! ### Rows -/

/-- The value of a row at a selection. -/
def leftHandSide (row : Row) (selected : List Bool) : ℤ :=
  ((row.terms.filter fun term => selected.getD term.var false).map Term.coefficient).sum

def holds (relation : Relation) (lhs rhs : ℤ) : Bool :=
  match relation with
  | .lessEqual => lhs ≤ rhs
  | .greaterEqual => rhs ≤ lhs
  | .equal => lhs = rhs

def checkRows (selected : List Bool) : ℕ → List Row → Except VerifyError Unit
  | _, [] => .ok ()
  | index, row :: rest =>
    if holds row.relation (leftHandSide row selected) row.rhs then
      checkRows selected (index + 1) rest
    else .error (.rowViolated index)

variable {δ : Type}

/-- A selection meets every row. -/
def checkSelection (model : Model δ) (selected : List Bool) : Except VerifyError Unit :=
  if selected.length ≠ model.variableCount then
    .error (.assignmentLength model.variableCount selected.length)
  else checkRows selected 0 model.rows

/-- One term's part of the least and the greatest left-hand side in reach. -/
def reachTerm (path : List (Option Bool)) (reach : ℤ × ℤ) (term : Term) : ℤ × ℤ :=
  match path.getD term.var none with
  | some true => (reach.1 + term.coefficient, reach.2 + term.coefficient)
  | some false => reach
  | none =>
    if term.coefficient < 0 then (reach.1 + term.coefficient, reach.2)
    else (reach.1, reach.2 + term.coefficient)

/-- No completion of the path meets the row. -/
def unsatisfiable (row : Row) (path : List (Option Bool)) : Bool :=
  let reach := row.terms.foldl (reachTerm path) (0, 0)
  match row.relation with
  | .lessEqual => row.rhs < reach.1
  | .greaterEqual => reach.2 < row.rhs
  | .equal => row.rhs < reach.1 || reach.2 < row.rhs

/-! ### Duals -/

def maxBoundDenominator : ℕ := 2 ^ 16

def maxMultiplier : ℕ := 2 ^ 56

inductive Target
  | objective
  | feasibility

/-- A multiplier has the sign its row allows. -/
def signAllowed : Relation → ℤ → Bool
  | .greaterEqual, multiplier => 0 < multiplier
  | .lessEqual, multiplier => multiplier < 0
  | .equal, multiplier => multiplier ≠ 0

/-- The rows of a dual exist, and its multipliers have an allowed sign and size. -/
def checkEntries (rows : List Row) (node : ℕ) : List DualEntry → Except VerifyError Unit
  | [] => .ok ()
  | entry :: rest => do
    let row ← orReject rows[entry.row]? (.rowOutOfRange node entry.row)
    rejectIf (signAllowed row.relation entry.numerator = false ∨
      maxMultiplier < entry.numerator.natAbs) (VerifyError.dualMalformed node)
    checkEntries rows node rest

/-- Denominator in range; entries strictly ascending by row, in range, with a sign the row allows
and a magnitude within the cap. -/
def checkShape (model : Model δ) (dual : LagrangeDual) (node : ℕ) : Except VerifyError Unit := do
  rejectIf (dual.denominator = 0 ∨ maxBoundDenominator < dual.denominator)
    (VerifyError.dualMalformed node)
  rejectIf (¬ dual.entries.IsChain fun a b => a.row < b.row) (VerifyError.dualMalformed node)
  checkEntries model.rows node dual.entries

def subtractRow (multiplier : ℤ) : List Term → List ℤ → Option (List ℤ)
  | [], reduced => some reduced
  | term :: rest, reduced => do
    let delta ← checkedI128 (multiplier * term.coefficient)
    let slot ← checkedI128 (reduced.getD term.var 0 - delta)
    subtractRow multiplier rest (reduced.set term.var slot)

/-- Apply the multipliers to the right-hand sides and the reduced costs. -/
def applyEntries (rows : List Row) : List DualEntry → List ℤ × ℤ → Option (List ℤ × ℤ)
  | [], acc => some acc
  | entry :: rest, (reduced, scaled) => do
    let row := rows.getD entry.row ⟨[], .equal, 0⟩
    let applied ← checkedI128 (entry.numerator * row.rhs)
    let scaled ← checkedI128 (scaled + applied)
    let reduced ← subtractRow entry.numerator row.terms reduced
    applyEntries rows rest (reduced, scaled)

def contribution (cost : ℤ) : Option Bool → ℤ
  | some true => cost
  | some false => 0
  | none => min cost 0

def initialCosts (model : Model δ) (scale : ℤ) : Target → Option (List ℤ)
  | .objective => model.weights.mapM fun weight => checkedI128 (weight * scale)
  | .feasibility => some (List.replicate model.variableCount 0)

/-- The bound a dual gives on a path, times its denominator. -/
def scaledLagrangian (model : Model δ) (dual : LagrangeDual) (path : List (Option Bool))
    (target : Target) (node : ℕ) : Except VerifyError ℤ := do
  checkShape model dual node
  let value : Option ℤ := do
    let reduced ← initialCosts model dual.denominator target
    let (reduced, scaled) ← applyEntries model.rows dual.entries (reduced, 0)
    ((reduced.zip path).map fun c => contribution c.1 c.2).foldlM
      (fun sum part => checkedI128 (sum + part)) scaled
  orReject value (.arithmeticOverflow node)

/-- The integer bound a dual certifies: the quotient rounded up. -/
def integerBound (scaled : ℤ) (denominator : ℕ) : ℤ :=
  if scaled % denominator = 0 then scaled / denominator else scaled / denominator + 1

/-! ### The proof tree -/

/-- What the leaves seen so far establish. -/
structure Evidence where
  minBound : Option ℤ
  infeasibilityRows : List RowId
  boundLeaves : ℕ

def Evidence.empty : Evidence := ⟨none, [], 0⟩

def Evidence.addBound (e : Evidence) (bound : ℤ) : Evidence :=
  { e with
    boundLeaves := e.boundLeaves + 1
    minBound := some (e.minBound.elim bound fun low => min low bound) }

/-- A branching with one side still to come. -/
structure OpenBranch where
  var : VarId
  second : Bool
  startedSecond : Bool
  depth : ℕ

/-- The walk: the path, the variables fixed on it in order, and the open branches, innermost
first. -/
structure Walker where
  path : List (Option Bool)
  fixed : List VarId
  branches : List OpenBranch
  finished : Bool
  evidence : Evidence

def Walker.start (count : ℕ) : Walker := ⟨List.replicate count none, [], [], false, .empty⟩

namespace Walker

def assign (w : Walker) (index : ℕ) (var : VarId) (value : Bool) : Except VerifyError Walker :=
  match w.path[var]? with
  | none => .error (.variableOutOfRange index var)
  | some (some _) => .error (.variableAlreadyFixed index var)
  | some none => .ok { w with path := w.path.set var (some value), fixed := w.fixed ++ [var] }

/-- A row forces a variable. -/
def forced (w : Walker) (model : Model δ) (index : ℕ) (var : VarId) (value : Bool) (row : RowId) :
    Except VerifyError Walker := do
  let spec ← orReject model.rows[row]? (.rowOutOfRange index row)
  let opposite ← w.assign index var (!value)
  let justified := (spec.coefficientOf var).isSome && unsatisfiable spec opposite.path
  rejectIf (justified = false) (VerifyError.forcedUnjustified index)
  return { opposite with
    path := opposite.path.set var (some value)
    evidence := { opposite.evidence with
      infeasibilityRows := opposite.evidence.infeasibilityRows ++ [row] } }

/-- Checks the proof of a leaf. -/
def leaf (w : Walker) (model : Model δ) (index : ℕ) : LeafProof → Except VerifyError Walker
  | .bound dual => do
    let scaled ← scaledLagrangian model dual w.path .objective index
    return { w with evidence := w.evidence.addBound (integerBound scaled dual.denominator) }
  | .infeasible dual => do
    let scaled ← scaledLagrangian model dual w.path .feasibility index
    rejectIf (scaled ≤ 0) (VerifyError.leafNotInfeasible index)
    return { w with evidence := { w.evidence with
      infeasibilityRows := w.evidence.infeasibilityRows ++ dual.entries.map DualEntry.row } }

def unwind (path : List (Option Bool)) (fixed : List VarId) (depth : ℕ) :
    List (Option Bool) × List VarId :=
  ((fixed.drop depth).foldl (fun path var => path.set var none) path, fixed.take depth)

/-- After a leaf: start the innermost second subtree that has not started, or finish. -/
def closeFrom (path : List (Option Bool)) (fixed : List VarId) (evidence : Evidence) :
    List OpenBranch → Walker
  | [] => ⟨path, fixed, [], true, evidence⟩
  | branch :: rest =>
    let (path, fixed) := unwind path fixed branch.depth
    if branch.startedSecond then closeFrom path fixed evidence rest
    else
      ⟨path.set branch.var (some branch.second), fixed ++ [branch.var],
        { branch with startedSecond := true } :: rest, false, evidence⟩

/-- Goes on at the next open branch. -/
def close (w : Walker) : Walker := closeFrom w.path w.fixed w.evidence w.branches

/-- Checks one node of the tree. -/
def visit (w : Walker) (model : Model δ) (index : ℕ) : ProofNode → Except VerifyError Walker
  | .branch var first => do
    let assigned ← w.assign index var first
    return { assigned with branches := ⟨var, !first, false, w.fixed.length⟩ :: assigned.branches }
  | .forced var value row => w.forced model index var value row
  | .leaf proof => do
    let w ← w.leaf model index proof
    return w.close

end Walker

/-- Visit the nodes in order; none may follow the last leaf. -/
def walkFrom (model : Model δ) : ℕ → List ProofNode → Walker → Except VerifyError Walker
  | _, [], w => .ok w
  | index, node :: rest, w => do
    rejectIf (w.finished = true) (VerifyError.trailingNodes index)
    let w ← w.visit model index node
    walkFrom model (index + 1) rest w

def dedupAdjacent : List RowId → List RowId
  | a :: b :: rest => if a = b then dedupAdjacent (b :: rest) else a :: dedupAdjacent (b :: rest)
  | rows => rows

/-- Check a whole pre-order tree. -/
def walk (model : Model δ) (nodes : List ProofNode) : Except VerifyError Evidence := do
  let w ← walkFrom model 0 nodes (.start model.variableCount)
  rejectIf (w.finished = false) VerifyError.treeIncomplete
  return { w.evidence with
    infeasibilityRows := dedupAdjacent (w.evidence.infeasibilityRows.insertionSort (· ≤ ·)) }

def root (model : Model δ) (dual : LagrangeDual) : Except VerifyError Evidence := do
  let scaled ←
    scaledLagrangian model dual (List.replicate model.variableCount none) .objective 0
  return Evidence.empty.addBound (integerBound scaled dual.denominator)

/-! ### The status -/

/-- What is established independently of the claimed status. -/
structure Verified where
  incumbent : Option ℤ
  evidence : Evidence
  tree : Bool

/-- A claimed bound that the proof supports. -/
def supportedBound (claimed : Option ℤ) (verified : Verified) : Except VerifyError ℤ := do
  let bound ← orReject claimed (.status .lowerBoundMismatch)
  let proven ← orReject verified.evidence.minBound (.status .noBoundLeaf)
  requireStatus (bound ≤ proven) .lowerBoundAboveProof
  return bound

/-- The incumbent meets the bound. -/
def optimal (claimed : Option ℤ) (verified : Verified) : Except VerifyError Verdict := do
  let best ← orReject verified.incumbent (.status .missingIncumbent)
  let proven ← orReject verified.evidence.minBound (.status .noBoundLeaf)
  requireStatus (best ≤ proven) .boundBelowIncumbent
  requireStatus (claimed = some best) .lowerBoundMismatch
  return .provenOptimal best

def optimalBySearch (claimed : Option ℤ) (verified : Verified) : Except VerifyError Verdict := do
  requireStatus (verified.tree = false) .wrongProofKind
  let best ← orReject verified.incumbent (.status .missingIncumbent)
  let bound ← supportedBound claimed verified
  requireStatus (bound ≤ best) .lowerBoundMismatch
  return .optimalityRequiresReplay best bound

/-- The incumbent is within the claimed gap. -/
def withGap (certificate : Certificate δ) (gap : ℤ) (verified : Verified) :
    Except VerifyError Verdict := do
  requireStatus (certificate.nodesExpanded = certificate.config.nodeBudget) .nodeCountMismatch
  let best ← orReject verified.incumbent (.status .missingIncumbent)
  let bound ← supportedBound certificate.lowerBound verified
  requireStatus (0 < gap ∧ checkedI128 (best - bound) = some gap) .gapMismatch
  requireStatus (gap ≤ certificate.config.acceptedGap) .gapNotAccepted
  return .provenGap best bound

def noIncumbentNoBound (claimed : Option ℤ) (verified : Verified) : Except VerifyError Unit := do
  requireStatus (verified.incumbent = none) .unexpectedIncumbent
  requireStatus (claimed = none) .lowerBoundMismatch

/-- The tree closes without a bound, and its rows are the core. -/
def infeasible (claimed : Option ℤ) (core : List RowId) (verified : Verified) :
    Except VerifyError Verdict := do
  noIncumbentNoBound claimed verified
  requireStatus (verified.tree = true) .wrongProofKind
  requireStatus (verified.evidence.boundLeaves = 0) .wrongProofKind
  requireStatus (core = verified.evidence.infeasibilityRows) .coreMismatch
  return .provenInfeasible core

def infeasibleBySearch (claimed : Option ℤ) (verified : Verified) : Except VerifyError Verdict := do
  noIncumbentNoBound claimed verified
  requireStatus (verified.tree = false) .wrongProofKind
  return .infeasibilityRequiresReplay

/-- Greatest signed 128-bit value. -/
def i128Max : ℤ := 2 ^ 127 - 1

def exhaustedBound (claimed : Option ℤ) (verified : Verified) : Except VerifyError (Option ℤ) :=
  match claimed with
  | some _ => do
    let bound ← supportedBound claimed verified
    return some bound
  | none => .ok none

/-- With an incumbent and a bound, the gap must be above the accepted one. -/
def checkExhaustedGap (certificate : Certificate δ) : Option ℤ → Option ℤ → Except VerifyError Unit
  | some best, some bound =>
    requireStatus (certificate.config.acceptedGap < (checkedI128 (best - bound)).getD i128Max)
      .gapAccepted
  | _, _ => .ok ()

/-- The budget ran out. -/
def exhausted (certificate : Certificate δ) (claimed : Option ℤ) (verified : Verified) :
    Except VerifyError Verdict := do
  requireStatus (certificate.nodesExpanded = certificate.config.nodeBudget) .nodeCountMismatch
  let bound ← exhaustedBound claimed verified
  checkExhaustedGap certificate verified.incumbent bound
  return .unresolved verified.incumbent bound

/-- Checks the claimed status against what was verified. -/
def judge (certificate : Certificate δ) (verified : Verified) : Except VerifyError Verdict :=
  match certificate.status with
  | .optimal => optimal certificate.lowerBound verified
  | .optimalByDeterministicSearch nodesExpanded => do
    requireStatus (nodesExpanded = certificate.nodesExpanded) .nodeCountMismatch
    optimalBySearch certificate.lowerBound verified
  | .feasibleWithGap gap => withGap certificate gap verified
  | .infeasible core => infeasible certificate.lowerBound core verified
  | .infeasibleByDeterministicSearch nodesExpanded => do
    requireStatus (nodesExpanded = certificate.nodesExpanded) .nodeCountMismatch
    infeasibleBySearch certificate.lowerBound verified
  | .budgetExhausted => exhausted certificate certificate.lowerBound verified

/-! ### The verifier -/

/-- The claimed selection is feasible and has the claimed value. -/
def checkIncumbent (model : Model δ) (claimed : Incumbent) : Except VerifyError ℤ := do
  checkSelection model claimed.selected
  match model.objectiveValue claimed.selected with
  | some value => if value = claimed.objective then .ok value.scalar else .error .objectiveMismatch
  | none => .error .objectiveMismatch

def proofEvidence (model : Model δ) : BoundProof → Except VerifyError (Evidence × Bool)
  | .tree nodes => do
    let evidence ← walk model nodes
    return (evidence, true)
  | .root dual => do
    let evidence ← root model dual
    return (evidence, false)

def incumbentValue (model : Model δ) : Option Incumbent → Except VerifyError (Option ℤ)
  | some claimed => do
    let value ← checkIncumbent model claimed
    return some value
  | none => return none

/-- Checks a certificate against its model. -/
def verify [DecidableEq δ] (model : Model δ) (certificate : Certificate δ) :
    Except VerifyError Verdict := do
  rejectIf (certificate.modelDigest ≠ model.digest) VerifyError.modelDigestMismatch
  rejectIf (certificate.config.nodeBudget < certificate.nodesExpanded)
    (VerifyError.status .nodeCountMismatch)
  let incumbent ← incumbentValue model certificate.incumbent
  let (evidence, tree) ← proofEvidence model certificate.proof
  judge certificate ⟨incumbent, evidence, tree⟩

end Medulla.Solve.Verifier
