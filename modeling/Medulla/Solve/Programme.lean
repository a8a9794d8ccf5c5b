import Medulla.Library.Checked
import Mathlib.Data.List.Sort
import Medulla.Library.Strings

/-! # Validated 0-1 programmes

A model is built only from a spec that passed validation: every typed constraint is lowered to one
linear row, and the lexicographic objective becomes one integer weight per variable. The digest of
the spec is a parameter: the verifier only compares it. -/

namespace Medulla.Solve.Programme

open Library.Checked

/-! ### The wire form -/

/-- A variable, by its place. -/
abbrev VarId := ℕ

/-- A constraint's position, which is also its row's. -/
abbrev RowId := ℕ

/-- How a row relates its sides. -/
inductive Relation
  | lessEqual
  | greaterEqual
  | equal
  deriving DecidableEq

/-- A variable with its coefficient. -/
structure Term where
  var : VarId
  coefficient : ℤ
  deriving DecidableEq

/-- The kinds of constraint. -/
inductive ConstraintBody
  | linear (terms : List Term) (relation : Relation) (rhs : ℤ)
  | implication (antecedent consequent : VarId)
  | impliesAny (antecedent : VarId) (consequents : List VarId)
  | exactlyOne (vars : List VarId)
  | atMost (vars : List VarId) (k : ℕ)
  | atLeast (vars : List VarId) (k : ℕ)
  | fix (var : VarId) (value : Bool)
  deriving DecidableEq

structure ConstraintSpec where
  label : String
  body : ConstraintBody
  deriving DecidableEq

/-- A coefficient that is known or is not. -/
inductive Coefficient
  | known (value : ℤ)
  | unknown
  deriving DecidableEq

structure ObjectiveTerm where
  var : VarId
  coefficient : Coefficient
  deriving DecidableEq

/-- One level of the objective. -/
structure ObjectiveLevelSpec where
  label : String
  terms : List ObjectiveTerm
  deriving DecidableEq

/-- A 0-1 programme; the first objective level is the most significant. -/
structure ModelSpec where
  names : List String
  constraints : List ConstraintSpec
  objective : List ObjectiveLevelSpec
  deriving DecidableEq

/-! ### Refusals -/

/-- Where in a spec a defect was found. -/
inductive Location
  | name (index : ℕ)
  | constraint (index : ℕ)
  | objectiveLevel (index : ℕ)
  deriving DecidableEq

/-- Why a spec was refused. -/
inductive ModelError
  | noVariables
  | tooManyVariables (count limit : ℕ)
  | tooManyConstraints (count limit : ℕ)
  | tooManyObjectiveLevels (count limit : ℕ)
  | emptyName (var : VarId)
  | duplicateName (var : VarId)
  | labelTooLong (location : Location) (bytes limit : ℕ)
  | unknownVariable (location : Location) (var : VarId)
  | duplicateVariable (location : Location) (var : VarId)
  | zeroCoefficient (location : Location) (var : VarId)
  | coefficientOutOfRange (location : Location) (var : VarId) (value : ℤ)
  | rhsOutOfRange (constraint : ℕ) (value : ℤ)
  | emptyRow (constraint : ℕ)
  | cardinalityOutOfRange (constraint k len : ℕ)
  | selfImplication (constraint : ℕ) (var : VarId)
  | objectiveRangeOverflow
  deriving DecidableEq

/-! ### Validation -/

def maxVariables : ℕ := 4096

def maxConstraints : ℕ := 65536

def maxObjectiveLevels : ℕ := 16

def maxAbsCoefficient : ℕ := 2 ^ 40

def maxAbsRhs : ℕ := 2 ^ 52

def maxLabelBytes : ℕ := 256

def checkSizes (spec : ModelSpec) : Except ModelError Unit :=
  let count := spec.names.length
  if count = 0 then .error .noVariables
  else if maxVariables < count then .error (.tooManyVariables count maxVariables)
  else if maxConstraints < spec.constraints.length then
    .error (.tooManyConstraints spec.constraints.length maxConstraints)
  else if maxObjectiveLevels < spec.objective.length then
    .error (.tooManyObjectiveLevels spec.objective.length maxObjectiveLevels)
  else .ok ()

def checkLabel (location : Location) (label : String) : Except ModelError Unit :=
  if maxLabelBytes < label.utf8ByteSize then
    .error (.labelTooLong location label.utf8ByteSize maxLabelBytes)
  else .ok ()

def checkNamesFrom (names : List String) : Option String → List ℕ → Except ModelError Unit
  | _, [] => .ok ()
  | previous, index :: rest => do
    let name := names.getD index ""
    rejectIf (name.isEmpty = true) (ModelError.emptyName index)
    checkLabel (.name index) name
    rejectIf (previous = some name) (ModelError.duplicateName index)
    checkNamesFrom names (some name) rest

/-- Names are checked in their own order, equal names by position. -/
def checkNames (names : List String) : Except ModelError Unit :=
  let before : ℕ → ℕ → Prop := fun a b =>
    names.getD a "" < names.getD b "" ∨ names.getD a "" = names.getD b "" ∧ a ≤ b
  checkNamesFrom names none ((List.range names.length).insertionSort before)

def firstDuplicate : List VarId → Option VarId
  | a :: b :: rest => if a = b then some a else firstDuplicate (b :: rest)
  | _ => none

def checkVars (location : Location) (vars : List VarId) (count : ℕ) : Except ModelError Unit :=
  match vars.find? fun var => count ≤ var with
  | some var => .error (.unknownVariable location var)
  | none =>
    match firstDuplicate (vars.insertionSort (· ≤ ·)) with
    | some var => .error (.duplicateVariable location var)
    | none => .ok ()

def checkCoefficient (location : Location) (var : VarId) (value : ℤ) : Except ModelError Unit :=
  if maxAbsCoefficient < value.natAbs then .error (.coefficientOutOfRange location var value)
  else .ok ()

/-- The checks of a linear constraint. -/
def checkLinear (index : ℕ) (terms : List Term) (rhs : ℤ) (count : ℕ) : Except ModelError Unit := do
  rejectIf (terms.isEmpty = true) (ModelError.emptyRow index)
  checkVars (.constraint index) (terms.map Term.var) count
  terms.forM fun term => do
    rejectIf (term.coefficient = 0) (ModelError.zeroCoefficient (.constraint index) term.var)
    checkCoefficient (.constraint index) term.var term.coefficient
  rejectIf (maxAbsRhs < rhs.natAbs) (ModelError.rhsOutOfRange index rhs)

/-- A non-empty group without repetition; `k`, when given, is at most its size. -/
def checkGroup (index : ℕ) (vars : List VarId) (k : Option ℕ) (count : ℕ) :
    Except ModelError Unit := do
  rejectIf (vars.isEmpty = true) (ModelError.emptyRow index)
  checkVars (.constraint index) vars count
  match k with
  | some k => rejectIf (vars.length < k) (ModelError.cardinalityOutOfRange index k vars.length)
  | none => pure ()

/-- The checks of an implication. -/
def checkImplication (index : ℕ) (antecedent : VarId) (consequents : List VarId)
    (count : ℕ) : Except ModelError Unit := do
  checkGroup index consequents none count
  checkVars (.constraint index) [antecedent] count
  rejectIf (antecedent ∈ consequents) (ModelError.selfImplication index antecedent)

def checkConstraint (index : ℕ) (constraint : ConstraintSpec) (count : ℕ) :
    Except ModelError Unit := do
  checkLabel (.constraint index) constraint.label
  match constraint.body with
  | .linear terms _ rhs => checkLinear index terms rhs count
  | .implication antecedent consequent => checkImplication index antecedent [consequent] count
  | .impliesAny antecedent consequents => checkImplication index antecedent consequents count
  | .exactlyOne vars => checkGroup index vars none count
  | .atMost vars k => checkGroup index vars (some k) count
  | .atLeast vars k => checkGroup index vars (some k) count
  | .fix var _ => checkVars (.constraint index) [var] count

def checkLevel (index : ℕ) (level : ObjectiveLevelSpec) (count : ℕ) : Except ModelError Unit := do
  checkLabel (.objectiveLevel index) level.label
  checkVars (.objectiveLevel index) (level.terms.map ObjectiveTerm.var) count
  level.terms.forM fun term =>
    match term.coefficient with
    | .known value => checkCoefficient (.objectiveLevel index) term.var value
    | .unknown => pure ()

/-- Check every field that the lowering and the scalarisation rely on. -/
def validate (spec : ModelSpec) : Except ModelError Unit := do
  checkSizes spec
  checkNames spec.names
  let count := spec.names.length
  spec.constraints.zipIdx.forM fun c => checkConstraint c.2 c.1 count
  spec.objective.zipIdx.forM fun l => checkLevel l.2 l.1 count

/-! ### Lowering -/

/-- A constraint as a linear row. -/
structure Row where
  terms : List Term
  relation : Relation
  rhs : ℤ
  deriving DecidableEq

def Row.ofTerms (terms : List Term) (relation : Relation) (rhs : ℤ) : Row :=
  ⟨terms.insertionSort fun a b => a.var ≤ b.var, relation, rhs⟩

def Row.unit (vars : List VarId) (relation : Relation) (rhs : ℤ) : Row :=
  .ofTerms (vars.map fun var => ⟨var, 1⟩) relation rhs

def Row.coefficientOf (row : Row) (var : VarId) : Option ℤ :=
  (row.terms.find? fun term => term.var = var).map Term.coefficient

/-- `antecedent ⇒ any consequent` as a sum that is not negative. -/
def lowerImplication (antecedent : VarId) (consequents : List VarId) : Row :=
  .ofTerms ((consequents.map fun var => ⟨var, 1⟩) ++ [⟨antecedent, -1⟩]) .greaterEqual 0

/-- A constraint as a row. -/
def lower : ConstraintBody → Row
  | .linear terms relation rhs => .ofTerms terms relation rhs
  | .implication antecedent consequent => lowerImplication antecedent [consequent]
  | .impliesAny antecedent consequents => lowerImplication antecedent consequents
  | .exactlyOne vars => .unit vars .equal 1
  | .atMost vars k => .unit vars .lessEqual k
  | .atLeast vars k => .unit vars .greaterEqual k
  | .fix var value => .unit [var] .equal (if value then 1 else 0)

/-! ### The objective -/

def maxScalarMagnitude : ℤ := 2 ^ 100

def levelSublevels (level : ObjectiveLevelSpec) : List (List (VarId × ℤ)) :=
  let unknown := level.terms.filterMap fun term =>
    if term.coefficient = .unknown then some (term.var, (1 : ℤ)) else none
  let known := level.terms.filterMap fun term =>
    match term.coefficient with
    | .known value => some (term.var, value)
    | .unknown => none
  if unknown.isEmpty then [known] else [unknown, known]

/-- The objective as levels of known weights, the most important first. -/
def sublevels (levels : List ObjectiveLevelSpec) : List (List (VarId × ℤ)) :=
  levels.flatMap levelSublevels

def addSublevel (multiplier : ℤ) : List (VarId × ℤ) → List ℤ × ℤ → Except ModelError (List ℤ × ℤ)
  | [], acc => .ok acc
  | (var, coefficient) :: rest, (weights, span) => do
    let slot ← (do
      let scaled ← checkedI128 (multiplier * coefficient)
      checkedI128 (weights.getD var 0 + scaled)).elim (.error .objectiveRangeOverflow) .ok
    let span ← (checkedI128 (span + coefficient.natAbs)).elim (.error .objectiveRangeOverflow) .ok
    addSublevel multiplier rest (weights.set var slot, span)

/-- Add the sublevels, least significant first; each multiplies the next by its span. -/
def addSublevels : List (List (VarId × ℤ)) → List ℤ × ℤ → Except ModelError (List ℤ)
  | [], (weights, _) => .ok weights
  | sublevel :: rest, (weights, multiplier) => do
    let (weights, span) ← addSublevel multiplier sublevel (weights, 1)
    let multiplier ←
      (checkedI128 (multiplier * span)).elim (.error .objectiveRangeOverflow) .ok
    addSublevels rest (weights, multiplier)

def checkMagnitude (weights : List ℤ) : Except ModelError Unit :=
  let total := weights.foldlM (fun sum weight => do
    let magnitude ← checkedI128 weight.natAbs
    checkedI128 (sum + magnitude)) (0 : ℤ)
  match total with
  | some value => if value ≤ maxScalarMagnitude then .ok () else .error .objectiveRangeOverflow
  | none => .error .objectiveRangeOverflow

/-- One weight for each variable that keeps the order of the levels. -/
def scalarWeights (levels : List ObjectiveLevelSpec) (count : ℕ) : Except ModelError (List ℤ) := do
  let weights ← addSublevels (sublevels levels).reverse (List.replicate count 0, 1)
  checkMagnitude weights
  return weights

structure LevelValue where
  known : ℤ
  unknownSelected : ℕ
  deriving DecidableEq

structure ObjectiveValue where
  levels : List LevelValue
  scalar : ℤ
  deriving DecidableEq

/-- The value of a level at a selection. -/
def levelValue (level : ObjectiveLevelSpec) (selected : List Bool) : LevelValue :=
  let chosen := level.terms.filter fun term => selected.getD term.var false
  { known := (chosen.filterMap fun term =>
      match term.coefficient with
      | .known value => some value
      | .unknown => none).sum
    unknownSelected := chosen.countP fun term => term.coefficient = .unknown }

/-- The value of a selection under scalar weights. -/
def scalarValue (weights : List ℤ) (selected : List Bool) : ℤ :=
  (((weights.zip selected).filter Prod.snd).map Prod.fst).sum

/-! ### Models -/

/-- A checked programme with its rows and weights. -/
structure Model (δ : Type) where
  spec : ModelSpec
  rows : List Row
  weights : List ℤ
  digest : δ
  deriving DecidableEq

variable {δ : Type}

/-- Checks a programme and lowers it. -/
def Model.tryFrom (ofJson : ModelSpec → δ) (spec : ModelSpec) : Except ModelError (Model δ) := do
  validate spec
  let weights ← scalarWeights spec.objective spec.names.length
  return ⟨spec, spec.constraints.map fun c => lower c.body, weights, ofJson spec⟩

def Model.variableCount (model : Model δ) : ℕ := model.spec.names.length

def Model.objectiveValue (model : Model δ) (selected : List Bool) : Option ObjectiveValue :=
  if selected.length = model.variableCount then
    some ⟨model.spec.objective.map fun level => levelValue level selected,
      scalarValue model.weights selected⟩
  else none

end Medulla.Solve.Programme
