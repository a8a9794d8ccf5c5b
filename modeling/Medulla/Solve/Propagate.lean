import Medulla.Solve.Verifier

/-! # The partial assignment of a search node

A search node fixes some variables. The state keeps, for every row, what the fixed variables
contribute and the extreme contributions that the free ones still allow; a fix is undone in reverse
through the trail. Propagation forces a free variable when its other value would leave a row without
a solution, and a row that no completion satisfies closes the node.

Integers are unbounded here: with the limits of a validated model no plain operation of the search
leaves its machine word. -/

namespace Medulla.Solve.Propagate

open Library.Checked Programme

variable {δ : Type}

/-! ### Row activities -/

/-- What is cached of a row: the activity of its fixed variables, and the positive part, the
negative part and the number of its free terms. -/
structure Activity where
  fixed : ℤ
  freePositive : ℤ
  freeNegative : ℤ
  freeCount : ℤ

/-- A row with no term left to contribute. -/
def Activity.none : Activity := ⟨0, 0, 0, 0⟩

/-- Move one term out of the free contributions (`direction = 1`), or back into them (`-1`). -/
def Activity.move (a : Activity) (coefficient : ℤ) (value : Bool) (direction : ℤ) : Activity where
  fixed := if value then a.fixed + direction * coefficient else a.fixed
  freePositive := a.freePositive - direction * max coefficient 0
  freeNegative := a.freeNegative - direction * min coefficient 0
  freeCount := a.freeCount - direction

/-- A row at a position, empty beyond the last. -/
def rowAt (model : Model δ) (row : RowId) : Row := model.rows.getD row ⟨[], .equal, 0⟩

def column (model : Model δ) (var : VarId) : List (RowId × ℤ) :=
  model.rows.zipIdx.flatMap fun r =>
    (r.1.terms.filter fun term => term.var = var).map fun term => (r.2, term.coefficient)

def Activity.ofTerms (terms : List Term) : Activity :=
  terms.foldl (fun a term => a.move term.coefficient false (-1)) .none

/-! ### The state -/

/-- The values of the variables, the fixed ones in order, and the activity of every row. -/
structure SearchState where
  value : List (Option Bool)
  trail : List VarId
  activities : List Activity

namespace SearchState

def new (model : Model δ) : SearchState :=
  ⟨List.replicate model.variableCount none, [], model.rows.map fun row => .ofTerms row.terms⟩

/-- Move a variable out of, or back into, the free contributions of its rows. -/
def shift (model : Model δ) (s : SearchState) (var : VarId) (value : Bool) (direction : ℤ) :
    SearchState :=
  { s with activities := (column model var).foldl (fun activities entry =>
      activities.modify entry.1 fun a => a.move entry.2 value direction) s.activities }

def fix (model : Model δ) (s : SearchState) (var : VarId) (value : Bool) : SearchState :=
  shift model { s with value := s.value.set var (some value), trail := s.trail ++ [var] } var value 1

def release (model : Model δ) (var : VarId) (s : SearchState) : SearchState :=
  shift model { s with value := s.value.set var none } var
    (s.value.getD var none = some true) (-1)

/-- Undo fixes, the last one first, until only the first `len` remain. -/
def undoTo (model : Model δ) (s : SearchState) (len : ℕ) : SearchState :=
  (s.trail.drop len).foldr (release model) { s with trail := s.trail.take len }

/-- The smallest and the largest activity a row can still reach. -/
def activity (s : SearchState) (row : RowId) : ℤ × ℤ :=
  let a := s.activities.getD row .none
  (a.fixed + a.freeNegative, a.fixed + a.freePositive)

def fixedActivity (s : SearchState) (row : RowId) : ℤ := (s.activities.getD row .none).fixed

def freeCount (s : SearchState) (row : RowId) : ℤ := (s.activities.getD row .none).freeCount

def isFree (s : SearchState) (var : VarId) : Bool := s.value[var]? = some none

def freeTerms (model : Model δ) (s : SearchState) (row : RowId) : List (VarId × ℤ) :=
  ((rowAt model row).terms.map fun term => (term.var, term.coefficient)).filter fun term =>
    s.isFree term.1

end SearchState

/-! ### Rows waiting to be examined -/

/-- A stack of rows without repeats, the last pushed first. -/
structure RowQueue where
  rows : List RowId
  queued : List Bool

namespace RowQueue

def new (rows : ℕ) : RowQueue := ⟨[], List.replicate rows false⟩

def push (q : RowQueue) (row : RowId) : RowQueue :=
  if q.queued.getD row false then q else ⟨row :: q.rows, q.queued.set row true⟩

def pushAll (q : RowQueue) : RowQueue := (List.range q.queued.length).foldl push q

def pop (q : RowQueue) : Option (RowId × RowQueue) :=
  match q.rows with
  | [] => none
  | row :: rows => some (row, ⟨rows, q.queued.set row false⟩)

def clear (q : RowQueue) : RowQueue :=
  ⟨[], q.rows.foldl (fun queued row => queued.set row false) q.queued⟩

end RowQueue

def fixAndQueue (model : Model δ) (s : SearchState) (q : RowQueue) (var : VarId) (value : Bool) :
    SearchState × RowQueue :=
  (s.fix model var value, ((column model var).map Prod.fst).foldl RowQueue.push q)

/-! ### Propagation -/

def excludes (relation : Relation) (rhs low high : ℤ) : Bool :=
  match relation with
  | .greaterEqual => high < rhs
  | .lessEqual => rhs < low
  | .equal => high < rhs || rhs < low

def guarantees (relation : Relation) (rhs low high : ℤ) : Bool :=
  match relation with
  | .greaterEqual => rhs ≤ low
  | .lessEqual => high ≤ rhs
  | .equal => low = rhs && high = rhs

/-- The activity interval after a free term is fixed. -/
def narrowed (range : ℤ × ℤ) (coefficient : ℤ) (value : Bool) : ℤ × ℤ :=
  let chosen := if value then coefficient else 0
  (range.1 - min coefficient 0 + chosen, range.2 - max coefficient 0 + chosen)

/-- The value a free term must take, when its other value makes the row infeasible. -/
def forcedValue (relation : Relation) (rhs : ℤ) (range : ℤ × ℤ) (coefficient : ℤ) : Option Bool :=
  [true, false].find? fun value =>
    let range := narrowed range coefficient (!value)
    excludes relation rhs range.1 range.2

structure Forcing where
  var : VarId
  value : Bool
  row : RowId

/-- The state, the rows still to examine and the forcings reported so far. -/
structure Propagation where
  state : SearchState
  queue : RowQueue
  forced : List Forcing

def isExcluded (model : Model δ) (s : SearchState) (row : RowId) : Bool :=
  excludes (rowAt model row).relation (rowAt model row).rhs (s.activity row).1 (s.activity row).2

def forceTerm (model : Model δ) (row : RowId) (p : Propagation) (term : VarId × ℤ) : Propagation :=
  match forcedValue (rowAt model row).relation (rowAt model row).rhs (p.state.activity row)
    term.2 with
  | some value =>
    let next := fixAndQueue model p.state p.queue term.1 value
    ⟨next.1, next.2, p.forced ++ [⟨term.1, value, row⟩]⟩
  | none => p

def propagateRow (model : Model δ) (row : RowId) (p : Propagation) : Propagation × Option RowId :=
  if isExcluded model p.state row then (p, some row)
  else
    let p := (p.state.freeTerms model row).foldl (forceTerm model row) p
    (p, if isExcluded model p.state row then some row else none)

def propagateFrom (model : Model δ) : ℕ → Propagation → Propagation × Option RowId
  | 0, p => (p, none)
  | fuel + 1, p =>
    match p.queue.pop with
    | none => (p, none)
    | some (row, queue) =>
      match propagateRow model row { p with queue := queue } with
      | (p, some row) => ({ p with queue := p.queue.clear }, some row)
      | (p, none) => propagateFrom model fuel p

/-- Rounds that are enough: every round takes a row from the queue or fixes a variable. -/
def propagationRounds (model : Model δ) : ℕ := (model.variableCount + 1) * (model.rows.length + 1)

/-- Propagate until the queue is empty, or to the first infeasible row. -/
def propagate (model : Model δ) (s : SearchState) (q : RowQueue) : Propagation × Option RowId :=
  propagateFrom model (propagationRounds model) ⟨s, q, []⟩

/-! ### Branching -/

inductive Choice
  | complete
  | branch (var : VarId) (first : Bool)
  deriving DecidableEq

def minBy {α : Type} (order : α → α → Ordering) : List α → Option α
  | [] => none
  | a :: rest => some (rest.foldl (fun best b => if order best b = .gt then b else best) a)

/-- The row with the fewest free terms among those not yet guaranteed. -/
def mostConstrainedRow (model : Model δ) (s : SearchState) : Option RowId :=
  minBy (fun a b => (compare (s.freeCount a) (s.freeCount b)).then (compare a b))
    ((List.range model.rows.length).filter fun row =>
      !guarantees (rowAt model row).relation (rowAt model row).rhs (s.activity row).1
        (s.activity row).2)

/-- Order two costs per unit exactly; equal when a cross product overflows. -/
def cheaper (costA sizeA costB sizeB : ℤ) : Ordering :=
  match checkedI128 (costA * sizeB), checkedI128 (costB * sizeA) with
  | some left, some right => compare left right
  | _, _ => .eq

/-- A free term as a branching candidate. -/
structure Candidate where
  var : VarId
  helpful : Bool
  cost : ℤ
  size : ℤ

def choose (model : Model δ) (s : SearchState) : Choice :=
  match mostConstrainedRow model s with
  | none => .complete
  | some row =>
    let spec := rowAt model row
    let raise := spec.relation ≠ .lessEqual ∧ (s.activity row).1 < spec.rhs
    let candidates := (s.freeTerms model row).map fun term =>
      let helpful : Bool := (0 < term.2) ↔ raise
      let weight := model.weights.getD term.1 0
      (⟨term.1, helpful, if helpful then weight else -weight, term.2.natAbs⟩ : Candidate)
    match minBy (fun a b => (cheaper a.cost a.size b.cost b.size).then (compare a.var b.var))
      candidates with
    | some best => .branch best.var best.helpful
    | none => .complete

/-- The completion that selects the free variables of negative weight, with its objective. -/
def completion (model : Model δ) (s : SearchState) : List Bool × ℤ :=
  let selected := (List.range model.weights.length).map fun var =>
    (s.value.getD var none).getD (decide (model.weights.getD var 0 < 0))
  (selected, scalarValue model.weights selected)

/-! ### The greedy incumbent -/

def isUnmet (model : Model δ) (s : SearchState) (row : RowId) : Bool :=
  (rowAt model row).relation ≠ .lessEqual ∧ (s.activity row).1 < (rowAt model row).rhs

def helps (model : Model δ) (s : SearchState) (var : VarId) : ℤ :=
  (((List.range model.rows.length).filter (isUnmet model s)).map fun row =>
    ((s.freeTerms model row).countP fun term => term.1 = var ∧ 0 < term.2 : ℤ)).sum

/-- The free variable that helps the most unmet rows per unit of weight. -/
def bestCover (model : Model δ) (s : SearchState) : Option VarId :=
  minBy (fun a b =>
      let left := helps model s b * max (model.weights.getD a 0) 1
      let right := helps model s a * max (model.weights.getD b 0) 1
      (compare left right).then (compare a b))
    ((List.range model.variableCount).filter fun var => 0 < helps model s var)

/-- Fix a variable and propagate; nothing at a dead end. -/
def fixAndPropagate (model : Model δ) (s : SearchState) (q : RowQueue) (var : VarId)
    (value : Bool) : Option (SearchState × RowQueue) :=
  let next := fixAndQueue model s q var value
  match propagate model next.1 next.2 with
  | (p, none) => some (p.state, p.queue)
  | (_, some _) => none

/-- Select covering variables while some row lacks activity. -/
def coverFrom (model : Model δ) : ℕ → SearchState × RowQueue → Option (SearchState × RowQueue)
  | 0, s => some s
  | fuel + 1, s =>
    match bestCover model s.1 with
    | none => some s
    | some var => do
      let next ← fixAndPropagate model s.1 s.2 var true
      coverFrom model fuel next

/-- Follow the helpful values of the branching rule. -/
def diveFrom (model : Model δ) : ℕ → SearchState × RowQueue → Option (List Bool × ℤ)
  | 0, s => some (completion model s.1)
  | fuel + 1, s =>
    match choose model s.1 with
    | .complete => some (completion model s.1)
    | .branch var first => do
      let next ← fixAndPropagate model s.1 s.2 var first
      diveFrom model fuel next

/-- A feasible selection and its objective, if the greedy dive finds one. -/
def greedy (model : Model δ) : Option (List Bool × ℤ) :=
  match propagate model (.new model) (RowQueue.new model.rows.length).pushAll with
  | (_, some _) => none
  | (p, none) => do
    let covered ← coverFrom model model.variableCount (p.state, p.queue)
    diveFrom model model.variableCount covered

end Medulla.Solve.Propagate
