import Medulla.Query.PredEval
import Medulla.Query.Rows
import Mathlib.Data.List.Sort
import Mathlib.Data.String.Basic

/-! # Executing a plan

A plan runs from left to right: every operator takes the rows of the one before it, the first takes
none. A filter or an instant that is handed no rows is a source over the whole graph; handed rows,
it narrows them. A ranking orders the rows it is handed and drops those without an embedding; handed
none, it returns none.

The property filter, the similarity of a query and an embedding and the walk of the vector index are
data of the context here. Budgets are unlimited. -/

namespace Medulla.Query.Exec

open Wire Rows

/-! ### The context of a run -/

structure GraphView where
  /-- Nodes in the map's iteration order, with their decoded properties; `none` if they do not
  decode. -/
  nodeProperties : List (String × Option Props)
  nodup : (nodeProperties.map Prod.fst).Nodup
  /-- Targets of the outgoing edges of every node. -/
  topology : List (String × List String)
  /-- The `relationship` of every stored version of an edge. -/
  edgeProperties : List ((String × String) × List (Option String))

structure SemanticStore where
  /-- The width of the stored embeddings; zero if there are none. -/
  dim : ℕ
  /-- The similarity of a query and a node's embedding, if it has one of positive length. -/
  score : List F64 → String → Option ℚ
  /-- The index walk over allowed ids: so many hits for a query. -/
  semanticSearchFiltered : List F64 → ℕ → (String → Bool) → List (String × ℚ)

/-- Why an operator refuses to run. -/
inductive ExecError
  | dimensionMismatch (query : List F64) (expected got : ℕ)
  | refused (reason : String)

structure PlanCtx where
  view : GraphView
  semantic : SemanticStore
  /-- The ids that pass a conjunction of predicates, in scan order. -/
  filterIds : List Pred → Except ExecError (List String)
  /-- The operators modelled elsewhere. -/
  applyOther : Op → RowSet → Except ExecError RowSet

/-! ### Sources and narrowers -/

def scanLabel (view : GraphView) (label : String) : RowSet :=
  let ids := view.nodeProperties.filterMap fun n =>
    n.2.bind fun props => if propsCarryLabel props label then some n.1 else none
  RowSet.fromIds (ids.insertionSort (· ≤ ·))

def liveAt (view : GraphView) (ts : F64) (axis : TimeAxis) (id : String) : Bool :=
  ((view.nodeProperties.lookup id).bind fun blob => blob).any fun props =>
    PredEval.asOfHolds props ts axis

def asOfFilter (view : GraphView) (input : RowSet) (ts : F64) (axis : TimeAxis) : RowSet :=
  if input.isEmpty then
    RowSet.fromIds ((view.nodeProperties.map Prod.fst).filter (liveAt view ts axis))
  else input.intersectKeepOrder (liveAt view ts axis)

def filterOp (ctx : PlanCtx) (preds : List Pred) (input : RowSet) : Except ExecError RowSet := do
  let passed ← ctx.filterIds preds
  if input.isEmpty then return RowSet.fromIds passed
  else return input.intersectKeepOrder (· ∈ passed)

/-! ### Ranking -/

/-- The largest candidate set a top-k ranking scores one by one. -/
def exactRankMax : ℕ := 4096

def oversample : ℕ := 4

def annRounds : ℕ := 3

def scoredBefore (a b : String × ℚ) : Prop := b.2 < a.2 ∨ a.2 = b.2 ∧ a.1 ≤ b.1

instance : DecidableRel scoredBefore := fun a b =>
  inferInstanceAs (Decidable (b.2 < a.2 ∨ a.2 = b.2 ∧ a.1 ≤ b.1))

def exactRankCandidates (semantic : SemanticStore) (query : List F64) (candidates : List String)
    (n : ℕ) : List (String × ℚ) :=
  let scored := candidates.filterMap fun id => (semantic.score query id).map fun s => (id, s)
  (scored.insertionSort scoredBefore).take n

/-- Widen the index walk until it has enough hits; score one by one after the last round. -/
def annRank (semantic : SemanticStore) (query : List F64) (candidates : List String) (want : ℕ) :
    ℕ → ℕ → List (String × ℚ)
  | 0, _ => exactRankCandidates semantic query candidates want
  | rounds + 1, fetch =>
    let hits := semantic.semanticSearchFiltered query fetch (· ∈ candidates)
    if want ≤ hits.length then hits.take want
    else annRank semantic query candidates want rounds (fetch * oversample)

def ranked (semantic : SemanticStore) (query : List F64) (candidates : List String) (want : ℕ) :
    List (String × ℚ) :=
  if candidates.length ≤ exactRankMax ∨ candidates.length ≤ want then
    exactRankCandidates semantic query candidates want
  else annRank semantic query candidates want annRounds (want * oversample)

def checkWidth (semantic : SemanticStore) (query : List F64) : Except ExecError Unit :=
  if semantic.dim = 0 ∨ query.length = semantic.dim then .ok ()
  else .error (.dimensionMismatch query semantic.dim query.length)

/-- Order the rows by similarity to a query, or only the best so many. -/
def rankTop (ctx : PlanCtx) (query : List F64) (input : RowSet) (limit : Option ℕ) :
    Except ExecError RowSet :=
  if input.isEmpty then .ok ⟨[]⟩
  else do
    checkWidth ctx.semantic query
    let candidates := input.ids
    let want := limit.elim candidates.length fun k => min k candidates.length
    return RowSet.fromScored (ranked ctx.semantic query candidates want)

/-! ### Traversal -/

/-- A stored version of an edge has a relationship. -/
def relMatches (view : GraphView) (source target rel : String) : Bool :=
  ((view.edgeProperties.lookup (source, target)).getD []).any (· = some rel)

/-- What a walk has met: all nodes, the next frontier, and the nodes it returns. -/
structure Walk where
  visited : List String
  next : List String
  out : List String

def Walk.meet (emit : Bool) (w : Walk) (target : String) : Walk :=
  let w := if target ∈ w.visited then w
    else { w with visited := target :: w.visited, next := w.next ++ [target] }
  if emit && target ∉ w.out then { w with out := w.out ++ [target] } else w

def expand (view : GraphView) (rel : String) (emit : Bool) (frontier : List String) (w : Walk) :
    Walk :=
  frontier.foldl (fun w node =>
    (((view.topology.lookup node).getD []).filter fun target => relMatches view node target rel).foldl
      (Walk.meet emit) w) w

def bfsRounds (view : GraphView) (rel : String) (lo : ℕ) :
    ℕ → ℕ → List String → List String → List String → List String
  | 0, _, _, _, out => out
  | hops + 1, depth, frontier, visited, out =>
    if frontier.isEmpty then out
    else
      let w := expand view rel (lo ≤ depth + 1) frontier ⟨visited, [], out⟩
      bfsRounds view rel lo hops (depth + 1) w.next w.visited w.out

def bfsReached (view : GraphView) (seeds : List String) (rel : String) (lo hi : ℕ) : List String :=
  let frontier := seeds.filter fun s => (view.topology.lookup s).isSome
  bfsRounds view rel lo hi 0 frontier frontier []

/-! ### Running the operators -/

def apply (ctx : PlanCtx) (op : Op) (input : RowSet) : Except ExecError RowSet :=
  match op with
  | .scan label => .ok (scanLabel ctx.view label)
  | .filter preds => filterOp ctx preds input
  | .asOf ts axis => .ok (asOfFilter ctx.view input ts axis)
  | .rank query => rankTop ctx query input none
  | .traverse rel lo hi => .ok (RowSet.fromIds (bfsReached ctx.view input.ids rel lo hi))
  | .limit k => .ok (input.limit k)
  | .windowAgg _ _ | .other _ => ctx.applyOther op input

/-- Run an operator, given those after it: a ranking right before a limit keeps only as many rows as
the limit. -/
def stepAt (ctx : PlanCtx) (op : Op) (after : List Op) (input : RowSet) : Except ExecError RowSet :=
  match op, after with
  | .rank query, .limit k :: _ => rankTop ctx query input (some k)
  | _, _ => apply ctx op input

def runOps (ctx : PlanCtx) : RowSet → List Op → Except ExecError RowSet
  | cur, [] => .ok cur
  | cur, op :: after => do
    let next ← stepAt ctx op after cur
    runOps ctx next after

def execute (ctx : PlanCtx) (plan : Plan) : Except ExecError RowSet := runOps ctx ⟨[]⟩ plan.ops

end Medulla.Query.Exec
