import Medulla.Library.Arrangements
import Medulla.Query.Cost

/-! # The optimizer

The rules that rewrite a plan before it runs. The first places a filter or an instant before or
after an adjacent ranking; the last puts a run of three to five filters, instants and rankings in
the order it expects to be cheapest. Both leave the first operator where it is. The rules for the
other modalities rewrite operators that are not modelled here.

The loops over positions are recursions over what is left of the plan; `before` is settled. -/

namespace Medulla.Query.Optimizer

open Library.Arrangements Wire Cost

def isPointLookup : List Op → Bool
  | .scan _ :: .filter [.eq prop _] :: rest =>
    prop = "id" && rest.all fun op =>
      match op with
      | .limit _ => true
      | _ => false
  | _ => false

/-! ### Shared machinery -/

/-- The estimated number of rows after some operators. -/
def cardBefore (card : PlanStats) (ops : List Op) : ℚ := ops.foldl (fun c op => card.rowsOut op c) 0

/-- The limit an operator ultimately feeds, given what comes after it. -/
def trailingTopK (after : List Op) : ℕ :=
  max ((after.findSome? fun op =>
    match op with
    | .limit k => some k
    | _ => none).getD defaultTopK) 1

def isNarrower : Op → Bool
  | .filter _ | .asOf _ _ => true
  | _ => false

/-! ### A narrower and an adjacent ranking -/

/-- Both orders of a pair are expected to keep a row. -/
def pairGuard (card : PlanStats) (before : List Op) (narrower rank : Op) : Bool :=
  let inCard := cardBefore card before
  !(inCard * card.selectivity narrower inCard < 1 || inCard * card.selectivity rank inCard < 1)

def narrowerFirst (card : PlanStats) (before : List Op) (narrower : Op) (after : List Op) : Bool :=
  let inCard := cardBefore card before
  let stats := Stats.estimate card (seedRows inCard) (card.selectivity narrower inCard)
    (trailingTopK after) card.embeddingCount
  CostModel.order stats = .filterFirst

def placePair (card : PlanStats) (before : List Op) (a b : Op) (after : List Op) : Op × Op :=
  if isNarrower a && isRank b then
    if pairGuard card before a b && !narrowerFirst card before a after then (b, a) else (a, b)
  else
    if pairGuard card before b a && narrowerFirst card before b after then (b, a) else (a, b)

/-- Settle every adjacent pair of a narrower and a ranking, from left to right. -/
def reorderNarrowerRankPairs (card : PlanStats) (before : List Op) : List Op → List Op
  | a :: b :: rest =>
    if isNarrower a && isRank b || isRank a && isNarrower b then
      let p := placePair card before a b rest
      p.1 :: p.2 :: reorderNarrowerRankPairs card (before ++ [p.1, p.2]) rest
    else a :: reorderNarrowerRankPairs card (before ++ [a]) (b :: rest)
  | rest => rest

/-! ### The cheapest order of a run -/

def isReorderable (op : Op) : Bool := isNarrower op || isRank op

def maxChainSegment : ℕ := 5

/-- Every order of some indices, the given one first. -/
def permutations (indices : List ℕ) : List (List ℕ) := arrangements indices.length indices

/-- The operators of a run at some indices. -/
def refs (segment : List Op) (perm : List ℕ) : List Op := perm.filterMap (segment[·]?)

/-- The cheapest order of a run, if any order is expected to keep a row throughout. -/
def bestPermutation (card : PlanStats) (segment : List Op) (seed : ℚ) (topK : ℕ) :
    Option (List Op) :=
  (firstBest (fun perm => card.permutationCost (refs segment perm) seed topK) (1 / 1000000000)
    (permutations (List.range segment.length))).map fun best => refs segment best.2

def reorderSegment (card : PlanStats) (before segment after : List Op) : List Op :=
  if 3 ≤ segment.length ∧ segment.length ≤ maxChainSegment then
    (bestPermutation card segment (cardBefore card before) (trailingTopK after)).getD segment
  else segment

/-- Settle every maximal run, from left to right; `run` is the part of the current run already
met. -/
def reorderChainSegments (card : PlanStats) (before run : List Op) : List Op → List Op
  | [] => reorderSegment card before run []
  | op :: rest =>
    if isReorderable op then reorderChainSegments card before (run ++ [op]) rest
    else
      let settled := reorderSegment card before run (op :: rest)
      settled ++ op :: reorderChainSegments card (before ++ settled ++ [op]) [] rest

/-! ### The rule engine -/

def rules (card : PlanStats) : List Op → List Op
  | [] => []
  | source :: rest =>
    source :: reorderChainSegments card [source] [] (reorderNarrowerRankPairs card [source] rest)

def optimize (card : PlanStats) (plan : Plan) : Plan :=
  if isPointLookup plan.ops then plan else ⟨rules card plan.ops⟩

end Medulla.Query.Optimizer
