import Medulla.Query.Wire

/-! # The cost model

Plan-time estimates of how many rows an operator lets through and what it costs, and the choice
between filtering first and ranking first. Estimates are exact rationals. Histograms, sketches and
the binary logarithm are data of `PlanStats`. The optional learned correction is off, as it is by
default. -/

namespace Medulla.Query.Cost

open Wire

/-! ### Statistics -/

structure PlanStats where
  nodeCount : ℕ
  edgeCount : ℕ
  embeddingCount : ℕ
  /-- Estimated fraction of the rows an equality on a column keeps, if the column has a sketch. -/
  fracEq : String → Option ℚ
  /-- Estimated fraction above a number, if the column has a histogram. -/
  fracGt : String → F64 → Option ℚ
  /-- Estimated fraction below a number, if the column has a histogram. -/
  fracLt : String → F64 → Option ℚ
  /-- The binary logarithm of a count. -/
  log2 : ℕ → ℚ

def clamp (x lo hi : ℚ) : ℚ := if x < lo then lo else if hi < x then hi else x

/-- Round half up; the numbers rounded here are not negative. -/
def round (x : ℚ) : ℚ := ⌊x + 1 / 2⌋

/-- The top-k a ranking targets when no limit follows. -/
def defaultTopK : ℕ := 10

namespace PlanStats

variable (card : PlanStats)

def avgOutDegree : ℚ := if 0 < card.nodeCount then card.edgeCount / card.nodeCount else 0

/-- One index top-k query. -/
def annTopkCost : ℚ := card.log2 (max card.embeddingCount 2) * 64

def embedCoverage : ℚ :=
  if card.nodeCount = 0 then 1 else clamp (card.embeddingCount / card.nodeCount) 0 1

/-! ### Rows out -/

/-- Estimated fraction of the rows a predicate keeps. -/
def predSelectivity : Pred → ℚ
  | .eq prop _ => (card.fracEq prop).getD (1 / 10)
  | .gtNum prop n => (card.fracGt prop n).getD (33 / 100)
  | .ltNum prop n => (card.fracLt prop n).getD (33 / 100)
  | .jsonPath => 4 / 10
  | _ => 1 / 4

/-- Estimated fraction of the rows a filter keeps: its predicates taken as independent. -/
def filterSelectivity (preds : List Pred) : ℚ :=
  clamp (preds.foldl (fun sel p => sel * card.predSelectivity p) 1) (1 / 1000000) 1

/-- Edges visited per row by a walk of `lo` to `hi` hops. -/
def traverseEdgeExpansion (lo hi : ℕ) : ℚ :=
  let d := max card.avgOutDegree 0 * (1 / 2)
  ((List.range' lo (hi + 1 - lo)).map fun h => d ^ h).sum

def rowsOut (op : Op) (inCard : ℚ) : ℚ :=
  let n : ℚ := card.nodeCount
  match op with
  | .scan _ => max (n * (1 / 2)) 0
  | .filter preds => inCard * card.filterSelectivity preds
  | .traverse _ lo hi =>
    if inCard ≤ 0 then 0
    else min (inCard * card.traverseEdgeExpansion lo hi * (7 / 10)) (max n inCard)
  | .rank _ =>
    if 0 < inCard then inCard * card.embedCoverage
    else min (card.embeddingCount : ℚ) defaultTopK
  | .asOf _ _ => if 0 < inCard then inCard * (8 / 10) else n * (8 / 10)
  | .limit k => min inCard k
  | .windowAgg _ _ | .other _ => inCard

/-- Estimated fraction of its input an operator keeps. -/
def selectivity (op : Op) (inCard : ℚ) : ℚ :=
  if inCard ≤ 0 then 1 else clamp (card.rowsOut op inCard / inCard) 0 1

/-! ### Costs -/

end PlanStats

structure CostEstimate where
  rows : ℚ
  cpu : ℚ
  io : ℚ

def CostEstimate.weight (c : CostEstimate) : ℚ := c.cpu + c.io

def PlanStats.costOf (card : PlanStats) (op : Op) (inCard : ℚ) : CostEstimate :=
  let (cpu, io) : ℚ × ℚ :=
    match op with
    | .filter _ => (inCard * 1, inCard * (1 / 10))
    | .rank _ =>
      if 0 < inCard then (inCard * 20, inCard)
      else (card.annTopkCost, card.log2 (max card.embeddingCount 2))
    | .traverse _ lo hi =>
      let edges := card.traverseEdgeExpansion lo hi
      (inCard * edges * 2, inCard * edges)
    | .asOf _ _ => (inCard * 2, inCard * (2 / 10))
    | _ => (max inCard 1, inCard * (1 / 10))
  ⟨card.rowsOut op inCard, cpu, io⟩

/-! ### Filter first or ranking first -/

/-- What the choice between the two orders of a pair is made on. -/
structure Stats where
  seedRows : ℕ
  filterSelectivity : ℚ
  topK : ℕ
  costFilterPerRow : ℚ
  costVectorPerRow : ℚ
  costVectorTopk : ℚ

def Stats.estimate (card : PlanStats) (seedRows : ℕ) (filterSelectivity : ℚ) (topK : ℕ)
    (embeddingCount : ℕ) : Stats :=
  { seedRows, filterSelectivity := clamp filterSelectivity 0 1, topK
    costFilterPerRow := 1, costVectorPerRow := 20
    costVectorTopk := card.log2 (max embeddingCount 2) * 64 }

inductive Order
  | filterFirst
  | vectorFirst
  deriving DecidableEq

namespace CostModel

def filterFirstCost (s : Stats) : ℚ :=
  s.seedRows * s.filterSelectivity * (s.costFilterPerRow + s.costVectorPerRow)

/-- How many candidates an index query fetches for `topK` of them to pass the filter. -/
def overfetchPoolSize (topK : ℕ) (selectivity : ℚ) : ℕ :=
  ⌈(topK : ℚ) / max selectivity (1 / 1000000000)⌉.toNat

def vectorFirstCost (s : Stats) : ℚ :=
  let fetch : ℚ := overfetchPoolSize s.topK s.filterSelectivity
  s.costVectorTopk + fetch * (s.costVectorPerRow + s.costFilterPerRow)

def order (s : Stats) : Order :=
  if filterFirstCost s ≤ vectorFirstCost s then .filterFirst else .vectorFirst

end CostModel

/-! ### Costing an order of a run -/

def isRank : Op → Bool
  | .rank _ => true
  | _ => false

def seedRows (running : ℚ) : ℕ := ⌊max (round running) 1⌋.toNat

/-- Cost the operators of a run after its first one; `none` once fewer than one row is expected. -/
def PlanStats.chainCost (card : PlanStats) : List Op → ℚ → ℚ → Option ℚ
  | [], running, total => if running < 1 then none else some total
  | op :: ops, running, total =>
    if running < 1 then none
    else card.chainCost ops (card.rowsOut op running) (total + (card.costOf op running).weight)

def PlanStats.permutationCost (card : PlanStats) (perm : List Op) (seed : ℚ) (topK : ℕ) :
    Option ℚ :=
  match perm with
  | .rank _ :: ops =>
    if seed < 1 then none
    else
      let remainingSel := max (ops.map fun o => card.selectivity o seed).prod (1 / 1000000)
      let stats := Stats.estimate card (seedRows seed) remainingSel topK card.embeddingCount
      card.chainCost ops (min (topK / remainingSel) seed) (0 + CostModel.vectorFirstCost stats)
  | ops => card.chainCost ops seed 0

end Medulla.Query.Cost
