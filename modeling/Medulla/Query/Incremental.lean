import Medulla.Library.OrderedTable
import Medulla.Query.PredEval
import Medulla.Query.Rows

/-! # The incremental circuit of a plan

A supported plan compiles to a circuit: membership stages for `Scan`, `Filter` and `AsOf`, or bucket
accumulators for a `WindowAgg`, with an optional limit at read. `apply` folds a delta of signed rows
into the maintained state, `current` reads the result from it, and `recompute` computes the result
from the whole node map with no maintained state. Sums, means and scores are exact; the source rounds
a score to 32 bits when it is read, on both paths. -/

namespace Medulla.Query.Incremental

open Wire PredEval Rows
open Library.OrderedTable (Table)

/-! ### Deltas -/

structure ZRow where
  id : String
  props : Props
  weight : ℤ

def ZRow.insert (id : String) (props : Props) : ZRow := ⟨id, props, 1⟩

def ZRow.retract (id : String) (props : Props) : ZRow := ⟨id, props, -1⟩

/-- A batch of signed rows, applied in order. -/
abbrev Delta := List ZRow

abbrev NodeMap := Table String Props

/-! ### Stages -/

inductive StagePred
  | scan (label : String)
  | filter (preds : List Pred)
  | asOf (ts : F64) (axis : TimeAxis)

def StagePred.holds (p : StagePred) (props : Props) : Bool :=
  match p with
  | .scan label => propsCarryLabel props label
  | .filter preds => preds.all (predHolds props)
  | .asOf ts axis => asOfHolds props ts axis

/-- A membership stage: its predicate and the net weight of every id it holds of. -/
structure Stage where
  pred : StagePred
  members : Table String ℤ

def Stage.new (pred : StagePred) : Stage := ⟨pred, .empty⟩

def Stage.applyRow (row : ZRow) (s : Stage) : Stage :=
  if s.pred.holds row.props then
    let e := (s.members.get row.id).getD 0 + row.weight
    { s with members := if e ≤ 0 then s.members.remove row.id else s.members.insert row.id e }
  else s

def applyToStages : List Stage → Delta → List Stage × ℕ
  | stages, [] => (stages, 0)
  | stages, row :: rows =>
    if row.weight = 0 then applyToStages stages rows
    else
      let (after, touched) := applyToStages (stages.map (Stage.applyRow row)) rows
      (after, stages.countP (fun s => s.pred.holds row.props) + touched)

/-! ### Windows -/

/-- The aggregates a window maintains by subtraction. -/
inductive Agg
  | count | sum | mean

@[ext]
structure Bucket where
  sum : ℚ
  count : ℤ

/-- A maintained window: the label it scans, its width, its aggregate and its buckets by start. -/
structure WindowState where
  label : String
  width : ℤ
  agg : Agg
  buckets : Table ℤ Bucket

def WindowState.bucketStart (w : WindowState) (ts : ℤ) : Option ℤ :=
  if w.width ≤ 0 then none else some (Int.tdiv ts w.width * w.width)

def WindowState.slot (w : WindowState) (props : Props) : Option (ℤ × ℚ) :=
  if propsCarryLabel props w.label then do
    let ts ← (props.lookup "valid_from").bind Value.asI64
    let val ← (props.lookup "value").bind Value.asF64
    let start ← w.bucketStart ts
    return (start, val)
  else none

/-- Add a weighted value to a bucket; a bucket whose count falls to zero is dropped. -/
def bump (buckets : Table ℤ Bucket) (start : ℤ) (val : ℚ) (weight : ℤ) : Table ℤ Bucket :=
  let b := (buckets.get start).getD ⟨0, 0⟩
  let b : Bucket := ⟨b.sum + weight * val, b.count + weight⟩
  if b.count ≤ 0 then buckets.remove start else buckets.insert start b

def applyToBuckets : WindowState → Delta → WindowState × ℕ
  | w, [] => (w, 0)
  | w, row :: rows =>
    if row.weight = 0 then applyToBuckets w rows
    else
      match w.slot row.props with
      | none => applyToBuckets w rows
      | some (start, val) =>
        let (after, touched) :=
          applyToBuckets { w with buckets := bump w.buckets start val row.weight } rows
        (after, touched + 1)

/-! ### Circuits -/

structure Circuit where
  stages : List Stage
  window : Option WindowState
  limit : Option ℕ

/-- Why a plan has no circuit: the position of the first operator without an incremental form. -/
structure UnsupportedOp where
  index : ℕ
  reason : String

structure CircuitBuild where
  label : String
  stages : List Stage
  window : Option WindowState
  limit : Option ℕ

namespace CircuitBuild

/-- A build seeded with the plan's leading `Scan`. -/
def scanning (label : String) : CircuitBuild := ⟨label, [.new (.scan label)], none, none⟩

def pushFilter (build : CircuitBuild) (i : ℕ) (preds : List Pred) :
    Except UnsupportedOp CircuitBuild :=
  if build.window.isSome then .error ⟨i, "Filter after WindowAgg is not supported"⟩
  else if !preds.all isRelational then
    .error ⟨i, "Filter carries a non-relational predicate (JsonPath/spatial)"⟩
  else .ok { build with stages := build.stages ++ [.new (.filter preds)] }

def pushAsOf (build : CircuitBuild) (i : ℕ) (ts : F64) (axis : TimeAxis) :
    Except UnsupportedOp CircuitBuild :=
  if build.window.isSome then .error ⟨i, "AsOf after WindowAgg is not supported"⟩
  else .ok { build with stages := build.stages ++ [.new (.asOf ts axis)] }

def parseAgg (agg : String) : Option Agg :=
  match agg.toLower with
  | "count" => some .count
  | "sum" => some .sum
  | "mean" | "avg" | "average" => some .mean
  | _ => none

/-- Compile a `WindowAgg`; without the time-series feature it has no incremental form. -/
def compileWindowAgg (timeseries : Bool) (i : ℕ) (label : String) (secs : F64) (agg : String) :
    Except UnsupportedOp WindowState :=
  if !timeseries then
    .error ⟨i, "WindowAgg is not incrementally maintainable without the timeseries feature " ++
      "(exec passes it through to the membership set; recompute serves it)"⟩
  else
    match secs with
    | .finite _ =>
      match parseAgg agg with
      | some a => .ok ⟨label, secs.saturate i64Max, a, .empty⟩
      | none => .error ⟨i, "WindowAgg '" ++ agg.toLower ++ "' is not a linear aggregate " ++
          "(only count/sum/mean/avg; min/max/first/last need per-bucket multiset retraction)"⟩
    | _ => .error ⟨i, "WindowAgg width must be finite"⟩

/-- At most one `WindowAgg`, directly after the `Scan`. -/
def pushWindowAgg (timeseries : Bool) (build : CircuitBuild) (i : ℕ) (secs : F64) (agg : String) :
    Except UnsupportedOp CircuitBuild :=
  if build.window.isSome then .error ⟨i, "more than one WindowAgg is not supported"⟩
  else if 1 < build.stages.length then
    .error ⟨i, "WindowAgg over a Filter/AsOf-narrowed set is not incrementally maintainable in v1 " ++
      "(exec's empty-input-source rule makes it non-local); only Scan → WindowAgg"⟩
  else do
    let w ← compileWindowAgg timeseries i build.label secs agg
    return { build with window := some w }

def push (timeseries : Bool) (build : CircuitBuild) (i : ℕ) (op : Op) :
    Except UnsupportedOp CircuitBuild :=
  if build.limit.isSome then .error ⟨i, "no op may follow Limit"⟩
  else
    match op with
    | .filter preds => build.pushFilter i preds
    | .asOf ts axis => build.pushAsOf i ts axis
    | .windowAgg secs agg => pushWindowAgg timeseries build i secs agg
    | .limit k => .ok { build with limit := some k }
    | op => .error ⟨i, op.name ++ " has no incremental form in v1"⟩

/-- Fold the operators from position `i` on. -/
def pushAll (timeseries : Bool) : CircuitBuild → ℕ → List Op → Except UnsupportedOp CircuitBuild
  | build, _, [] => .ok build
  | build, i, op :: ops => do
    let next ← push timeseries build i op
    pushAll timeseries next (i + 1) ops

/-- Window mode has no membership stages. -/
def finish (build : CircuitBuild) : Circuit :=
  ⟨if build.window.isSome then [] else build.stages, build.window, build.limit⟩

end CircuitBuild

/-- The ids of the rows of a table that satisfy a predicate, as an ordered set. -/
def idSet {V : Type} (t : Table String V) (p : V → Bool) : Table String Unit :=
  (t.filter fun _ v => p v).mapValues fun _ => ()

def Agg.of (a : Agg) (b : Bucket) : ℚ :=
  match a with
  | .count => b.count
  | .sum => b.sum
  | .mean => b.sum / b.count

def finalizeBuckets (buckets : Table ℤ Bucket) (w : WindowState) (limit : Option ℕ) : RowSet :=
  let rows := (buckets.rows.filter fun r => 0 < r.2.count).map fun r => (r.1, w.agg.of r.2)
  let rows := rows.mergeSort fun a b => a.1 ≤ b.1
  let rs := RowSet.fromScored (rows.map fun r => (toString r.1, r.2))
  match limit with
  | some k => rs.limit k
  | none => rs

def finalizeMembers (ids : List String) (limit : Option ℕ) : RowSet :=
  RowSet.fromIds (match limit with
    | some k => ids.take k
    | none => ids)

/-- One step of the pipeline: an empty set before makes a stage a source, any other is narrowed. -/
def recurrenceStep (prev m : Table String Unit) : Table String Unit :=
  if prev.rows.isEmpty then m else prev.filter fun id _ => (m.get id).isSome

/-- The membership pipeline over the id sets of the stages. -/
def recurrence : List (Table String Unit) → List String
  | [] => []
  | m :: ms => (ms.foldl recurrenceStep m).rows.map Prod.fst

namespace Circuit

/-- Compile a plan, or name its first operator without an incremental form. -/
def compile (timeseries : Bool) (plan : Plan) : Except UnsupportedOp Circuit :=
  match plan.ops with
  | .scan label :: ops => do
    let build ← CircuitBuild.pushAll timeseries (.scanning label) 1 ops
    return build.finish
  | [] => .error ⟨0, "empty plan (nothing to incrementalize)"⟩
  | op :: _ => .error ⟨0, "plan must start with Scan, found " ++ op.name⟩

/-- Fold a delta into the maintained state; also how many entries it touched. -/
def apply (c : Circuit) (delta : Delta) : Circuit × ℕ :=
  match c.window with
  | some w =>
    let (after, touched) := applyToBuckets w delta
    ({ c with window := some after }, touched)
  | none =>
    let (after, touched) := applyToStages c.stages delta
    ({ c with stages := after }, touched)

/-- The result, read from the maintained state. -/
def current (c : Circuit) : RowSet :=
  match c.window with
  | some w => finalizeBuckets w.buckets w c.limit
  | none =>
    finalizeMembers (recurrence (c.stages.map fun s => idSet s.members fun e => 0 < e)) c.limit

def addSlot (w : WindowState) (buckets : Table ℤ Bucket) (props : Props) : Table ℤ Bucket :=
  match w.slot props with
  | none => buckets
  | some (start, val) =>
    let b := (buckets.get start).getD ⟨0, 0⟩
    buckets.insert start ⟨b.sum + val, b.count + 1⟩

def recomputeBuckets (w : WindowState) (nodes : NodeMap) : Table ℤ Bucket :=
  nodes.rows.foldl (fun buckets r => addSlot w buckets r.2) .empty

def recompute (c : Circuit) (nodes : NodeMap) : RowSet :=
  match c.window with
  | some w => finalizeBuckets (recomputeBuckets w nodes) w c.limit
  | none => finalizeMembers (recurrence (c.stages.map fun s => idSet nodes s.pred.holds)) c.limit

end Circuit

end Medulla.Query.Incremental
