import Medulla.Library.StepMachine
import Medulla.Library.Transaction
import Medulla.Tsdb.Store

/-! # Maintenance of derived series

A derived series follows its source with the state of a step machine. It advances over the points
after the last one that it consumed; when an append reports an earlier timestamp it restores the last
checkpoint before it, runs forward again over the latest versions and appends a new version wherever a
value changed. -/

namespace Medulla.Tsdb.Maintain

open Library Library.Checked Library.OrderedTable Library.StepMachine Store

def checkpointEvery : ℕ := 256

def maxCheckpoints : ℕ := 16

/-- Most source points of one attempt. -/
def workBudget : ℕ := 100000

/-- The machine right after the point at a timestamp. -/
structure Checkpoint (σ : Type) where
  ts : Ts
  seen : ℕ
  program : σ

structure DerivedState (σ : Type) where
  program : σ
  lastTs : Option Ts
  seen : ℕ
  checkpoints : List (Checkpoint σ)

structure Version (ν : Type) where
  value : ν
  revision : ℕ
  knownAt : ℕ

structure Step (ν : Type) where
  points : List (Ts × Version ν)
  consumed : ℕ
  caughtUp : Bool

section
variable {σ π ν : Type}

/-! ### Advancing -/

def DerivedState.define (m : Machine σ π ν) : DerivedState σ := ⟨m.init, none, 0, []⟩

def keepCheckpoint (checkpoints : List (Checkpoint σ)) (checkpoint : Checkpoint σ) :
    List (Checkpoint σ) :=
  if checkpoint.seen % checkpointEvery = 0 then
    let kept := checkpoints ++ [checkpoint]
    kept.drop (kept.length - maxCheckpoints)
  else checkpoints

def DerivedState.consume (m : Machine σ π ν) (s : DerivedState σ) (row : Ts × π) : DerivedState σ :=
  let program := (m.step s.program row.2).1
  { program := program
    lastTs := some row.1
    seen := s.seen + 1
    checkpoints := keepCheckpoint s.checkpoints ⟨row.1, s.seen + 1, program⟩ }

def consumeAll (m : Machine σ π ν) (emit : Ts → Option ν → Option (Version ν)) :
    DerivedState σ → List (Ts × π) → DerivedState σ × List (Ts × Version ν)
  | s, [] => (s, [])
  | s, row :: rows =>
    let rest := consumeAll m emit (s.consume m row) rows
    (rest.1, ((emit row.1 (m.step s.program row.2).2).map fun v => (row.1, v)).toList ++ rest.2)

def firstVersion (now : ℕ) (_ : Ts) (fresh : Option ν) : Option (Version ν) :=
  fresh.map fun value => ⟨value, 0, now⟩

def DerivedState.advance (m : Machine σ π ν) (s : DerivedState σ) (source : List (Ts × π))
    (now budget : ℕ) : DerivedState σ × Step ν :=
  let fresh := source.filter fun row => s.lastTs.all fun last => last < row.1
  let consumed := min fresh.length budget
  let result := consumeAll m (firstVersion now) s (fresh.take consumed)
  (result.1, ⟨result.2, consumed, consumed = fresh.length⟩)

/-! ### Replaying -/

def DerivedState.restorePoint (s : DerivedState σ) (revised : Ts) : Option (Checkpoint σ) :=
  s.checkpoints.reverse.find? fun c => c.ts < revised

/-- Go back to the last checkpoint before a revision, or to the start. -/
def DerivedState.rewind (m : Machine σ π ν) (s : DerivedState σ) (revised : Ts) : DerivedState σ :=
  let kept := s.checkpoints.filter fun c => c.ts < revised
  match s.restorePoint revised with
  | some c => ⟨c.program, some c.ts, c.seen, kept⟩
  | none => ⟨m.init, none, 0, kept⟩

/-- What a replay appends: a first value, or the next revision of one that changed. -/
def revisedVersion [DecidableEq ν] (current : Table Ts (Version ν)) (now : ℕ) (ts : Ts)
    (fresh : Option ν) : Option (Version ν) :=
  match fresh, current.get ts with
  | none, _ => none
  | some value, none => some ⟨value, 0, now⟩
  | some value, some old => if old.value = value then none else some ⟨value, old.revision + 1, now⟩

def DerivedState.replay [DecidableEq ν] (m : Machine σ π ν) (s : DerivedState σ) (revised : Ts)
    (source : List (Ts × π)) (current : Table Ts (Version ν)) (now budget : ℕ) :
    Except String (DerivedState σ × Step ν) := do
  rejectIf (budget < source.length) ("derived series replay needs " ++ toString source.length ++
    " source points, over the work budget of " ++ toString budget)
  let result := consumeAll m (revisedVersion current now) (s.rewind m revised) source
  return (result.1, ⟨result.2, source.length, true⟩)

/-! ### Attempts -/

structure System (σ π ν : Type) where
  source : Series π
  derived : Series (Version ν)
  state : Option (DerivedState σ)

def afterTs : Option Ts → Ts
  | none => tsMin
  | some t => t + 1

/-- The revision that an append reports, if it is not after the last consumed point. -/
def revisedFrom (s : DerivedState σ) (minTs : Option Ts) : Option Ts :=
  minTs.filter fun first => s.lastTs.any fun last => first ≤ last

def replayFrom (s : DerivedState σ) (revised : Ts) : Ts :=
  afterTs ((s.restorePoint revised).map Checkpoint.ts)

/-- **One attempt**: replay a revision, or advance. -/
def maintainOne [DecidableEq ν] (m : Machine σ π ν) (sys : System σ π ν) (s : DerivedState σ)
    (minTs : Option Ts) (now : ℕ) : Except String (DerivedState σ × Step ν) :=
  match revisedFrom s minTs with
  | some revised => do
    let source ← range sys.source (replayFrom s revised)
    let current ← range sys.derived (replayFrom s revised)
    s.replay m revised (latestVersions source).rows (latestVersions current) now workBudget
  | none => do
    let source ← range sys.source (afterTs s.lastTs)
    return s.advance m (latestVersions source).rows now workBudget

def commit (sys : System σ π ν) (s : DerivedState σ) (step : Step ν) : System σ π ν :=
  { sys with derived := sys.derived.append step.points, state := some s }

/-- An attempt and its commit. What fails it besides its own checks is said by `commits`: the store, a
crash, or a state over its size limit. -/
def attempt [DecidableEq ν] (m : Machine σ π ν) (sys : System σ π ν) (s : DerivedState σ)
    (minTs : Option Ts) (commits : Bool) (now : ℕ) : System σ π ν × Option (Step ν) :=
  match maintainOne m sys s minTs now with
  | .error _ => (sys, none)
  | .ok (s', step) => if commits then (commit sys s' step, some step) else (sys, none)

/-! ### Runs -/

/-- What happens to a source and its derived series. An append is followed by an attempt; a repeated
append request, or a change further up a chain, makes another one. -/
inductive Event (π : Type)
  | append (points : List (Ts × π)) (commits : Bool) (now : ℕ)
  | maintain (minTs : Option Ts) (commits : Bool) (now : ℕ)
  | define (commits : Bool) (now : ℕ)

def earliest (points : List (Ts × π)) : Option Ts := (points.map Prod.fst).min?

def maintainDefined [DecidableEq ν] (m : Machine σ π ν) (sys : System σ π ν) (minTs : Option Ts)
    (commits : Bool) (now : ℕ) : System σ π ν × Option (Step ν) :=
  match sys.state with
  | none => (sys, none)
  | some s => attempt m sys s minTs commits now

def handle [DecidableEq ν] (m : Machine σ π ν) (sys : System σ π ν) :
    Event π → System σ π ν × Option (Step ν)
  | .append points commits now =>
    maintainDefined m { sys with source := sys.source.append points } (earliest points) commits now
  | .maintain minTs commits now => maintainDefined m sys minTs commits now
  | .define commits now => attempt m sys (sys.state.getD (.define m)) none commits now

def step [DecidableEq ν] (m : Machine σ π ν) (sys : System σ π ν) (e : Event π) : System σ π ν :=
  (handle m sys e).1

def run [DecidableEq ν] (m : Machine σ π ν) : System σ π ν → List (Event π) → System σ π ν :=
  Transaction.run (step m)

def System.fresh (nFields bucketNs : ℕ) : System σ π ν :=
  ⟨⟨nFields, bucketNs, .empty⟩, ⟨3, bucketNs, .empty⟩, none⟩

end

end Medulla.Tsdb.Maintain
