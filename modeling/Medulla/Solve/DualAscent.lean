import Medulla.Solve.Propagate

/-! # The bound of a search node

Integer dual ascent on the Lagrangian relaxation. -/

namespace Medulla.Solve.DualAscent

open Library.Checked Programme Verifier Propagate

variable {δ : Type}

structure NodeBound where
  dual : LagrangeDual
  value : ℤ

/-- The reduced costs, the running scaled bound and the multiplier of each demand row. -/
structure Ascent where
  reduced : List ℤ
  total : ℤ
  multipliers : List ℤ

def residual (model : Model δ) (s : SearchState) (row : RowId) : ℤ :=
  (rowAt model row).rhs - s.fixedActivity row

def positiveTerms (model : Model δ) (s : SearchState) (row : RowId) : List (VarId × ℤ) :=
  (s.freeTerms model row).filter fun term => 0 < term.2

def demandRows (model : Model δ) (s : SearchState) : List RowId :=
  let demanding := (List.range model.rows.length).filter fun row =>
    (rowAt model row).relation ≠ .lessEqual ∧ 0 < residual model s row
  let keyed := demanding.map fun row => ((positiveTerms model s row).length, row)
  (keyed.insertionSort fun a b => a.1 < b.1 ∨ a.1 = b.1 ∧ a.2 ≤ b.2).map Prod.snd

def countShares (model : Model δ) (s : SearchState) (change : ℤ) (shares : List ℤ) (row : RowId) :
    List ℤ :=
  (positiveTerms model s row).foldl (fun shares term =>
    shares.modify term.1 fun count => count + change) shares

/-- How many of the rows hold each variable as a positive free term. -/
def shareCounts (model : Model δ) (s : SearchState) (rows : List RowId) : List ℤ :=
  rows.foldl (countShares model s 1) (List.replicate model.variableCount 0)

def least : List ℤ → Option ℤ
  | [] => none
  | a :: rest => some (rest.foldl min a)

namespace Ascent

/-- Commit a raise when every product and sum fits. -/
def apply (ascent : Ascent) (terms : List (VarId × ℤ)) (position : ℕ) (step residual : ℤ) :
    Ascent :=
  let updated : Option (List ℤ) := terms.mapM fun term => do
    let delta ← checkedI128 (step * term.2)
    checkedI128 (ascent.reduced.getD term.1 0 - delta)
  let total : Option ℤ := do
    let gain ← checkedI128 (step * residual)
    checkedI128 (gain + ascent.total)
  match updated, total with
  | some updated, some total =>
    { reduced := (terms.zip updated).foldl (fun reduced u => reduced.set u.1.1 u.2) ascent.reduced
      total := total
      multipliers := ascent.multipliers.modify position fun m => m + step }
  | _, _ => ascent

def raise (model : Model δ) (s : SearchState) (ascent : Ascent) (position : ℕ) (row : RowId)
    (shares : Option (List ℤ)) : Ascent :=
  let limit := least ((positiveTerms model s row).map fun term =>
    ascent.reduced.getD term.1 0 /
      (term.2 * shares.elim 1 fun counts => max (counts.getD term.1 0) 1))
  match limit with
  | none => ascent
  | some limit =>
    let step := min limit (maxMultiplier - ascent.multipliers.getD position 0)
    if 0 < step then ascent.apply (s.freeTerms model row) position step (residual model s row)
    else ascent

def fairShares (model : Model δ) (s : SearchState) : List (RowId × ℕ) → Ascent × List ℤ → Ascent
  | [], (ascent, _) => ascent
  | (row, position) :: rest, (ascent, shares) =>
    fairShares model s rest
      (raise model s ascent position row (some shares), countShares model s (-1) shares row)

def greedy (model : Model δ) (s : SearchState) (rows : List (RowId × ℕ)) (ascent : Ascent) :
    Ascent :=
  rows.foldl (fun ascent r => raise model s ascent r.2 r.1 none) ascent

end Ascent

def ceilDiv (numerator denominator : ℤ) : ℤ := -((-numerator) / denominator)

def Ascent.finish (s : SearchState) (rows : List RowId) (denominator : ℕ) (ascent : Ascent) :
    NodeBound :=
  let freePart := (((List.range ascent.reduced.length).filter s.isFree).map fun var =>
    min (ascent.reduced.getD var 0) 0).sum
  let entries := ((rows.zip ascent.multipliers).filter fun e => 0 < e.2).map fun e =>
    (⟨e.1, e.2⟩ : DualEntry)
  { dual := ⟨denominator, entries.insertionSort fun a b => a.row ≤ b.row⟩
    value := ceilDiv (ascent.total + freePart) denominator }

def fixedCost (s : SearchState) (reduced : List ℤ) : ℤ :=
  (((List.range reduced.length).filter fun var => s.value.getD var none = some true).map fun var =>
    reduced.getD var 0).sum

def dualAscent (model : Model δ) (s : SearchState) (denominator : ℕ) : NodeBound :=
  let reduced := model.weights.map fun weight => weight * (denominator : ℤ)
  let rows := demandRows model s
  let start : Ascent := ⟨reduced, fixedCost s reduced, List.replicate rows.length 0⟩
  let shared := Ascent.fairShares model s rows.zipIdx (start, shareCounts model s rows)
  (Ascent.greedy model s rows.zipIdx shared).finish s rows denominator

end Medulla.Solve.DualAscent
