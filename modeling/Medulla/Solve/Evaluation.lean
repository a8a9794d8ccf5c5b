import Medulla.Solve.Coherence
import Mathlib.Algebra.Order.BigOperators.Group.List
import Mathlib.Algebra.BigOperators.Intervals
import Mathlib.Algebra.Order.Ring.Abs

/-! # No evaluation of a well-shaped dual overflows

Under the limits of a validated model the checked arithmetic of the verifier never refuses a dual of the
right shape, and the value it computes is a closed form: what the multipliers gain on the right-hand
sides, and for every variable the contribution of its reduced cost. -/

namespace Medulla.Solve.Evaluation

open Library.Checked Programme Verifier Bounds ProofTree Soundness
open Coherence
open Propagate (rowAt)

variable {δ : Type} {model : Model δ} {vars : List VarId} {count : ℕ} {relation : Relation}
  {rhs : ℤ} {dual : LagrangeDual} {index : ℕ}

/-! ### The limits of a validated model -/

structure RowLimits (count : ℕ) (row : Row) : Prop where
  range : InRange count row
  distinct : (row.terms.map Term.var).Nodup
  coefficients : ∀ term ∈ row.terms, term.coefficient.natAbs ≤ maxAbsCoefficient
  rhs : row.rhs.natAbs ≤ maxAbsRhs

structure Limits (model : Model δ) : Prop where
  rows : ∀ row ∈ model.rows, RowLimits model.variableCount row
  weightCount : model.weights.length = model.variableCount
  variableCount : model.variableCount ≤ maxVariables
  rowCount : model.rows.length ≤ maxConstraints
  weights : (model.weights.map fun w => |w|).sum ≤ maxScalarMagnitude

theorem Limits.wellFormed (h : Limits model) : WellFormed model :=
  ⟨h.weightCount, fun row hrow => (h.rows row hrow).range⟩

theorem Limits.distinct (h : Limits model) : Distinct model :=
  fun row hrow => (h.rows row hrow).distinct

theorem isChain_of_firstDuplicate : ∀ {l : List VarId}, firstDuplicate l = none → l.IsChain (· ≠ ·)
  | [], _ => List.isChain_nil
  | [_], _ => List.isChain_singleton _
  | a :: b :: rest, h => by
    rw [firstDuplicate] at h
    split_ifs at h with hab
    exact List.isChain_cons_cons.mpr ⟨hab, isChain_of_firstDuplicate h⟩

theorem nodup_of_firstDuplicate (h : firstDuplicate (vars.insertionSort (· ≤ ·)) = none) :
    vars.Nodup := by
  have hsorted : (vars.insertionSort (· ≤ ·)).IsChain (· ≤ ·) :=
    List.isChain_iff_pairwise.mpr (List.pairwise_insertionSort _ _)
  have hstrict : ∀ {l : List VarId}, l.IsChain (· ≤ ·) → l.IsChain (· ≠ ·) → l.IsChain (· < ·) := by
    intro l
    induction l with
    | nil => exact fun _ _ => List.isChain_nil
    | cons a l ih =>
      cases l with
      | nil => exact fun _ _ => List.isChain_singleton _
      | cons b l =>
        intro hle hne
        rw [List.isChain_cons_cons] at hle hne ⊢
        exact ⟨lt_of_le_of_ne hle.1 hne.1, ih hle.2 hne.2⟩
  have hlt := List.isChain_iff_pairwise.mp (hstrict hsorted (isChain_of_firstDuplicate h))
  have hnodup : (vars.insertionSort (· ≤ ·)).Nodup := hlt.imp fun hab => ne_of_lt hab
  exact (List.perm_insertionSort _ vars).nodup_iff.mp hnodup

section
variable {location : Location} (h : checkVars location vars count = .ok ())
include h

theorem nodup_checkVars : vars.Nodup := by
  unfold checkVars at h
  split at h
  · cases h
  · split at h
    · cases h
    · rename_i hnone
      exact nodup_of_firstDuplicate hnone

theorem length_le_of_checkVars : vars.length ≤ count := by
  have hsub : vars ⊆ List.range count := fun var hvar => List.mem_range.mpr (checkVars_ok h var hvar)
  have hle := (List.subperm_of_subset (nodup_checkVars h) hsub).length_le
  rwa [List.length_range] at hle

end

theorem one_le_maxAbsCoefficient : 1 ≤ maxAbsCoefficient := by decide

theorem rowLimits_ofTerms {terms : List Term} (hrange : ∀ var ∈ terms.map Term.var, var < count)
    (hnodup : (terms.map Term.var).Nodup)
    (hcoefficients : ∀ term ∈ terms, term.coefficient.natAbs ≤ maxAbsCoefficient)
    (hrhs : rhs.natAbs ≤ maxAbsRhs) : RowLimits count (.ofTerms terms relation rhs) := by
  have hperm : ((Row.ofTerms terms relation rhs).terms).Perm terms := List.perm_insertionSort _ _
  refine ⟨inRange_ofTerms hrange, ?_, fun term hterm => ?_, hrhs⟩
  · exact (hperm.map Term.var).nodup_iff.mpr hnodup
  · exact hcoefficients term (hperm.mem_iff.mp hterm)

theorem rowLimits_unit (hrange : ∀ var ∈ vars, var < count) (hnodup : vars.Nodup)
    (hrhs : rhs.natAbs ≤ maxAbsRhs) : RowLimits count (.unit vars relation rhs) := by
  have hmap : (vars.map fun var => (⟨var, 1⟩ : Term)).map Term.var = vars := by
    rw [List.map_map]
    exact List.map_id vars
  refine rowLimits_ofTerms (by rwa [hmap]) (by rwa [hmap]) (fun term hterm => ?_) hrhs
  obtain ⟨var, -, rfl⟩ := List.mem_map.mp hterm
  exact one_le_maxAbsCoefficient

theorem rowLimits_group {k : Option ℕ} (h : checkGroup index vars k count = .ok ())
    (hrhs : rhs.natAbs ≤ maxAbsRhs) : RowLimits count (.unit vars relation rhs) := by
  obtain ⟨_, _, h⟩ := unbind h
  obtain ⟨_, hvars, _⟩ := unbind h
  exact rowLimits_unit (checkVars_ok hvars) (nodup_checkVars hvars) hrhs

theorem cardinality_le {k : ℕ} (h : checkGroup index vars (some k) count = .ok ())
    (hcount : count ≤ maxVariables) : ((k : ℤ)).natAbs ≤ maxAbsRhs := by
  obtain ⟨_, _, h⟩ := unbind h
  obtain ⟨_, hvars, h⟩ := unbind h
  rw [rejectIf_eq_ok] at h
  have hlen := length_le_of_checkVars hvars
  have hlimit : maxVariables ≤ maxAbsRhs := by decide
  omega

theorem rowLimits_implication {antecedent : VarId} {consequents : List VarId}
    (h : checkImplication index antecedent consequents count = .ok ()) :
    RowLimits count (lowerImplication antecedent consequents) := by
  have hrange := inRange_implication h
  obtain ⟨_, hgroup, h⟩ := unbind h
  obtain ⟨_, -, h⟩ := unbind h
  rw [rejectIf_eq_ok] at h
  obtain ⟨_, _, hgroup⟩ := unbind hgroup
  obtain ⟨_, hvars, _⟩ := unbind hgroup
  have hmap : ((consequents.map fun var => (⟨var, 1⟩ : Term)) ++ [(⟨antecedent, -1⟩ : Term)]).map Term.var =
      consequents ++ [antecedent] := by
    rw [List.map_append, List.map_map]
    exact congrArg (· ++ [antecedent]) (List.map_id consequents)
  refine rowLimits_ofTerms ?_ ?_ (fun term hterm => ?_) (by decide)
  · intro var hvar
    obtain ⟨term, hterm, rfl⟩ := List.mem_map.mp hvar
    exact hrange term ((List.mem_insertionSort _).mpr hterm)
  · rw [hmap]
    refine List.Nodup.append (nodup_checkVars hvars) (List.nodup_singleton _) ?_
    exact List.disjoint_singleton.mpr h
  · rcases List.mem_append.mp hterm with hterm | hterm
    · obtain ⟨var, -, rfl⟩ := List.mem_map.mp hterm
      exact one_le_maxAbsCoefficient
    · rw [List.mem_singleton.mp hterm]
      exact one_le_maxAbsCoefficient

theorem rowLimits_lower {constraint : ConstraintSpec}
    (h : checkConstraint index constraint count = .ok ()) (hcount : count ≤ maxVariables) :
    RowLimits count (lower constraint.body) := by
  obtain ⟨_, _, h⟩ := unbind h
  rcases hbody : constraint.body with ⟨terms, relation, rhs⟩ | ⟨a, c⟩ | ⟨a, cs⟩ | vars | ⟨vars, k⟩ |
    ⟨vars, k⟩ | ⟨var, value⟩ <;> rw [hbody] at h
  · obtain ⟨_, _, h⟩ := unbind h
    obtain ⟨_, hvars, h⟩ := unbind h
    obtain ⟨_, hterms, h⟩ := unbind h
    rw [rejectIf_eq_ok, not_lt] at h
    refine rowLimits_ofTerms (checkVars_ok hvars) (nodup_checkVars hvars) (fun term hterm => ?_) h
    obtain ⟨_, _, hcoefficient⟩ := unbind (forM_ok hterms term hterm)
    unfold checkCoefficient at hcoefficient
    split_ifs at hcoefficient with hbig
    exact not_lt.mp hbig
  · exact rowLimits_implication h
  · exact rowLimits_implication h
  · exact rowLimits_group h (by decide)
  · exact rowLimits_group h (cardinality_le h hcount)
  · exact rowLimits_group h (cardinality_le h hcount)
  · refine rowLimits_unit (checkVars_ok h) (nodup_checkVars h) ?_
    cases value <;> decide

theorem foldlM_magnitude {weights : List ℤ} {start total : ℤ}
    (h : weights.foldlM (fun sum weight => do
      let magnitude ← checkedI128 weight.natAbs
      checkedI128 (sum + magnitude)) start = some total) :
    total = start + (weights.map fun w => |w|).sum := by
  induction weights generalizing start with
  | nil =>
    rw [List.map_nil, List.sum_nil, add_zero]
    exact (Option.some.inj h).symm
  | cons weight weights ih =>
    rw [List.foldlM_cons] at h
    obtain ⟨sum, hsum, h⟩ := Option.bind_eq_some_iff.mp h
    obtain ⟨magnitude, hmagnitude, hsum⟩ := Option.bind_eq_some_iff.mp hsum
    rw [ih h, ← checkedI128_eq_some hsum, ← checkedI128_eq_some hmagnitude, List.map_cons,
      List.sum_cons, Int.abs_eq_natAbs]
    ring

theorem weights_le {levels : List ObjectiveLevelSpec} {weights : List ℤ}
    (h : scalarWeights levels count = .ok weights) :
    (weights.map fun w => |w|).sum ≤ maxScalarMagnitude := by
  obtain ⟨out, _, h⟩ := unbind h
  obtain ⟨_, hmagnitude, h⟩ := unbind h
  cases h
  unfold checkMagnitude at hmagnitude
  dsimp only at hmagnitude
  split at hmagnitude
  · rename_i value hvalue
    split_ifs at hmagnitude with hle
    have htotal := foldlM_magnitude hvalue
    rw [zero_add] at htotal
    rwa [← htotal]
  · cases hmagnitude

/-- **A model built from a spec** is within the limits. -/
theorem limits_tryFrom {ofJson : ModelSpec → δ} {spec : ModelSpec}
    (h : Model.tryFrom ofJson spec = .ok model) : Limits model := by
  obtain ⟨_, hvalid, h⟩ := unbind h
  obtain ⟨weights, hweights, h⟩ := unbind h
  cases h
  obtain ⟨_, hsizes, hvalid⟩ := unbind hvalid
  obtain ⟨_, _, hvalid⟩ := unbind hvalid
  obtain ⟨_, hconstraints, _⟩ := unbind hvalid
  unfold checkSizes at hsizes
  dsimp only at hsizes
  split_ifs at hsizes with hzero hmany hrows hlevels
  have hcount : spec.names.length ≤ maxVariables := not_lt.mp hmany
  refine ⟨fun row hrow => ?_, length_scalarWeights hweights, hcount, ?_, weights_le hweights⟩
  · obtain ⟨constraint, hmem, rfl⟩ := List.mem_map.mp hrow
    obtain ⟨i, hi, hget⟩ := List.mem_iff_getElem.mp hmem
    have hidx : (constraint, i) ∈ spec.constraints.zipIdx := by
      rw [List.mk_mem_zipIdx_iff_getElem?, List.getElem?_eq_getElem hi, hget]
    exact rowLimits_lower (forM_ok hconstraints _ hidx) hcount
  · dsimp only
    rw [List.length_map]
    exact not_lt.mp hrows

/-! ### Magnitudes -/

def mass (costs : List ℤ) : ℤ := (costs.map fun c => |c|).sum

def termMass (terms : List Term) : ℤ := (terms.map fun t => |t.coefficient|).sum

theorem mass_nonneg (costs : List ℤ) : 0 ≤ mass costs := by
  refine List.sum_nonneg fun v hv => ?_
  obtain ⟨c, -, rfl⟩ := List.mem_map.mp hv
  exact abs_nonneg c

theorem termMass_nonneg (terms : List Term) : 0 ≤ termMass terms := by
  refine List.sum_nonneg fun v hv => ?_
  obtain ⟨t, -, rfl⟩ := List.mem_map.mp hv
  exact abs_nonneg t.coefficient

theorem mass_cons (c : ℤ) (costs : List ℤ) : mass (c :: costs) = |c| + mass costs := by
  rw [mass, List.map_cons, List.sum_cons, mass]

theorem abs_getD_le_mass : ∀ (costs : List ℤ) (j : ℕ), |costs.getD j 0| ≤ mass costs
  | [], j => by simp [mass]
  | c :: costs, 0 => by
    rw [List.getD_cons_zero, mass_cons]
    have := mass_nonneg costs
    omega
  | c :: costs, j + 1 => by
    rw [List.getD_cons_succ, mass_cons]
    have h := abs_getD_le_mass costs j
    have hc := abs_nonneg c
    omega

theorem mass_set_le (d : ℤ) : ∀ (costs : List ℤ) (j : ℕ),
    mass (costs.set j (costs.getD j 0 - d)) ≤ mass costs + |d|
  | [], j => by simp [mass]
  | c :: costs, 0 => by
    rw [List.getD_cons_zero, List.set_cons_zero, mass_cons, mass_cons]
    have h := abs_sub c d
    omega
  | c :: costs, j + 1 => by
    rw [List.getD_cons_succ, List.set_cons_succ, mass_cons, mass_cons]
    have h := mass_set_le d costs j
    omega

theorem checkedI128_of_abs {v : ℤ} (h : |v| < 2 ^ 127) : checkedI128 v = some v := by
  have habs := abs_lt.mp h
  exact if_pos ⟨le_of_lt habs.1, habs.2⟩

theorem getD_set {costs : List ℤ} {i : ℕ} (hi : i < costs.length) (v : ℤ) (j : ℕ) :
    (costs.set i v).getD j 0 = if i = j then v else costs.getD j 0 := by
  rw [List.getD_eq_getElem?_getD, List.getElem?_set]
  split_ifs with hij
  · rfl
  · rw [List.getD_eq_getElem?_getD]

/-! ### Evaluating a dual -/

def coefficientSum (terms : List Term) (var : VarId) : ℤ := (coefficients terms var).sum

theorem coefficientSum_cons (term : Term) (terms : List Term) (var : VarId) :
    coefficientSum (term :: terms) var =
      (if term.var = var then term.coefficient else 0) + coefficientSum terms var := by
  unfold coefficientSum coefficients
  by_cases h : term.var = var
  · simp [h]
  · simp [h]

theorem subtractRow_evaluates (multiplier : ℤ) : ∀ (terms : List Term) (costs : List ℤ),
    (∀ term ∈ terms, term.var < costs.length) →
    mass costs + |multiplier| * termMass terms < 2 ^ 127 →
    ∃ reduced, subtractRow multiplier terms costs = some reduced ∧ reduced.length = costs.length ∧
      mass reduced ≤ mass costs + |multiplier| * termMass terms ∧
      ∀ j, reduced.getD j 0 = costs.getD j 0 - multiplier * coefficientSum terms j
  | [], costs, _, _ => by
    refine ⟨costs, rfl, rfl, ?_, fun j => ?_⟩
    · simp [termMass]
    · simp [coefficientSum, coefficients]
  | term :: terms, costs, hvars, hmass => by
    have hvar := hvars term (.head _)
    have hsplit : |multiplier| * termMass (term :: terms) =
        |multiplier * term.coefficient| + |multiplier| * termMass terms := by
      rw [termMass, List.map_cons, List.sum_cons, mul_add, abs_mul]
      rfl
    have hrest : 0 ≤ |multiplier| * termMass terms := mul_nonneg (abs_nonneg _) (termMass_nonneg _)
    have hcosts := mass_nonneg costs
    have hset := mass_set_le (multiplier * term.coefficient) costs term.var
    have hdelta : checkedI128 (multiplier * term.coefficient) =
        some (multiplier * term.coefficient) := checkedI128_of_abs (by omega)
    have hslot : checkedI128 (costs.getD term.var 0 - multiplier * term.coefficient) =
        some (costs.getD term.var 0 - multiplier * term.coefficient) := by
      refine checkedI128_of_abs ?_
      have h1 := abs_sub (costs.getD term.var 0) (multiplier * term.coefficient)
      have h2 := abs_getD_le_mass costs term.var
      omega
    obtain ⟨reduced, hreduced, hlen, hle, hget⟩ := subtractRow_evaluates multiplier terms
      (costs.set term.var (costs.getD term.var 0 - multiplier * term.coefficient))
      (fun t ht => by rw [List.length_set]; exact hvars t (.tail _ ht)) (by omega)
    refine ⟨reduced, ?_, by rw [hlen, List.length_set], by omega, fun j => ?_⟩
    · rw [subtractRow, hdelta]
      dsimp only [Option.bind_eq_bind, Option.bind_some]
      rw [hslot]
      exact hreduced
    · rw [hget, getD_set hvar, coefficientSum_cons]
      split_ifs with hj
      · rw [hj]
        ring
      · ring

abbrev Weighted := List (RowId × ℤ)

/-- What the multipliers gain on the right-hand sides. -/
def rhsGain (model : Model δ) (rows : Weighted) : ℤ :=
  (rows.map fun r => r.2 * (rowAt model r.1).rhs).sum

def costLoss (model : Model δ) (rows : Weighted) (j : ℕ) : ℤ :=
  (rows.map fun r => r.2 * coefficientSum (rowAt model r.1).terms j).sum

def weighted (entries : List DualEntry) : Weighted := entries.map fun e => (e.row, e.numerator)

def lagrangian (model : Model δ) (costs : List ℤ) (rows : Weighted) (path : List (Option Bool)) :
    ℤ :=
  rhsGain model rows + ∑ j ∈ Finset.range model.variableCount,
    contribution (costs.getD j 0 - costLoss model rows j) (path.getD j none)

def EntryShaped (model : Model δ) (entry : DualEntry) : Prop :=
  ∃ row, model.rows[entry.row]? = some row ∧ signAllowed row.relation entry.numerator = true ∧
    entry.numerator.natAbs ≤ maxMultiplier

structure Shaped (model : Model δ) (dual : LagrangeDual) : Prop where
  positive : 0 < dual.denominator
  bounded : dual.denominator ≤ maxBoundDenominator
  ascending : dual.entries.IsChain fun a b => a.row < b.row
  entries : ∀ entry ∈ dual.entries, EntryShaped model entry

theorem checkEntries_of_shaped {node : ℕ} : ∀ {entries : List DualEntry},
    (∀ entry ∈ entries, EntryShaped model entry) → checkEntries model.rows node entries = .ok ()
  | [], _ => rfl
  | entry :: entries, h => by
    obtain ⟨row, hrow, hsign, hbound⟩ := h entry (.head _)
    refine bind_eq_ok.mpr ⟨row, orReject_eq_ok.mpr hrow, ?_⟩
    refine bind_eq_ok.mpr ⟨(), rejectIf_eq_ok.mpr ?_, ?_⟩
    · rw [not_or, Bool.not_eq_false]
      exact ⟨hsign, not_lt.mpr hbound⟩
    · exact checkEntries_of_shaped fun e he => h e (.tail _ he)

theorem checkShape_of_shaped (h : Shaped model dual) (node : ℕ) :
    checkShape model dual node = .ok () := by
  refine bind_eq_ok.mpr ⟨(), rejectIf_eq_ok.mpr ?_, ?_⟩
  · rw [not_or]
    exact ⟨ne_of_gt h.positive, not_lt.mpr h.bounded⟩
  · refine bind_eq_ok.mpr ⟨(), rejectIf_eq_ok.mpr (not_not.mpr h.ascending), ?_⟩
    exact checkEntries_of_shaped h.entries

theorem termMass_le : ∀ (terms : List Term) (bound : ℤ),
    (∀ term ∈ terms, |term.coefficient| ≤ bound) → termMass terms ≤ terms.length * bound
  | [], bound, _ => by simp [termMass]
  | term :: terms, bound, h => by
    have ih := termMass_le terms bound fun t ht => h t (.tail _ ht)
    have hterm := h term (.head _)
    rw [termMass, List.map_cons, List.sum_cons, List.length_cons, Nat.cast_add, Nat.cast_one]
    unfold termMass at ih
    linarith

theorem termMass_row (hlimits : Limits model) {row : Row} (hrow : row ∈ model.rows) :
    termMass row.terms ≤ 2 ^ 52 := by
  have h := hlimits.rows row hrow
  have hmass := termMass_le row.terms (2 ^ 40) fun term hterm => by
    rw [Int.abs_eq_natAbs]
    exact_mod_cast h.coefficients term hterm
  have hsub : row.terms.map Term.var ⊆ List.range model.variableCount := by
    intro var hvar
    obtain ⟨term, hterm, rfl⟩ := List.mem_map.mp hvar
    exact List.mem_range.mpr (h.range term hterm)
  have hlen := (List.subperm_of_subset h.distinct hsub).length_le
  rw [List.length_map, List.length_range] at hlen
  have hcount : (row.terms.length : ℤ) ≤ 4096 := by
    have hvars := hlimits.variableCount
    exact_mod_cast hlen.trans hvars
  calc termMass row.terms ≤ row.terms.length * 2 ^ 40 := hmass
    _ ≤ 4096 * 2 ^ 40 := by
      exact mul_le_mul_of_nonneg_right hcount (by norm_num)
    _ = 2 ^ 52 := by norm_num

theorem applyEntries_evaluates (hlimits : Limits model) : ∀ (entries : List DualEntry)
    (costs : List ℤ) (scaled : ℤ), costs.length = model.variableCount →
    (∀ entry ∈ entries, EntryShaped model entry) →
    mass costs + entries.length * 2 ^ 108 < 2 ^ 127 →
    |scaled| + entries.length * 2 ^ 108 < 2 ^ 127 →
    ∃ reduced total, applyEntries model.rows entries (costs, scaled) = some (reduced, total) ∧
      reduced.length = model.variableCount ∧
      mass reduced ≤ mass costs + entries.length * 2 ^ 108 ∧
      |total| ≤ |scaled| + entries.length * 2 ^ 108 ∧
      total = scaled + rhsGain model (weighted entries) ∧
      ∀ j, reduced.getD j 0 = costs.getD j 0 - costLoss model (weighted entries) j
  | [], costs, scaled, hlen, _, _, _ => by
    refine ⟨costs, scaled, rfl, hlen, by simp, by simp, ?_, fun j => ?_⟩
    · simp [rhsGain, weighted]
    · simp [costLoss, weighted]
  | entry :: entries, costs, scaled, hlen, hentries, hmass, hscaled => by
    obtain ⟨row, hrow, -, hbound⟩ := hentries entry (.head _)
    have hmem := List.mem_of_getElem? hrow
    have hat : model.rows.getD entry.row ⟨[], .equal, 0⟩ = row := rowAt_eq hrow
    have hnumerator : |entry.numerator| ≤ 2 ^ 56 := by
      rw [Int.abs_eq_natAbs]
      exact_mod_cast hbound
    have hrhs : |row.rhs| ≤ 2 ^ 52 := by
      rw [Int.abs_eq_natAbs]
      exact_mod_cast (hlimits.rows row hmem).rhs
    have hgain : |entry.numerator * row.rhs| ≤ 2 ^ 108 := by
      rw [abs_mul]
      calc |entry.numerator| * |row.rhs| ≤ 2 ^ 56 * 2 ^ 52 :=
          mul_le_mul hnumerator hrhs (abs_nonneg _) (by norm_num)
        _ = 2 ^ 108 := by norm_num
    have hrowMass : |entry.numerator| * termMass row.terms ≤ 2 ^ 108 := by
      calc |entry.numerator| * termMass row.terms ≤ 2 ^ 56 * 2 ^ 52 :=
          mul_le_mul hnumerator (termMass_row hlimits hmem) (termMass_nonneg _) (by norm_num)
        _ = 2 ^ 108 := by norm_num
    rw [List.length_cons] at hmass hscaled
    have hsum := abs_add_le scaled (entry.numerator * row.rhs)
    have happlied : checkedI128 (entry.numerator * row.rhs) = some (entry.numerator * row.rhs) :=
      checkedI128_of_abs (by have := abs_nonneg scaled; omega)
    have htotal : checkedI128 (scaled + entry.numerator * row.rhs) =
        some (scaled + entry.numerator * row.rhs) := checkedI128_of_abs (by omega)
    obtain ⟨reduced, hreduced, hlen', hle, hget⟩ :=
      subtractRow_evaluates entry.numerator row.terms costs
        (by rw [hlen]; exact (hlimits.rows row hmem).range) (by omega)
    obtain ⟨reduced', total, happly, hlen'', hle', habs, htot, hget'⟩ :=
      applyEntries_evaluates hlimits entries reduced (scaled + entry.numerator * row.rhs)
        (hlen'.trans hlen)
        (fun e he => hentries e (.tail _ he)) (by omega) (by omega)
    refine ⟨reduced', total, ?_, hlen'', ?_, ?_, ?_, fun j => ?_⟩
    · rw [applyEntries, hat, happlied]
      dsimp only [Option.bind_eq_bind, Option.bind_some]
      rw [htotal]
      rw [hreduced]
      exact happly
    · rw [List.length_cons]
      omega
    · rw [List.length_cons]
      omega
    · unfold rhsGain weighted at htot ⊢
      rw [htot, List.map_cons, List.map_cons, List.sum_cons, rowAt_eq hrow]
      ring
    · unfold costLoss weighted at hget' ⊢
      rw [hget', hget, List.map_cons, List.map_cons, List.sum_cons, rowAt_eq hrow]
      ring

theorem length_entries_le {entries : List DualEntry}
    (hascending : entries.IsChain fun a b => a.row < b.row)
    (hentries : ∀ entry ∈ entries, EntryShaped model entry) :
    entries.length ≤ model.rows.length := by
  have hpair := List.isChain_iff_pairwise.mp hascending
  have hnodup : (entries.map DualEntry.row).Nodup := by
    rw [List.Nodup, List.pairwise_map]
    exact hpair.imp fun hab => ne_of_lt hab
  have hsub : entries.map DualEntry.row ⊆ List.range model.rows.length := by
    intro r hr
    obtain ⟨entry, hentry, rfl⟩ := List.mem_map.mp hr
    obtain ⟨row, hrow, -⟩ := hentries entry hentry
    exact List.mem_range.mpr (List.getElem?_eq_some_iff.mp hrow).1
  have hle := (List.subperm_of_subset hnodup hsub).length_le
  rwa [List.length_map, List.length_range] at hle

theorem abs_contribution_le (cost : ℤ) (p : Option Bool) : |contribution cost p| ≤ |cost| := by
  rcases p with _ | _ | _
  · unfold contribution
    rcases le_total cost 0 with h | h
    · rw [min_eq_left h]
    · rw [min_eq_right h]
      exact abs_nonneg cost
  · exact abs_nonneg cost
  · exact le_refl _

theorem contributions_evaluate : ∀ (costs : List ℤ) (path : List (Option Bool)) (start : ℤ),
    path.length = costs.length → |start| + mass costs < 2 ^ 127 →
    ((costs.zip path).map fun c => contribution c.1 c.2).foldlM
      (fun sum part => checkedI128 (sum + part)) start =
      some (start + ∑ j ∈ Finset.range costs.length,
        contribution (costs.getD j 0) (path.getD j none))
  | [], [], start, _, _ => by simp
  | [], _ :: _, _, h, _ => by simp at h
  | _ :: _, [], _, h, _ => by simp at h
  | cost :: costs, p :: path, start, hlen, hmass => by
    rw [mass_cons] at hmass
    have habs := abs_contribution_le cost p
    have hsum := abs_add_le start (contribution cost p)
    have hnonneg := mass_nonneg costs
    have hchecked : checkedI128 (start + contribution cost p) = some (start + contribution cost p) :=
      checkedI128_of_abs (by omega)
    have ih := contributions_evaluate costs path (start + contribution cost p)
      (by simpa using hlen) (by omega)
    rw [List.zip_cons_cons, List.map_cons, List.foldlM_cons]
    rw [hchecked]
    dsimp only [Option.bind_eq_bind, Option.bind_some]
    rw [ih, List.length_cons, Finset.sum_range_succ']
    simp only [List.getD_cons_succ, List.getD_cons_zero]
    congr 1
    ring

def baseCosts (model : Model δ) (scale : ℤ) : Target → List ℤ
  | .objective => model.weights.map fun weight => weight * scale
  | .feasibility => List.replicate model.variableCount 0

theorem mapM_scaled {scale : ℤ} : ∀ {weights : List ℤ},
    (∀ weight ∈ weights, |weight * scale| < 2 ^ 127) →
    (weights.mapM fun weight => checkedI128 (weight * scale)) =
      some (weights.map fun weight => weight * scale)
  | [], _ => rfl
  | weight :: weights, h => by
    rw [List.mapM_cons, checkedI128_of_abs (h weight List.mem_cons_self),
      mapM_scaled fun w hw => h w (.tail _ hw)]
    rfl

theorem mass_scaled (scale : ℤ) : ∀ weights : List ℤ,
    mass (weights.map fun weight => weight * scale) = mass weights * |scale|
  | [] => by simp [mass]
  | weight :: weights => by
    rw [List.map_cons, mass_cons, mass_cons, mass_scaled scale weights, abs_mul]
    ring

theorem mass_replicate_zero : ∀ n : ℕ, mass (List.replicate n 0) = 0
  | 0 => rfl
  | n + 1 => by rw [List.replicate_succ, mass_cons, mass_replicate_zero n, abs_zero, add_zero]

theorem initialCosts_evaluates (hlimits : Limits model) {scale : ℤ} (hnonneg : 0 ≤ scale)
    (hscale : scale ≤ 2 ^ 16) (target : Target) :
    initialCosts model scale target = some (baseCosts model scale target) ∧
      (baseCosts model scale target).length = model.variableCount ∧
      mass (baseCosts model scale target) ≤ 2 ^ 116 := by
  cases target with
  | objective =>
    have hmass : mass (model.weights.map fun weight => weight * scale) ≤ 2 ^ 116 := by
      rw [mass_scaled, abs_of_nonneg hnonneg]
      calc mass model.weights * scale ≤ 2 ^ 100 * 2 ^ 16 :=
          mul_le_mul hlimits.weights hscale hnonneg (by norm_num)
        _ = 2 ^ 116 := by norm_num
    refine ⟨mapM_scaled fun weight hweight => ?_, ?_, hmass⟩
    · obtain ⟨j, hj, rfl⟩ := List.mem_iff_getElem.mp hweight
      have hle := abs_getD_le_mass (model.weights.map fun weight => weight * scale) j
      have hget : (model.weights.map fun weight => weight * scale).getD j 0 =
          model.weights[j] * scale := by simp [hj]
      rw [hget] at hle
      calc |model.weights[j] * scale| ≤ 2 ^ 116 := hle.trans hmass
        _ < 2 ^ 127 := by norm_num
    · exact (List.length_map _).trans hlimits.weightCount
  | feasibility =>
    refine ⟨rfl, List.length_replicate, ?_⟩
    change mass (List.replicate model.variableCount 0) ≤ 2 ^ 116
    rw [mass_replicate_zero]
    norm_num

theorem applied_of_shaped (hlimits : Limits model) (hdual : Shaped model dual) (target : Target) :
    initialCosts model dual.denominator target = some (baseCosts model dual.denominator target) ∧
      ∃ reduced total, applyEntries model.rows dual.entries
          (baseCosts model dual.denominator target, 0) = some (reduced, total) ∧
        reduced.length = model.variableCount ∧ mass reduced ≤ 2 ^ 116 + 2 ^ 124 ∧
        |total| ≤ 2 ^ 124 ∧ total = rhsGain model (weighted dual.entries) ∧
        ∀ j, reduced.getD j 0 = (baseCosts model dual.denominator target).getD j 0 -
          costLoss model (weighted dual.entries) j := by
  have hscale : (dual.denominator : ℤ) ≤ 2 ^ 16 := by
    have := hdual.bounded
    exact_mod_cast this
  obtain ⟨hinitial, hlen, hmass⟩ :=
    initialCosts_evaluates hlimits (Int.natCast_nonneg _) hscale target
  have hcount : (dual.entries.length : ℤ) ≤ 65536 := by
    have hrows := hlimits.rowCount
    exact_mod_cast (length_entries_le hdual.ascending hdual.entries).trans hrows
  obtain ⟨reduced, total, happly, hlen', hle, habs, htotal, hget⟩ :=
    applyEntries_evaluates hlimits dual.entries _ 0 hlen hdual.entries
      (by linarith) (by rw [abs_zero]; linarith)
  rw [abs_zero] at habs
  rw [zero_add] at htotal
  exact ⟨hinitial, reduced, total, happly, hlen', by linarith, by linarith, htotal, hget⟩

/-- **The verifier evaluates every dual of the right shape**, to its closed form. -/
theorem scaledLagrangian_evaluates (hlimits : Limits model) (hdual : Shaped model dual)
    {path : List (Option Bool)} (hpath : path.length = model.variableCount) (target : Target)
    (node : ℕ) :
    scaledLagrangian model dual path target node =
      .ok (lagrangian model (baseCosts model dual.denominator target) (weighted dual.entries)
        path) := by
  obtain ⟨hinitial, reduced, total, happly, hlen, hmass, habs, htotal, hget⟩ :=
    applied_of_shaped hlimits hdual target
  refine bind_eq_ok.mpr ⟨(), checkShape_of_shaped hdual node, ?_⟩
  rw [orReject_eq_ok, hinitial]
  dsimp only [Option.bind_eq_bind, Option.bind_some]
  rw [happly]
  dsimp only [Option.bind_some]
  rw [contributions_evaluate _ _ _ (by rw [hpath, hlen]) (by linarith), hlen]
  congr 2
  exact Finset.sum_congr rfl fun j _ => by rw [hget]

theorem abs_sum_contribution_le : ∀ (costs : List ℤ) (path : List (Option Bool)),
    |∑ j ∈ Finset.range costs.length, contribution (costs.getD j 0) (path.getD j none)| ≤ mass costs
  | [], path => by simp [mass]
  | cost :: costs, path => by
    have ih := abs_sum_contribution_le costs path.tail
    have htail : ∀ j, path.tail.getD j none = path.getD (j + 1) none := by
      intro j
      cases path <;> rfl
    rw [List.length_cons, Finset.sum_range_succ', mass_cons]
    simp only [List.getD_cons_succ, List.getD_cons_zero]
    simp only [htail] at ih
    have hfirst := abs_contribution_le cost (path.getD 0 none)
    have hsum := abs_add_le (∑ j ∈ Finset.range costs.length,
      contribution (costs.getD j 0) (path.getD (j + 1) none)) (contribution cost (path.getD 0 none))
    omega

theorem abs_lagrangian_le (hlimits : Limits model) (hdual : Shaped model dual)
    (path : List (Option Bool)) (target : Target) :
    |lagrangian model (baseCosts model dual.denominator target) (weighted dual.entries) path| ≤
      2 ^ 126 := by
  obtain ⟨-, reduced, total, -, hlen, hmass, habs, htotal, hget⟩ :=
    applied_of_shaped hlimits hdual target
  have hsum := abs_sum_contribution_le reduced path
  rw [hlen] at hsum
  simp only [hget] at hsum
  have hadd := abs_add_le (rhsGain model (weighted dual.entries))
    (∑ j ∈ Finset.range model.variableCount,
      contribution ((baseCosts model dual.denominator target).getD j 0 -
        costLoss model (weighted dual.entries) j) (path.getD j none))
  rw [htotal] at habs
  unfold lagrangian
  linarith

end Medulla.Solve.Evaluation
