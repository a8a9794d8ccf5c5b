import Medulla.Solve.Evaluation
import Medulla.Solve.DualAscent
import Medulla.Solve.Forcing
import Mathlib.Algebra.BigOperators.Ring.Finset
import Mathlib.Algebra.Order.BigOperators.Group.Finset
import Mathlib.Data.List.GetD

/-! # The ascent certifies its value

The running total of a dual ascent is the Lagrangian of its multipliers without the contributions of the
free variables, and the reduced costs of the free variables are the verifier's. -/

namespace Medulla.Solve.AscentValue

open Library.Checked Programme Verifier ProofTree Propagate DualAscent
open Coherence Evaluation Forcing

variable {δ : Type} {model : Model δ} {n position : ℕ} {spec : Row} {step : ℤ}
  {value : VarId × ℤ → ℤ} {multipliers costs : List ℤ} {row : RowId}

/-! ### Sums over the variables of a row -/

theorem coefficientSum_eq_zero {terms : List Term} {var : VarId}
    (h : var ∉ terms.map Term.var) : coefficientSum terms var = 0 := by
  have hnone : (terms.filter fun t => t.var = var) = [] := by
    refine List.filter_eq_nil_iff.mpr fun t ht hvar => ?_
    exact h (List.mem_map.mpr ⟨t, ht, by simpa using hvar⟩)
  unfold coefficientSum coefficients
  rw [hnone]
  rfl

theorem sum_variables (F : ℕ → ℤ → ℤ) (hF : ∀ j, F j 0 = 0) : ∀ {terms : List Term},
    (terms.map Term.var).Nodup → (∀ term ∈ terms, term.var < n) →
    ∑ j ∈ Finset.range n, F j (coefficientSum terms j) =
      (terms.map fun t => F t.var t.coefficient).sum
  | [], _, _ => by
    refine Finset.sum_eq_zero fun j _ => ?_
    exact hF j
  | term :: terms, hnodup, hrange => by
    rw [List.map_cons, List.nodup_cons] at hnodup
    have hsplit : ∀ j, F j (coefficientSum (term :: terms) j) =
        (if term.var = j then F term.var term.coefficient else 0) + F j (coefficientSum terms j) := by
      intro j
      rw [coefficientSum_cons]
      split_ifs with hj
      · subst hj
        rw [coefficientSum_eq_zero hnodup.1, add_zero, hF, add_zero]
      · rw [zero_add, zero_add]
    rw [Finset.sum_congr rfl fun j _ => hsplit j, Finset.sum_add_distrib, Finset.sum_ite_eq,
      if_pos (Finset.mem_range.mpr (hrange term (.head _))),
      sum_variables F hF hnodup.2 fun t ht => hrange t (.tail _ ht)]
    rfl

theorem fixed_eq_sum {path : List (Option Bool)} (h : RowLimits n spec) :
    (activityOf path spec.terms).fixed =
      ∑ j ∈ Finset.range n, if path[j]? = some (some true) then coefficientSum spec.terms j else 0 :=
  (sum_variables (fun j c => if path[j]? = some (some true) then c else 0) (fun _ => ite_self 0)
    h.distinct h.range).symm

theorem sum_contribution {path : List (Option Bool)} (h : RowLimits n spec) (multiplier : ℤ) :
    ∑ j ∈ Finset.range n, contribution (multiplier * coefficientSum spec.terms j) (path.getD j none) =
      (spec.terms.map fun t =>
        contribution (multiplier * t.coefficient) (path.getD t.var none)).sum := by
  refine sum_variables (fun j c => contribution (multiplier * c) (path.getD j none)) (fun j => ?_)
    h.distinct h.range
  rw [mul_zero]
  rcases path.getD j none with _ | _ | _ <;> rfl

/-! ### Weighted rows -/

theorem sum_zip_modify (g : RowId → ℤ) (step : ℤ) : ∀ (rows : List RowId) (multipliers : List ℤ)
    (position : ℕ) (row : RowId), multipliers.length = rows.length → rows[position]? = some row →
    ((rows.zip (multipliers.modify position fun m => m + step)).map fun r => r.2 * g r.1).sum =
      ((rows.zip multipliers).map fun r => r.2 * g r.1).sum + step * g row
  | [], _, _, _, _, h => by simp at h
  | _ :: _, [], _, _, h, _ => by simp at h
  | first :: rows, m :: multipliers, 0, row, _, h => by
    have hrow : first = row := by simpa using h
    rw [hrow]
    simp only [List.modify_zero_cons, List.zip_cons_cons, List.map_cons, List.sum_cons]
    ring
  | first :: rows, m :: multipliers, position + 1, row, hlen, h => by
    have ih := sum_zip_modify g step rows multipliers position row (by simpa using hlen)
      (by simpa using h)
    simp only [List.modify_succ_cons, List.zip_cons_cons, List.map_cons, List.sum_cons, ih]
    ring

/-! ### One raise -/

structure Ascends (model : Model δ) (s : SearchState) (scale : ℤ) (rows : List RowId)
    (a : Ascent) : Prop where
  reducedLength : a.reduced.length = model.variableCount
  length : a.multipliers.length = rows.length
  bounded : ∀ m ∈ a.multipliers, 0 ≤ m ∧ m ≤ maxMultiplier
  reduced : ∀ j, s.value[j]? = some none → a.reduced.getD j 0 =
    (baseCosts model scale .objective).getD j 0 - costLoss model (rows.zip a.multipliers) j
  total : a.total = rhsGain model (rows.zip a.multipliers) +
    ∑ j ∈ Finset.range model.variableCount, if s.value[j]? = some (some true) then
      (baseCosts model scale .objective).getD j 0 - costLoss model (rows.zip a.multipliers) j else 0

theorem mapM_updated {reduced : List ℤ} : ∀ {terms : List (VarId × ℤ)}
    {updated : List ℤ}, (terms.mapM fun term => do
      let delta ← checkedI128 (step * term.2)
      checkedI128 (reduced.getD term.1 0 - delta)) = some updated →
    updated = terms.map fun term => reduced.getD term.1 0 - step * term.2
  | [], updated, h => by
    cases h
    rfl
  | term :: terms, updated, h => by
    rw [List.mapM_cons] at h
    obtain ⟨v, hv, h⟩ := Option.bind_eq_some_iff.mp h
    obtain ⟨rest, hrest, h⟩ := Option.bind_eq_some_iff.mp h
    obtain ⟨delta, hdelta, hv⟩ := Option.bind_eq_some_iff.mp hv
    cases h
    rw [mapM_updated hrest, ← checkedI128_eq_some hv, ← checkedI128_eq_some hdelta, List.map_cons]

theorem zip_map_foldl : ∀ (terms : List (VarId × ℤ)) (reduced : List ℤ),
    (terms.zip (terms.map value)).foldl (fun reduced u => reduced.set u.1.1 u.2) reduced =
      terms.foldl (fun reduced t => reduced.set t.1 (value t)) reduced
  | [], _ => rfl
  | term :: terms, reduced => by
    rw [List.map_cons, List.zip_cons_cons, List.foldl_cons, List.foldl_cons, zip_map_foldl terms]

theorem length_foldl_set : ∀ (terms : List (VarId × ℤ)) (reduced : List ℤ),
    (terms.foldl (fun reduced t => reduced.set t.1 (value t)) reduced).length = reduced.length
  | [], _ => rfl
  | term :: terms, reduced => by
    rw [List.foldl_cons, length_foldl_set terms, List.length_set]

theorem getD_foldl_set_of_notMem {j : ℕ} :
    ∀ {terms : List (VarId × ℤ)} {reduced : List ℤ}, j ∉ terms.map Prod.fst →
    (terms.foldl (fun reduced t => reduced.set t.1 (value t)) reduced).getD j 0 = reduced.getD j 0
  | [], _, _ => rfl
  | term :: terms, reduced, h => by
    rw [List.map_cons, List.mem_cons, not_or] at h
    rw [List.foldl_cons, getD_foldl_set_of_notMem h.2, List.getD_eq_getElem?_getD,
      List.getElem?_set_ne (Ne.symm h.1), List.getD_eq_getElem?_getD]

theorem getD_foldl_set (value : VarId × ℤ → ℤ) {term : VarId × ℤ} :
    ∀ {terms : List (VarId × ℤ)} {reduced : List ℤ}, (terms.map Prod.fst).Nodup → term ∈ terms →
    term.1 < reduced.length →
    (terms.foldl (fun reduced t => reduced.set t.1 (value t)) reduced).getD term.1 0 = value term
  | first :: terms, reduced, hnodup, hmem, hlt => by
    rw [List.map_cons, List.nodup_cons] at hnodup
    rw [List.foldl_cons]
    rcases List.mem_cons.mp hmem with rfl | hmem
    · rw [getD_foldl_set_of_notMem hnodup.1, getD_set hlt, if_pos rfl]
    · exact getD_foldl_set value hnodup.2 hmem (by rwa [List.length_set])

theorem apply_cases (a : Ascent) (terms : List (VarId × ℤ)) (position : ℕ) (step residual : ℤ) :
    a.apply terms position step residual = a ∨ a.apply terms position step residual =
        { reduced := terms.foldl (fun reduced t =>
            reduced.set t.1 (a.reduced.getD t.1 0 - step * t.2)) a.reduced
          total := step * residual + a.total
          multipliers := a.multipliers.modify position fun m => m + step } := by
  unfold Ascent.apply
  dsimp only
  split
  · rename_i updated total hupdated htotal
    refine Or.inr ?_
    obtain ⟨gain, hgain, htotal⟩ := Option.bind_eq_some_iff.mp htotal
    rw [mapM_updated hupdated, zip_map_foldl, ← checkedI128_eq_some htotal,
      ← checkedI128_eq_some hgain]
  · exact Or.inl rfl

section node

variable {s : SearchState} {trail : Trail} {scale : ℤ} {rows : List RowId} {a : Ascent}

section
variable (hlen : multipliers.length = rows.length) (hrow : rows[position]? = some row)
include hlen hrow

theorem costLoss_modify (j : ℕ) :
    costLoss model (rows.zip (multipliers.modify position fun m => m + step)) j =
      costLoss model (rows.zip multipliers) j + step * coefficientSum (rowAt model row).terms j :=
  sum_zip_modify (fun r => coefficientSum (rowAt model r).terms j) step _ _ _ _ hlen hrow

theorem rhsGain_modify : rhsGain model (rows.zip (multipliers.modify position fun m => m + step)) =
      rhsGain model (rows.zip multipliers) + step * (rowAt model row).rhs :=
  sum_zip_modify (fun r => (rowAt model r).rhs) step _ _ _ _ hlen hrow

end

theorem fst_freeTerms (row : RowId) : (s.freeTerms model row).map Prod.fst =
    ((rowAt model row).terms.filter fun t => s.isFree t.var).map Term.var := by
  rw [freeTerms_eq, List.map_map]
  rfl

theorem getD_updated (hlimits : Limits model) (h : Coherent model s trail)
    (hspec : model.rows[row]? = some spec) {reduced : List ℤ}
    (hlen : reduced.length = model.variableCount) (step : ℤ) {j : ℕ}
    (hfree : s.value[j]? = some none) :
    ((s.freeTerms model row).foldl (fun reduced' t =>
        reduced'.set t.1 (reduced.getD t.1 0 - step * t.2)) reduced).getD j 0 =
      reduced.getD j 0 - step * coefficientSum spec.terms j := by
  have hrow := hlimits.rows spec (List.mem_of_getElem? hspec)
  have hjlt : j < reduced.length := by
    rw [hlen, ← h.tracks.length]
    exact (List.getElem?_eq_some_iff.mp hfree).1
  have hnodup : ((s.freeTerms model row).map Prod.fst).Nodup := by
    rw [fst_freeTerms, rowAt_eq hspec]
    exact hrow.distinct.sublist (List.filter_sublist.map _)
  by_cases hj : j ∈ spec.terms.map Term.var
  · obtain ⟨term, hterm, rfl⟩ := List.mem_map.mp hj
    have hmem : (term.var, term.coefficient) ∈ s.freeTerms model row := by
      rw [freeTerms_eq, rowAt_eq hspec]
      refine List.mem_map.mpr ⟨term, List.mem_filter.mpr ⟨hterm, isFree_iff.mpr hfree⟩, rfl⟩
    have hget := getD_foldl_set (fun t => reduced.getD t.1 0 - step * t.2) hnodup hmem hjlt
    rw [hget]
    unfold coefficientSum
    rw [coefficients_eq hrow.distinct hterm, List.sum_singleton]
  · have hnot : j ∉ (s.freeTerms model row).map Prod.fst := by
      rw [fst_freeTerms, rowAt_eq hspec]
      intro hin
      obtain ⟨term, hterm, rfl⟩ := List.mem_map.mp hin
      exact hj (List.mem_map_of_mem (List.mem_of_mem_filter hterm))
    rw [getD_foldl_set_of_notMem hnot, coefficientSum_eq_zero hj, mul_zero, sub_zero]

section
variable (hlimits : Limits model) (hs : Coherent model s trail) (h : Ascends model s scale rows a)
  (hposition : rows[position]? = some row) (hlt : row < model.rows.length)
include hlimits hs h hposition hlt

theorem Ascends.apply (hpos : 0 < step)
    (hstep : step ≤ maxMultiplier - a.multipliers.getD position 0) :
    Ascends model s scale rows
      (a.apply (s.freeTerms model row) position step (residual model s row)) := by
  rcases apply_cases a (s.freeTerms model row) position step (residual model s row) with heq | heq
  · rw [heq]
    exact h
  · rw [heq]
    have hspec : model.rows[row]? = some model.rows[row] := List.getElem?_eq_getElem hlt
    have hfixed : s.fixedActivity row = ∑ j ∈ Finset.range model.variableCount,
        if s.value[j]? = some (some true) then coefficientSum model.rows[row].terms j else 0 := by
      unfold SearchState.fixedActivity
      rw [activity_eq hs.cached hspec]
      exact fixed_eq_sum (hlimits.rows _ (List.mem_of_getElem? hspec))
    refine ⟨?_, ?_, fun m hm => ?_, fun j hj => ?_, ?_⟩
    · exact (length_foldl_set _ _).trans h.reducedLength
    · exact (List.length_modify _ _ _).trans h.length
    · obtain ⟨i, hi⟩ := List.mem_iff_getElem?.mp hm
      rw [List.getElem?_modify] at hi
      obtain ⟨old, hold, rfl⟩ := Option.map_eq_some_iff.mp hi
      have hbound := h.bounded old (List.mem_of_getElem? hold)
      split_ifs with hip
      · rw [List.getD_eq_getElem?_getD, hip, hold, Option.getD_some] at hstep
        omega
      · exact hbound
    · rw [getD_updated hlimits hs hspec h.reducedLength step hj, h.reduced j hj,
        costLoss_modify h.length hposition, rowAt_eq hspec]
      ring
    · have hsum : ∀ j, (if s.value[j]? = some (some true) then
          (baseCosts model scale .objective).getD j 0 -
            costLoss model (rows.zip (a.multipliers.modify position fun m => m + step)) j else 0) =
          (if s.value[j]? = some (some true) then (baseCosts model scale .objective).getD j 0 -
            costLoss model (rows.zip a.multipliers) j else 0) -
          step * (if s.value[j]? = some (some true) then coefficientSum model.rows[row].terms j
            else 0) := by
        intro j
        rw [costLoss_modify h.length hposition, rowAt_eq hspec]
        split_ifs <;> ring
      rw [Finset.sum_congr rfl fun j _ => hsum j, Finset.sum_sub_distrib, ← Finset.mul_sum,
        ← hfixed, rhsGain_modify h.length hposition, h.total]
      unfold DualAscent.residual
      ring

theorem Ascends.raise (shares : Option (List ℤ)) :
    Ascends model s scale rows (a.raise model s position row shares) := by
  unfold Ascent.raise
  dsimp only
  split
  · exact h
  · split_ifs with hpos
    · exact h.apply hlimits hs hposition hlt hpos (min_le_right _ _)
    · exact h

/-! ### The two passes -/

end

def Placed (model : Model δ) (rows : List RowId) (placed : List (RowId × ℕ)) : Prop :=
  ∀ r ∈ placed, rows[r.2]? = some r.1 ∧ r.1 < model.rows.length

theorem Ascends.fairShares (hlimits : Limits model) (hs : Coherent model s trail) :
    ∀ {placed : List (RowId × ℕ)} {a : Ascent} (shares : List ℤ), Placed model rows placed →
    Ascends model s scale rows a →
    Ascends model s scale rows (Ascent.fairShares model s placed (a, shares))
  | [], _, _, _, h => h
  | (row, position) :: placed, a, shares, hplaced, h => by
    obtain ⟨hposition, hlt⟩ := hplaced (row, position) (.head _)
    have hrest : Placed model rows placed := fun r hr => hplaced r (.tail _ hr)
    rw [Ascent.fairShares]
    exact Ascends.fairShares hlimits hs _ hrest (h.raise hlimits hs hposition hlt (some shares))

theorem Ascends.greedy (hlimits : Limits model) (hs : Coherent model s trail) :
    ∀ {placed : List (RowId × ℕ)} {a : Ascent}, Placed model rows placed →
    Ascends model s scale rows a → Ascends model s scale rows (Ascent.greedy model s placed a)
  | [], _, _, h => h
  | (row, position) :: placed, a, hplaced, h => by
    obtain ⟨hposition, hlt⟩ := hplaced (row, position) (.head _)
    have hrest : Placed model rows placed := fun r hr => hplaced r (.tail _ hr)
    have hlast := Ascends.greedy hlimits hs hrest (h.raise hlimits hs hposition hlt none)
    exact hlast

theorem demandRows_spec (model : Model δ) (s : SearchState) : (demandRows model s).Nodup ∧
    ∀ row ∈ demandRows model s, row < model.rows.length ∧ (rowAt model row).relation ≠ .lessEqual := by
  let demanding := (List.range model.rows.length).filter fun row =>
    (rowAt model row).relation ≠ .lessEqual ∧ 0 < residual model s row
  have hperm : (demandRows model s).Perm demanding := by
    refine ((List.perm_insertionSort _ _).map Prod.snd).trans ?_
    rw [List.map_map]
    exact List.Perm.of_eq (List.map_id demanding)
  refine ⟨hperm.nodup_iff.mpr (List.nodup_range.sublist List.filter_sublist), fun row hrow => ?_⟩
  obtain ⟨hlt, hdemand⟩ := List.mem_filter.mp (hperm.mem_iff.mp hrow)
  rw [decide_eq_true_eq] at hdemand
  exact ⟨List.mem_range.mp hlt, hdemand.1⟩

theorem placed_zipIdx (model : Model δ) (s : SearchState) :
    Placed model (demandRows model s) (demandRows model s).zipIdx := by
  rintro ⟨row, position⟩ hr
  have hget := List.mk_mem_zipIdx_iff_getElem?.mp hr
  exact ⟨hget, ((demandRows_spec model s).2 row (List.mem_of_getElem? hget)).1⟩

theorem sum_zip_replicate_zero (g : RowId → ℤ) : ∀ rows : List RowId,
    ((rows.zip (List.replicate rows.length 0)).map fun r => r.2 * g r.1).sum = 0
  | [] => rfl
  | row :: rows => by
    rw [List.length_cons, List.replicate_succ, List.zip_cons_cons, List.map_cons, List.sum_cons,
      sum_zip_replicate_zero g rows, zero_mul, add_zero]

theorem fixedCost_eq : fixedCost s costs = ∑ j ∈ Finset.range costs.length,
      if s.value[j]? = some (some true) then costs.getD j 0 else 0 := by
  have hvalue : ∀ j, (s.value.getD j none = some true) ↔ s.value[j]? = some (some true) := by
    intro j
    rw [List.getD_eq_getElem?_getD]
    rcases s.value[j]? with _ | v <;> simp
  have hfilter : ∀ (n : ℕ), (((List.range n).filter fun var =>
      s.value.getD var none = some true).map fun var => costs.getD var 0).sum =
      ∑ j ∈ Finset.range n, if s.value[j]? = some (some true) then costs.getD j 0 else 0 := by
    intro n
    induction n with
    | zero => rfl
    | succ n ih =>
      rw [List.range_succ, List.filter_append, List.map_append, List.sum_append, Finset.sum_range_succ]
      congr 1
      by_cases hn : s.value[n]? = some (some true)
      · rw [if_pos hn, List.filter_cons_of_pos (by simpa using (hvalue n).mpr hn)]
        simp
      · rw [if_neg hn, List.filter_cons_of_neg (by simpa using fun h => hn ((hvalue n).mp h))]
        simp
  exact hfilter costs.length

theorem ascends_start (hlimits : Limits model) (scale : ℤ) (rows : List RowId) :
    Ascends model s scale rows ⟨baseCosts model scale .objective,
      fixedCost s (baseCosts model scale .objective), List.replicate rows.length 0⟩ := by
  have hlen : (baseCosts model scale .objective).length = model.variableCount :=
    (List.length_map _).trans hlimits.weightCount
  have hloss : ∀ j, costLoss model (rows.zip (List.replicate rows.length 0)) j = 0 :=
    fun j => sum_zip_replicate_zero (fun r => coefficientSum (rowAt model r).terms j) rows
  refine ⟨hlen, List.length_replicate, fun m hm => ?_, fun j _ => ?_, ?_⟩
  · rw [List.eq_of_mem_replicate hm]
    exact ⟨le_refl _, Int.natCast_nonneg _⟩
  · dsimp only
    rw [hloss, sub_zero]
  · have hgain : rhsGain model (rows.zip (List.replicate rows.length 0)) = 0 :=
      sum_zip_replicate_zero (fun r => (rowAt model r).rhs) rows
    dsimp only
    rw [fixedCost_eq, hlen, hgain, zero_add]
    refine Finset.sum_congr rfl fun j _ => ?_
    rw [hloss, sub_zero]

/-! ### The value of a bound -/

theorem freePart_eq (n : ℕ) :
    (((List.range n).filter s.isFree).map fun var => min (costs.getD var 0) 0).sum =
      ∑ j ∈ Finset.range n, if s.value[j]? = some none then min (costs.getD j 0) 0 else 0 := by
  induction n with
  | zero => rfl
  | succ n ih =>
    rw [List.range_succ, List.filter_append, List.map_append, List.sum_append, Finset.sum_range_succ]
    congr 1
    by_cases hn : s.value[n]? = some none
    · rw [if_pos hn, List.filter_cons_of_pos (isFree_iff.mpr hn)]
      simp
    · rw [if_neg hn, List.filter_cons_of_neg (fun h => hn (isFree_iff.mp h))]
      simp

theorem Ascends.lagrangian (hs : Coherent model s trail) (h : Ascends model s scale rows a) :
    a.total + (((List.range a.reduced.length).filter s.isFree).map fun var =>
        min (a.reduced.getD var 0) 0).sum =
      Evaluation.lagrangian model (baseCosts model scale .objective) (rows.zip a.multipliers)
        s.value := by
  rw [freePart_eq, h.reducedLength, h.total, add_assoc, ← Finset.sum_add_distrib]
  congr 1
  refine Finset.sum_congr rfl fun j hj => ?_
  have hjlt : j < s.value.length := by
    rw [hs.tracks.length]
    exact Finset.mem_range.mp hj
  have hget : s.value[j]? = some s.value[j] := List.getElem?_eq_getElem hjlt
  have hgetD : s.value.getD j none = s.value[j] := by
    rw [List.getD_eq_getElem?_getD, hget]
    rfl
  rw [hgetD, hget]
  rcases hv : s.value[j] with _ | _ | _
  · rw [if_neg (by simp), zero_add, h.reduced j (by rw [hget, hv])]
    rfl
  · rw [if_neg (by simp)]
    rfl
  · rw [if_pos rfl, if_neg (by simp), add_zero]
    rfl

def dualEntries (rows : List RowId) (multipliers : List ℤ) : List DualEntry :=
  (((rows.zip multipliers).filter fun e => 0 < e.2).map fun e =>
    (⟨e.1, e.2⟩ : DualEntry)).insertionSort fun a b => a.row ≤ b.row

theorem sum_dualEntries (g : RowId → ℤ) (hnonneg : ∀ m ∈ multipliers, 0 ≤ m) :
    ((weighted (dualEntries rows multipliers)).map fun r => r.2 * g r.1).sum =
      ((rows.zip multipliers).map fun r => r.2 * g r.1).sum := by
  have hperm : (weighted (dualEntries rows multipliers)).Perm
      ((rows.zip multipliers).filter fun e => 0 < e.2) := by
    refine ((List.perm_insertionSort _ _).map _).trans ?_
    rw [List.map_map]
    exact List.Perm.of_eq (List.map_id _)
  have hdrop : ∀ {l : List (RowId × ℤ)}, (∀ r ∈ l, 0 ≤ r.2) →
      ((l.filter fun e => 0 < e.2).map fun r => r.2 * g r.1).sum =
        (l.map fun r => r.2 * g r.1).sum := by
    intro l
    induction l with
    | nil => exact fun _ => rfl
    | cons r l ih =>
      intro hl
      have htail := ih fun e he => hl e (.tail _ he)
      rw [List.filter_cons, List.map_cons, List.sum_cons]
      by_cases hr : 0 < r.2
      · rw [if_pos (by simpa using hr), List.map_cons, List.sum_cons, htail]
      · have hzero : r.2 = 0 := le_antisymm (not_lt.mp hr) (hl r (.head _))
        rw [if_neg (by simpa using hr), htail, hzero, zero_mul, zero_add]
  rw [(hperm.map _).sum_eq]
  exact hdrop fun r hr => hnonneg r.2 (List.of_mem_zip hr).2

theorem lagrangian_dualEntries (hnonneg : ∀ m ∈ multipliers, 0 ≤ m) (path : List (Option Bool)) :
    Evaluation.lagrangian model costs (weighted (dualEntries rows multipliers)) path =
      Evaluation.lagrangian model costs (rows.zip multipliers) path := by
  unfold Evaluation.lagrangian
  have hloss : ∀ j, costLoss model (weighted (dualEntries rows multipliers)) j =
      costLoss model (rows.zip multipliers) j := fun j =>
    sum_dualEntries (fun r => coefficientSum (rowAt model r).terms j) hnonneg
  have hgain : rhsGain model (weighted (dualEntries rows multipliers)) =
      rhsGain model (rows.zip multipliers) :=
    sum_dualEntries (fun r => (rowAt model r).rhs) hnonneg
  congr 1
  exact Finset.sum_congr rfl fun j _ => by rw [hloss]

theorem ascending_dualEntries (hrows : rows.Nodup) (hlen : multipliers.length = rows.length) :
    (dualEntries rows multipliers).IsChain fun a b => a.row < b.row := by
  let r : DualEntry → DualEntry → Prop := fun a b => a.row ≤ b.row
  have hsorted : (dualEntries rows multipliers).Pairwise r := List.pairwise_insertionSort r _
  have hnodup : ((dualEntries rows multipliers).map DualEntry.row).Nodup := by
    have hperm := (List.perm_insertionSort r (((rows.zip multipliers).filter fun e =>
      0 < e.2).map fun e => (⟨e.1, e.2⟩ : DualEntry))).map DualEntry.row
    refine hperm.nodup_iff.mpr ?_
    rw [List.map_map]
    have hzip : (rows.zip multipliers).map Prod.fst = rows := List.map_fst_zip (ge_of_eq hlen)
    have hsub := (List.filter_sublist (p := fun e : RowId × ℤ => decide (0 < e.2))
      (l := rows.zip multipliers)).map Prod.fst
    rw [hzip] at hsub
    exact hrows.sublist hsub
  rw [List.Nodup, List.pairwise_map] at hnodup
  refine List.Pairwise.isChain ?_
  exact List.Pairwise.imp₂ (fun a b hle hne => lt_of_le_of_ne hle hne) hsorted hnodup

/-- **The bound of a node**: its dual has the right shape, and its value is the rounded Lagrangian of
the dual at the node. -/
theorem dualAscent_spec (hlimits : Limits model) (hs : Coherent model s trail) {denominator : ℕ}
    (hpos : 1 ≤ denominator) (hbound : denominator ≤ maxBoundDenominator) :
    (dualAscent model s denominator).dual.denominator = denominator ∧
      Shaped model (dualAscent model s denominator).dual ∧
      (dualAscent model s denominator).value =
        ceilDiv (Evaluation.lagrangian model (baseCosts model denominator .objective)
          (weighted (dualAscent model s denominator).dual.entries) s.value) denominator := by
  have hplaced := placed_zipIdx model s
  have hascent := Ascends.greedy hlimits hs hplaced (Ascends.fairShares hlimits hs
    (shareCounts model s (demandRows model s)) hplaced
    (ascends_start (s := s) hlimits (denominator : ℤ) (demandRows model s)))
  obtain ⟨hnodup, hdemand⟩ := demandRows_spec model s
  set a := Ascent.greedy model s (demandRows model s).zipIdx
    (Ascent.fairShares model s (demandRows model s).zipIdx
      (⟨baseCosts model denominator .objective,
        fixedCost s (baseCosts model denominator .objective),
        List.replicate (demandRows model s).length 0⟩, shareCounts model s (demandRows model s)))
  have hdual : dualAscent model s denominator =
      ⟨⟨denominator, dualEntries (demandRows model s) a.multipliers⟩,
        ceilDiv (a.total + (((List.range a.reduced.length).filter s.isFree).map fun var =>
          min (a.reduced.getD var 0) 0).sum) denominator⟩ := rfl
  rw [hdual]
  refine ⟨rfl, ⟨hpos, hbound, ascending_dualEntries hnodup hascent.length, fun entry hentry => ?_⟩, ?_⟩
  · obtain ⟨e, he, rfl⟩ := List.mem_map.mp ((List.mem_insertionSort _).mp hentry)
    obtain ⟨hzip, hpositive⟩ := List.mem_filter.mp he
    rw [decide_eq_true_eq] at hpositive
    obtain ⟨hrow, hmultiplier⟩ := List.of_mem_zip hzip
    obtain ⟨hlt, hrelation⟩ := hdemand e.1 hrow
    have hspec : model.rows[e.1]? = some model.rows[e.1] := List.getElem?_eq_getElem hlt
    rw [rowAt_eq hspec] at hrelation
    have hbounded := (hascent.bounded e.2 hmultiplier).2
    refine ⟨_, hspec, ?_, by dsimp only; omega⟩
    unfold signAllowed
    rcases hrel : model.rows[e.1].relation with _ | _ | _
    · exact absurd hrel hrelation
    · simpa using hpositive
    · simpa using ne_of_gt hpositive
  · dsimp only
    rw [hascent.lagrangian hs, lagrangian_dualEntries fun m hm => (hascent.bounded m hm).1]

end node

/-! ### Paths below a node -/

/-- The path below fixes what the path above fixes. -/
def Extends (above below : List (Option Bool)) : Prop :=
  ∀ (j : ℕ) (b : Bool), above[j]? = some (some b) → below[j]? = some (some b)

theorem contribution_mono (cost : ℤ) (b : Bool) : contribution cost none ≤ contribution cost (some b) := by
  cases b
  · exact min_le_right cost 0
  · exact min_le_left cost 0

theorem lagrangian_mono {rows : Weighted} {above below : List (Option Bool)}
    (habove : above.length = model.variableCount) (hbelow : below.length = model.variableCount)
    (h : Extends above below) :
    lagrangian model costs rows above ≤ lagrangian model costs rows below := by
  refine add_le_add (le_refl _) (Finset.sum_le_sum fun j hj => ?_)
  have hj1 : j < above.length := by rw [habove]; exact Finset.mem_range.mp hj
  have hj2 : j < below.length := by rw [hbelow]; exact Finset.mem_range.mp hj
  rw [List.getD_eq_getElem above none hj1, List.getD_eq_getElem below none hj2]
  rcases ha : above[j] with _ | b
  · rcases hb : below[j] with _ | b
    · exact le_refl _
    · exact contribution_mono _ b
  · have hfixed := h j b (by rw [List.getElem?_eq_getElem hj1, ha])
    rw [List.getElem?_eq_getElem hj2, Option.some.injEq] at hfixed
    rw [hfixed]

theorem integerBound_eq_ceilDiv (scaled : ℤ) {denominator : ℕ} (h : 0 < denominator) :
    integerBound scaled denominator = ceilDiv scaled denominator := by
  have hpos : (0 : ℤ) < denominator := by exact_mod_cast h
  unfold integerBound ceilDiv
  rw [Int.neg_ediv]
  by_cases hmod : scaled % denominator = 0
  · rw [if_pos hmod, if_pos (Int.dvd_of_emod_eq_zero hmod)]
    ring
  · rw [if_neg hmod, if_neg fun hdvd => hmod (Int.emod_eq_zero_of_dvd hdvd),
      Int.sign_eq_one_of_pos hpos]
    ring

theorem ceilDiv_mono {a b denominator : ℤ} (hpos : 0 < denominator) (h : a ≤ b) :
    ceilDiv a denominator ≤ ceilDiv b denominator := by
  exact neg_le_neg (Int.ediv_le_ediv hpos (neg_le_neg h))

end Medulla.Solve.AscentValue
