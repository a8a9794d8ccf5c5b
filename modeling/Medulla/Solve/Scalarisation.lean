import Medulla.Solve.Bounds
import Mathlib.Algebra.Order.Ring.Abs
import Mathlib.Data.Prod.Lex

/-! # The scalar objective is lexicographic

The sublevels of an objective are the digits of a number in mixed radix: the value of a sublevel differs
between two assignments by less than its span, and each sublevel is weighted with the product of the spans
of those after it.

* the result: `scalar_lexicographic`. -/

namespace Medulla.Solve.Scalarisation

open Library.Checked Programme Bounds

variable {sub : List (VarId × ℤ)} {subs : List (List (VarId × ℤ))} {a b x : List Bool} {count : ℕ}
  {weights : List ℤ} {level : ObjectiveLevelSpec} {levels : List ObjectiveLevelSpec}

/-! ### Digits -/

/-- The selected coefficients of a sublevel. -/
def value (sub : List (VarId × ℤ)) (x : List Bool) : ℤ :=
  (sub.map fun t => if x.getD t.1 false then t.2 else 0).sum

def width (sub : List (VarId × ℤ)) : ℤ := (sub.map fun t => |t.2|).sum

/-- The number with the values of the sublevels as digits, least significant first. -/
def radix : List (List (VarId × ℤ)) → List Bool → ℤ
  | [], _ => 0
  | sub :: rest, x => value sub x + (1 + width sub) * radix rest x

def spans (subs : List (List (VarId × ℤ))) : ℤ := (subs.map fun sub => 1 + width sub).prod

theorem abs_value_sub_le (a b : List Bool) : ∀ sub, |value sub a - value sub b| ≤ width sub
  | [] => by simp [value, width]
  | (var, c) :: rest => by
    have ih := abs_value_sub_le a b rest
    have hone : |(if a.getD var false then c else 0) - (if b.getD var false then c else 0)| ≤ |c| := by
      split_ifs <;> simp
    simp only [value, List.map_cons, List.sum_cons] at ih ⊢
    rw [add_sub_add_comm]
    exact (abs_add_le _ _).trans (add_le_add hone ih)

theorem radix_snoc (sub : List (VarId × ℤ)) (x : List Bool) : ∀ subs,
    radix (subs ++ [sub]) x = radix subs x + spans subs * value sub x
  | [] => by simp [radix, spans]
  | first :: rest => by
    rw [List.cons_append, radix, radix, radix_snoc sub x rest]
    simp only [spans, List.map_cons, List.prod_cons]
    ring

theorem spans_pos : ∀ subs : List (List (VarId × ℤ)), 0 < spans subs
  | [] => by simp [spans]
  | sub :: rest => by
    have hwidth := (abs_nonneg _).trans (abs_value_sub_le [] [] sub)
    rw [spans, List.map_cons]
    exact mul_pos (by omega) (spans_pos rest)

theorem abs_radix_sub_lt (a b : List Bool) : ∀ subs : List (List (VarId × ℤ)),
    |radix subs.reverse a - radix subs.reverse b| < spans subs.reverse
  | [] => by simp [radix, spans]
  | sub :: rest => by
    have ih := abs_radix_sub_lt a b rest
    have hvalue := abs_value_sub_le a b sub
    have hpos := spans_pos rest.reverse
    have hspans : spans (sub :: rest).reverse = spans rest.reverse * (1 + width sub) := by
      simp [spans]
    have hmul := mul_le_mul_of_nonneg_left hvalue hpos.le
    rw [hspans, List.reverse_cons, radix_snoc, radix_snoc, add_sub_add_comm, ← mul_sub]
    refine (abs_add_le _ _).trans_lt ?_
    rw [abs_mul, abs_of_pos hpos]
    linarith

/-- The number of the sublevels, most significant first. -/
def number (subs : List (List (VarId × ℤ))) (x : List Bool) : ℤ := radix subs.reverse x

/-- **Numbers compare by their first digit**, and then by the others. -/
theorem number_cons (sub : List (VarId × ℤ)) (subs : List (List (VarId × ℤ))) (a b : List Bool) :
    (number (sub :: subs) a < number (sub :: subs) b ↔ value sub a < value sub b ∨
      value sub a = value sub b ∧ number subs a < number subs b) ∧
    (number (sub :: subs) a = number (sub :: subs) b ↔ value sub a = value sub b ∧
      number subs a = number subs b) := by
  have hrest := abs_lt.mp (abs_radix_sub_lt a b subs)
  have hpos := spans_pos subs.reverse
  have hnumber : ∀ x, number (sub :: subs) x = number subs x + spans subs.reverse * value sub x :=
    fun x => by rw [number, List.reverse_cons, radix_snoc]; rfl
  rw [hnumber, hnumber]
  change -_ < number subs a - number subs b ∧ number subs a - number subs b < _ at hrest
  rcases lt_trichotomy (value sub a) (value sub b) with hlt | heq | hgt
  · have hstep := mul_le_mul_of_nonneg_left (Int.add_one_le_iff.mpr hlt) hpos.le
    exact ⟨iff_of_true (by linarith) (Or.inl hlt), iff_of_false (by linarith) (by omega)⟩
  · rw [heq]
    simp
  · have hstep := mul_le_mul_of_nonneg_left (Int.add_one_le_iff.mpr hgt) hpos.le
    exact ⟨iff_of_false (by linarith) (by omega), iff_of_false (by linarith) (by omega)⟩

/-! ### The weights -/

theorem elim_ok {o : Option ℤ} {e : ModelError} {v : ℤ}
    (h : o.elim (Except.error e) Except.ok = .ok v) : o = some v := by
  cases o with
  | none => cases h
  | some w => rw [Except.ok.inj h]

theorem addSublevel_ok : ∀ {sub : List (VarId × ℤ)} {weights : List ℤ} {m s : ℤ} {out : List ℤ × ℤ},
    addSublevel m sub (weights, s) = .ok out → (∀ t ∈ sub, t.1 < weights.length) →
      weights.length = x.length → out.1.length = weights.length ∧ out.2 = s + width sub ∧
        scalarValue out.1 x = scalarValue weights x + m * value sub x
  | [], weights, m, s, out, h, _, _ => by
    obtain rfl := Except.ok.inj h
    simp [width, value]
  | (var, c) :: rest, weights, m, s, out, h, hvars, hlength => by
    obtain ⟨slot, hslot, h⟩ := unbind h
    obtain ⟨longer, hlonger, h⟩ := unbind h
    obtain ⟨scaled, hscaled, hslot⟩ := Option.bind_eq_some_iff.mp (elim_ok hslot)
    obtain ⟨hvar, hvars⟩ := List.forall_mem_cons.mp hvars
    obtain ⟨hout, hspan, hvalue⟩ := addSublevel_ok h (by simpa using hvars) (by simpa using hlength)
    have hset := scalarValue_set weights (-(m * c)) hlength hvar
    rw [← checkedI128_eq_some hslot, ← checkedI128_eq_some hscaled] at hvalue
    rw [sub_neg_eq_add] at hset
    refine ⟨by simpa using hout, ?_, ?_⟩
    · rw [hspan, ← checkedI128_eq_some (elim_ok hlonger)]
      simp only [width, List.map_cons, List.sum_cons, Int.abs_eq_natAbs]
      ring
    · rw [hvalue, hset]
      simp only [value, List.map_cons, List.sum_cons]
      split_ifs <;> ring

theorem addSublevels_ok : ∀ {subs : List (List (VarId × ℤ))} {weights out : List ℤ} {m : ℤ},
    addSublevels subs (weights, m) = .ok out → (∀ sub ∈ subs, ∀ t ∈ sub, t.1 < weights.length) →
      weights.length = x.length → scalarValue out x = scalarValue weights x + m * radix subs x
  | [], weights, out, m, h, _, _ => by
    obtain rfl := Except.ok.inj h
    simp [radix]
  | sub :: rest, weights, out, m, h, hvars, hlength => by
    obtain ⟨⟨next, s⟩, hnext, h⟩ := unbind h
    obtain ⟨m', hm, h⟩ := unbind h
    obtain ⟨hsub, hvars⟩ := List.forall_mem_cons.mp hvars
    obtain ⟨hlen, hspan, hvalue⟩ := addSublevel_ok hnext hsub hlength
    dsimp only at hlen hspan hvalue
    rw [addSublevels_ok h (by rwa [hlen]) (hlen.trans hlength), hvalue,
      ← checkedI128_eq_some (elim_ok hm), hspan, radix]
    ring

/-! ### Levels -/

def levelKey (x : List Bool) (level : ObjectiveLevelSpec) : ℕ ×ₗ ℤ :=
  toLex ((levelValue level x).unknownSelected, (levelValue level x).known)

def unknownTier (level : ObjectiveLevelSpec) : List (VarId × ℤ) := level.terms.filterMap fun term =>
  if term.coefficient = .unknown then some (term.var, (1 : ℤ)) else none

def knownTier (level : ObjectiveLevelSpec) : List (VarId × ℤ) := level.terms.filterMap fun term =>
  match term.coefficient with
  | .known value => some (term.var, value)
  | .unknown => none

theorem levelSublevels_eq (level : ObjectiveLevelSpec) : levelSublevels level =
    if (unknownTier level).isEmpty then [knownTier level] else [unknownTier level, knownTier level] := rfl

theorem value_tiers (level : ObjectiveLevelSpec) (x : List Bool) :
    value (unknownTier level) x = (levelValue level x).unknownSelected ∧
      value (knownTier level) x = (levelValue level x).known := by
  simp only [value, unknownTier, knownTier, levelValue]
  induction level.terms with
  | nil => simp
  | cons term terms ih =>
    cases hc : term.coefficient <;> cases hx : x.getD term.var false <;>
      simp_all [add_comm]

theorem number_levels (a b : List Bool) : ∀ levels : List ObjectiveLevelSpec,
    (number (sublevels levels) a < number (sublevels levels) b ↔
      levels.map (levelKey a) < levels.map (levelKey b)) ∧
    (number (sublevels levels) a = number (sublevels levels) b ↔
      levels.map (levelKey a) = levels.map (levelKey b))
  | [] => by simp [sublevels, number, radix]
  | level :: rest => by
    obtain ⟨hlt, heq⟩ := number_levels a b rest
    obtain ⟨hua, hka⟩ := value_tiers level a
    obtain ⟨hub, hkb⟩ := value_tiers level b
    obtain ⟨hlt₁, heq₁⟩ := number_cons (knownTier level) (sublevels rest) a b
    rw [hka, hkb, hlt] at hlt₁
    rw [hka, hkb, heq] at heq₁
    have hkey : ∀ x y, levelKey x level < levelKey y level ↔
        (levelValue level x).unknownSelected < (levelValue level y).unknownSelected ∨
          (levelValue level x).unknownSelected = (levelValue level y).unknownSelected ∧
            (levelValue level x).known < (levelValue level y).known := fun x y => Prod.Lex.toLex_lt_toLex
    have hsame : levelKey a level = levelKey b level ↔
        (levelValue level a).unknownSelected = (levelValue level b).unknownSelected ∧
          (levelValue level a).known = (levelValue level b).known := by
      rw [levelKey, levelKey, toLex_inj, Prod.mk.injEq]
    have hsubs : sublevels (level :: rest) = if (unknownTier level).isEmpty
        then knownTier level :: sublevels rest
        else unknownTier level :: knownTier level :: sublevels rest := by
      rw [sublevels, List.flatMap_cons, levelSublevels_eq]
      split_ifs <;> rfl
    rw [hsubs, List.map_cons, List.map_cons, List.cons_lt_cons_iff, List.cons.injEq, hkey, hsame]
    split_ifs with hempty
    · -- without an unknown tier both select no unknown-cost variable
      rw [List.isEmpty_iff.mp hempty] at hua hub
      have hzero : (levelValue level a).unknownSelected = (levelValue level b).unknownSelected := by
        exact_mod_cast hua.symm.trans hub
      rw [hlt₁, heq₁, hzero]
      simp
    · obtain ⟨hlt₂, heq₂⟩ := number_cons (unknownTier level) (knownTier level :: sublevels rest) a b
      rw [hua, hub, hlt₁, Nat.cast_lt, Nat.cast_inj] at hlt₂
      rw [hua, hub, heq₁, Nat.cast_inj] at heq₂
      rw [hlt₂, heq₂, and_or_left, or_assoc, and_assoc, and_assoc]
      exact ⟨Iff.rfl, Iff.rfl⟩

/-- **Scalarisation is exactly lexicographic**: two assignments compare by their scalar objectives as by
the unknown-cost variables and the known costs they select, level by level. -/
theorem scalar_lexicographic (hweights : scalarWeights levels count = .ok weights)
    (hvars : ∀ level ∈ levels, ∀ term ∈ level.terms, term.var < count)
    (ha : a.length = count) (hb : b.length = count) :
    (scalarValue weights a < scalarValue weights b ↔
      levels.map (levelKey a) < levels.map (levelKey b)) ∧
    (scalarValue weights a = scalarValue weights b ↔
      levels.map (levelKey a) = levels.map (levelKey b)) := by
  obtain ⟨out, hout, h⟩ := unbind hweights
  obtain ⟨-, h⟩ := check_eq_ok.mp h
  obtain rfl := pure_eq_ok.mp h
  have hrange : ∀ sub ∈ (sublevels levels).reverse, ∀ t ∈ sub, t.1 < (List.replicate count (0 : ℤ)).length := by
    intro sub hsub t ht
    rw [List.length_replicate]
    obtain ⟨level, hlevel, hsub⟩ := List.mem_flatMap.mp (List.mem_reverse.mp hsub)
    have htier : sub = unknownTier level ∨ sub = knownTier level := by
      rw [levelSublevels_eq] at hsub
      split_ifs at hsub
      · exact Or.inr (List.mem_singleton.mp hsub)
      · simpa using hsub
    rcases htier with rfl | rfl
    · obtain ⟨term, hterm, hsome⟩ := List.mem_filterMap.mp ht
      split_ifs at hsome
      rw [← Option.some.inj hsome]
      exact hvars level hlevel term hterm
    · obtain ⟨term, hterm, hsome⟩ := List.mem_filterMap.mp ht
      split at hsome
      · rw [← Option.some.inj hsome]
        exact hvars level hlevel term hterm
      · cases hsome
  have hvalue : ∀ x : List Bool, x.length = count → scalarValue out x = number (sublevels levels) x := by
    intro x hx
    rw [addSublevels_ok hout hrange (by rw [List.length_replicate, hx]), scalarValue_replicate_zero]
    simp [number]
  rw [hvalue a ha, hvalue b hb]
  exact number_levels a b levels

def oneLevel : List ObjectiveLevelSpec := [⟨"cost", [⟨0, .unknown⟩, ⟨1, .known (-5)⟩]⟩]

/-- The saving does not make up for the unknown cost. -/
theorem scalar_lexicographic_oneLevel : ∃ weights, scalarWeights oneLevel 2 = .ok weights ∧
    scalarValue weights [false, false] < scalarValue weights [true, true] :=
  ⟨_, rfl, (scalar_lexicographic (rfl : scalarWeights oneLevel 2 = .ok _) (by decide) rfl rfl).1.mpr
    (by decide)⟩

end Medulla.Solve.Scalarisation
