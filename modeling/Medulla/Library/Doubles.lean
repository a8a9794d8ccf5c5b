import Mathlib.Data.Int.Log
import Mathlib.Data.Rat.Floor

/-! # Doubles

A finite double is given by its exact rational value. `nearest` is the rounding of an operation's exact
result, half-way cases to the even neighbour, for results that are not negative; the largest exponent is
not bounded. `toU64` is the conversion to an unsigned integer, truncated and saturating.

## Main results

- `nearest_mono`: rounding keeps the order.
- `toU64_nearest_mono`: so does rounding and conversion, also of negative values. -/

namespace Medulla.Library.Doubles

variable {x y : ℚ}

/-! ### Rounding to an integer -/

/-- The nearest integer, half-way cases to the even one. -/
def roundEven (x : ℚ) : ℤ :=
  if x - ⌊x⌋ < 1 / 2 then ⌊x⌋
  else if 1 / 2 < x - ⌊x⌋ then ⌊x⌋ + 1
  else if ⌊x⌋ % 2 = 0 then ⌊x⌋
  else ⌊x⌋ + 1

theorem floor_le_roundEven (x : ℚ) : ⌊x⌋ ≤ roundEven x := by
  unfold roundEven
  split_ifs <;> omega

theorem roundEven_le_floor_add_one (x : ℚ) : roundEven x ≤ ⌊x⌋ + 1 := by
  unfold roundEven
  split_ifs <;> omega

@[simp]
theorem roundEven_intCast (n : ℤ) : roundEven n = n := by
  simp [roundEven]

theorem roundEven_mono (h : x ≤ y) : roundEven x ≤ roundEven y := by
  rcases (Int.floor_mono h).lt_or_eq with hlt | heq
  · calc roundEven x ≤ ⌊x⌋ + 1 := roundEven_le_floor_add_one x
      _ ≤ ⌊y⌋ := hlt
      _ ≤ roundEven y := floor_le_roundEven y
  · -- between the same two integers the greater remainder is rounded no lower
    have hrem : x - ⌊y⌋ ≤ y - ⌊y⌋ := sub_le_sub_right h _
    unfold roundEven
    rw [heq]
    split_ifs <;> first | omega | linarith

/-! ### Rounding to a double -/

/-- The exponent of the last of 53 binary digits, at least that of the least double. -/
def ulpExponent (x : ℚ) : ℤ := max (Int.log 2 x - 52) (-1074)

/-- The unit of the last digit. -/
def ulp (x : ℚ) : ℚ := 2 ^ ulpExponent x

/-- **The nearest double** of a value that is not negative. -/
def nearest (x : ℚ) : ℚ := roundEven (x / ulp x) * ulp x

theorem ulp_pos (x : ℚ) : 0 < ulp x := zpow_pos (by norm_num) _

theorem nearest_nonpos (h : x ≤ 0) : nearest x ≤ 0 := by
  have hround : roundEven (x / ulp x) ≤ roundEven ((0 : ℤ) : ℚ) :=
    roundEven_mono (by simpa using div_nonpos_of_nonpos_of_nonneg h (ulp_pos x).le)
  rw [roundEven_intCast] at hround
  exact mul_nonpos_of_nonpos_of_nonneg (by exact_mod_cast hround) (ulp_pos x).le

/-- A whole number of units is not crossed by rounding. -/
theorem nearest_le_of_le {n : ℤ} (h : x ≤ n * ulp x) : nearest x ≤ n * ulp x := by
  have hround : roundEven (x / ulp x) ≤ roundEven (n : ℚ) :=
    roundEven_mono ((div_le_iff₀ (ulp_pos x)).mpr h)
  rw [roundEven_intCast] at hround
  exact mul_le_mul_of_nonneg_right (by exact_mod_cast hround) (ulp_pos x).le

theorem le_nearest_of_le {n : ℤ} (h : n * ulp x ≤ x) : n * ulp x ≤ nearest x := by
  have hround : roundEven (n : ℚ) ≤ roundEven (x / ulp x) :=
    roundEven_mono ((le_div_iff₀ (ulp_pos x)).mpr h)
  rw [roundEven_intCast] at hround
  exact mul_le_mul_of_nonneg_right (by exact_mod_cast hround) (ulp_pos x).le

/-- **Rounding keeps the order**: inside one binade by rounding to integers, and across binades because
the power of two between them is a whole number of units of both. -/
theorem nearest_mono (hx : 0 < x) (h : x ≤ y) : nearest x ≤ nearest y := by
  have hlog : Int.log 2 x ≤ Int.log 2 y := Int.log_mono_right hx h
  have hexp : ulpExponent x ≤ ulpExponent y := by
    unfold ulpExponent
    omega
  rcases hexp.lt_or_eq with hlt | heq
  · obtain ⟨k, hk⟩ := Int.le.dest hlt.le
    have hbinade : ulpExponent y = Int.log 2 y - 52 := by
      unfold ulpExponent at hlt ⊢
      omega
    have hpow : ∀ n : ℤ, ((2 ^ (52 : ℕ) : ℤ) : ℚ) * 2 ^ n = 2 ^ (n + 52) := by
      intro n
      rw [zpow_add₀ (by norm_num)]
      push_cast
      ring
    have hbound : x ≤ 2 ^ (ulpExponent y + 52) := by
      have hnext := Int.lt_zpow_succ_log_self (b := 2) (by norm_num) x
      refine hnext.le.trans (zpow_le_zpow_right₀ (by norm_num) ?_)
      unfold ulpExponent at hlt ⊢
      omega
    have hunits : ((2 ^ (52 + k) : ℤ) : ℚ) * ulp x = 2 ^ (ulpExponent y + 52) := by
      unfold ulp
      rw [← hk, ← hpow, zpow_add₀ (by norm_num), zpow_natCast]
      push_cast
      ring
    have hbelow : ((2 ^ (52 : ℕ) : ℤ) : ℚ) * ulp y ≤ y := by
      unfold ulp
      rw [hpow, hbinade, sub_add_cancel]
      exact Int.zpow_log_le_self (by norm_num) (hx.trans_le h)
    calc nearest x ≤ ((2 ^ (52 + k) : ℤ) : ℚ) * ulp x := nearest_le_of_le (hunits ▸ hbound)
      _ = ((2 ^ (52 : ℕ) : ℤ) : ℚ) * ulp y := by
        rw [hunits, ulp, hpow]
      _ ≤ nearest y := le_nearest_of_le hbelow
  · unfold nearest ulp
    rw [heq]
    have hround : roundEven (x / 2 ^ ulpExponent y) ≤ roundEven (y / 2 ^ ulpExponent y) :=
      roundEven_mono (div_le_div_of_nonneg_right h (ulp_pos y).le)
    exact mul_le_mul_of_nonneg_right (by exact_mod_cast hround) (ulp_pos y).le

/-! ### Conversion -/

/-- Truncate to an unsigned 64-bit integer, saturating at both ends. -/
def toU64 (x : ℚ) : ℕ := min ⌊x⌋₊ (2 ^ 64 - 1)

theorem toU64_mono (h : x ≤ y) : toU64 x ≤ toU64 y := min_le_min_right _ (Nat.floor_mono h)

theorem toU64_le (x : ℚ) : toU64 x ≤ 2 ^ 64 - 1 := min_le_right _ _

theorem toU64_nearest_mono (h : x ≤ y) : toU64 (nearest x) ≤ toU64 (nearest y) := by
  rcases lt_or_ge 0 x with hx | hx
  · exact toU64_mono (nearest_mono hx h)
  · have hzero : toU64 (nearest x) = 0 := by
      rw [toU64, Nat.floor_of_nonpos (nearest_nonpos hx), Nat.zero_min]
    rw [hzero]
    exact Nat.zero_le _

end Medulla.Library.Doubles
