import DeskCalc.Decimal.Basic
import Mathlib.Algebra.Order.Ring.Abs
import Mathlib.Data.Rat.Cast.Order
import Mathlib.Order.Compare

/-
The number that a decimal stands for.

A number has many representations.  The position of the leading digit and the order do not
depend on which of them is at hand: the one is the logarithm of the number
(`leadingExponent_eq_log`), the other the order of the rational numbers (`compare_eq_cmp`).
-/
namespace DeskCalc
namespace Decimal

def toRat (x : Decimal) : ℚ := x.mantissa * 10 ^ (-x.scale)

theorem ten_zpow_pos (n : ℤ) : (0 : ℚ) < 10 ^ n := zpow_pos (by norm_num) n

theorem ten_zpow_ne_zero (n : ℤ) : (10 : ℚ) ^ n ≠ 0 := (ten_zpow_pos n).ne'

theorem ten_zpow_add (m n : ℤ) : (10 : ℚ) ^ (m + n) = 10 ^ m * 10 ^ n :=
  zpow_add₀ (by norm_num) m n

variable {x y : Decimal}

@[simp]
theorem toRat_zero : zero.toRat = 0 := by
  simp [toRat, zero]

theorem toRat_eq_zero : x.toRat = 0 ↔ x.mantissa = 0 := by
  simp [toRat, ten_zpow_ne_zero]

theorem isZero_of_eq (h : x.mantissa = 0) : x.isZero = true := beq_iff_eq.2 h

theorem isZero_of_ne (h : x.mantissa ≠ 0) : x.isZero = false := beq_eq_false_iff_ne.2 h

theorem isZero_iff : x.isZero = true ↔ x.toRat = 0 := by
  rw [isZero, beq_iff_eq, toRat_eq_zero]

theorem toRat_pos : 0 < x.toRat ↔ 0 < x.mantissa := by
  rw [toRat, mul_pos_iff_of_pos_right (ten_zpow_pos _), Int.cast_pos]

theorem toRat_neg_iff : x.toRat < 0 ↔ x.mantissa < 0 := by
  rw [toRat, mul_neg_iff, Int.cast_lt_zero]
  simp [ten_zpow_pos, (ten_zpow_pos _).le, not_lt.2]

theorem toRat_nonneg : 0 ≤ x.toRat ↔ 0 ≤ x.mantissa := by
  rw [← not_lt, toRat_neg_iff, not_lt]

theorem abs_toRat (x : Decimal) : |x.toRat| = x.mantissa.natAbs * 10 ^ (-x.scale) := by
  rw [toRat, abs_mul, abs_of_pos (ten_zpow_pos _), Nat.cast_natAbs, Int.cast_abs]

theorem toRat_abs (x : Decimal) : x.abs.toRat = |x.toRat| := by
  rw [abs_toRat, toRat, abs, Int.cast_natCast]

/-- Zeros behind the last digit change nothing. -/
theorem toRat_extend (x : Decimal) (places : ℕ) : (x.extend places).toRat = x.toRat := by
  rw [toRat, toRat, extend]
  push_cast
  rw [← zpow_natCast, mul_assoc, ← ten_zpow_add]
  congr 2
  omega

theorem toRat_mantissaAt {scale : ℤ} (h : x.scale ≤ scale) :
    (⟨x.mantissaAt scale, scale⟩ : Decimal).toRat = x.toRat := by
  have hscale : x.scale + ((scale - x.scale).toNat : ℤ) = scale := by omega
  rw [← toRat_extend x (scale - x.scale).toNat, extend, hscale, mantissaAt]

/-- Another scale moves the point. -/
theorem toRat_moved {scale exponent : ℤ} (h : scale - exponent = x.scale) :
    x.toRat = toRat ⟨x.mantissa, scale⟩ * 10 ^ exponent := by
  have hscale : -x.scale = -scale + exponent := by omega
  rw [toRat, toRat, mul_assoc, ← ten_zpow_add, hscale]

/-! ## The leading digit -/

theorem pow_leadingExponent_le (h : x.mantissa ≠ 0) : (10 : ℚ) ^ x.leadingExponent ≤ |x.toRat| := by
  have hpos := digitCount_pos x.mantissa.natAbs
  have hdigits : 10 ^ (x.digits - 1) ≤ x.mantissa.natAbs :=
    pow_le_of_digitCount (Int.natAbs_pos.2 h)
  have hlead : x.leadingExponent = ((x.digits - 1 : ℕ) : ℤ) + -x.scale := by
    rw [leadingExponent]
    change 0 < x.digits at hpos
    omega
  rw [hlead, ten_zpow_add, zpow_natCast, abs_toRat]
  refine mul_le_mul_of_nonneg_right ?_ (ten_zpow_pos _).le
  exact_mod_cast hdigits

theorem lt_pow_leadingExponent (x : Decimal) : |x.toRat| < 10 ^ (x.leadingExponent + 1) := by
  have hdigits : x.mantissa.natAbs < 10 ^ x.digits := lt_pow_digitCount _
  have hlead : x.leadingExponent + 1 = (x.digits : ℤ) + -x.scale := by
    rw [leadingExponent]
    omega
  rw [hlead, ten_zpow_add, zpow_natCast, abs_toRat]
  refine mul_lt_mul_of_pos_right ?_ (ten_zpow_pos _)
  exact_mod_cast hdigits

theorem le_leadingExponent_iff (h : x.mantissa ≠ 0) {n : ℤ} :
    n ≤ x.leadingExponent ↔ (10 : ℚ) ^ n ≤ |x.toRat| := by
  constructor
  · intro hn
    exact (zpow_le_zpow_right₀ (by norm_num) hn).trans (pow_leadingExponent_le h)
  · intro hn
    have hlt := hn.trans_lt (lt_pow_leadingExponent x)
    have hexponent := (zpow_lt_zpow_iff_right₀ (by norm_num)).1 hlt
    omega

theorem leadingExponent_lt_iff (h : x.mantissa ≠ 0) {n : ℤ} :
    x.leadingExponent < n ↔ |x.toRat| < 10 ^ n := by
  rw [← not_le, le_leadingExponent_iff h, not_le]

/-! ## Order -/

theorem compareAligned_eq_cmp (x y : Decimal) : x.compareAligned y = cmp x.toRat y.toRat := by
  rw [compareAligned, ← cmp_eq_compare, ← toRat_mantissaAt (x := x) (le_max_left x.scale y.scale),
    ← toRat_mantissaAt (x := y) (le_max_right x.scale y.scale), toRat, toRat,
    cmp_mul_pos_right (ten_zpow_pos _), Int.cast_strictMono.cmp_map_eq]

/-- The number with the higher leading digit is the larger one. -/
theorem abs_toRat_lt (hy : y.mantissa ≠ 0) (h : x.leadingExponent < y.leadingExponent) :
    |x.toRat| < |y.toRat| := by
  have hpow : (10 : ℚ) ^ (x.leadingExponent + 1) ≤ 10 ^ y.leadingExponent :=
    zpow_le_zpow_right₀ (by norm_num) h
  calc |x.toRat| < 10 ^ (x.leadingExponent + 1) := lt_pow_leadingExponent x
    _ ≤ 10 ^ y.leadingExponent := hpow
    _ ≤ |y.toRat| := pow_leadingExponent_le hy

theorem toRat_lt_of_sign_lt (h : x.mantissa.sign < y.mantissa.sign) : x.toRat < y.toRat := by
  by_contra hnot
  have hle : y.toRat ≤ x.toRat := not_lt.1 hnot
  by_cases hy : 0 < y.mantissa
  · have hx : 0 < x.mantissa := toRat_pos.1 ((toRat_pos.2 hy).trans_le hle)
    rw [Int.sign_eq_one_of_pos hx, Int.sign_eq_one_of_pos hy] at h
    omega
  · have hysign : y.mantissa.sign ≤ 0 := Int.sign_nonpos_iff.2 (by omega)
    have hx : x.mantissa < 0 := Int.sign_neg_iff.1 (by omega)
    have hy : y.mantissa < 0 := toRat_neg_iff.1 (hle.trans_lt (toRat_neg_iff.2 hx))
    rw [Int.sign_eq_neg_one_of_neg hx, Int.sign_eq_neg_one_of_neg hy] at h
    omega

/-- Of two numbers of one sign the higher leading digit decides. -/
theorem cmp_of_leadingExponent_lt (hsign : x.mantissa.sign = y.mantissa.sign)
    (hy : y.mantissa ≠ 0) (h : x.leadingExponent < y.leadingExponent) :
    cmp x.toRat y.toRat = if x.mantissa < 0 then .gt else .lt := by
  have habs := abs_toRat_lt hy h
  by_cases hneg : x.mantissa < 0
  · have hyneg : y.mantissa < 0 := by
      rw [← Int.sign_neg_iff, ← hsign, Int.sign_neg_iff]
      exact hneg
    rw [abs_of_neg (toRat_neg_iff.2 hneg), abs_of_neg (toRat_neg_iff.2 hyneg)] at habs
    rw [if_pos hneg, cmp_eq_gt_iff]
    exact neg_lt_neg_iff.1 habs
  · have hypos : 0 < y.mantissa := by
      have hnonneg : 0 ≤ y.mantissa.sign := hsign ▸ Int.sign_nonneg_iff.2 (by omega)
      have := Int.sign_nonneg_iff.1 hnonneg
      omega
    rw [abs_of_pos (toRat_pos.2 hypos)] at habs
    rw [if_neg hneg, cmp_eq_lt_iff]
    exact (le_abs_self _).trans_lt habs

theorem compare_eq_cmp (x y : Decimal) : x.compare y = cmp x.toRat y.toRat := by
  rw [compare]
  cases hsign : Ord.compare x.mantissa.sign y.mantissa.sign with
  | lt =>
    have hlt := toRat_lt_of_sign_lt (compare_lt_iff_lt.1 hsign)
    exact ((cmp_eq_lt_iff _ _).2 hlt).symm
  | gt =>
    have hlt := toRat_lt_of_sign_lt (compare_gt_iff_gt.1 hsign)
    exact ((cmp_eq_gt_iff _ _).2 hlt).symm
  | eq =>
    have hsign : x.mantissa.sign = y.mantissa.sign := compare_eq_iff_eq.1 hsign
    by_cases hx : x.mantissa = 0
    · have hy : y.mantissa = 0 := by
        rwa [hx, Int.sign_zero, eq_comm, Int.sign_eq_zero_iff_zero] at hsign
      rw [if_pos hx, toRat_eq_zero.2 hx, toRat_eq_zero.2 hy, cmp_self_eq_eq]
    · have hy : y.mantissa ≠ 0 := by
        intro hy
        rw [hy, Int.sign_zero, Int.sign_eq_zero_iff_zero] at hsign
        exact hx hsign
      rw [if_neg hx]
      cases hlead : Ord.compare x.leadingExponent y.leadingExponent with
      | eq => exact compareAligned_eq_cmp x y
      | lt => exact (cmp_of_leadingExponent_lt hsign hy (compare_lt_iff_lt.1 hlead)).symm
      | gt =>
        have hcmp := cmp_of_leadingExponent_lt hsign.symm hx (compare_gt_iff_gt.1 hlead)
        have hneg : x.mantissa < 0 ↔ y.mantissa < 0 := by
          rw [← Int.sign_neg_iff, hsign, Int.sign_neg_iff]
        rw [← cmp_swap, hcmp]
        simp only [hneg]
        split <;> rfl

theorem same_iff : x.same y = true ↔ x.toRat = y.toRat := by
  rw [same, compare_eq_cmp, beq_iff_eq, cmp_eq_eq_iff]

theorem le_iff : x ≤ y ↔ x.toRat ≤ y.toRat := by
  change x.compare y ≠ .gt ↔ _
  rw [compare_eq_cmp, Ne, cmp_eq_gt_iff, not_lt]

theorem lt_iff : x < y ↔ x.toRat < y.toRat := by
  change x.compare y = .lt ↔ _
  rw [compare_eq_cmp, cmp_eq_lt_iff]

end Decimal
end DeskCalc
