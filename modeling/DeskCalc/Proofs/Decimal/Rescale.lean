import DeskCalc.Decimal.Rounding
import DeskCalc.Proofs.Decimal.Value
import Mathlib.Algebra.Order.Field.Basic

/-
Other representations of a number, and its roundings.

Taking off trailing zeros and writing more digits keep the number.  A rounding that keeps
some digits may carry into one more.
-/
namespace DeskCalc

theorem pow_zerosBelow_dvd (i n : ℕ) : 10 ^ zerosBelow i n ∣ n := by
  induction i generalizing n with
  | zero => exact one_dvd n
  | succ i ih =>
    rw [zerosBelow]
    by_cases h : n % 10 ^ 2 ^ i = 0
    · rw [if_pos h, pow_add]
      calc 10 ^ 2 ^ i * 10 ^ zerosBelow i (n / 10 ^ 2 ^ i)
          ∣ 10 ^ 2 ^ i * (n / 10 ^ 2 ^ i) := mul_dvd_mul_left _ (ih _)
        _ = n := Nat.mul_div_cancel' (Nat.dvd_of_mod_eq_zero h)
    · rw [if_neg h]
      exact ih n

theorem pow_trailingZeros_dvd (n : ℕ) : 10 ^ trailingZeros n ∣ n := pow_zerosBelow_dvd _ n

theorem not_pow_succ_zerosBelow_dvd {i n : ℕ} (h : ¬ 10 ^ 2 ^ i ∣ n) :
    ¬ 10 ^ (zerosBelow i n + 1) ∣ n := by
  induction i generalizing n with
  | zero => exact h
  | succ i ih =>
    rw [zerosBelow]
    by_cases hmod : n % 10 ^ 2 ^ i = 0
    · obtain ⟨q, rfl⟩ := Nat.dvd_of_mod_eq_zero hmod
      have hpos : 0 < 10 ^ 2 ^ i := pow_pos (by norm_num) _
      rw [pow_succ, mul_two, pow_add, Nat.mul_dvd_mul_iff_left hpos] at h
      rw [if_pos hmod, Nat.mul_div_cancel_left _ hpos, add_assoc, pow_add,
        Nat.mul_dvd_mul_iff_left hpos]
      exact ih h
    · rw [if_neg hmod]
      exact ih fun hdvd => hmod (Nat.mod_eq_zero_of_dvd hdvd)

/-- No more zeros than these stand at the end. -/
theorem not_pow_succ_trailingZeros_dvd {n : ℕ} (h : n ≠ 0) : ¬ 10 ^ (trailingZeros n + 1) ∣ n :=
  not_pow_succ_zerosBelow_dvd fun hdvd =>
    absurd (Nat.le_of_dvd (Nat.pos_of_ne_zero h) hdvd) (not_le.2 (lt_pow_halvings n))

theorem digitCount_le {n count : ℕ} (h : n < 10 ^ count) (hcount : 0 < count) :
    digitCount n ≤ count := by
  by_cases hn : n = 0
  · rw [hn, show digitCount 0 = 1 from rfl]
    exact hcount
  · have hlt := (pow_le_of_digitCount (Nat.pos_of_ne_zero hn)).trans_lt h
    have hdigits := (Nat.pow_lt_pow_iff_right (by norm_num)).1 hlt
    omega

namespace Decimal

variable {x : Decimal} {scale : ℤ} {mode : RoundingMode}

/-! ## The same number -/

/-- Behind the normal form stand the zeros that were taken off. -/
theorem extend_normalize (h : x.mantissa ≠ 0) :
    x.normalize.extend (trailingZeros x.mantissa.natAbs) = x := by
  have hdvd : (10 : ℤ) ^ trailingZeros x.mantissa.natAbs ∣ x.mantissa := by
    have := pow_trailingZeros_dvd x.mantissa.natAbs
    exact Int.dvd_natAbs.1 (by exact_mod_cast this)
  rw [normalize, isZero_of_ne h, if_neg Bool.false_ne_true, extend, Int.tdiv_mul_cancel hdvd]
  simp

theorem toRat_normalize (x : Decimal) : x.normalize.toRat = x.toRat := by
  by_cases h : x.mantissa = 0
  · rw [normalize, if_pos (isZero_of_eq h), toRat_zero, toRat_eq_zero.2 h]
  · rw [← toRat_extend x.normalize (trailingZeros x.mantissa.natAbs), extend_normalize h]

/-- The normal form does not end in a zero. -/
theorem not_ten_dvd_normalize (h : x.mantissa ≠ 0) : ¬ 10 ∣ x.normalize.mantissa.natAbs := by
  intro hdvd
  have hmantissa := congrArg (fun y : Decimal => y.mantissa.natAbs) (extend_normalize h)
  dsimp only [extend] at hmantissa
  rw [Int.natAbs_mul, Int.natAbs_pow] at hmantissa
  refine not_pow_succ_trailingZeros_dvd (Int.natAbs_ne_zero.2 h) ?_
  conv_rhs => rw [← hmantissa]
  rw [pow_succ']
  exact mul_dvd_mul_right hdvd _

theorem scale_normalize_le (h : x.mantissa ≠ 0) : x.normalize.scale ≤ x.scale := by
  have hscale : x.normalize.scale + trailingZeros x.mantissa.natAbs = x.scale :=
    congrArg Decimal.scale (extend_normalize h)
  omega

theorem toRat_truncateTo (h : x.scale ≤ scale) : (x.truncateTo scale).toRat = x.toRat := by
  rw [truncateTo]
  by_cases hzero : x.isZero = true
  · rw [if_pos hzero, isZero_iff.1 hzero]
    simp [toRat]
  · rw [if_neg hzero, if_pos h, toRat_mantissaAt h]

theorem scale_truncateTo (x : Decimal) (scale : ℤ) : (x.truncateTo scale).scale = scale := by
  rw [truncateTo]
  split
  · rfl
  · split <;> rfl

/-! ## Fewer digits -/

theorem scale_roundTo (x : Decimal) (scale : ℤ) (mode : RoundingMode) :
    (x.roundTo scale mode).scale = scale := by
  rw [roundTo]
  split
  · rfl
  · split <;> rfl

theorem natAbs_withSign (negative : Bool) (n : ℕ) : (withSign negative n).natAbs = n := by
  cases negative <;> simp [withSign]

theorem natAbs_roundTo_le (h : scale < x.scale) :
    (x.roundTo scale mode).mantissa.natAbs ≤
      x.mantissa.natAbs / 10 ^ (x.scale - scale).toNat + 1 := by
  rw [roundTo]
  by_cases hzero : x.isZero = true
  · simp [if_pos hzero]
  · rw [if_neg hzero, if_neg (by omega)]
    show (withSign _ _).natAbs ≤ _
    rw [natAbs_withSign]
    exact mode.quotient_le _ _ _

/-- If all but `count` digits stand behind the last place, at most one more is left. -/
theorem digits_roundTo_le {count : ℕ} (h : scale < x.scale)
    (hcount : x.digits ≤ count + (x.scale - scale).toNat) :
    (x.roundTo scale mode).digits ≤ count + 1 := by
  have hmantissa : x.mantissa.natAbs < 10 ^ (x.scale - scale).toNat * 10 ^ count := by
    rw [← pow_add, add_comm]
    exact (lt_pow_digitCount _).trans_le (Nat.pow_le_pow_right (by norm_num) hcount)
  have hkept : x.mantissa.natAbs / 10 ^ (x.scale - scale).toNat < 10 ^ count :=
    Nat.div_lt_of_lt_mul hmantissa
  have hrounded : (x.roundTo scale mode).mantissa.natAbs ≤ _ := natAbs_roundTo_le h
  have hcarry : 10 ^ count < 10 ^ (count + 1) := Nat.pow_lt_pow_right (by norm_num) (by omega)
  exact digitCount_le (by omega) (by omega)

end Decimal
end DeskCalc
