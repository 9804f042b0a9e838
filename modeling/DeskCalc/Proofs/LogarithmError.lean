import DeskCalc.Proofs.Accuracy.Logarithm
import DeskCalc.Proofs.Power.Value

/-
The error of the natural logarithm.

However long a positive number in range is, and however near to one, its logarithm is right in all
the digits that are asked for: the error is a part of the logarithm itself, so it vanishes at one.
-/
namespace DeskCalc

open Decimal

/-- The logarithm is computed, and its error is at most one part in ten to the precision.  The
logarithm of one is zero.  The number has no more digits than can be written down, 10^15. -/
theorem natural_logarithm_error (x : Decimal) (precision : ℕ) (hpos : 0 < x.toRat)
    (hexponent : |x.adjustedExponent| ≤ Context.maxExponent) (hdigits : x.digits ≤ writableDigits)
    (hleast : 1 ≤ precision) (hmost : precision ≤ 60) :
    ∃ value, x.ln? precision = some value ∧
      |(value.toRat : ℝ) - Real.log x.toRat| ≤ 10 ^ (-(precision : ℤ)) * |Real.log x.toRat| ∧
      (x.toRat = 1 → value.toRat = 0) := by
  have hmax : writableDigits = 1000000000000000 := rfl
  obtain ⟨d, hd⟩ : ∃ d, d = writableDigits + 680 := ⟨_, rfl⟩
  obtain ⟨value, hvalue, hnear⟩ := exists_ln?_within (d := d)
    (show precision ≤ 80 by omega) (toRat_pos.1 hpos) (by omega) (by omega)
    ((sized_of_adjustedExponent hexponent).mono (by omega) le_rfl le_rfl)
  have hunit : 3 * digitUnit (precision + 10) ≤ 10 ^ (-(precision : ℤ)) := by
    have hsplit : digitUnit (precision + 10) = 10 ^ (-(precision : ℤ)) * 10 ^ (-9 : ℤ) := by
      rw [digitUnit, ← zpow_add₀ (by norm_num)]
      congr 1
      push_cast
      ring
    have hpart : (3 : ℝ) * 10 ^ (-9 : ℤ) ≤ 1 := by norm_num
    have hpower : (0 : ℝ) < 10 ^ (-(precision : ℤ)) := zpow_pos (by norm_num) _
    linarith [mul_le_mul_of_nonneg_left hpart hpower.le]
  have hclose := (hnear.mono hunit).close
  refine ⟨value, hvalue, hclose, fun hone => ?_⟩
  rw [toReal, toReal, hone, Rat.cast_one, Real.log_one, abs_zero, mul_zero, sub_zero] at hclose
  exact_mod_cast abs_nonpos_iff.1 hclose

/-- A number next to one, in the most digits. -/
theorem natural_logarithm_error_next_to_one :
    ∃ value, ln? ⟨10000001, 7⟩ 60 = some value ∧
      |(value.toRat : ℝ) - Real.log (toRat ⟨10000001, 7⟩)| ≤
        10 ^ (-((60 : ℕ) : ℤ)) * |Real.log (toRat ⟨10000001, 7⟩)| ∧
      (toRat ⟨10000001, 7⟩ = 1 → value.toRat = 0) :=
  natural_logarithm_error ⟨10000001, 7⟩ 60 (toRat_pos.2 (by decide)) (by decide) (by decide)
    (by decide) (by decide)

end DeskCalc
