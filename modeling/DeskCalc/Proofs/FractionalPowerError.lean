import DeskCalc.Proofs.Accuracy.Exponential
import DeskCalc.Proofs.Accuracy.Logarithm
import DeskCalc.Proofs.Power.Value
import Mathlib.Analysis.Complex.ExponentialBounds
import Mathlib.Analysis.SpecialFunctions.Pow.Real

/-
The error of a power with any exponent.

The power is the exponential of the exponent times the logarithm of the base.  An error of that
product is a part of the power, and the product is up to tens of thousands in size, so the
logarithm is worked out in as many more digits as the product takes.
-/
namespace DeskCalc

open Decimal

/-- The exponent of the exponential, with its error. -/
theorem abs_product_sub_le {unit product scaled log y : ℝ}
    (hproduct : Within unit product (y * scaled)) (hlog : Within (3 * unit) scaled log)
    (hunit : unit ≤ 1 / 3) (hle : |y * log| ≤ 23000) :
    |product - y * log| ≤ 115000 * unit := by
  have hboth := (hproduct.trans (hlog.mul_left y) (by linarith)).close
  have hsize := mul_le_mul_of_nonneg_left hle hproduct.nonneg
  linarith

/-- The product of the exponent and the logarithm, in so many digits. -/
theorem exists_product {base exponent : Decimal} {d precision : ℕ} (hpos : 0 < base.mantissa)
    (hprecision : precision ≤ 60) (hd : precision + 700 ≤ d) (hlimit : d ≤ 1125899906842624)
    (hbase : Sized d (-10000) 10000 base)
    (hle : |exponent.toReal * Real.log base.toReal| ≤ 23000) :
    ∃ log, base.ln? (precision + 10) = some log ∧
      |((exponent * log).withDigits (precision + 20)).toReal -
        exponent.toReal * Real.log base.toReal| ≤ 115000 * digitUnit (precision + 20) := by
  obtain ⟨log, hvalue, hlog⟩ := exists_ln?_within (d := d) (show precision + 10 ≤ 80 by omega) hpos
    (by omega) hlimit hbase
  have hproduct := within_withDigits (show precision + 20 ≠ 0 by omega) (exponent * log)
  rw [toReal_mul] at hproduct
  have hunit : digitUnit (precision + 20) ≤ 1 / 3 :=
    (digitUnit_mono (show 20 ≤ precision + 20 by omega)).trans (by norm_num [digitUnit])
  exact ⟨log, hvalue, abs_product_sub_le hproduct hlog hunit hle⟩

end DeskCalc
