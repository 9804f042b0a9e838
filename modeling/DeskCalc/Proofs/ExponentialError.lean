import DeskCalc.Proofs.Accuracy.Exponential
import DeskCalc.Proofs.Power.Value
import Mathlib.Analysis.Complex.ExponentialBounds

/-
The error of the exponential function.

Up to the limit of its argument the exponential is right in all the digits that are asked for.
Beyond the limit nothing is worked out, and there the exponential itself is beyond the magnitude
of a value, or too small for one.
-/
namespace DeskCalc

open Decimal

/-- Powers of ten against powers of two. -/
theorem log_ten_lt : 10001 * Real.log 10 < 23100 := by
  have hpowers : Real.log (10 ^ 31) ≤ Real.log (2 ^ 103) :=
    Real.log_le_log (by norm_num) (by norm_num)
  rw [Real.log_pow, Real.log_pow] at hpowers
  push_cast at hpowers
  linarith [Real.log_two_lt_d9]

theorem exp_beyond_limit {a : ℝ} (ha : 23100 < a) :
    10 ^ 10001 < Real.exp a ∧ Real.exp (-a) < 10 ^ (-10000 : ℤ) := by
  have hlog : Real.log (10 ^ 10001) < a := by
    rw [Real.log_pow]
    push_cast
    linarith [log_ten_lt]
  have hlarge := (Real.log_lt_iff_lt_exp (by positivity)).1 hlog
  refine ⟨hlarge, ?_⟩
  rw [Real.exp_neg, inv_lt_comm₀ (Real.exp_pos a) (by positivity), ← zpow_neg]
  refine lt_of_le_of_lt ?_ hlarge
  rw [← zpow_natCast]
  exact zpow_le_zpow_right₀ (by norm_num) (by norm_num)

/-- Beyond the limit the sign of the argument decides. -/
theorem exp?_beyond_limit {x : Decimal} (h : 23100 < |x.toReal|) (precision : ℕ) :
    x.exp? precision = if 0 < x.toReal then none else some zero := by
  have hne : x.mantissa ≠ 0 := by
    intro hzero
    rw [toReal_eq_zero.2 hzero, abs_zero] at h
    linarith
  have hlimit : exponentialLimit < x.abs := by
    rw [lt_iff_toReal, ← abs_toReal, exponentialLimit, toReal_ofInt]
    push_cast
    exact h
  rw [exp?_eq, isZero_of_ne hne, decide_eq_true hlimit, Bool.or_true, isPositive]
  simp [toReal_pos]

end DeskCalc
