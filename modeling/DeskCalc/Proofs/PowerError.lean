import DeskCalc.Proofs.Power.Integer
import DeskCalc.Proofs.Tree.Syntax
import Mathlib.Data.Sign.Basic

/-
The error of an integer power.

Repeated squaring rounds up to sixty times, and each squaring doubles the errors of the ones
before.  In all, a power is off by no more than one rounding for each unit of its exponent, in
every mode, and it has the sign of the exact power.
-/
namespace DeskCalc

open Decimal

/-- A power is computed, it has the right sign, and its magnitude is that of the exact power up
to one factor for each unit of the exponent.  The factors are off from 1 by at most one unit of
the tenth digit behind the working precision.  The base has no more digits than can be written
down, 10^15, and neither has the working precision, or else the power itself.  The program does
not stop on the way to it, if a power of zero has a scale. -/
theorem integer_power_error (context : Context) (x : Decimal) (n : ℕ) (span : Span)
    (hprecision : 1 ≤ context.precision)
    (hexponent : |x.adjustedExponent| ≤ Context.maxExponent)
    (hn : n ≤ 1000000000) (hdigits : x.digits ≤ writableDigits)
    (hroom : context.precision ≤ writableDigits ∨ n * x.digits ≤ writableDigits) :
    ∃ outcome, Arithmetic.integerPower context x n span = .ok outcome ∧
      SignType.sign outcome.value.toRat = SignType.sign (x.toRat ^ n) ∧
      |x.toRat ^ n| * (1 - 10 ^ (-((context.precision : ℤ) + 9))) ^ n ≤ |outcome.value.toRat| ∧
      |outcome.value.toRat| ≤ |x.toRat ^ n| * (1 + 10 ^ (-((context.precision : ℤ) + 9))) ^ n ∧
      ((x.toRat = 0 → InRange (n * x.scale)) →
        (Arithmetic.integerPowerM context x n span).run? = some (.ok outcome)) := by
  have hnumber := Arithmetic.number_integerPower hprecision hexponent (n := n) hn hdigits hroom span
  obtain ⟨f, hlow, hhigh, hnear⟩ := Arithmetic.near_guardedPower context x.toRat n
  rw [Arithmetic.integerPowerOf_natCast] at hnumber
  obtain ⟨outcome, houtcome, hvalue⟩ := map_eq_ok hnumber
  have hpower : outcome.value.toRat = x.toRat ^ n * f := by
    rw [← hnear]
    exact congrArg Prod.fst hvalue
  have hfactor : 0 < f := by
    have hbase := sub_pos.2 (Arithmetic.powerError_lt_one context)
    exact (pow_pos hbase n).trans_le hlow
  refine ⟨outcome, houtcome, ?_, ?_, ?_, fun hzero => ?_⟩
  · rw [hpower, sign_mul, sign_pos hfactor, mul_one]
  · rw [hpower, abs_mul, abs_of_pos hfactor]
    exact mul_le_mul_of_nonneg_left hlow (abs_nonneg _)
  · rw [hpower, abs_mul, abs_of_pos hfactor]
    exact mul_le_mul_of_nonneg_left hhigh (abs_nonneg _)
  · rw [Arithmetic.integerPowerM_answers hexponent hn hdigits hroom hzero, houtcome]

/-- The largest exponent, with a rounding that is always downwards. -/
theorem integer_power_error_directed :
    ∃ outcome, (Arithmetic.integerPowerM { precision := 3, rounding := .floor } ⟨-10000001, 7⟩
        (1000000000 : ℕ) {}).run? = some (.ok outcome) ∧
      SignType.sign outcome.value.toRat =
        SignType.sign (toRat ⟨-10000001, 7⟩ ^ 1000000000) ∧
      |toRat ⟨-10000001, 7⟩ ^ 1000000000| * (1 - 10 ^ (-(((3 : ℕ) : ℤ) + 9))) ^ 1000000000 ≤
        |outcome.value.toRat| ∧
      |outcome.value.toRat| ≤
        |toRat ⟨-10000001, 7⟩ ^ 1000000000| * (1 + 10 ^ (-(((3 : ℕ) : ℤ) + 9))) ^ 1000000000 := by
  obtain ⟨outcome, -, hsign, hlow, hhigh, hanswers⟩ :=
    integer_power_error { precision := 3, rounding := .floor } ⟨-10000001, 7⟩ 1000000000 {}
      (by decide) (by decide) (by decide) (by decide) (Or.inl (by decide))
  have hbase : toRat ⟨-10000001, 7⟩ ≠ 0 := toRat_eq_zero.not.2 (by decide)
  exact ⟨outcome, hanswers fun hzero => absurd hzero hbase, hsign, hlow, hhigh⟩

end DeskCalc
