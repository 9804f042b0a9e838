import DeskCalc.Proofs.Power.Exponent
import DeskCalc.Proofs.Power.Integer

/-
Powers of an opposite base.

In a rounding mode that treats both signs alike, an integer power of the opposite base is the
same power up to its sign, as long as the exponent is one that is computed by squaring.  An
integer that is larger goes through the logarithm like a fraction: there a negative base is
always refused.
-/
namespace DeskCalc
namespace Decimal

theorem toRat_neg (x : Decimal) : (-x).toRat = -x.toRat := by
  change ((-x.mantissa : ℤ) : ℚ) * 10 ^ (-x.scale) = _
  rw [Int.cast_neg, neg_mul, toRat]

theorem digits_neg (x : Decimal) : (-x).digits = x.digits := by
  change digitCount (-x.mantissa).natAbs = _
  rw [Int.natAbs_neg, digits]

theorem adjustedExponent_neg (x : Decimal) : (-x).adjustedExponent = x.adjustedExponent := by
  have hlead : (-x).leadingExponent = x.leadingExponent := by
    rw [leadingExponent, digits_neg]
    rfl
  by_cases hx : x.mantissa = 0
  · have hneg : (-x).mantissa = 0 := by
      change -x.mantissa = 0
      omega
    rw [Context.adjustedExponent_of_zero hx, Context.adjustedExponent_of_zero hneg]
  · have hneg : (-x).mantissa ≠ 0 := by
      change -x.mantissa ≠ 0
      omega
    rw [Context.adjustedExponent_eq hx, Context.adjustedExponent_eq hneg, hlead]

end Decimal

namespace Arithmetic

open Decimal

variable {context : Context} {base exponent : Decimal} {n : ℤ} {span : Span}

theorem guardedPower_neg (hmode : context.rounding.mirror = context.rounding) (q : ℚ) (n : ℕ) :
    guardedPower context (-q) n =
      ((-1) ^ n * (guardedPower context q n).1, (guardedPower context q n).2) :=
  numberPower_neg (RoundingMode.rounded_neg hmode _) q n

/-- A power of -1 does not depend on the sign of the exponent. -/
theorem neg_one_zpow (n : ℤ) : (-1 : ℚ) ^ n = (-1) ^ n.natAbs := by
  rw [← zpow_natCast, neg_one_zpow_eq_ite, neg_one_zpow_eq_ite]
  simp only [Int.even_coe_nat, Int.natAbs_even]

/-- The reciprocal of the opposite number is the opposite of the reciprocal, and rounds to it. -/
theorem rounded_one_div_neg {sign : ℚ} (hsign : sign = 1 ∨ sign = -1) (count : ℕ) (q : ℚ) :
    RoundingMode.halfUp.rounded count (1 / (sign * q)) =
      (sign * (RoundingMode.halfUp.rounded count (1 / q)).1,
        (RoundingMode.halfUp.rounded count (1 / q)).2) := by
  rcases hsign with rfl | rfl
  · rw [one_mul, one_mul]
  · rw [neg_one_mul, neg_one_mul, div_neg, RoundingMode.rounded_neg rfl]

theorem integerPowerOf_neg (hmode : context.rounding.mirror = context.rounding) (q : ℚ) (n : ℤ)
    (span : Span) : integerPowerOf context (-q) n span =
      (integerPowerOf context q n span).map (Prod.map ((-1) ^ n * ·) id) := by
  have hsign : (-1 : ℚ) ^ n.natAbs = 1 ∨ (-1 : ℚ) ^ n.natAbs = -1 := neg_one_pow_eq_or ℚ n.natAbs
  rw [integerPowerOf, integerPowerOf, guardedPower_neg hmode, neg_one_zpow]
  simp only [neg_eq_zero]
  generalize (-1 : ℚ) ^ n.natAbs = sign at hsign
  generalize guardedPower context q n.natAbs = power
  obtain ⟨power, lost⟩ := power
  have habs : |sign * power| = |power| := by
    rcases hsign with rfl | rfl
    · rw [one_mul]
    · rw [neg_one_mul, abs_neg]
  dsimp only
  rw [habs, rounded_one_div_neg hsign]
  by_cases hdivide : n < 0 ∧ q = 0
  · rw [if_pos hdivide, if_pos hdivide]
    rfl
  · rw [if_neg hdivide, if_neg hdivide]
    by_cases hneg : n < 0
    · rw [if_pos hneg, if_pos hneg]
      split
      · exact congrArg (fun zero => Except.ok (zero, Precision.inexact)) (mul_zero sign).symm
      · split <;> rfl
    · rw [if_neg hneg, if_neg hneg]
      rfl

/-- A power by squaring is never refused for the sign of its base. -/
theorem integerPower_ne_negativeBase (x y : Decimal) (span' : Span) :
    integerPower context base n span ≠ .error (.domain (.negativeBase x y) span') := by
  rw [integerPower_eq]
  split
  · simp
  · dsimp only
    split
    · split
      · simp
      · split
        · simp
        · rw [divide_eq]
          split
          · simp [bind, Except.bind]
          · simp [bind, Except.bind]
    · simp

/-- Through the logarithm a positive base is refused only if the power is too large. -/
theorem fractionalPower_error_of_pos (h : 0 < base.toRat) {error : EvalError}
    (herror : fractionalPower context base exponent span = .error error) :
    error = .domain (.powerOutOfRange base exponent) span := by
  rw [fractionalPower_of_pos h] at herror
  cases hvalue : base.powf? exponent context.precision with
  | none =>
    rw [hvalue] at herror
    exact (Except.error.inj herror).symm
  | some value =>
    rw [hvalue] at herror
    cases herror

end Arithmetic

open Arithmetic Decimal

/-- An integer power of the opposite of a positive base is the same up to the sign, or the same
kind of error, just if the exponent is one that is computed by squaring or there is no power of
the positive base either.  Beyond, and only there, the base is refused as if the exponent were
a fraction.  Where the power is squared, base and power have no more digits than can be written
down, 10^15, or that many are kept. -/
theorem power_of_opposite_base (context : Context) (base exponent : Decimal) (n : ℤ) (span : Span)
    (hprecision : 1 ≤ context.precision)
    (hmode : context.rounding ≠ .ceiling ∧ context.rounding ≠ .floor)
    (hbase : 0 < base.toRat) (hrange : |base.adjustedExponent| ≤ Context.maxExponent)
    (hexponent : exponent.toRat = n)
    (hdigits : n.natAbs ≤ 1000000000 → base.digits ≤ writableDigits)
    (hroom : n.natAbs ≤ 1000000000 →
      context.precision ≤ writableDigits ∨ n.natAbs * base.digits ≤ writableDigits) :
    (Alike ((-1) ^ n * ·) (power context base exponent span)
        (power context (-base) exponent span) ↔
      n.natAbs ≤ 1000000000 ∨ ∃ error, power context base exponent span = .error error) ∧
    (power context (-base) exponent span =
        .error (.domain (.negativeBase (-base) exponent) span) ↔
      1000000000 < n.natAbs) := by
  by_cases hn : n.natAbs ≤ maxIntegerExponent
  · have hmirror : context.rounding.mirror = context.rounding := by
      generalize context.rounding = mode at hmode
      cases mode <;> simp_all [RoundingMode.mirror]
    have hnumber := number_integerPower hprecision hrange hn (hdigits hn) (hroom hn) span
    have hopposite := number_integerPower hprecision
      ((adjustedExponent_neg base).symm ▸ hrange) hn ((digits_neg base).symm ▸ hdigits hn)
      ((digits_neg base).symm ▸ hroom hn) span
    rw [toRat_neg, integerPowerOf_neg hmirror, ← hnumber] at hopposite
    rw [power_of_integer hexponent hn, power_of_integer hexponent hn]
    exact ⟨iff_of_true (.of_number hopposite) (Or.inl hn),
      iff_of_false (integerPower_ne_negativeBase _ _ _) (not_lt.2 hn)⟩
  · have hlarge : ∀ m : ℤ, exponent.toRat = m → maxIntegerExponent < m.natAbs := by
      intro m hm
      obtain rfl : m = n := Int.cast_injective (hm.symm.trans hexponent)
      exact not_le.1 hn
    have hopposite : (-base).toRat < 0 := by
      rw [toRat_neg]
      exact neg_lt_zero.2 hbase
    rw [power_of_fraction hlarge, power_of_fraction hlarge, fractionalPower_of_neg hopposite]
    refine ⟨?_, iff_of_true rfl (not_le.1 hn)⟩
    cases hpower : fractionalPower context base exponent span with
    | ok outcome =>
      refine iff_of_false id ?_
      rintro (hsmall | ⟨error, herror⟩)
      · exact hn hsmall
      · cases herror
    | error error =>
      obtain rfl := fractionalPower_error_of_pos hbase hpower
      exact iff_of_true rfl (Or.inr ⟨_, rfl⟩)

/-- A reciprocal, with an exponent that has a zero behind its point. -/
theorem power_of_opposite_base_reciprocal :
    (Alike ((-1) ^ (-3 : ℤ) * ·) (power { rounding := .halfEven } ⟨125, 1⟩ ⟨-30, 1⟩ {})
        (power { rounding := .halfEven } (-⟨125, 1⟩) ⟨-30, 1⟩ {}) ↔
      (-3 : ℤ).natAbs ≤ 1000000000 ∨
        ∃ error, power { rounding := .halfEven } ⟨125, 1⟩ ⟨-30, 1⟩ {} = .error error) ∧
    (power { rounding := .halfEven } (-⟨125, 1⟩) ⟨-30, 1⟩ {} =
        .error (.domain (.negativeBase (-⟨125, 1⟩) ⟨-30, 1⟩) {}) ↔
      1000000000 < (-3 : ℤ).natAbs) := by
  have hexponent : toRat ⟨-30, 1⟩ = ((-3 : ℤ) : ℚ) := by
    rw [toRat]
    norm_num
  exact power_of_opposite_base { rounding := .halfEven } ⟨125, 1⟩ ⟨-30, 1⟩ (-3) {} (by decide)
    (by decide) (toRat_pos.2 (by decide)) (by decide) hexponent (fun _ => by decide)
    fun _ => Or.inl (by decide)

/-- One has a power for the exponent ten to the tenth, and its opposite has none. -/
theorem power_of_opposite_of_one :
    toRat ⟨10000000000, 0⟩ = ((10000000000 : ℤ) : ℚ) ∧
      power {} .one ⟨10000000000, 0⟩ {} = .ok (.approximate .one true) ∧
      power {} (-.one) ⟨10000000000, 0⟩ {} =
        .error (.domain (.negativeBase (-.one) ⟨10000000000, 0⟩) {}) :=
  ⟨toRat_of_scale_zero rfl, by decide +kernel, by decide +kernel⟩

end DeskCalc
