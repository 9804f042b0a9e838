import DeskCalc.Arithmetic.Power
import DeskCalc.Proofs.Decimal.Size
import Mathlib.Tactic.NormNum

/-
How the exponent of a power is read.

An exponent is taken as an integer just if it is one, however it is written
(`toInt64?_eq_some_iff`).  It is taken as a small fraction if it is one and is written with few
digits: this is the only place where a power looks at the digits and not at the number
(`smallFraction?_eq_some_iff`).
-/
namespace DeskCalc
namespace Decimal

variable {x : Decimal} {n : ℤ}

theorem toRat_of_scale_zero (h : x.scale = 0) : x.toRat = x.mantissa := by
  rw [toRat, h, neg_zero, zpow_zero, mul_one]

/-- Cutting off the fraction of an integer cuts off nothing. -/
theorem toRat_truncateTo_zero (h : x.isIntegral = true) : (x.truncateTo 0).toRat = x.toRat := by
  by_cases hscale : x.scale ≤ 0
  · exact toRat_truncateTo hscale
  · rw [truncateTo]
    by_cases hzero : x.isZero = true
    · rw [if_pos hzero, isZero_iff.1 hzero]
      exact toRat_eq_zero.2 rfl
    · have hzeros : x.scale ≤ trailingZeros x.mantissa.natAbs := by
        simpa [isIntegral, hscale, hzero] using h
      have hdvd : (10 : ℤ) ^ (x.scale - 0).toNat ∣ x.mantissa := by
        have hpow := (pow_dvd_pow 10 (show (x.scale - 0).toNat ≤ trailingZeros x.mantissa.natAbs by
          omega)).trans (pow_trailingZeros_dvd x.mantissa.natAbs)
        exact Int.dvd_natAbs.1 (by exact_mod_cast hpow)
      rw [if_neg hzero, if_neg hscale, ← toRat_extend _ (x.scale - 0).toNat, extend]
      dsimp only
      rw [Int.tdiv_mul_cancel hdvd]
      congr 1
      cases x
      simp only [mk.injEq, true_and]
      dsimp only at hscale ⊢
      omega

theorem isIntegral_of_toRat (h : x.toRat = n) : x.isIntegral = true := by
  by_cases hplain : x.scale ≤ 0 ∨ x.isZero = true
  · rcases hplain with hscale | hzero
    · rw [isIntegral, decide_eq_true hscale, Bool.true_or, Bool.true_or]
    · rw [isIntegral, hzero, Bool.or_true, Bool.true_or]
  · obtain ⟨hscale, hzero⟩ := not_or.1 hplain
    obtain ⟨places, hplaces⟩ := Int.eq_ofNat_of_zero_le (not_le.1 hscale).le
    have hmantissa : x.mantissa = n * 10 ^ places := by
      have hten : (10 : ℚ) ^ places ≠ 0 := pow_ne_zero _ (by norm_num)
      rw [toRat, hplaces, zpow_neg, ← div_eq_mul_inv, zpow_natCast, div_eq_iff hten] at h
      exact_mod_cast h
    have hne : x.mantissa.natAbs ≠ 0 :=
      Int.natAbs_ne_zero.2 fun h => hzero (isZero_of_eq h)
    have hdvd : 10 ^ places ∣ x.mantissa.natAbs := by
      rw [hmantissa, Int.natAbs_mul, Int.natAbs_pow]
      exact Dvd.intro_left _ rfl
    have hzeros : places ≤ trailingZeros x.mantissa.natAbs := by
      by_contra hfew
      exact not_pow_succ_trailingZeros_dvd hne ((pow_dvd_pow 10 (not_le.1 hfew)).trans hdvd)
    rw [isIntegral, decide_eq_true (show x.scale ≤ trailingZeros x.mantissa.natAbs by omega),
      Bool.or_true]

theorem toInt?_eq_some_iff : x.toInt? = some n ↔ x.toRat = n := by
  have hread : x.isIntegral = true → x.toRat = (x.truncateTo 0).mantissa := fun hintegral => by
    rw [← toRat_truncateTo_zero hintegral, toRat_of_scale_zero (scale_truncateTo x 0)]
  rw [toInt?]
  constructor
  · intro h
    by_cases hintegral : x.isIntegral = true
    · rw [if_pos hintegral] at h
      rw [hread hintegral, Option.some.inj h]
    · rw [if_neg hintegral] at h
      cases h
  · intro h
    have hintegral := isIntegral_of_toRat h
    rw [hread hintegral] at h
    rw [if_pos hintegral]
    exact congrArg some (Int.cast_injective h)

theorem isIntegral_iff : x.isIntegral = true ↔ ∃ n : ℤ, x.toRat = n := by
  constructor
  · intro h
    exact ⟨(x.truncateTo 0).mantissa, toInt?_eq_some_iff.1 (if_pos h)⟩
  · rintro ⟨n, hn⟩
    exact isIntegral_of_toRat hn

/-- The integers of 64 bits are recognised. -/
theorem toInt64?_eq_some_iff : x.toInt64? = some n ↔ x.toRat = n ∧ InRange n := by
  have hfits : saturate n = n ↔ InRange n :=
    ⟨fun h => by rw [saturate] at h; constructor <;> omega, saturate_of_inRange⟩
  have hsmall : x.toRat = n → InRange n → ¬ 18 < x.adjustedExponent := by
    intro hvalue hn
    by_cases hx : x.mantissa = 0
    · rw [Context.adjustedExponent_of_zero hx]
      decide
    · have habs : |x.toRat| < 10 ^ (19 : ℤ) := by
        rw [hvalue, abs_lt]
        obtain ⟨hlow, hhigh⟩ := hn
        constructor
        · exact lt_of_lt_of_le (by norm_num) (Int.cast_le.2 hlow)
        · exact lt_of_le_of_lt (Int.cast_le.2 hhigh) (by norm_num)
      have hlead := (leadingExponent_lt_iff hx).2 habs
      rw [Context.adjustedExponent_eq hx, saturate]
      omega
  rw [toInt64?]
  constructor
  · intro h
    split at h
    · cases h
    · obtain ⟨hread, hkept⟩ := Option.filter_eq_some_iff.1 h
      exact ⟨toInt?_eq_some_iff.1 hread, hfits.1 (beq_iff_eq.1 hkept)⟩
  · rintro ⟨hvalue, hn⟩
    rw [if_neg (hsmall hvalue hn)]
    exact Option.filter_eq_some_iff.2 ⟨toInt?_eq_some_iff.2 hvalue, beq_iff_eq.2 (hfits.2 hn)⟩

end Decimal

namespace Arithmetic

open Decimal

variable {context : Context} {base exponent : Decimal} {n : ℤ} {span : Span}

/-- An integer exponent that is not too large is one of squarings. -/
theorem powerM_of_integer (h : exponent.toRat = n) (hn : n.natAbs ≤ maxIntegerExponent) :
    powerM context base exponent span = integerPowerM context base n span := by
  have hmost : maxIntegerExponent = 1000000000 := rfl
  have hread := toInt64?_eq_some_iff.2 ⟨h, show InRange n by constructor <;> omega⟩
  rw [powerM, hread]
  exact if_pos hn

theorem power_of_integer (h : exponent.toRat = n) (hn : n.natAbs ≤ maxIntegerExponent) :
    power context base exponent span = integerPower context base n span :=
  congrArg Checked.value (powerM_of_integer h hn)

/-- All other exponents go through the logarithm. -/
theorem power_of_fraction (h : ∀ n : ℤ, exponent.toRat = n → maxIntegerExponent < n.natAbs) :
    power context base exponent span = fractionalPower context base exponent span := by
  rw [power_eq]
  split
  · next n hread => exact if_neg (not_le.2 (h n (toInt64?_eq_some_iff.1 hread).1))
  · rfl

/-- An exponent is an integer that is not too large, or any integer that it is is too large. -/
theorem integer_or_fraction (exponent : Decimal) :
    (∃ n : ℤ, exponent.toRat = n ∧ n.natAbs ≤ maxIntegerExponent) ∨
      ∀ n : ℤ, exponent.toRat = n → maxIntegerExponent < n.natAbs :=
  or_iff_not_imp_left.2 fun h n hn => not_le.1 fun hsmall => h ⟨n, hn, hsmall⟩

/-! ## The sign of the base -/

theorem fractionalPower_of_neg (h : base.toRat < 0) :
    fractionalPower context base exponent span =
      .error (.domain (.negativeBase base exponent) span) := by
  rw [fractionalPower_eq, isNegative, decide_eq_true (toRat_neg_iff.1 h), if_pos rfl]

theorem fractionalPower_of_zero (h : base.toRat = 0) :
    fractionalPower context base exponent span =
      if exponent.isPositive then .ok (.exact .zero) else .error (.divisionByZero span) := by
  have hmantissa := toRat_eq_zero.1 h
  rw [fractionalPower_eq, isNegative, decide_eq_false (by omega), if_neg Bool.false_ne_true,
    isZero_of_eq hmantissa, if_pos rfl]

theorem fractionalPower_of_pos (h : 0 < base.toRat) :
    fractionalPower context base exponent span =
      (base.powf? exponent context.precision).elim
        (.error (.domain (.powerOutOfRange base exponent) span)) fun value =>
          .ok ((exactRoot? base exponent value context.precision).elim
            (.approximate value true) .exact) := by
  have hmantissa := toRat_pos.1 h
  rw [fractionalPower_eq, isNegative, decide_eq_false (by omega), if_neg Bool.false_ne_true,
    isZero_of_ne hmantissa.ne', if_neg Bool.false_ne_true]
  cases base.powf? exponent context.precision with
  | none => rfl
  | some value =>
    dsimp only [Option.elim]
    cases exactRoot? base exponent value context.precision <;> rfl

/-! ## Small fractions -/

/-- A number with at most eighteen places whose digits fit in 64 bits. -/
def Brief (x : Decimal) : Prop := (0 ≤ x.scale ∧ x.scale ≤ 18) ∧ InRange x.mantissa

theorem toRat_eq_divInt (h : 0 ≤ exponent.scale) :
    exponent.toRat = Rat.divInt exponent.mantissa (10 ^ exponent.scale.toNat) := by
  rw [Rat.divInt_eq_div, toRat, zpow_neg, div_eq_mul_inv]
  obtain ⟨places, hplaces⟩ := Int.eq_ofNat_of_zero_le h
  rw [hplaces, Int.toNat_natCast, zpow_natCast]
  push_cast
  rfl

/-- The terms of a fraction written with few digits are those of the number. -/
theorem smallFraction?_of_brief (h : Brief exponent) : smallFraction? exponent =
    if maxRootTerm < exponent.toRat.num.natAbs || maxRootTerm < exponent.toRat.den then none
    else some (exponent.toRat.num, exponent.toRat.den) := by
  obtain ⟨⟨hlow, hhigh⟩, hmantissa⟩ := h
  have hplaces : ¬ (decide (exponent.scale < 0) || decide (18 < exponent.scale)) = true := by
    rw [Bool.or_eq_true, decide_eq_true_eq, decide_eq_true_eq]
    omega
  have hpos : 0 < (10 : ℤ) ^ exponent.scale.toNat := pow_pos (by norm_num) _
  have hnum : exponent.toRat.num = exponent.mantissa.tdiv
      (Int.gcd exponent.mantissa (10 ^ exponent.scale.toNat)) := by
    rw [toRat_eq_divInt hlow, Rat.num_divInt, Int.sign_eq_one_of_pos hpos, one_mul, Int.gcd_comm]
    exact (Int.tdiv_eq_ediv_of_dvd (Int.gcd_dvd_left _ _)).symm
  have hden : exponent.toRat.den = (10 ^ exponent.scale.toNat : ℤ).natAbs /
      Int.gcd exponent.mantissa (10 ^ exponent.scale.toNat) := by
    rw [toRat_eq_divInt hlow, Rat.den_divInt, if_neg hpos.ne', Int.gcd_comm]
  rw [hnum, hden, smallFraction?]
  dsimp only
  rw [if_neg hplaces, if_pos (saturate_of_inRange hmantissa)]

theorem smallFraction?_of_not_brief (h : ¬ Brief exponent) : smallFraction? exponent = none := by
  rw [smallFraction?]
  dsimp only
  split
  · rfl
  · next hplaces =>
    rw [Bool.or_eq_true, decide_eq_true_eq, decide_eq_true_eq, not_or, not_lt, not_lt] at hplaces
    have hmantissa : ¬ saturate exponent.mantissa = exponent.mantissa := by
      intro hkept
      refine h ⟨hplaces, ?_⟩
      rw [saturate] at hkept
      constructor <;> omega
    rw [if_neg hmantissa]

/-- A small fraction is found just if it is one, in lowest terms, and written with few digits. -/
theorem smallFraction?_eq_some_iff {p : ℤ} {q : ℕ} : smallFraction? exponent = some (p, q) ↔
    Brief exponent ∧ (exponent.toRat.num = p ∧ exponent.toRat.den = q) ∧
      p.natAbs ≤ maxRootTerm ∧ q ≤ maxRootTerm := by
  by_cases hbrief : Brief exponent
  · rw [smallFraction?_of_brief hbrief]
    split
    · next hlarge =>
      rw [Bool.or_eq_true, decide_eq_true_eq, decide_eq_true_eq] at hlarge
      refine iff_of_false (Option.some_ne_none _).symm ?_
      rintro ⟨-, ⟨rfl, rfl⟩, hp, hq⟩
      omega
    · next hsmall =>
      rw [Bool.or_eq_true, decide_eq_true_eq, decide_eq_true_eq, not_or, not_lt, not_lt] at hsmall
      rw [Option.some_inj, Prod.mk.injEq]
      refine ⟨fun hterms => ⟨hbrief, hterms, ?_⟩, fun h => h.2.1⟩
      rw [← hterms.1, ← hterms.2]
      exact hsmall
  · rw [smallFraction?_of_not_brief hbrief]
    exact iff_of_false (Option.some_ne_none _).symm fun h => hbrief h.1

end Arithmetic
end DeskCalc
