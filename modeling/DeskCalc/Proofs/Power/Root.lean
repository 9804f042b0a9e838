import DeskCalc.Proofs.Power.Exponent
import DeskCalc.Proofs.Power.Value

/-
Exact roots.

A power with a small fraction for an exponent is guessed from the logarithm and then tested: the
guess is taken only if multiplying it out gives the power of the base.  The products of the test
are exact, so what is taken is the power.
-/
namespace DeskCalc

open Decimal

/-- The number is the power of the base with a rational exponent.  An exponent that is not an
integer asks for the root that is not negative. -/
structure IsPower (base exponent power : ℚ) : Prop where
  nonneg : exponent.den ≠ 1 → 0 ≤ power
  direct : 0 ≤ exponent.num → power ^ exponent.den = base ^ exponent.num.natAbs
  reciprocal : exponent.num < 0 → power ^ exponent.den * base ^ exponent.num.natAbs = 1

namespace Arithmetic

variable {context : Context} {base exponent approximation root : Decimal} {precision : ℕ}
  {span : Span}

/-- The guess, shortened to the working precision. -/
def candidate (approximation : Decimal) (precision : ℕ) : Decimal :=
  (approximation.withDigits precision).normalize

/-- The q-th power of the root is the p-th power of the base. -/
def Raises (base root : ℚ) (p : ℤ) (q : ℕ) : Prop :=
  if p < 0 then root ^ q * base ^ p.natAbs = 1 else root ^ q = base ^ p.natAbs

/-- A root is found if the exponent is a small fraction and the test by multiplication holds for
the numbers, and only then. -/
theorem exactRoot?_eq_some_iff :
    exactRoot? base exponent approximation precision = some root ↔
      ∃ p q, smallFraction? exponent = some (p, q) ∧ candidate approximation precision = root ∧
        Raises base.toRat (candidate approximation precision).toRat p q := by
  rw [exactRoot?_eq]
  change (smallFraction? exponent >>= fun fraction =>
    let raised := exactPower (candidate approximation precision) fraction.2
    let wanted := exactPower base fraction.1.natAbs
    if fraction.1 < 0 then
      if (raised * wanted).same .one then some (candidate approximation precision) else none
    else if raised.same wanted then some (candidate approximation precision)
    else none) = _ ↔ _
  cases hfraction : smallFraction? exponent with
  | none => simp
  | some fraction =>
    obtain ⟨p, q⟩ := fraction
    generalize candidate approximation precision = guess
    change (if p < 0 then
        if (exactPower guess q * exactPower base p.natAbs).same .one then some guess else none
      else if (exactPower guess q).same (exactPower base p.natAbs) then some guess
      else none) = some root ↔ _
    simp only [same_iff, toRat_mul, toRat_exactPower, toRat_one]
    constructor
    · intro h
      refine ⟨p, q, rfl, ?_⟩
      rw [Raises]
      split at h
      · next hneg =>
        rw [if_pos hneg]
        exact (Option.ite_none_right_eq_some.1 h).symm.imp_left Option.some.inj
      · next hneg =>
        rw [if_neg hneg]
        exact (Option.ite_none_right_eq_some.1 h).symm.imp_left Option.some.inj
    · rintro ⟨p', q', hterms, rfl, hraises⟩
      obtain ⟨rfl, rfl⟩ := Prod.mk.inj (Option.some.inj hterms)
      rw [Raises] at hraises
      split at hraises
      · next hneg => rw [if_pos hneg, if_pos hraises]
      · next hneg => rw [if_neg hneg, if_pos hraises]

/-- A root that is found is the power. -/
theorem exactRoot?_isPower (hprecision : precision ≠ 0) (hguess : 0 ≤ approximation.mantissa)
    (h : exactRoot? base exponent approximation precision = some root) :
    IsPower base.toRat exponent.toRat root.toRat := by
  obtain ⟨p, q, hfraction, rfl, hraises⟩ := exactRoot?_eq_some_iff.1 h
  obtain ⟨-, ⟨rfl, rfl⟩, -, -⟩ := smallFraction?_eq_some_iff.1 hfraction
  rw [Raises] at hraises
  refine ⟨fun _ => ?_, fun hnum => ?_, fun hnum => ?_⟩
  · rw [candidate, toRat_normalize]
    exact toRat_nonneg.2 (mantissa_withDigits_nonneg hprecision hguess)
  · rwa [if_neg (not_lt.2 hnum)] at hraises
  · rwa [if_pos hnum] at hraises

/-- Only small fractions are tested. -/
theorem exists_fraction_of_exactRoot?
    (h : exactRoot? base exponent approximation precision = some root) :
    ∃ fraction, smallFraction? exponent = some fraction := by
  cases hfraction : smallFraction? exponent with
  | none =>
    rw [exactRoot?_eq, hfraction] at h
    cases h
  | some fraction => exact ⟨fraction, rfl⟩

/-- A power of a positive base through the logarithm is marked exact only if it is a root that was
found. -/
theorem exists_root_of_exact {outcome : Outcome} (hpos : 0 < base.toRat)
    (h : fractionalPower context base exponent span = .ok outcome)
    (hexact : outcome.precision = .exact) :
    ∃ value, base.powf? exponent context.precision = some value ∧
      exactRoot? base exponent value context.precision = some outcome.value := by
  rw [fractionalPower_of_pos hpos] at h
  cases hvalue : base.powf? exponent context.precision with
  | none =>
    rw [hvalue] at h
    cases h
  | some value =>
    rw [hvalue] at h
    refine ⟨value, rfl, ?_⟩
    obtain rfl := Except.ok.inj h
    cases hroot : exactRoot? base exponent value context.precision with
    | none =>
      rw [hroot] at hexact
      cases hexact
    | some root => rfl

/-- A power of zero is zero. -/
theorem isPower_zero {exponent : ℚ} (h : 0 < exponent) : IsPower 0 exponent 0 where
  nonneg _ := le_rfl
  direct _ := by
    rw [zero_pow exponent.den_nz, zero_pow (Int.natAbs_ne_zero.2 (Rat.num_pos.2 h).ne')]
  reciprocal hneg := absurd hneg (not_lt.2 (Rat.num_pos.2 h).le)

/-- A power through the logarithm is marked exact only if it is the power. -/
theorem fractionalPower_isPower {outcome : Outcome} (hprecision : 1 ≤ context.precision)
    (h : fractionalPower context base exponent span = .ok outcome)
    (hexact : outcome.precision = .exact) :
    IsPower base.toRat exponent.toRat outcome.value.toRat := by
  rcases lt_trichotomy base.toRat 0 with hneg | hzero | hpos
  · rw [fractionalPower_of_neg hneg] at h
    cases h
  · rw [fractionalPower_of_zero hzero] at h
    split at h
    · next hpositive =>
      obtain rfl := Except.ok.inj h
      rw [hzero, show (Outcome.exact zero).value.toRat = 0 from toRat_zero]
      exact isPower_zero (toRat_pos.2 (of_decide_eq_true hpositive))
    · cases h
  · obtain ⟨value, hvalue, hroot⟩ := exists_root_of_exact hpos h hexact
    exact exactRoot?_isPower (by omega) (mantissa_powf?_nonneg hvalue) hroot

end Arithmetic
end DeskCalc
