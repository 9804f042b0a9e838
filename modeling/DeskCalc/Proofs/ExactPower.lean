import DeskCalc.Proofs.Power.Integer
import DeskCalc.Proofs.Power.Root

/-
Powers that are marked exact.

A power with the mark of an exact value is the power itself: the products of the squaring have
lost nothing, or the root has been multiplied out.  That holds for all bases and exponents, as
neither a product nor a comparison is ever wrong.  A power with a positive integer exponent gets
the mark just if it fits in the digits that are carried, as no product on the way to it has more
digits than the power; here the base has to be in range, since far outside of it no scale is left
for a product or for the place of a rounding.
-/
namespace DeskCalc

/-- What the power of a number with an integer exponent has to be. -/
theorem isPower_intCast {q power : ℚ} {n : ℤ} (hdirect : 0 ≤ n → power = q ^ n.natAbs)
    (hreciprocal : n < 0 → power * q ^ n.natAbs = 1) : IsPower q n power where
  nonneg hden := absurd (Rat.den_intCast n) hden
  direct hnum := by
    rw [Rat.num_intCast] at hnum
    rw [Rat.den_intCast, Rat.num_intCast, pow_one, hdirect hnum]
  reciprocal hnum := by
    rw [Rat.num_intCast] at hnum
    rw [Rat.den_intCast, Rat.num_intCast, pow_one, hreciprocal hnum]

namespace Arithmetic

open Decimal

variable {context : Context} {x : Decimal} {span : Span}

/-- A rounding that loses nothing leaves the number as it is. -/
theorem toRat_round_of_kept (h : (context.round x).2 = false) :
    (context.round x).1.toRat = x.toRat := by
  rw [Context.round] at h ⊢
  split at h
  · next hfew => rw [if_pos hfew]
  · next hmore =>
    rw [if_neg hmore]
    exact same_iff.1 (by simpa using h)

theorem toRat_powerWith_round {n : ℕ} (h : (powerWith context.round x n).2 = false) :
    (powerWith context.round x n).1.toRat = x.toRat ^ n :=
  toRat_powerWith_of_kept (fun _ => toRat_round_of_kept) h

/-- A power with an integer exponent is marked exact only if it is the power. -/
theorem integerPower_isPower {n : ℤ} {outcome : Outcome}
    (h : integerPower context x n span = .ok outcome) (hexact : outcome.precision = .exact) :
    IsPower x.toRat n outcome.value.toRat := by
  have hkept : (powerWith (guarded context).round x n.natAbs).2 = false →
      (powerWith (guarded context).round x n.natAbs).1.toRat = x.toRat ^ n.natAbs :=
    toRat_powerWith_round
  rw [integerPower_eq, ← guarded] at h
  generalize powerWith (guarded context).round x n.natAbs = result at h hkept
  obtain ⟨power, lost⟩ := result
  dsimp only at h hkept
  split at h
  · cases h
  · split at h
    · next hneg =>
      split at h
      · obtain rfl := Except.ok.inj h
        cases hexact
      · split at h
        · cases h
        · rw [divide_eq] at h
          split at h
          · cases h
          · obtain rfl := Except.ok.inj h
            obtain ⟨hlost, hback⟩ := Bool.or_eq_false_iff.1 (Precision.ofLost_eq_exact.1 hexact)
            have hsame : ((one / power) * power).same one = true := by
              by_contra hdiffers
              rw [Bool.eq_false_of_not_eq_true hdiffers] at hback
              cases hback
            refine isPower_intCast (fun hpos => absurd hneg (not_lt.2 hpos)) fun _ => ?_
            rw [← hkept hlost, ← toRat_mul, ← toRat_one]
            exact same_iff.1 hsame
    · next hpos =>
      obtain rfl := Except.ok.inj h
      exact isPower_intCast (fun _ => hkept (Precision.ofLost_eq_exact.1 hexact))
        fun hneg => absurd hneg hpos

/-- Nothing is lost if the power fits in the digits that are carried, and only then. -/
theorem guardedPower_kept_iff {x : Decimal} {n : ℕ} (hn : 1 ≤ n) :
    (guardedPower context x.toRat n).2 = false ↔
      InDigits (context.precision + 10) (x.toRat ^ n) := by
  have hfits : ∀ q : ℚ, (context.rounding.rounded (context.precision + 10) q).1 = q ↔
      InDigits (context.precision + 10) q :=
    fun q => RoundingMode.toDigits_eq_iff _ (by omega)
  rw [← hfits]
  refine numberPower_kept_iff (RoundingMode.rounded_kept_iff _ _) (by omega) ?_
  intro h i hi hin
  exact (hfits _).2 (((hfits _).1 h).of_pow hi hin)

end Arithmetic

open Arithmetic Decimal

/-- A power that is marked exact is the power, for all bases and exponents.  A power of a base
in range with a positive integer exponent is marked exact just if it has at most ten digits more
than the working precision.  The program answers such a power, as long as base, precision and
power take no more digits than can be written down, 10^15, and a power of zero has a scale. -/
theorem power_marked_exact (context : Context) (base exponent : Decimal) (span : Span)
    (hprecision : 1 ≤ context.precision) :
    (∀ outcome, (powerM context base exponent span).run? = some (.ok outcome) →
      outcome.precision = .exact → IsPower base.toRat exponent.toRat outcome.value.toRat) ∧
    ∀ n : ℕ, exponent.toRat = n → 1 ≤ n → n ≤ 1000000000 →
      |base.adjustedExponent| ≤ Context.maxExponent →
      (∀ result, (powerM context base exponent span).run? = some result →
        ∃ outcome, result = .ok outcome ∧
          (outcome.precision = .exact ↔ InDigits (context.precision + 10) (base.toRat ^ n))) ∧
      (base.digits ≤ writableDigits →
        context.precision ≤ writableDigits ∨ n * base.digits ≤ writableDigits →
        (base.toRat = 0 → InRange (n * base.scale)) →
        ∃ result, (powerM context base exponent span).run? = some result) := by
  constructor
  · intro outcome hrun hexact
    obtain ⟨-, hpower⟩ := Checked.run?_eq_some_iff.1 hrun
    change power context base exponent span = _ at hpower
    rcases integer_or_fraction exponent with ⟨n, hn, hsmall⟩ | hlarge
    · rw [power_of_integer hn hsmall] at hpower
      rw [hn]
      exact integerPower_isPower hpower hexact
    · rw [power_of_fraction hlarge] at hpower
      exact fractionalPower_isPower hprecision hpower hexact
  · intro n hn hpos hsmall hrange
    have hvalue : exponent.toRat = ((n : ℤ) : ℚ) := by rw [hn, Int.cast_natCast]
    have hsquared : powerM context base exponent span = integerPowerM context base n span :=
      powerM_of_integer hvalue hsmall
    rw [hsquared]
    constructor
    · intro result hrun
      obtain ⟨outcome, houtcome, hnumber⟩ :=
        (gives_integerPowerM hrange hsmall span).of_run? hrun
      refine ⟨outcome, houtcome, ?_⟩
      have hmark : outcome.precision = _ := congrArg Prod.snd hnumber
      rw [hmark, Precision.ofLost_eq_exact, guardedPower_kept_iff hpos]
    · intro hdigits hroom hzero
      exact ⟨_, integerPowerM_answers hrange hsmall hdigits hroom hzero span⟩

/-- The reciprocal of a cube of a root, and a square in the last digits that are carried. -/
theorem power_marked_exact_root :
    (powerM {} ⟨25, 0⟩ ⟨-150, 2⟩ {}).run? = some (.ok (.exact ⟨8, 3⟩)) ∧
      IsPower (toRat ⟨25, 0⟩) (toRat ⟨-150, 2⟩) (toRat ⟨8, 3⟩) ∧
      ∃ outcome,
        (powerM { precision := 1 } ⟨999999, 0⟩ ⟨2, 0⟩ {}).run? = some (.ok outcome) ∧
        (outcome.precision = .exact ↔ InDigits (1 + 10) (toRat ⟨999999, 0⟩ ^ 2)) := by
  have hroot : (powerM {} ⟨25, 0⟩ ⟨-150, 2⟩ {}).run? = some (.ok (.exact ⟨8, 3⟩)) := by
    decide +kernel
  obtain ⟨hmarked, hanswers⟩ := (power_marked_exact { precision := 1 } ⟨999999, 0⟩ ⟨2, 0⟩ {}
    (by decide)).2 2 (toRat_of_scale_zero rfl) (by decide) (by decide) (by decide)
  obtain ⟨result, hresult⟩ := hanswers (by decide) (Or.inl (by decide)) fun _ => by decide
  obtain ⟨outcome, rfl, hmark⟩ := hmarked result hresult
  exact ⟨hroot, (power_marked_exact {} ⟨25, 0⟩ ⟨-150, 2⟩ {} (by decide)).1 _ hroot rfl, outcome,
    hresult, hmark⟩

/-- Far outside of the range there is no scale for the square of a number, and the program stops,
although the square has one digit; so it does at a zero with as many places.  At the other end
there is no scale for the last digit to be kept, and a number of forty-one digits counts as
exact. -/
theorem power_marked_exact_out_of_range :
    ((powerM {} ⟨1, 4611686018427387905⟩ ⟨2, 0⟩ {}).run? = none ∧
      toRat ⟨2, 0⟩ = (2 : ℕ) ∧ InDigits (30 + 10) (toRat ⟨1, 4611686018427387905⟩ ^ 2) ∧
      ¬ ∃ outcome, (powerM {} ⟨1, 4611686018427387905⟩ ⟨2, 0⟩ {}).run? = some (.ok outcome) ∧
        (outcome.precision = .exact ↔
          InDigits (30 + 10) (toRat ⟨1, 4611686018427387905⟩ ^ 2))) ∧
    (powerM {} ⟨0, 4611686018427387905⟩ ⟨2, 0⟩ {}).run? = none ∧
    ∃ outcome, (powerM {} ⟨11111111111111111111111111111111111111111, -9223372036854775808⟩
        ⟨1, 0⟩ {}).run? = some (.ok outcome) ∧ outcome.precision = .exact ∧
      ¬ InDigits (30 + 10)
        (toRat ⟨11111111111111111111111111111111111111111, -9223372036854775808⟩ ^ 1) := by
  have hnone : (powerM {} ⟨1, 4611686018427387905⟩ ⟨2, 0⟩ {}).run? = none := by decide +kernel
  refine ⟨⟨hnone, toRat_of_scale_zero rfl, ⟨1, -9223372036854775810, by norm_num, ?_⟩, ?_⟩,
    by decide +kernel, .exact ⟨11111111111111111111111111111111111111111, -9223372036854775808⟩,
    by decide +kernel, rfl, fun hshort => ?_⟩
  · rw [toRat, Int.cast_one, one_mul, one_mul, ← zpow_natCast, ← zpow_mul]
    norm_num
  · rintro ⟨outcome, hsome, -⟩
    rw [hnone] at hsome
    cases hsome
  · rw [pow_one, toRat] at hshort
    exact absurd (hshort.abs_lt_of_not_dvd (by decide)) (by decide)

end DeskCalc
