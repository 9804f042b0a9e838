import DeskCalc.Arithmetic.Scalar
import DeskCalc.Chain.Reduce
import DeskCalc.Proofs.Decimal.Quotient
import DeskCalc.Proofs.Scale.Keeps

/-
Division is correctly rounded.

A quotient is rounded twice: to a hundred digits when it is computed, and to the working
precision when it is settled.  For operands that have no more digits than the precision keeps,
and precisions of up to 49 digits, the result is the exact quotient rounded once, in every
mode, and the quotient counts as inexact exactly when this rounding changes it.
-/
namespace DeskCalc

/-! ## Settling a number -/

/-- What the range check and the snapping leave of a number, `none` if it is too large. -/
def Context.settled? (context : Context) (q : ℚ) : Option ℚ :=
  if 10 ^ (Context.maxExponent + 1) ≤ |q| then none
  else if |q| < 10 ^ (-Context.maxExponent) then some 0
  else if context.snap = true ∧ |q| ≤ 10 ^ (-29 : ℤ) then some 0
  else some q

namespace Context

open Decimal

variable {context : Context} {x y z : Decimal}

theorem toRat_confine (context : Context) (x : Decimal) :
    ((confine x).map context.snapped).map toRat = context.settled? x.toRat := by
  by_cases hx : x.mantissa = 0
  · rw [confine_of_zero hx, Option.map_some, snapped_of_zero hx, Option.map_some,
      toRat_eq_zero.2 hx, settled?, abs_zero, if_neg (not_le.2 (ten_zpow_pos _)),
      if_pos (ten_zpow_pos _)]
  · have hzero : context.snapped zero = zero := snapped_of_zero rfl
    rw [confine_eq hx, settled?]
    split_ifs with hlarge hsmall hsnap
    · rfl
    · rw [Option.map_some, hzero, Option.map_some, toRat_zero]
    · rw [Option.map_some, snapped_eq hx hsnap.1, toRat_epsilon, if_pos hsnap.2, Option.map_some,
        toRat_zero]
    · have hkept : context.snapped x = x := by
        by_cases hsnapping : context.snap = true
        · rw [snapped_eq hx hsnapping, toRat_epsilon, if_neg fun hle => hsnap ⟨hsnapping, hle⟩]
        · exact snapped_of_not_snap hsnapping
      rw [Option.map_some, hkept, Option.map_some]

/-- A settled value is the rounded number, if that is in range. -/
theorem toRat_settle (context : Context) (x : Decimal) :
    (context.settle x).map (fun settled => settled.1.toRat) =
      context.settled? (context.round x).1.toRat := by
  rw [← toRat_confine, settle]
  generalize context.round x = rounded
  obtain ⟨value, lost⟩ := rounded
  dsimp only
  cases confine value <;> rfl

theorem lost_settle {lost : Bool} (h : context.settle x = some (y, lost)) :
    lost = (context.round x).2 := by
  obtain ⟨value, -, hvalue⟩ := Option.map_eq_some_iff.1 h
  exact (Prod.mk.inj hvalue).2.symm

end Context

/-! ## Quotients of few digits -/

namespace Decimal

/-- At most so many significant digits.  Zeros at the end do not count, but a number of more than
10^18 digits in all cannot be written down. -/
structure HasDigits (count : ℕ) (x : Decimal) : Prop where
  significant : x.normalize.digits ≤ count
  written : x.digits ≤ 10 ^ 18

variable {x y : Decimal} {count : ℕ}

theorem digits_normalize_le (x : Decimal) : x.normalize.digits ≤ x.digits := by
  by_cases hx : x.mantissa = 0
  · have hone : x.normalize.digits = 1 := by
      rw [normalize, if_pos (isZero_of_eq hx)]
      rfl
    rw [hone]
    exact x.digits_pos
  · have hdigits := digits_extend (mantissa_normalize_ne hx) (trailingZeros x.mantissa.natAbs)
    rw [extend_normalize hx] at hdigits
    omega

theorem hasDigits_of_digits (h : x.digits ≤ count) (hcount : count ≤ 49) : x.HasDigits count :=
  ⟨x.digits_normalize_le.trans h, (h.trans hcount).trans (by norm_num)⟩

theorem HasDigits.abs_mantissa (h : x.HasDigits count) : |x.normalize.mantissa| < 10 ^ count := by
  have hlt : x.normalize.mantissa.natAbs < 10 ^ count :=
    (lt_pow_digitCount _).trans_le (Nat.pow_le_pow_right (by norm_num) h.significant)
  rw [Int.abs_eq_natAbs]
  exact_mod_cast hlt

theorem HasDigits.sized (h : x.HasDigits count)
    (hexponent : |x.adjustedExponent| ≤ Context.maxExponent) :
    Sized (10 ^ 18) (-10000) 10000 x :=
  (sized_of_adjustedExponent hexponent).mono h.written le_rfl le_rfl

/-- A quotient rounds to what the exact quotient rounds to, and either it is exact or so much is
lost that the rounding shows it. -/
theorem toDigits_div (hx : x.HasDigits count) (hy : y.HasDigits count) (hyne : y.mantissa ≠ 0)
    (hcount : 1 ≤ count) (hfew : count ≤ 49) (mode : RoundingMode) :
    mode.toDigits count (x / y).toRat = mode.toDigits count (x.toRat / y.toRat) ∧
      ((x / y).toRat = x.toRat / y.toRat ∨
        mode.toDigits count (x.toRat / y.toRat) ≠ x.toRat / y.toRat) := by
  rcases div_near x hyne with hexact | hnear
  · exact ⟨by rw [hexact], Or.inl hexact⟩
  · have hfraction : x.toRat / y.toRat = x.normalize.mantissa / y.normalize.mantissa *
        10 ^ (y.normalize.scale - x.normalize.scale) := by
      rw [← toRat_div_toRat, toRat_normalize, toRat_normalize]
    obtain ⟨hsame, hchanged⟩ := hnear.toDigits hfraction hx.abs_mantissa hy.abs_mantissa
      (mantissa_normalize_ne hyne) hcount hfew mode
    exact ⟨hsame, Or.inr hchanged⟩

end Decimal

namespace Context

open Decimal

variable {context : Context} {x y : Decimal}

/-- A quotient is rounded as the exact quotient is.  It is not exact, or digits are lost, if this
changes the exact quotient, and only then. -/
theorem round_div (hprecision : 1 ≤ context.precision) (hfew : context.precision ≤ 49)
    (hx : x.HasDigits context.precision) (hy : y.HasDigits context.precision)
    (hxexponent : |x.adjustedExponent| ≤ maxExponent)
    (hyexponent : |y.adjustedExponent| ≤ maxExponent) (hyne : y.mantissa ≠ 0) :
    (context.round (x / y)).1.toRat =
        context.rounding.toDigits context.precision (x.toRat / y.toRat) ∧
      ((¬ ((x / y) * y).same x = true ∨ (context.round (x / y)).2 = true) ↔
        context.rounding.toDigits context.precision (x.toRat / y.toRat) ≠ x.toRat / y.toRat) := by
  have hyvalue : y.toRat ≠ 0 := fun hzero => hyne (toRat_eq_zero.1 hzero)
  have hysized := hy.sized hyexponent
  have hquotient : Sized (10 ^ 18 + 102) (-20001) 20001 (x / y) :=
    (hx.sized hxexponent).div hysized hyne
  have hplace : context.precision < (x / y).digits →
      InRange ((x / y).scale - ((x / y).digits - context.precision : ℕ)) := by
    intro hmore
    have hne : (x / y).mantissa ≠ 0 := by
      intro hzero
      have hone : (x / y).digits = 1 := by
        rw [digits, hzero]
        rfl
      omega
    obtain ⟨-, hlow, hhigh⟩ := hquotient hne
    rw [leadingExponent] at hlow hhigh
    constructor <;> omega
  have hkeep : context.precision ≠ 0 := Nat.one_le_iff_ne_zero.1 hprecision
  obtain ⟨hround, hlost⟩ := round_eq hkeep hplace
  obtain ⟨hsame, hexact⟩ := toDigits_div hx hy hyne hprecision hfew context.rounding
  rw [hround, hlost, same_div_mul_iff hyvalue, hsame]
  refine ⟨rfl, ?_⟩
  rcases hexact with hexact | hchanged
  · rw [hexact]
    simp
  · rw [eq_true hchanged, iff_true]
    by_cases hgives : (x / y).toRat = x.toRat / y.toRat
    · right
      rw [hgives]
      exact hchanged
    · left
      exact hgives

end Context

/-- A chain is marked if it was before, if the value is not exact or if digits are lost. -/
theorem Chain.mark_settle {context : Context} {z : Decimal} {marked inexact mark : Bool}
    {words : List Word} {number : Number}
    (h : settle context marked (.approximate z inexact) words = .ok (number, mark)) :
    mark = true ↔ marked = true ∨ inexact = true ∨ (context.round z).2 = true := by
  rw [settle, Outcome.approximate] at h
  cases hsettle : context.settle z with
  | none =>
    rw [hsettle] at h
    cases h
  | some settled =>
    obtain ⟨value, lost⟩ := settled
    rw [hsettle] at h
    have hmark := (Prod.mk.inj (Except.ok.inj h)).2
    rw [← hmark, ← Context.lost_settle hsettle]
    cases inexact <;> simp [Precision.mark]

open Decimal Checked Demand

section Answers

variable {x y : Decimal} {d : ℕ} (hx : Sized d (-10000) 10000 x) (hy : Sized d (-10000) 10000 y)
  (hlimit : d ≤ 10 ^ 18) (hyne : y.mantissa ≠ 0)

include hx hy hlimit hyne

/-- The scales that are computed for a quotient of two numbers in range. -/
theorem Arithmetic.keeps_quotientM_fits : (quotientM x y).Keeps Fits (· = x / y) := by
  rw [quotientM]
  split
  · exact keeps_pure rfl
  · next hcomputed =>
    have hxne : x.mantissa ≠ 0 := fun h => hcomputed (by simp [isZero_of_eq h])
    obtain ⟨hxhigh, hxlow⟩ := hx.scale hxne
    obtain ⟨hyhigh, hylow⟩ := hy.scale hyne
    obtain ⟨hhigh, hlow⟩ := (hx.div hy hyne).scale (mantissa_div_ne hxne hyne)
    have hdifference : (scale (x.scale - y.scale)).Fits := ⟨by omega, by omega⟩
    have hscale : (scale (x / y).scale).Fits := ⟨by omega, by omega⟩
    exact (keeps_held hdifference trivial).bind fun _ (_ : True) =>
      (keeps_held hscale trivial).bind fun _ (_ : True) => keeps_pure rfl

variable (hzero : x.toRat = 0 → InRange (x.scale + y.scale))

include hzero

/-- The product with which a quotient is checked.  A zero is its own quotient. -/
theorem Decimal.fits_div_mul : (product (x / y) y).Fits := by
  by_cases hxne : x.mantissa = 0
  · have hnotone : x ≠ one := by
      rintro rfl
      cases hxne
    show InRange (x / y * y).scale
    rw [div_eq, isZero_of_eq hxne, Bool.true_or, if_pos rfl, mul_eq, if_neg hnotone]
    split
    · rw [Decimal.normalize, if_pos (isZero_of_eq hxne)]
      decide
    · exact hzero (toRat_eq_zero.2 hxne)
  · exact ((hx.div hy hyne).fits hy (by omega) (by omega) (mantissa_div_ne hxne hyne) hyne).2

/-- The program answers a quotient, unless the dividend is a zero without a scale for the product
with the divisor. -/
theorem Arithmetic.divideM_answers (span : Span) :
    (divideM x y span).run? = some (divide x y span) := by
  have hproduct := fits_div_mul hx hy hlimit hyne hzero
  have hkeeps : (divideM x y span).Keeps Fits fun _ => True := by
    rw [divideM, isZero_of_ne hyne, if_neg Bool.false_ne_true]
    refine (keeps_quotientM_fits hx hy hlimit hyne).bind fun quotient hquotient => ?_
    rw [hquotient]
    exact (keeps_times (Q := fun _ => True) hproduct trivial).bind fun _ _ => keeps_pure trivial
  exact hkeeps.run?

end Answers

end DeskCalc
