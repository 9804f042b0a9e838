import DeskCalc.Proofs.Decimal.Significant
import DeskCalc.Proofs.Division

/-
Settling is one rounding.

A value is settled by its digits, its scale and the place of its leading digit.  What comes of it
depends on the number alone: it is rounded once to the working precision, and the range and the
zero tests compare the rounded number with powers of ten.  So a settled value settles to itself,
also where a carry has left it a digit too long.
-/
namespace DeskCalc
namespace Context

open Decimal

variable {context : Context} {x y : Decimal} {q r : ℚ}

/-! ## The tests on a number -/

theorem settled?_eq_none_iff : context.settled? q = none ↔ 10 ^ (maxExponent + 1) ≤ |q| := by
  rw [settled?]
  by_cases hlarge : 10 ^ (maxExponent + 1) ≤ |q|
  · rw [if_pos hlarge]
    exact iff_of_true rfl hlarge
  · rw [if_neg hlarge]
    refine iff_of_false ?_ hlarge
    split_ifs <;> exact not_false

theorem settled?_eq_some (h : context.settled? q = some r) :
    r = if |q| < 10 ^ (-maxExponent) ∨ context.snap = true ∧ |q| ≤ 10 ^ (-29 : ℤ) then 0
      else q := by
  rw [settled?] at h
  split_ifs at h with hlarge hsmall hsnap
  · rw [if_pos (Or.inl hsmall), Option.some.inj h]
  · rw [if_pos (Or.inr hsnap), Option.some.inj h]
  · rw [if_neg (not_or.2 ⟨hsmall, hsnap⟩), Option.some.inj h]

theorem settled?_zero (context : Context) : context.settled? 0 = some 0 := by
  rw [settled?, abs_zero, if_neg (not_le.2 (ten_zpow_pos _)), if_pos (ten_zpow_pos _)]

/-- A number that has passed the tests passes them again. -/
theorem settled?_settled (h : context.settled? q = some r) : context.settled? r = some r := by
  have hvalue := settled?_eq_some h
  split_ifs at hvalue
  · rw [hvalue, settled?_zero]
  · rwa [← hvalue] at h

/-! ## Rounding again -/

theorem round_of_few (hfew : x.digits ≤ context.precision) : context.round x = (x, false) := by
  rw [round, if_pos (by simp [hfew])]

/-- The place to which a value is rounded is in range if digit count and scale together are. -/
theorem place_of_clear (hclear : |x.scale| + x.digits ≤ 9223372036854775807) (count : ℕ) :
    InRange (x.scale - (x.digits - count : ℕ)) := by
  obtain ⟨hlow, hhigh⟩ := abs_le.1 (le_refl |x.scale|)
  constructor <;> omega

/-- A rounded value has one digit too many at most, and room for the place before it. -/
theorem place_round (hprecision : context.precision ≠ 0)
    (hclear : |x.scale| + x.digits ≤ 9223372036854775807)
    (hmore : context.precision < (context.round x).1.digits) :
    InRange ((context.round x).1.scale - ((context.round x).1.digits - context.precision : ℕ)) := by
  by_cases hfew : x.digits ≤ context.precision
  · rw [round_of_few hfew] at hmore
    exact absurd hfew (not_le.2 hmore)
  · have hplace := saturate_of_inRange (place_of_clear hclear context.precision)
    have hrounded : (context.round x).1 =
        x.roundTo (x.scale - (x.digits - context.precision : ℕ)) context.rounding := by
      rw [round, if_neg (by simp [hprecision, hfew])]
      dsimp only
      rw [hplace]
    rw [hrounded] at hmore ⊢
    have hdigits : (x.roundTo (x.scale - (x.digits - context.precision : ℕ))
        context.rounding).digits ≤ context.precision + 1 :=
      digits_roundTo_le (by omega) (by omega)
    obtain ⟨hlow, hhigh⟩ := abs_le.1 (le_refl |x.scale|)
    rw [scale_roundTo]
    constructor <;> omega

/-- Rounding a rounded value keeps its number and loses nothing. -/
theorem round_round (hprecision : 1 ≤ context.precision)
    (hclear : |x.scale| + x.digits ≤ 9223372036854775807) :
    (context.round (context.round x).1).1.toRat = (context.round x).1.toRat ∧
      (context.round (context.round x).1).2 = false := by
  have hkeep : context.precision ≠ 0 := Nat.one_le_iff_ne_zero.1 hprecision
  obtain ⟨hvalue, -⟩ := round_eq hkeep fun _ => place_of_clear hclear context.precision
  obtain ⟨hagain, hlost⟩ := round_eq hkeep (place_round hkeep hclear)
  have hsame : context.rounding.toDigits context.precision (context.round x).1.toRat =
      (context.round x).1.toRat := by
    rw [hvalue, RoundingMode.toDigits_toDigits _ hprecision]
  rw [hsame] at hagain hlost
  exact ⟨hagain, Bool.eq_false_of_not_eq_true fun h => hlost.1 h rfl⟩

/-- A settled value is what the rounding leaves, or zero. -/
theorem eq_round_or_zero {lost : Bool} (h : context.settle x = some (y, lost)) :
    y = (context.round x).1 ∨ y = .zero := by
  obtain ⟨value, hconfine, hvalue⟩ := Option.map_eq_some_iff.1 h
  obtain ⟨rfl, -⟩ := Prod.mk.inj hvalue
  exact (admits_of_confine context hconfine).2

/-- A settled value settles to its own number, and nothing is lost. -/
theorem settle_settled {lost : Bool} (hprecision : 1 ≤ context.precision)
    (hclear : |x.scale| + x.digits ≤ 9223372036854775807)
    (h : context.settle x = some (y, lost)) :
    ∃ z, context.settle y = some (z, false) ∧ z.toRat = y.toRat := by
  have hround : (context.round y).1.toRat = y.toRat ∧ (context.round y).2 = false := by
    rcases eq_round_or_zero h with rfl | rfl
    · exact round_round hprecision hclear
    · rw [round_of_few (show Decimal.zero.digits ≤ context.precision from hprecision)]
      exact ⟨rfl, rfl⟩
  have hsettled : context.settled? (context.round x).1.toRat = some y.toRat := by
    rw [← toRat_settle, h]
    rfl
  have hagain := toRat_settle context y
  rw [hround.1, settled?_settled hsettled] at hagain
  obtain ⟨⟨z, lost'⟩, hz, hvalue⟩ := Option.map_eq_some_iff.1 hagain
  refine ⟨z, ?_, hvalue⟩
  rw [hz, lost_settle hz, hround.2]

end Context

open Context Decimal

/-- Settling rounds the number once to the working precision.  It fails just if the rounded number
is too large; else it reports whether the rounding changed the number, and leaves the rounded
number, or zero if that is too small.  Settling the result again changes nothing. -/
theorem settle_rounds_once (context : Context) (x : Decimal) (hprecision : 1 ≤ context.precision)
    (hclear : |x.scale| + x.digits ≤ 9223372036854775807) :
    (context.settle x = none ↔
      (10 : ℚ) ^ (10001 : ℤ) ≤ |context.rounding.toDigits context.precision x.toRat|) ∧
    ∀ y lost, context.settle x = some (y, lost) →
      (lost = true ↔ context.rounding.toDigits context.precision x.toRat ≠ x.toRat) ∧
      (y.toRat =
        if |context.rounding.toDigits context.precision x.toRat| < 10 ^ (-10000 : ℤ) ∨
          context.snap = true ∧
            |context.rounding.toDigits context.precision x.toRat| ≤ 10 ^ (-29 : ℤ) then 0
        else context.rounding.toDigits context.precision x.toRat) ∧
      ∃ z, context.settle y = some (z, false) ∧ z.toRat = y.toRat := by
  obtain ⟨hround, hlost⟩ := round_eq (Nat.one_le_iff_ne_zero.1 hprecision)
    fun _ => place_of_clear hclear context.precision
  have hnumber := toRat_settle context x
  rw [hround] at hnumber
  constructor
  · rw [← Option.map_eq_none_iff, hnumber]
    exact settled?_eq_none_iff
  · intro y lost hsettle
    refine ⟨?_, ?_, settle_settled hprecision hclear hsettle⟩
    · rw [lost_settle hsettle, hlost]
    · rw [hsettle] at hnumber
      exact settled?_eq_some hnumber.symm

/-- In three digits 999.6 is carried to 1000, which has a digit too many and keeps its number. -/
theorem settle_rounds_once_carry :
    Context.settle { precision := 3 } ⟨9996, 1⟩ = some (⟨1000, 0⟩, true) ∧
      (true = true ↔ RoundingMode.halfUp.toDigits 3 (toRat ⟨9996, 1⟩) ≠ toRat ⟨9996, 1⟩) ∧
      (toRat ⟨1000, 0⟩ =
        if |RoundingMode.halfUp.toDigits 3 (toRat ⟨9996, 1⟩)| < 10 ^ (-10000 : ℤ) ∨
          true = true ∧ |RoundingMode.halfUp.toDigits 3 (toRat ⟨9996, 1⟩)| ≤ 10 ^ (-29 : ℤ) then 0
        else RoundingMode.halfUp.toDigits 3 (toRat ⟨9996, 1⟩)) ∧
      ∃ z, Context.settle { precision := 3 } ⟨1000, 0⟩ = some (z, false) ∧
        z.toRat = toRat ⟨1000, 0⟩ := by
  have hsettle : Context.settle { precision := 3 } ⟨9996, 1⟩ = some (⟨1000, 0⟩, true) := by
    decide +kernel
  exact ⟨hsettle, (settle_rounds_once { precision := 3 } ⟨9996, 1⟩ (by decide)
    (by decide +kernel)).2 _ _ hsettle⟩

end DeskCalc
