import DeskCalc.Proofs.Decimal.Finalized
import DeskCalc.Proofs.Quantizing
import DeskCalc.Proofs.Settling

/-
Integers stay integers.

Rounding an integer to significant digits or to a place gives an integer.  The place that
settling rounds to is held in 64 bits; for an integer this changes nothing, since beyond the
upper end nothing is cut off, and beyond the lower end the number is out of range.  Showing
a settled integer with fraction digits leaves it alone.
-/
namespace DeskCalc

open Decimal

namespace RoundingMode

variable {mode : RoundingMode} {places : ℤ} {q : ℚ} {n : ℤ}

theorem toPlaces_of_nonneg (mode : RoundingMode) (hplaces : 0 ≤ places) (n : ℤ) :
    mode.toPlaces places n = n := by
  obtain ⟨k, rfl⟩ := Int.eq_ofNat_of_zero_le hplaces
  have hint : (n : ℚ) * 10 ^ (k : ℤ) = ((n * 10 ^ k : ℤ) : ℚ) := by
    push_cast
    rw [zpow_natCast]
  exact toPlaces_of_int mode hint

theorem exists_int_toPlaces (mode : RoundingMode) (places n : ℤ) :
    ∃ m : ℤ, mode.toPlaces places n = m := by
  rcases le_total 0 places with hpos | hneg
  · exact ⟨n, toPlaces_of_nonneg mode hpos n⟩
  · obtain ⟨k, hk⟩ := Int.eq_ofNat_of_zero_le (show 0 ≤ -places by omega)
    refine ⟨mode.nearby (n * 10 ^ places) * 10 ^ k, ?_⟩
    rw [toPlaces, hk, zpow_natCast]
    push_cast
    rfl

theorem exists_int_toDigits (mode : RoundingMode) (count : ℕ) (n : ℤ) :
    ∃ m : ℤ, mode.toDigits count n = m := exists_int_toPlaces mode (shift count n) n

/-- A number of one unit or more is not rounded below one unit. -/
theorem le_abs_toPlaces (mode : RoundingMode) (h : 10 ^ (-places) ≤ |q|) :
    10 ^ (-places) ≤ |mode.toPlaces places q| := by
  have hpos := ten_zpow_pos (-places)
  have hunit : 1 ≤ |q * 10 ^ places| := by
    have hscaled := mul_le_mul_of_nonneg_right h (ten_zpow_pos places).le
    rwa [← ten_zpow_add, neg_add_cancel, zpow_zero, ← abs_of_pos (ten_zpow_pos places),
      ← abs_mul] at hscaled
  have hnearby : 1 ≤ |(mode.nearby (q * 10 ^ places) : ℚ)| := by
    rcases le_abs'.1 hunit with hneg | hone
    · have hle := mode.nearby_le (k := -1) (by push_cast; exact hneg)
      exact le_abs'.2 (Or.inl (by exact_mod_cast hle))
    · have hle := mode.le_nearby (k := 1) (by push_cast; exact hone)
      exact le_abs'.2 (Or.inr (by exact_mod_cast hle))
  rw [toPlaces, abs_mul, abs_of_pos hpos]
  exact le_mul_of_one_le_left hpos.le hnearby

/-- The unit of the last digit kept is no larger than the number. -/
theorem unit_le_abs {count : ℕ} (hcount : 1 ≤ count) (h : shift count q < 0) :
    10 ^ (-shift count q) ≤ |q| := by
  have hq : q ≠ 0 := by
    rintro rfl
    rw [shift, abs_zero, Int.log_zero_right] at h
    omega
  have hlog := Int.zpow_log_le_self (by norm_num : 1 < 10) (abs_pos.2 hq)
  push_cast at hlog
  refine le_trans (zpow_le_zpow_right₀ (by norm_num) ?_) hlog
  rw [shift]
  omega

end RoundingMode

namespace Context

variable {context : Context} {x y : Decimal} {n : ℤ} {lost : Bool}

/-- The place to which a value is rounded, from its number. -/
theorem place_eq_shift (hprecision : 1 ≤ context.precision)
    (hmore : context.precision < x.digits) :
    x.scale - ((x.digits - context.precision : ℕ) : ℤ) =
      RoundingMode.shift context.precision x.toRat := by
  rw [shift_eq (mantissa_ne_of_digits (by omega) hmore)]
  omega

/-- Rounding goes to the place of the last digit kept, held in 64 bits. -/
theorem toRat_round (hprecision : 1 ≤ context.precision)
    (hmore : context.precision < x.digits) :
    (context.round x).1.toRat = context.rounding.toPlaces
      (saturate (RoundingMode.shift context.precision x.toRat)) x.toRat := by
  have hplace := place_eq_shift hprecision hmore
  have hkeep : context.precision ≠ 0 := by omega
  rw [round, if_neg (by simp [hkeep, hmore])]
  dsimp only
  rw [toRat_roundTo_eq, hplace]

/-- A number whose place of rounding lies below 64 bits is out of range. -/
theorem settled?_of_far (hprecision : 1 ≤ context.precision) (hmore : context.precision < x.digits)
    (hfar : RoundingMode.shift context.precision x.toRat < -9223372036854775808) :
    context.settled? (context.round x).1.toRat = none := by
  have hlow : (10 : ℚ) ^ (9223372036854775808 : ℤ) ≤ |x.toRat| := by
    refine le_trans (zpow_le_zpow_right₀ (by norm_num) ?_)
      (RoundingMode.unit_le_abs hprecision (by omega))
    omega
  have hsaturate : saturate (RoundingMode.shift context.precision x.toRat) =
      -9223372036854775808 := by
    rw [saturate]
    omega
  rw [settled?_eq_none_iff, toRat_round hprecision hmore, hsaturate]
  refine le_trans ?_ (RoundingMode.le_abs_toPlaces _ (by rwa [Int.neg_neg]))
  exact zpow_le_zpow_right₀ (by norm_num) (by decide)

/-- An integer that is not out of range is rounded to its leading digits. -/
theorem toRat_round_of_int (hprecision : 1 ≤ context.precision) (hn : x.toRat = n)
    (h : context.settled? (context.round x).1.toRat ≠ none) :
    (context.round x).1.toRat = context.rounding.toDigits context.precision n := by
  by_cases hfew : x.digits ≤ context.precision
  · rw [round_of_few hfew, ← hn, toDigits_of_few _ hfew]
  · have hmore := not_le.1 hfew
    rcases lt_or_ge (RoundingMode.shift context.precision x.toRat) (-9223372036854775808) with
      hfar | hnear
    · exact absurd (settled?_of_far hprecision hmore hfar) h
    · rw [toRat_round hprecision hmore, hn]
      rw [hn] at hnear
      show context.rounding.toPlaces _ (n : ℚ) =
        context.rounding.toPlaces (RoundingMode.shift context.precision (n : ℚ)) n
      generalize RoundingMode.shift context.precision (n : ℚ) = place at hnear
      rcases le_total place 9223372036854775807 with hin | hbeyond
      · rw [saturate_of_inRange ⟨hnear, hin⟩]
      · have hsaturate : 0 ≤ saturate place := by
          rw [saturate]
          omega
        rw [RoundingMode.toPlaces_of_nonneg _ hsaturate,
          RoundingMode.toPlaces_of_nonneg _ (show 0 ≤ place by omega)]

/-- No integer but zero is so small that it is replaced by zero. -/
theorem settled?_of_int {q : ℚ} (h : context.settled? n = some q) : q = n := by
  by_cases hzero : n = 0
  · rw [hzero, Int.cast_zero, settled?_zero] at h
    rw [hzero, Int.cast_zero]
    exact (Option.some.inj h).symm
  · have hone : (1 : ℚ) ≤ |(n : ℚ)| := by exact_mod_cast Int.one_le_abs hzero
    have hrange : (10 : ℚ) ^ (-maxExponent) ≤ 1 := zpow_le_one_of_nonpos₀ (by norm_num) (by decide)
    have hsnap : (10 : ℚ) ^ (-29 : ℤ) < 1 := zpow_lt_one_of_neg₀ (by norm_num) (by decide)
    have hvalue := settled?_eq_some h
    rwa [if_neg] at hvalue
    rintro (hsmall | ⟨-, hsmall⟩)
    · exact absurd hone (not_le.2 (hsmall.trans_le hrange))
    · exact absurd hone (not_le.2 (hsmall.trans_lt hsnap))

/-- An integer is rounded once, wherever its place, if it settles at all. -/
theorem toRat_settle_of_int (hprecision : 1 ≤ context.precision) (hn : x.toRat = n)
    (h : context.settle x = some (y, lost)) :
    y.toRat = context.rounding.toDigits context.precision n := by
  have hsettled : context.settled? (context.round x).1.toRat = some y.toRat := by
    rw [← toRat_settle, h]
    rfl
  have hround := toRat_round_of_int hprecision hn (hsettled ▸ Option.some_ne_none _)
  obtain ⟨m, hm⟩ := RoundingMode.exists_int_toDigits context.rounding context.precision n
  rw [hround, hm] at hsettled
  rw [hm]
  exact settled?_of_int hsettled

theorem Admits.abs_adjustedExponent_le (h : context.Admits x.toRat) :
    |x.adjustedExponent| ≤ maxExponent := by
  by_cases hx : x.mantissa = 0
  · rw [adjustedExponent_of_zero hx]
    decide
  · rcases h with hzero | ⟨hlow, hhigh, -⟩
    · exact absurd (toRat_eq_zero.1 hzero) hx
    · have hlead := (le_leadingExponent_iff hx).2 hlow
      have hlead' := (leadingExponent_lt_iff hx).2 hhigh
      have hmax : maxExponent = 10000 := rfl
      rw [adjustedExponent_eq hx, saturate, abs_le]
      omega

/-- An integer in range is shown as itself. -/
theorem toRat_finalize_of_int (hplaces : 0 ≤ context.places) (hadmits : context.Admits x.toRat)
    (hn : x.toRat = n) (inexact : Bool) : (context.finalize x inexact).toRat = n := by
  cases inexact with
  | false => rw [toRat_finalize_exact, hn]
  | true =>
    rw [finalize, if_pos rfl, toRat_quantize hadmits.abs_adjustedExponent_le, hn,
      RoundingMode.toPlaces_of_nonneg _ hplaces]

end Context
end DeskCalc
