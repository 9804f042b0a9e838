import DeskCalc.Proofs.Decimal.Finalized
import DeskCalc.Proofs.Decimal.Place

/-
Quantizing is rounding at a place.

A value is quantized in one of three ways: zeros are written behind it, it is rounded as it stands,
or only its sign and mode are looked at, where the place lies far above its leading digit.  For
values in the magnitude range all three are the same rounding to a multiple of a power of ten, for
every place and every mode.
-/
namespace DeskCalc
namespace Context

open Decimal

variable {context : Context} {x : Decimal} {places : ℤ}

theorem quantize_of_scale_le (context : Context) (hscale : x.scale ≤ places) :
    (context.quantize x places).toRat = x.toRat := by
  rw [quantize, if_pos hscale, toRat_truncateTo (by omega)]

/-- A value in range is less than a tenth of the unit at the place where rounding is cut short. -/
theorem abs_mul_lowest_lt (hexponent : |x.adjustedExponent| ≤ maxExponent)
    (hx : x.mantissa ≠ 0) : |x.toRat * 10 ^ (-(x.adjustedExponent + 2))| < 1 / 2 := by
  have hmax : maxExponent = 10000 := rfl
  have hlead : x.adjustedExponent = x.leadingExponent := by
    rw [adjustedExponent_eq hx, hmax, abs_le, saturate] at hexponent
    rw [adjustedExponent_eq hx, saturate]
    omega
  have htenth : (10 : ℚ) ^ (x.leadingExponent + 1) * 10 ^ (-(x.leadingExponent + 2)) < 1 / 2 := by
    rw [← ten_zpow_add, show x.leadingExponent + 1 + -(x.leadingExponent + 2) = -1 by omega]
    norm_num
  rw [hlead, abs_mul, abs_of_pos (ten_zpow_pos _)]
  exact (mul_lt_mul_of_pos_right (lt_pow_leadingExponent x) (ten_zpow_pos _)).trans htenth

/-- Far above the leading digit the value is rounded to zero or to one unit, as directly. -/
theorem quantize_far (hexponent : |x.adjustedExponent| ≤ maxExponent)
    (hplaces : places < -(x.adjustedExponent + 2)) :
    (if (x.roundTo (-(x.adjustedExponent + 2)) context.rounding).isZero then Decimal.zero
      else ⟨if x.isNegative then -1 else 1, places⟩).toRat =
        context.rounding.toPlaces places x.toRat := by
  have hzero : (x.roundTo (-(x.adjustedExponent + 2)) context.rounding).isZero = true ↔
      context.rounding.nearby (x.toRat * 10 ^ (-(x.adjustedExponent + 2))) = 0 := by
    rw [isZero_iff, toRat_roundTo_eq, RoundingMode.toPlaces, mul_eq_zero, Int.cast_eq_zero,
      or_iff_left (ten_zpow_ne_zero _)]
  by_cases hx : x.mantissa = 0
  · rw [toRat_eq_zero.2 hx, zero_mul, ← Int.cast_zero, RoundingMode.nearby_intCast] at hzero
    rw [if_pos (hzero.2 rfl), toRat_zero, toRat_eq_zero.2 hx, RoundingMode.toPlaces_zero]
  · have hsmall := abs_mul_lowest_lt hexponent hx
    have hsign : x.toRat * 10 ^ (-(x.adjustedExponent + 2)) < 0 ↔ x.isNegative = true := by
      rw [mul_neg_iff, isNegative, decide_eq_true_eq, ← toRat_neg_iff]
      simp [ten_zpow_pos, (ten_zpow_pos _).le, not_lt.2]
    rw [RoundingMode.toPlaces, RoundingMode.nearby_far _ hsmall hplaces.le]
    by_cases hnone : context.rounding.nearby (x.toRat * 10 ^ (-(x.adjustedExponent + 2))) = 0
    · rw [if_pos (hzero.2 hnone), hnone, toRat_zero, Int.cast_zero, zero_mul]
    · have hunit := (RoundingMode.nearby_small context.rounding hsmall).resolve_left hnone
      rw [if_neg (hzero.not.2 hnone), hunit, toRat]
      simp only [hsign]

/-- A value in range is quantized by rounding its number at the place. -/
theorem toRat_quantize (hexponent : |x.adjustedExponent| ≤ maxExponent) (places : ℤ) :
    (context.quantize x places).toRat = context.rounding.toPlaces places x.toRat := by
  by_cases hscale : x.scale ≤ places
  · rw [quantize_of_scale_le context hscale,
      RoundingMode.toPlaces_of_int _ (toRat_mul_of_scale_le hscale)]
  · have hlowest : saturate (-saturate (x.adjustedExponent + 2)) = -(x.adjustedExponent + 2) := by
      have hmax : maxExponent = 10000 := rfl
      rw [hmax, abs_le] at hexponent
      rw [saturate, saturate]
      omega
    rw [quantize, if_neg hscale, hlowest]
    dsimp only
    by_cases hplaces : places < -(x.adjustedExponent + 2)
    · rw [if_pos hplaces]
      exact quantize_far hexponent hplaces
    · rw [if_neg hplaces, toRat_roundTo_eq]

/-- A quantized value has no digits behind the place, unless it is zero. -/
theorem scale_quantize_le (context : Context) (x : Decimal) (places : ℤ) :
    (context.quantize x places).mantissa = 0 ∨ (context.quantize x places).scale ≤ places := by
  rw [quantize]
  split
  · right
    rw [scale_truncateTo]
    exact min_le_left _ _
  · dsimp only
    split
    · split
      · exact Or.inl rfl
      · exact Or.inr le_rfl
    · exact Or.inr (scale_roundTo _ _ _).le

/-- Quantizing again at the same place changes nothing, however far the first one has moved the
value out of range. -/
theorem toRat_quantize_quantize (context : Context) (x : Decimal) (places : ℤ) :
    (context.quantize (context.quantize x places) places).toRat =
      (context.quantize x places).toRat := by
  rcases scale_quantize_le context x places with hzero | hscale
  · have hexponent : |(context.quantize x places).adjustedExponent| ≤ maxExponent := by
      rw [adjustedExponent_of_zero hzero]
      decide
    rw [toRat_quantize hexponent, toRat_eq_zero.2 hzero, RoundingMode.toPlaces_zero]
  · exact quantize_of_scale_le context hscale

end Context

open Context

/-- Quantizing a value in range rounds its number to a multiple of 10^(-places), in each mode and
at every place.  It agrees with the direct rounding, is idempotent and monotone, and changes no
value that has no digits behind the place. -/
theorem quantize_rounds_at_place (context : Context) (x : Decimal) (places : ℤ)
    (hexponent : |x.adjustedExponent| ≤ Context.maxExponent) :
    (context.quantize x places).toRat = context.rounding.toPlaces places x.toRat ∧
      (context.quantize (context.quantize x places) places).toRat =
        (context.quantize x places).toRat ∧
      (∀ y : Decimal, |y.adjustedExponent| ≤ Context.maxExponent → x.toRat ≤ y.toRat →
        (context.quantize x places).toRat ≤ (context.quantize y places).toRat) ∧
      (x.scale ≤ places → (context.quantize x places).toRat = x.toRat) ∧
      (context.quantize x places).toRat = (x.roundTo places context.rounding).toRat := by
  refine ⟨toRat_quantize hexponent places, toRat_quantize_quantize context x places, ?_,
    quantize_of_scale_le context, ?_⟩
  · intro y hy hle
    rw [toRat_quantize hexponent, toRat_quantize hy]
    exact RoundingMode.toPlaces_mono _ places hle
  · rw [toRat_quantize hexponent, Decimal.toRat_roundTo_eq]

/-- At the last place of 64 bits -5 is rounded away from zero to a unit, and 0 to zero. -/
theorem quantize_rounds_at_place_far :
    Context.quantize { rounding := .up } ⟨-5, 0⟩ (-9223372036854775808) =
        ⟨-1, -9223372036854775808⟩ ∧
      (Decimal.toRat ⟨-1, -9223372036854775808⟩ =
        RoundingMode.up.toPlaces (-9223372036854775808) (Decimal.toRat ⟨-5, 0⟩)) ∧
      (Context.quantize { rounding := .up } ⟨-1, -9223372036854775808⟩
          (-9223372036854775808)).toRat = Decimal.toRat ⟨-1, -9223372036854775808⟩ ∧
      Decimal.toRat ⟨-1, -9223372036854775808⟩ ≤
        (Context.quantize { rounding := .up } ⟨0, 3⟩ (-9223372036854775808)).toRat ∧
      Decimal.toRat ⟨-1, -9223372036854775808⟩ =
        (Decimal.roundTo ⟨-5, 0⟩ (-9223372036854775808) .up).toRat := by
  have hvalue : Context.quantize { rounding := .up } ⟨-5, 0⟩ (-9223372036854775808) =
      ⟨-1, -9223372036854775808⟩ := by decide +kernel
  have hle : Decimal.toRat ⟨-5, 0⟩ ≤ Decimal.toRat ⟨0, 3⟩ := Decimal.le_iff.1 (by decide +kernel)
  obtain ⟨hrounded, hagain, hmono, -, hdirect⟩ :=
    quantize_rounds_at_place { rounding := .up } ⟨-5, 0⟩ (-9223372036854775808) (by decide)
  have hless := hmono ⟨0, 3⟩ (by decide) hle
  rw [hvalue] at hrounded hagain hless hdirect
  exact ⟨hvalue, hrounded, hagain, hless, hdirect⟩

end DeskCalc
