import DeskCalc.Proofs.Decimal.Settled

/-
The value that is shown in the end.

An exact value is only written differently, without trailing fraction zeros and without a
negative scale.  An inexact one is rounded to the places of the context; a settled value
keeps so few digits that a carry does not take it out of range.
-/
namespace DeskCalc

namespace Decimal

/-- The largest scale of a decimal. -/
def maxScale : ℤ := 9223372036854775807

theorem saturate_eq_self {n : ℤ} :
    saturate n = n ↔ -9223372036854775808 ≤ n ∧ n ≤ maxScale := by
  rw [saturate, maxScale]
  omega

end Decimal

namespace Context

open Decimal

variable {x : Decimal}

/-- The scale of a value that is not zero is not too large. -/
def Fits (x : Decimal) : Prop := x.mantissa = 0 ∨ x.scale ≤ maxScale

/-- Zero, or written out with all its digits in front of the point. -/
def WrittenOut (x : Decimal) : Prop := x.mantissa = 0 ∨ 0 ≤ x.scale ∧ x.scale ≤ maxScale

theorem admits_of_leadingExponent (hx : x.mantissa ≠ 0) (hlow : -29 < x.leadingExponent)
    (hhigh : x.leadingExponent ≤ maxExponent) (context : Context) : context.Admits x.toRat := by
  have hmax : maxExponent = 10000 := rfl
  exact Or.inr ⟨(le_leadingExponent_iff hx).1 (by omega),
    (leadingExponent_lt_iff hx).1 (by omega), fun _ => epsilon_lt hx hlow⟩

/-- Under the standard settings an admitted value has its leading digit here. -/
theorem Admits.leadingExponent (h : Admits {} x.toRat) (hx : x.mantissa ≠ 0) :
    -29 ≤ x.leadingExponent ∧ x.leadingExponent ≤ maxExponent := by
  rcases h with hzero | ⟨-, hhigh, hsnap⟩
  · exact absurd (toRat_eq_zero.1 hzero) hx
  · have hepsilon := hsnap rfl
    rw [toRat_epsilon] at hepsilon
    have hlt := (leadingExponent_lt_iff hx).2 hhigh
    exact ⟨(le_leadingExponent_iff hx).2 hepsilon.le, by omega⟩

theorem fits_of_short (h : Admits {} x.toRat) (hshort : Short {} x) : Fits x := by
  by_cases hx : x.mantissa = 0
  · exact Or.inl hx
  · obtain ⟨hlow, -⟩ := h.leadingExponent hx
    right
    rw [leadingExponent] at hlow
    rw [maxScale]
    rcases hshort with hdigits | hscale
    · change x.digits ≤ 31 at hdigits
      omega
    · omega

/-! ## Exact values -/

theorem finalize_exact (context : Context) (x : Decimal) :
    context.finalize x false =
      if x.normalize.scale < 0 then x.normalize.truncateTo 0 else x.normalize := rfl

theorem toRat_finalize_exact (context : Context) (x : Decimal) :
    (context.finalize x false).toRat = x.toRat := by
  rw [finalize_exact]
  by_cases h : x.normalize.scale < 0
  · rw [if_pos h, toRat_truncateTo h.le, toRat_normalize]
  · rw [if_neg h, toRat_normalize]

theorem writtenOut_finalize_exact (context : Context) (h : Fits x) :
    WrittenOut (context.finalize x false) := by
  by_cases hx : x.mantissa = 0
  · left
    rw [← toRat_eq_zero, toRat_finalize_exact, toRat_eq_zero, hx]
  · have hfits : x.scale ≤ maxScale := h.resolve_left hx
    have hnormal := scale_normalize_le hx
    right
    rw [finalize_exact]
    by_cases h : x.normalize.scale < 0
    · rw [if_pos h, scale_truncateTo]
      decide
    · rw [if_neg h]
      omega

/-- An exact value is shown without trailing zeros behind the point. -/
theorem shortened_finalize_exact (context : Context) (hx : x.mantissa ≠ 0) :
    0 ≤ (context.finalize x false).scale ∧ ((context.finalize x false).scale = 0 ∨
      ¬ 10 ∣ (context.finalize x false).mantissa.natAbs) := by
  rw [finalize_exact]
  split
  · rw [scale_truncateTo]
    exact ⟨le_rfl, Or.inl rfl⟩
  · next hscale => exact ⟨not_lt.1 hscale, Or.inr (not_ten_dvd_normalize hx)⟩

/-! ## Inexact values -/

/-- An inexact value is shown with the places that were asked for, unless it comes to zero. -/
theorem scale_quantize (context : Context) (x : Decimal) {places : ℤ} (h : places ≤ maxExponent) :
    (context.quantize x places).mantissa = 0 ∨ (context.quantize x places).scale = places := by
  rw [quantize]
  split
  · right
    rw [scale_truncateTo]
    omega
  · dsimp only
    split
    · split
      · exact Or.inl rfl
      · exact Or.inr rfl
    · exact Or.inr (scale_roundTo _ _ _)

theorem admits_of_digits (hscale : x.scale = 10) (hdigits : x.digits ≤ 32) :
    Admits {} x.toRat := by
  by_cases hx : x.mantissa = 0
  · exact Or.inl (toRat_eq_zero.2 hx)
  · have hpos : 0 < x.digits := digitCount_pos _
    have hmax : maxExponent = 10000 := rfl
    have hlead : x.leadingExponent = (x.digits : ℤ) - 1 - 10 := by
      rw [leadingExponent, hscale]
    exact admits_of_leadingExponent hx (by omega) (by omega) {}

/-- What rounding to ten places leaves of a short value. -/
theorem quantize_short (h : Admits {} x.toRat) (hshort : Short {} x) :
    Admits {} (quantize {} x 10).toRat ∧ WrittenOut (quantize {} x 10) := by
  have hplaced : ∀ y : Decimal, y.scale = 10 → WrittenOut y := by
    intro y hy
    right
    rw [hy]
    decide
  by_cases hscale : x.scale ≤ 10
  · have hplaces : min 10 (max x.scale maxExponent) = 10 := by
      have hmax : maxExponent = 10000 := rfl
      omega
    rw [quantize, if_pos hscale, hplaces, toRat_truncateTo hscale]
    exact ⟨h, hplaced _ (scale_truncateTo x 10)⟩
  · have hdigits : x.digits ≤ 31 := hshort.resolve_right (by omega)
    rw [quantize, if_neg hscale]
    dsimp only
    split
    · split
      · rw [toRat_zero]
        exact ⟨admits_zero, Or.inl rfl⟩
      · have hunit : Decimal.digits ⟨if x.isNegative then -1 else 1, 10⟩ = 1 := by
          cases x.isNegative <;> rfl
        exact ⟨admits_of_digits rfl (by omega), hplaced _ rfl⟩
    · exact ⟨admits_of_digits (scale_roundTo _ _ _) (digits_roundTo_le (by omega) (by omega)),
        hplaced _ (scale_roundTo _ _ _)⟩

/-- The value shown is admitted again and has no negative scale. -/
theorem finalize_admitted {inexact : Bool} (h : Admits {} x.toRat) (hfits : Fits x)
    (hshort : inexact = true → Short {} x) :
    Admits {} (finalize {} x inexact).toRat ∧ WrittenOut (finalize {} x inexact) := by
  cases inexact with
  | false =>
    rw [toRat_finalize_exact]
    exact ⟨h, writtenOut_finalize_exact {} hfits⟩
  | true =>
    rw [finalize, if_pos rfl]
    exact quantize_short h (hshort rfl)

end Context
end DeskCalc
