import DeskCalc.Proofs.Decimal.Rescale
import DeskCalc.Proofs.Decimal.Written

/-
Plain notation.

A number is in plain notation if it is written out: a minus sign if there is one, digits, and
a point with the digits of the fraction.  Without a negative scale, a decimal is printed like
this unless it lies between zero and 10^-6 in magnitude; then it gets an exponent
(`plain_render_iff`).
-/
namespace DeskCalc

open Text Lexeme Decimal

/-- The text is the number written out with this many digits behind the point. -/
def Plain (text : Text) (q : ℚ) (places : ℕ) : Prop :=
  ∃ negative whole fraction, DigitRow whole ∧ (∀ c ∈ fraction, isDigit c = true) ∧
    fraction.length = places ∧ text = signed negative (whole ++ fractionText fraction) ∧
    q = (if negative then -1 else 1) * positional 10 (whole ++ fraction) / 10 ^ places

theorem plain_zero : Plain ['0'] 0 0 := by
  have hnothing : positional 10 ['0'] = 0 := by decide
  refine ⟨false, ['0'], [], digitRow_zero, by simp, rfl, rfl, ?_⟩
  rw [List.append_nil, hnothing]
  simp

theorem Plain.no_exponent {text : Text} {q : ℚ} {places : ℕ} (h : Plain text q places) :
    'E' ∉ text := by
  obtain ⟨negative, whole, fraction, hwhole, hfraction, -, rfl, -⟩ := h
  have hdigit : ∀ {row : Text}, (∀ c ∈ row, isDigit c = true) → 'E' ∉ row := by
    intro row hrow hmem
    exact absurd (hrow _ hmem) (by decide)
  refine not_mem_signed (by decide) fun hmem => ?_
  rcases List.mem_append.1 hmem with hmem | hmem
  · exact hdigit hwhole.2 hmem
  · cases fraction with
    | nil => cases hmem
    | cons c rest =>
      rcases List.mem_cons.1 hmem with hpoint | hmem
      · exact absurd hpoint (by decide)
      · exact hdigit hfraction hmem

theorem Text.getLast?_signed_append {negative : Bool} {text : Text} {c : Char} :
    (signed negative (text ++ [c])).getLast? = some c := by
  cases negative with
  | false => exact List.getLast?_concat
  | true => exact (congrArg List.getLast? (List.cons_append ..).symm).trans List.getLast?_concat

/-- If the last digit behind the point is a zero, the digits stand for a multiple of ten. -/
theorem Plain.getLast?_ne_zero {text : Text} {q : ℚ} {places n : ℕ} (h : Plain text q places)
    (hplaces : places ≠ 0) (hn : |q| * 10 ^ places = n) (hten : ¬ 10 ∣ n) :
    text.getLast? ≠ some '0' := by
  obtain ⟨negative, whole, fraction, -, -, hlength, rfl, rfl⟩ := h
  obtain rfl | ⟨rest, c, rfl⟩ := List.eq_nil_or_concat fraction
  · exact absurd hlength.symm hplaces
  · rw [List.concat_eq_append] at hn ⊢
    have hdigits : positional 10 (whole ++ (rest ++ [c])) = n := by
      have hsign : |if negative then (-1 : ℚ) else 1| = 1 := by
        cases negative <;> simp
      have hpow : (0 : ℚ) < 10 ^ places := pow_pos (by norm_num) _
      rw [abs_div, abs_mul, hsign, one_mul, Nat.abs_cast, abs_of_pos hpow,
        div_mul_cancel₀ _ hpow.ne'] at hn
      exact_mod_cast hn
    have htext : whole ++ fractionText (rest ++ [c]) = (whole ++ '.' :: rest) ++ [c] := by
      rw [fractionText_of_ne_nil (by simp)]
      simp
    intro hlast
    rw [htext, getLast?_signed_append] at hlast
    obtain rfl := Option.some.inj hlast
    rw [← List.append_assoc, Text.positional_snoc,
      show digitValue '0' = 0 from by decide] at hdigits
    exact hten ⟨_, by rw [← hdigits, add_zero, mul_comm]⟩

theorem Text.length_ofNat (n : ℕ) : (ofNat n).length = digitCount n := by
  have hle : ∀ {count : ℕ}, 0 < count → ((ofNat n).length ≤ count ↔ n < 10 ^ count) :=
    fun hcount => Nat.length_toDigits_le_iff (by decide) hcount
  refine le_antisymm ((hle (digitCount_pos n)).2 (lt_pow_digitCount n)) ?_
  have hpos : 0 < (ofNat n).length := List.length_pos_iff.2 (digitRow_ofNat n).1
  exact digitCount_le ((hle hpos).1 le_rfl) hpos

namespace Decimal

variable {x : Decimal}

/-- Six is how many places a first digit may stand behind the point. -/
theorem exponent_shown_iff : (leadingZeroLimit : ℤ) < x.scale - (ofNat x.mantissa.natAbs).length ↔
    x.leadingExponent < -6 := by
  have hlimit : leadingZeroLimit = 5 := rfl
  have hdigits : x.digits = digitCount x.mantissa.natAbs := rfl
  rw [length_ofNat, leadingExponent, hlimit, hdigits]
  omega

theorem render_of_ne (hx : x.mantissa ≠ 0) : x.render =
    signed x.isNegative (renderMagnitude (ofNat x.mantissa.natAbs) x.scale) := by
  rw [render, isZero_of_ne hx, if_neg Bool.false_ne_true, signed]

/-- A number that is not too small is printed with the digits that its scale asks for. -/
theorem plain_render (hx : x.mantissa ≠ 0) (hscale : 0 ≤ x.scale) (hlead : -6 ≤ x.leadingExponent) :
    Plain x.render x.toRat x.scale.toNat := by
  have hlarge : ¬ (leadingZeroLimit : ℤ) < x.scale - (ofNat x.mantissa.natAbs).length := by
    rw [exponent_shown_iff]
    omega
  have hpoint : ¬ x.scale < -trailingZeroLimit := by
    rw [trailingZeroLimit]
    omega
  have hshows := shows_positionalText (digitRow_ofNat x.mantissa.natAbs) hscale
  obtain ⟨form, hvalid, hexponent, htext, hdigits, hform⟩ := hshows
  have hplaces : form.fraction.length = x.scale.toNat := by
    rw [Form.scale, hexponent] at hform
    rw [← hform]
    simp
  refine ⟨x.isNegative, form.whole, form.fraction, hvalid.whole, hvalid.fraction, hplaces, ?_, ?_⟩
  · rw [render_of_ne hx, renderMagnitude, if_neg hlarge, if_neg hpoint, htext, Form.text, hexponent]
    simp [exponentText]
  · have hmantissa : (if x.isNegative then -1 else 1) * (x.mantissa.natAbs : ℚ) = x.mantissa := by
      conv_rhs => rw [← withSign_natAbs x.mantissa]
      rw [withSign, isNegative]
      split <;> simp
    have hshift : -x.scale = -((x.scale.toNat : ℕ) : ℤ) := by omega
    rw [← Form.digits, hdigits, positional_ofNat, hmantissa, toRat, hshift, zpow_neg, zpow_natCast,
      div_eq_mul_inv]

/-- A number that is too small is printed with an exponent. -/
theorem exponent_mem_render (hx : x.mantissa ≠ 0) (hlead : x.leadingExponent < -6) :
    'E' ∈ x.render := by
  have hmagnitude : 'E' ∈ renderMagnitude (ofNat x.mantissa.natAbs) x.scale := by
    rw [renderMagnitude, if_pos (exponent_shown_iff.2 hlead)]
    exact List.mem_append_right _ List.mem_cons_self
  rw [render_of_ne hx, signed]
  split
  · exact List.mem_cons_of_mem _ hmagnitude
  · exact hmagnitude

theorem render_zero (hx : x.mantissa = 0) : x.render = ['0'] := by
  rw [render, if_pos (isZero_of_eq hx)]

theorem plain_render_iff (hscale : x.mantissa = 0 ∨ 0 ≤ x.scale) :
    (∃ q places, Plain x.render q places) ↔ x.toRat = 0 ∨ 10 ^ (-6 : ℤ) ≤ |x.toRat| := by
  by_cases hx : x.mantissa = 0
  · rw [render_zero hx]
    exact ⟨fun _ => Or.inl (toRat_eq_zero.2 hx), fun _ => ⟨0, 0, plain_zero⟩⟩
  · rw [toRat_eq_zero, or_iff_right hx, ← le_leadingExponent_iff hx]
    constructor
    · rintro ⟨q, places, hplain⟩
      by_contra hlead
      exact hplain.no_exponent (exponent_mem_render hx (not_le.1 hlead))
    · intro hlead
      exact ⟨_, _, plain_render hx (hscale.resolve_left hx) hlead⟩

end Decimal
end DeskCalc
