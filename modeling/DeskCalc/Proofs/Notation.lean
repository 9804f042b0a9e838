import DeskCalc.Proofs.Calculation
import DeskCalc.Proofs.Decimal.Finalized
import DeskCalc.Proofs.Decimal.Plain
import DeskCalc.Proofs.Layout.Evaluate

/-
How results are printed.

The value that is shown has no negative scale, so how it is printed depends on its size
alone.  A result of at least 10^-6, or of zero, is in plain notation, with the places that
were asked for or without trailing zeros; any other one is printed with an exponent.
-/
namespace DeskCalc

open Text

/-- The text is in plain notation.  An inexact result that does not come to zero has the
places of the context, and an exact one shows what it was computed to, without trailing
zeros behind the point. -/
structure PrintedPlainly (context : Context) (computed : Decimal) (inexact : Bool) (text : Text) :
    Prop where
  plain : ∃ q places, Plain text q places
  places : inexact = true → (context.finalize computed true).toRat ≠ 0 →
    Plain text (context.finalize computed true).toRat context.places.toNat
  exact : inexact = false → ∃ places, Plain text computed.toRat places ∧
    (places = 0 ∨ text.getLast? ≠ some '0')

namespace Context

open Decimal

variable {context : Context} {computed : Decimal}

/-- The value shown has no negative scale. -/
theorem scale_finalize (hplaces : 0 ≤ context.places) (hmany : context.places ≤ maxExponent)
    (computed : Decimal) (inexact : Bool) :
    (context.finalize computed inexact).mantissa = 0 ∨
      0 ≤ (context.finalize computed inexact).scale := by
  cases inexact with
  | true =>
    refine (scale_quantize context computed hmany).imp id fun hscale => ?_
    show 0 ≤ (context.quantize computed context.places).scale
    rw [hscale]
    exact hplaces
  | false =>
    by_cases hx : computed.mantissa = 0
    · left
      rw [← toRat_eq_zero, toRat_finalize_exact, toRat_eq_zero, hx]
    · exact Or.inr (shortened_finalize_exact context hx).1

theorem plain_finalize_inexact (hplaces : 0 ≤ context.places)
    (hmany : context.places ≤ maxExponent)
    (hsize : 10 ^ (-6 : ℤ) ≤ |(context.finalize computed true).toRat|) :
    Plain (context.finalize computed true).render (context.finalize computed true).toRat
      context.places.toNat := by
  have hx : (context.finalize computed true).mantissa ≠ 0 := by
    intro hx
    rw [toRat_eq_zero.2 hx, abs_zero] at hsize
    exact absurd hsize (not_le.2 (ten_zpow_pos _))
  have hscale : (context.finalize computed true).scale = context.places :=
    (scale_quantize context computed hmany).resolve_left hx
  rw [← hscale]
  exact plain_render hx (hscale ▸ hplaces) ((le_leadingExponent_iff hx).2 hsize)

theorem plain_finalize_exact
    (hsize : computed.toRat = 0 ∨ 10 ^ (-6 : ℤ) ≤ |computed.toRat|) :
    ∃ places, Plain (context.finalize computed false).render computed.toRat places ∧
      (places = 0 ∨ (context.finalize computed false).render.getLast? ≠ some '0') := by
  by_cases hx : computed.mantissa = 0
  · have hzero : (context.finalize computed false).mantissa = 0 := by
      rw [← toRat_eq_zero, toRat_finalize_exact, toRat_eq_zero, hx]
    rw [render_zero hzero, toRat_eq_zero.2 hx]
    exact ⟨0, plain_zero, Or.inl rfl⟩
  · have hsame := toRat_finalize_exact context computed
    obtain ⟨hscale, hshort⟩ := shortened_finalize_exact context hx
    generalize context.finalize computed false = shown at hsame hscale hshort
    rw [← hsame] at hsize ⊢
    have hshown : shown.mantissa ≠ 0 := by
      rwa [ne_eq, ← toRat_eq_zero, hsame, toRat_eq_zero]
    have hlead := (le_leadingExponent_iff hshown).2
      (hsize.resolve_left fun hzero => hshown (toRat_eq_zero.1 hzero))
    have hplain := plain_render hshown hscale hlead
    refine ⟨shown.scale.toNat, hplain, ?_⟩
    rcases hshort with hwhole | hten
    · left
      rw [hwhole]
      rfl
    · by_cases hplaces : shown.scale.toNat = 0
      · exact Or.inl hplaces
      · refine Or.inr (hplain.getLast?_ne_zero hplaces ?_ hten)
        have hshift : -shown.scale = -((shown.scale.toNat : ℕ) : ℤ) := by omega
        rw [abs_toRat, hshift, zpow_neg, zpow_natCast,
          inv_mul_cancel_right₀ (pow_ne_zero _ (by norm_num))]

theorem printedPlainly_iff (hplaces : 0 ≤ context.places) (hmany : context.places ≤ maxExponent)
    (computed : Decimal) (inexact : Bool) :
    PrintedPlainly context computed inexact (context.finalize computed inexact).render ↔
      (context.finalize computed inexact).toRat = 0 ∨
        10 ^ (-6 : ℤ) ≤ |(context.finalize computed inexact).toRat| := by
  have hiff := plain_render_iff (scale_finalize hplaces hmany computed inexact)
  refine ⟨fun h => hiff.1 h.plain, fun hsize => ⟨hiff.2 hsize, ?_, ?_⟩⟩
  · rintro rfl hvalue
    exact plain_finalize_inexact hplaces hmany (hsize.resolve_left hvalue)
  · rintro rfl
    rw [toRat_finalize_exact] at hsize
    exact plain_finalize_exact hsize

end Context

/-- Every result without a display of its own is the finalized value of its evaluation, and
it is printed in plain notation just if it is zero or at least 10^-6 in magnitude. -/
theorem result_printed_plainly_iff (calculator : Calculator) (source : Text)
    (register : Option Register) (number : Number) (hplaces : 0 ≤ calculator.context.places)
    (hmany : calculator.context.places ≤ 1000)
    (hresult : (calculator.evaluate source register).1 = .ok number)
    (hdisplay : number.display = none) :
    ∃ words final computed, (parse source {}).1 = .ok words ∧
      Chain.exhaust calculator.context words register = .ok final ∧
      final.first.value = some computed ∧
      number.value = some (calculator.context.finalize computed final.inexact) ∧
      (PrintedPlainly calculator.context computed final.inexact number.render ↔
        (calculator.context.finalize computed final.inexact).toRat = 0 ∨
          (10 : ℚ) ^ (-6 : ℤ) ≤ |(calculator.context.finalize computed final.inexact).toRat|) := by
  cases hparse : (parse source {}).1 with
  | error error =>
    rw [evaluate_of_parse_error hparse] at hresult
    cases hresult
  | ok words =>
    rw [evaluate_of_parse hparse, Calculator.evaluateWords_exhaust] at hresult
    obtain ⟨final, hfinal, hnumber⟩ := bind_eq_ok hresult
    have hended := Chain.inEvaluation_eq_ok hnumber
    unfold Chain.result at hended
    split at hended
    · next computed hlinks hvalue =>
      obtain rfl := Except.ok.inj hended
      refine ⟨words, final, computed, rfl, hfinal, hvalue, rfl, ?_⟩
      have hrender : Number.render { final.first with
          value := some (calculator.context.finalize computed final.inexact) } =
            (calculator.context.finalize computed final.inexact).render := by
        rw [Number.render]
        dsimp only at hdisplay ⊢
        rw [hdisplay]
        rfl
      rw [hrender]
      have hmax : Context.maxExponent = 10000 := rfl
      exact Context.printedPlainly_iff hplaces (by omega) computed final.inexact
    · cases hended

/-- The result of `1/7`. -/
def seventh : Number where
  value := some ⟨1428571429, 10⟩
  words := [.plain ['1'] .number 0, .plain ['/'] .operator 1, .plain ['7'] .number 2]

theorem result_printed_plainly_iff_seventh :
    (Calculator.evaluate {} "1/7".toList none).1 = .ok seventh ∧
      seventh.render = "0.1428571429".toList ∧
      ∃ words final computed, (parse "1/7".toList {}).1 = .ok words ∧
        Chain.exhaust {} words none = .ok final ∧
        final.first.value = some computed ∧
        seventh.value = some (Context.finalize {} computed final.inexact) ∧
        (PrintedPlainly {} computed final.inexact seventh.render ↔
          (Context.finalize {} computed final.inexact).toRat = 0 ∨
            (10 : ℚ) ^ (-6 : ℤ) ≤ |(Context.finalize {} computed final.inexact).toRat|) := by
  have hresult : (Calculator.evaluate {} "1/7".toList none).1 = .ok seventh := by decide +kernel
  exact ⟨hresult, by decide +kernel, result_printed_plainly_iff {} "1/7".toList none seventh
    (by decide) (by decide) hresult rfl⟩

/-- The result of `0.0000001`. -/
def tiny : Number where
  value := some ⟨1, 7⟩
  words := [.plain "0.0000001".toList .number 0]

/-- An exact result that is printed with an exponent. -/
theorem exact_result_in_exponent_form :
    0 ≤ Context.places {} ∧ Context.places {} ≤ 1000 ∧
      (Calculator.evaluate {} "0.0000001".toList none).1 = .ok tiny ∧ tiny.display = none ∧
      tiny.render = "1E-7".toList ∧ ¬ ∃ q places, Plain tiny.render q places := by
  refine ⟨by decide, by decide, by decide +kernel, rfl, by decide +kernel, ?_⟩
  rintro ⟨q, places, hplain⟩
  exact hplain.no_exponent (by decide +kernel)

end DeskCalc
