import DeskCalc.Proofs.ArgumentCheck
import DeskCalc.Proofs.Decimal.Written
import DeskCalc.Proofs.Reading.RadixLiteral

/-
`hex` and `oct` undo the literals of their base.

An integer is shown by the digits of its magnitude, whatever representation it has, so the
text is read back as a literal with the same value.
-/
namespace DeskCalc

/-- A row of decimal digits is read as an integer. -/
theorem Decimal.read?_ofNat (n : ℕ) : read? (Text.ofNat n) = some (ofInt n) := by
  have hvalid : Form.Valid ⟨Text.ofNat n, [], none⟩ := ⟨Text.digitRow_ofNat n, nofun⟩
  have hread := hvalid.read? false rfl
  simpa [Form.text, Form.digits, Form.scale, fractionText, exponentText, Text.signed,
    Text.positional_ofNat, withSign, ofInt] using hread

namespace Base

variable {base : Base} {context : Context} {number : Number} {x : Decimal} {n : ℤ} {span : Span}

/-- The function that shows an integer in the base. -/
def builtin : Base → Builtin
  | hex => .hex
  | octal => .oct

theorem evalRadix_eq (base : Base) (hn : x.toRat = n) :
    Builtin.evalRadix base.radix ['0', base.mark] x span =
      .ok { value := x, display := some (base.text n) } := by
  rw [Builtin.evalRadix, Decimal.toInt?_eq_some_iff.2 hn]
  by_cases h : n < 0 <;> simp [text, Text.signed, h]

theorem call_builtin (hvalue : number.value = some x) (hn : x.toRat = n) :
    base.builtin.call context [number] span =
      .ok { value := x, display := some (base.text n) } := by
  have hfits : ∀ i y, [x][i]? = some y → ¬ base.builtin.Misfit i y := by
    rintro (_ | i) y hy ⟨-, hfraction⟩
    · obtain rfl := Option.some.inj hy
      exact hfraction n hn
    · cases hy
  have hcount : base.builtin.signature.arity.accepts [number].length = true := by
    cases base <;> rfl
  have hvalues : [number].map Number.value = [x].map some := by simp [hvalue]
  rw [Builtin.call_of_fit hcount hvalues hfits]
  cases base with
  | hex => exact evalRadix_eq hex hn
  | octal => exact evalRadix_eq octal hn

end Base

open Base

/-- What `hex` and `oct` show for an integer is a literal of it, behind a minus sign if it is
negative, and a literal in any case and with any zeros before it carries the decimal digits
of its positional value. -/
theorem radix_display_inverse (base : Base) :
    (∀ (context : Context) (number : Number) (span : Span) (x : Decimal) (n : ℤ),
      number.value = some x → x.toRat = n →
      ∃ shown, base.builtin.call context [number] span =
          .ok { value := x, display := some shown } ∧
        (0 ≤ n →
          Lexeme.first? shown = some (base.lexeme (Text.ofNat n.natAbs), shown.length) ∧
          Decimal.read? (Text.ofNat n.natAbs) = some (.ofInt n) ∧
          ∀ log, (parse shown log).1 = .ok [⟨shown, Text.ofNat n.natAbs, .number, 0⟩]) ∧
        (n < 0 → ∀ (other : Number) (y : Decimal), other.value = some y → y.toRat = (-n : ℤ) →
          ∃ magnitude, base.builtin.call context [other] span =
              .ok { value := y, display := some magnitude } ∧ shown = '-' :: magnitude)) ∧
    ∀ (mark : Char) (digits rest : Text), base.IsMark mark → base.Row digits →
      (∀ c, rest.head? = some c → base.isDigit c = false) →
      Lexeme.first? ('0' :: mark :: (digits ++ rest)) =
        some (base.lexeme (Text.ofNat (base.value digits)), digits.length + 2) := by
  refine ⟨fun context number span x n hvalue hn => ⟨base.text n, call_builtin hvalue hn, ?_, ?_⟩,
    fun mark digits rest hmark hrow hrest => first?_literal rest hmark hrow hrest⟩
  · intro hpos
    obtain ⟨hrow, hdigits⟩ := base.row_toDigits n.natAbs
    have hmark : base.IsMark base.mark := Or.inl rfl
    have hfirst := first?_literal [] hmark hrow nofun
    have hparse := parse_literal hmark hrow
    rw [hdigits, List.append_nil] at hfirst
    rw [hdigits] at hparse
    rw [text_of_nonneg hpos]
    refine ⟨hfirst, ?_, hparse⟩
    rw [Decimal.read?_ofNat, Int.natAbs_of_nonneg hpos]
  · intro hneg other y hother hy
    exact ⟨base.text (-n), call_builtin hother hy, text_of_neg hneg⟩

/-- 255, written with two fraction zeros, and a literal in capitals with zeros before it. -/
theorem radix_display_inverse_255 :
    Lexeme.first? "0xff".toList = some (.hex "255".toList, 4) ∧
      Lexeme.first? "0X00FF+1".toList = some (.hex "255".toList, 6) := by
  obtain ⟨hshown, hliteral⟩ := radix_display_inverse .hex
  constructor
  · obtain ⟨shown, hcall, hpos, -⟩ := hshown {} (.ofDecimal ⟨25500, 2⟩) {} ⟨25500, 2⟩ 255 rfl
      (by norm_num [Decimal.toRat])
    obtain ⟨hfirst, -⟩ := hpos (by decide)
    have heval : hex.builtin.call {} [.ofDecimal ⟨25500, 2⟩] {} =
        .ok { value := ⟨25500, 2⟩, display := some "0xff".toList } := by decide +kernel
    rw [heval] at hcall
    obtain rfl : "0xff".toList = shown := by simpa using hcall
    exact hfirst
  · refine hliteral 'X' "00FF".toList "+1".toList (by decide) (by decide) fun c hhead => ?_
    obtain rfl := Option.some.inj (show some '+' = some c from hhead)
    rfl

end DeskCalc
