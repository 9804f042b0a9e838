import DeskCalc.Decimal.Rounding
import DeskCalc.Proofs.Reading.Lookahead

/-
Rows of digits as numerals.

A row of digits is read as its positional value, also with a sign before it, and the digits
of a number are a row with that number as its value.
-/
namespace DeskCalc
namespace Text

open Lexeme

/-! ## Digits -/

theorem ne_of_isDigit {c d : Char} (hc : isDigit c = true) (hd : isDigit d = false) : c ≠ d := by
  intro h
  rw [h, hd] at hc
  cases hc

theorem toLower_of_isDigit {c : Char} (h : isDigit c = true) : c.toLower = c := by
  have hrange := between_iff.1 h
  have hnine : '9'.toNat = 57 := rfl
  unfold Char.toLower
  rw [dif_neg]
  rintro ⟨hupper, -⟩
  have hle : 65 ≤ c.toNat := hupper
  omega

theorem digitValue_of_isDigit {c : Char} (h : isDigit c = true) : digitValue c = c.toNat - 48 := by
  rw [digitValue, if_pos h]
  rfl

theorem positional_eq {digits : Text} (h : ∀ c ∈ digits, isDigit c = true) :
    positional 10 digits = Nat.ofDigitChars 10 digits 0 := by
  rw [positional, Nat.ofDigitChars_eq_foldl]
  refine List.foldl_ext _ _ 0 fun value c hc => ?_
  rw [digitValue_of_isDigit (h c hc), Nat.mul_comm]
  rfl

/-- Zeros before the first digit do not count. -/
theorem positional_zeros (count : ℕ) (digits : Text) :
    positional 10 (List.replicate count '0' ++ digits) = positional 10 digits := by
  induction count with
  | zero => rfl
  | succ count ih => exact ih

theorem positional_snoc (radix : ℕ) (digits : Text) (c : Char) :
    positional radix (digits ++ [c]) = positional radix digits * radix + digitValue c := by
  simp [positional]

theorem digitRow_ofNat (n : ℕ) : DigitRow (ofNat n) := by
  refine ⟨Nat.toDigits_ne_nil, fun c hc => ?_⟩
  have hdigit := Nat.isDigit_of_mem_toDigits (by decide) (by decide) hc
  simpa [isDigit, Char.isDigit, Char.le_def] using hdigit

theorem positional_ofNat (n : ℕ) : positional 10 (ofNat n) = n := by
  rw [positional_eq (digitRow_ofNat n).2]
  exact Nat.ofDigitChars_ten_toDigits

/-- A text with a minus sign before it, or without. -/
def signed (negative : Bool) (text : Text) : Text := if negative then '-' :: text else text

theorem ofInt_eq (n : ℤ) : ofInt n = signed (decide (n < 0)) (ofNat n.natAbs) := by
  rw [ofInt, signed]
  simp

end Text

theorem Decimal.withSign_natAbs (n : ℤ) : withSign (decide (n < 0)) n.natAbs = n := by
  rw [withSign]
  by_cases h : n < 0
  · rw [if_pos (decide_eq_true h)]
    omega
  · rw [if_neg (by rw [decide_eq_true_eq]; exact h)]
    omega

/-! ## Reading a row -/

namespace Lexeme

open Text

variable {digits : Text}

theorem DigitRow.unsigned? (h : DigitRow digits) :
    Text.unsigned? digits = some (positional 10 digits) := by
  match digits, h with
  | c :: rest, h =>
    have hline : c ≠ '_' := ne_of_isDigit (h.2 c List.mem_cons_self) (by decide)
    have hkept : (c :: rest).filter (· != '_') = c :: rest :=
      List.filter_eq_self.2 fun d hd => by
        simpa using ne_of_isDigit (h.2 d hd) (by decide)
    have hall : (c :: rest).all isDigit = true := List.all_eq_true.2 h.2
    rw [Text.unsigned?, if_neg hline, hkept]
    exact if_pos hall
  | [], h => exact absurd rfl h.1

theorem DigitRow.natural? (h : DigitRow digits) :
    Text.natural? digits = some (positional 10 digits) := by
  match digits, h with
  | c :: rest, h =>
    have hplus : c ≠ '+' := ne_of_isDigit (h.2 c List.mem_cons_self) (by decide)
    rw [← h.unsigned?]
    unfold Text.natural?
    split
    · next heq => exact absurd (List.cons.inj heq).1 hplus
    · next heq => exact absurd (List.cons.inj heq).1 hplus
    · rfl
  | [], h => exact absurd rfl h.1

theorem DigitRow.integer? (h : DigitRow digits) (negative : Bool) :
    Text.integer? (signed negative digits) =
      some (Decimal.withSign negative (positional 10 digits)) := by
  match digits, h with
  | c :: rest, h =>
    have hminus : c ≠ '-' := ne_of_isDigit (h.2 c List.mem_cons_self) (by decide)
    have hplus : c ≠ '+' := ne_of_isDigit (h.2 c List.mem_cons_self) (by decide)
    have hnatural := h.natural?
    cases negative with
    | false =>
      show Text.integer? (c :: rest) = some (positional 10 (c :: rest) : ℤ)
      unfold Text.integer?
      split
      · next heq => exact absurd (List.cons.inj heq).1 hminus
      · next heq => exact absurd (List.cons.inj heq).1 hminus
      · rw [hnatural]
        rfl
    | true =>
      show Text.integer? ('-' :: c :: rest) = some (-(positional 10 (c :: rest) : ℤ))
      unfold Text.integer?
      split
      · next heq => exact absurd (List.cons.inj (List.cons.inj heq).2).1 hplus
      · next heq =>
        obtain rfl := (List.cons.inj heq).2
        rw [hnatural]
        rfl
      · next hne => exact absurd rfl (hne (c :: rest))
  | [], h => exact absurd rfl h.1

theorem DigitRow.plainInteger? (h : DigitRow digits) (negative : Bool) :
    Text.plainInteger? (signed negative digits) =
      some (Decimal.withSign negative (positional 10 digits)) := by
  match digits, h with
  | c :: rest, h =>
    have hminus : c ≠ '-' := ne_of_isDigit (h.2 c List.mem_cons_self) (by decide)
    have hplus : c ≠ '+' := ne_of_isDigit (h.2 c List.mem_cons_self) (by decide)
    have hall : (c :: rest).all isDigit = true := List.all_eq_true.2 h.2
    cases negative with
    | false =>
      show Text.plainInteger? (c :: rest) = some (positional 10 (c :: rest) : ℤ)
      unfold Text.plainInteger?
      split
      · next heq => exact absurd (List.cons.inj heq).1 hminus
      · next heq => exact absurd (List.cons.inj heq).1 hplus
      · simp [hall]
    | true =>
      show Text.plainInteger? ('-' :: c :: rest) = some (-(positional 10 (c :: rest) : ℤ))
      simp [Text.plainInteger?, hall]
  | [], h => exact absurd rfl h.1

/-- A printed integer is read back. -/
theorem plainInteger?_ofInt (n : ℤ) : Text.plainInteger? (Text.ofInt n) = some n := by
  rw [ofInt_eq, (digitRow_ofNat _).plainInteger?, positional_ofNat, Decimal.withSign_natAbs]

end Lexeme
end DeskCalc
