import DeskCalc.Proofs.Reading.Literal
import Mathlib.Data.Nat.Digits.Defs
import Mathlib.Tactic.IntervalCases

/-
Integers written in base sixteen or eight.

The digits of a literal have their place value, whatever their case and however many zeros
stand before them, and the literal carries the decimal digits of that value.  Together with
a sign a literal writes an integer, which `integer?` reads.
-/
namespace DeskCalc

/-- The bases that a literal can have besides ten. -/
inductive Base where
  | hex
  | octal
  deriving DecidableEq, Repr

namespace Base

open Text Lexeme

def radix : Base → ℕ
  | hex => 16
  | octal => 8

/-- The letter behind the zero that opens a literal. -/
def mark : Base → Char
  | hex => 'x'
  | octal => 'o'

def isDigit : Base → Char → Bool
  | hex => isHexDigit
  | octal => isOctalDigit

def lexeme : Base → Text → Lexeme
  | hex => .hex
  | octal => .octal

/-- The digits are counted from 0 to f. -/
def digitOf (c : Char) : ℕ := "0123456789abcdef".toList.idxOf c.toLower

def value (base : Base) (digits : Text) : ℕ := Nat.ofDigits base.radix (digits.reverse.map digitOf)

/-- A row of digits of the base, not empty. -/
def Row (base : Base) (digits : Text) : Prop := digits ≠ [] ∧ ∀ c ∈ digits, base.isDigit c = true

-- The digits are tested one by one, and not all the characters that there are.
instance (base : Base) (digits : Text) : Decidable (base.Row digits) :=
  @instDecidableAnd _ _ inferInstance (List.decidableBAll _ digits)

/-- The mark in either case. -/
def IsMark (base : Base) (c : Char) : Prop := c = base.mark ∨ c = base.mark.toUpper

instance (base : Base) (c : Char) : Decidable (base.IsMark c) :=
  inferInstanceAs (Decidable (_ ∨ _))

def ofMark? (c : Char) : Option Base :=
  if hex.IsMark c then some hex
  else if octal.IsMark c then some octal
  else none

/-- The number written by a literal with a base mark. -/
def natural? : Text → Option ℕ
  | '0' :: mark :: digits =>
      (ofMark? mark).bind fun base => if base.Row digits then some (base.value digits) else none
  | _ => none

/-- The integer written by a literal with a base mark and perhaps a minus sign. -/
def integer? : Text → Option ℤ
  | '-' :: literal => (natural? literal).map fun n : ℕ => -(n : ℤ)
  | literal => (natural? literal).map fun n : ℕ => (n : ℤ)

variable {base : Base} {c mark : Char} {digits rest : Text}

/-! ## Digits -/

theorem mem_of_isHexDigit (h : isHexDigit c = true) : c ∈ "0123456789abcdefABCDEF".toList := by
  have hzero : '0'.toNat = 48 := rfl
  have hnine : '9'.toNat = 57 := rfl
  have ha : 'a'.toNat = 97 := rfl
  have hf : 'f'.toNat = 102 := rfl
  have hA : 'A'.toNat = 65 := rfl
  have hF : 'F'.toNat = 70 := rfl
  rw [isHexDigit, Text.isDigit, Bool.or_eq_true, Bool.or_eq_true, between_iff, between_iff,
    between_iff, hzero, hnine, ha, hf, hA, hF] at h
  rw [← Char.ofNat_toNat c]
  generalize c.toNat = n at h
  rcases h with (⟨hlow, hhigh⟩ | ⟨hlow, hhigh⟩) | ⟨hlow, hhigh⟩ <;> interval_cases n <;> decide

/-- The value of a digit by its place in the list of digits. -/
theorem digitValue_of_isHexDigit (h : isHexDigit c = true) : digitValue c = digitOf c := by
  have hall : "0123456789abcdefABCDEF".toList.all (fun d => digitValue d == digitOf d) = true := by
    decide
  exact beq_iff_eq.1 (List.all_eq_true.1 hall c (mem_of_isHexDigit h))

theorem isHexDigit_of_isDigit (h : base.isDigit c = true) : isHexDigit c = true := by
  cases base with
  | hex => exact h
  | octal =>
    have hdigit : Text.isDigit c = true := by
      rw [isDigit, isOctalDigit, between_iff] at h
      have hseven : '7'.toNat = 55 := rfl
      have hnine : '9'.toNat = 57 := rfl
      exact between_iff.2 (by omega)
    simp [isHexDigit, hdigit]

theorem positional_eq_value (h : ∀ c ∈ digits, base.isDigit c = true) :
    positional base.radix digits = base.value digits := by
  rw [value, Nat.ofDigits_eq_foldr, List.map_reverse, List.foldr_reverse, List.foldl_map, positional]
  refine List.foldl_ext _ _ 0 fun value c hc => ?_
  rw [digitValue_of_isHexDigit (isHexDigit_of_isDigit (h c hc)), Nat.mul_comm, Nat.add_comm]
  rfl

theorem isDigit_digitChar {d : ℕ} (h : d < base.radix) :
    base.isDigit (Nat.digitChar d) = true ∧ digitOf (Nat.digitChar d) = d := by
  cases base with
  | hex =>
    rw [radix] at h
    interval_cases d <;> decide
  | octal =>
    rw [radix] at h
    interval_cases d <;> decide

theorem value_append_singleton (digits : Text) (c : Char) :
    base.value (digits ++ [c]) = base.radix * base.value digits + digitOf c := by
  simp [value, Nat.ofDigits_cons, Nat.add_comm]

theorem one_lt_radix (base : Base) : 1 < base.radix := by
  cases base <;> decide

/-- The digits of a number are a row with that number as its value. -/
theorem row_toDigits (base : Base) (n : ℕ) :
    base.Row (Nat.toDigits base.radix n) ∧ base.value (Nat.toDigits base.radix n) = n := by
  induction n using Nat.strong_induction_on with
  | h n ih =>
    rw [Nat.toDigits_eq_if base.one_lt_radix]
    split
    · next hlt =>
      obtain ⟨hdigit, hvalue⟩ := isDigit_digitChar hlt
      exact ⟨⟨by simp, by simpa using hdigit⟩, by simp [value, hvalue]⟩
    · next hle =>
      have hpos : 0 < base.radix := Nat.zero_lt_of_lt base.one_lt_radix
      have hless : n / base.radix < n := Nat.div_lt_self (by omega) base.one_lt_radix
      obtain ⟨hrow, hvalue⟩ := ih (n / base.radix) hless
      obtain ⟨hdigit, hlast⟩ := isDigit_digitChar (Nat.mod_lt n hpos)
      refine ⟨⟨by simp, List.forall_mem_append.2 ⟨hrow.2, by simpa using hdigit⟩⟩, ?_⟩
      rw [value_append_singleton, hvalue, hlast, Nat.div_add_mod]

/-! ## Literals -/

theorem radixDigits_eq (base : Base) (rest : Text) : radixDigits base.isDigit base.radix rest =
    if rest.takeWhile base.isDigit = [] then none
    else some (Text.ofNat (base.value (rest.takeWhile base.isDigit)),
      (rest.takeWhile base.isDigit).length + 2) := by
  have hdigits : ∀ c ∈ rest.takeWhile base.isDigit, base.isDigit c = true :=
    fun _ => List.mem_takeWhile_imp
  rw [radixDigits, ← positional_eq_value hdigits]
  cases rest.takeWhile base.isDigit <;> rfl

/-- A mark belongs to no decimal literal. -/
theorem takeDecimal?_mark (hmark : base.IsMark mark) (rest : Text) :
    takeDecimal? ('0' :: mark :: rest) = some ['0'] := by
  cases base <;> rcases hmark with rfl | rfl <;>
    exact takeDecimal?_eq (.inl rfl) digitRow_zero (by simp [NoDigit]; decide)

/-- A zero with a mark behind it opens a literal if a digit follows, and otherwise is the literal
itself. -/
theorem numeric?_mark (hmark : base.IsMark mark) (rest : Text) : numeric? ('0' :: mark :: rest) =
    some (if rest.takeWhile base.isDigit = [] then decimalOf ['0']
      else (base.lexeme (Text.ofNat (base.value (rest.takeWhile base.isDigit))),
        (rest.takeWhile base.isDigit).length + 2)) := by
  have hmarked : numeric? ('0' :: mark :: rest) =
      ((radixDigits base.isDigit base.radix rest).map fun found =>
        (base.lexeme found.1, found.2)).or
          ((takeDecimal? ('0' :: mark :: rest)).map decimalOf) := by
    cases base <;> rcases hmark with rfl | rfl <;> rfl
  rw [hmarked, radixDigits_eq, takeDecimal?_mark hmark]
  split <;> rfl

/-- The longest run of digits behind the mark is the literal. -/
theorem first?_literal (rest : Text) (hmark : base.IsMark mark) (hrow : base.Row digits)
    (hrest : ∀ c, rest.head? = some c → base.isDigit c = false) :
    Lexeme.first? ('0' :: mark :: (digits ++ rest)) =
      some (base.lexeme (Text.ofNat (base.value digits)), digits.length + 2) := by
  refine first?_of_numeric? (by decide) (by decide) ?_
  rw [numeric?_mark hmark, takeWhile_row hrow.2 hrest, if_neg hrow.1]

/-- A literal is a source of one word, which carries the decimal digits of its value. -/
theorem parse_literal (hmark : base.IsMark mark) (hrow : base.Row digits) (log : Log) :
    (DeskCalc.parse ('0' :: mark :: digits) log).1 =
      .ok [⟨'0' :: mark :: digits, Text.ofNat (base.value digits), .number, 0⟩] := by
  have hfirst := first?_literal [] hmark hrow nofun
  rw [List.append_nil] at hfirst
  refine parse_of_first? ⟨'0', mark :: digits, rfl, by decide⟩ hfirst ?_ log
  cases base <;> rfl

theorem ofMark?_mark (base : Base) : ofMark? base.mark = some base := by
  cases base <;> decide

/-- The digits of an integer behind the mark of the base, and its sign before it. -/
def text (base : Base) (n : ℤ) : Text :=
  signed (decide (n < 0)) ('0' :: base.mark :: Nat.toDigits base.radix n.natAbs)

theorem text_of_nonneg {n : ℤ} (h : 0 ≤ n) :
    base.text n = '0' :: base.mark :: Nat.toDigits base.radix n.natAbs := by
  simp [text, signed, not_lt.2 h]

theorem text_of_neg {n : ℤ} (h : n < 0) : base.text n = '-' :: base.text (-n) := by
  rw [text_of_nonneg (show 0 ≤ -n by omega), Int.natAbs_neg, text, decide_eq_true h]
  rfl

theorem integer?_text (base : Base) (n : ℤ) : integer? (base.text n) = some n := by
  obtain ⟨hrow, hvalue⟩ := base.row_toDigits n.natAbs
  have hnatural : natural? ('0' :: base.mark :: Nat.toDigits base.radix n.natAbs) =
      some n.natAbs := by
    rw [natural?, ofMark?_mark, Option.bind_some, if_pos hrow, hvalue]
  rcases lt_or_ge n 0 with hneg | hpos
  · rw [text_of_neg hneg, text_of_nonneg (show 0 ≤ -n by omega), Int.natAbs_neg, integer?, hnatural,
      Option.map_some, Option.some_inj]
    omega
  · rw [text_of_nonneg hpos]
    show (natural? ('0' :: base.mark :: Nat.toDigits base.radix n.natAbs)).map _ = some n
    rw [hnatural, Option.map_some, Option.some_inj]
    omega

end Base
end DeskCalc
