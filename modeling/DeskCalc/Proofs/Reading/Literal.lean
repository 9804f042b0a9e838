import DeskCalc.Proofs.Decimal.Digits
import DeskCalc.Proofs.Reading.Acceptance

/-
A decimal literal is a source.

It starts with a sign or a digit, so it is no name and no blanks are skipped, and it is its
own longest lexeme: parsing it gives a single word.
-/
namespace DeskCalc
namespace Lexeme

theorem not_start_of_isDigit {c : Char} (h : Text.isDigit c = true) :
    c ≠ '@' ∧ isNameStart c = false ∧ Text.isBlank c = false := by
  have hrange := between_iff.1 h
  have hzero : '0'.toNat = 48 := rfl
  have hnine : '9'.toNat = 57 := rfl
  refine ⟨Text.ne_of_isDigit h (by decide), ?_, ?_⟩
  · have hline : c ≠ '_' := Text.ne_of_isDigit h (by decide)
    have hlower : isLowerLetter c = false := by
      rw [Bool.eq_false_iff, isLowerLetter, Ne, between_iff]
      have ha : 'a'.toNat = 97 := rfl
      omega
    have hupper : ('A' ≤ c && c ≤ 'Z') = false := by
      rw [Bool.eq_false_iff, Ne, between_iff]
      have hA : 'A'.toNat = 65 := rfl
      omega
    rw [isNameStart, hlower, hupper]
    simpa using hline
  · simp only [Text.isBlank, Bool.or_eq_false_iff, Bool.and_eq_false_iff,
      decide_eq_false_iff_not, beq_eq_false_iff_ne]
    omega

variable {literal : Text}

/-- A literal starts with a sign or a digit. -/
theorem DecimalLiteral.head (h : DecimalLiteral literal) :
    ∃ c rest, literal = c :: rest ∧ c ≠ '@' ∧ isNameStart c = false ∧ Text.isBlank c = false := by
  obtain ⟨sign, digits, fraction, exponent, rfl, hsign, hdigits, -, -⟩ := h.parts
  rcases hsign with rfl | rfl | rfl
  · match digits, hdigits with
    | c :: rest, hdigits =>
      exact ⟨c, _, rfl, not_start_of_isDigit (hdigits.2 c List.mem_cons_self)⟩
    | [], hdigits => exact absurd rfl hdigits.1
  · exact ⟨'-', _, rfl, by decide⟩
  · exact ⟨'+', _, rfl, by decide⟩

/-- A literal is read in front of a text that it does not go on into. -/
theorem DecimalLiteral.first?_append {rest : Text} (h : DecimalLiteral literal)
    (htaken : Lexeme.takeDecimal? (literal ++ rest) = some literal)
    (hunmarked : Unmarked (literal ++ rest)) :
    Lexeme.first? (literal ++ rest) = some (decimalOf literal) := by
  have hnumeric : numeric? (literal ++ rest) = some (decimalOf literal) := by
    rw [numeric?_of_unmarked hunmarked, htaken, Option.map_some]
  obtain ⟨c, tail, rfl, hat, hname, -⟩ := h.head
  exact first?_of_numeric? hat hname hnumeric

theorem DecimalLiteral.first? (h : DecimalLiteral literal) :
    Lexeme.first? literal = some (decimalOf literal) := by
  have hfirst := h.first?_append (h.takeDecimal? detached_nil) (h.unmarked detached_nil)
  rwa [List.append_nil] at hfirst

/-- A text without a blank at its start that is its own longest lexeme, and stands for a
value, is a source of one word. -/
theorem parse_of_first? {text value : Text} {lexeme : Lexeme} {kind : WordKind}
    (hhead : ∃ c rest, text = c :: rest ∧ Text.isBlank c = false)
    (hfirst : Lexeme.first? text = some (lexeme, text.length))
    (hoperand : Grammar.operandOf? lexeme = some (kind, value)) (log : Log) :
    (DeskCalc.parse text log).1 = .ok [⟨text, value, kind, 0⟩] := by
  have hskip : Grammar.Place.skip (.start text) = .start text := by
    obtain ⟨c, rest, rfl, hblank⟩ := hhead
    simp [Grammar.Place.skip, Grammar.Place.start, hblank, Text.byteSize]
  have hspelled : Grammar.Numeral ⟨text, value, kind, 0⟩ [] := by
    refine ⟨lexeme, ?_, hoperand, rfl⟩
    rw [List.append_nil]
    exact hfirst
  refine Grammar.parse_eq_ok_iff.2 ⟨⟨[], Text.byteSize text⟩,
    .single (.numeral ⟨?_, ?_, ?_, hspelled⟩), by simp [Grammar.Place.Blank]⟩
  · rw [hskip, List.append_nil]
    rfl
  · rw [hskip]
    rfl
  · rw [hskip]
    exact (Nat.zero_add _).symm

/-- A literal is a source of one word. -/
theorem DecimalLiteral.parse (h : DecimalLiteral literal) :
    (DeskCalc.parse literal {}).1 = .ok [⟨literal, normalDecimal literal, .number, 0⟩] := by
  obtain ⟨c, rest, hliteral, -, -, hblank⟩ := h.head
  exact parse_of_first? ⟨c, rest, hliteral, hblank⟩ h.first? rfl {}

end Lexeme

end DeskCalc
