import DeskCalc.Lexeme
import Mathlib.Data.List.TakeDrop

/-
Lexemes as openings of a text.

Every part that the lexeme functions cut off is put back by appending what they leave,
so a lexeme is an opening of its text and not empty.
-/
namespace DeskCalc
namespace Lexeme

/-! ## Parts of a literal -/

theorem takeSign_append (text : Text) : (takeSign text).1 ++ (takeSign text).2 = text := by
  unfold takeSign
  split <;> rfl

theorem takeDigits_append (text : Text) :
    (takeDigits text).1 ++ (takeDigits text).2 = text := by
  rw [takeDigits, List.span_eq_takeWhile_dropWhile]
  exact List.takeWhile_append_dropWhile

theorem takeFraction_append (text : Text) :
    (takeFraction text).1 ++ (takeFraction text).2 = text := by
  unfold takeFraction
  split
  · next rest =>
    have happend := takeDigits_append rest
    split
    · rfl
    · next digits after _ h =>
      rw [h] at happend
      exact congrArg _ happend
  · rfl

theorem takeExponent_append (text : Text) :
    (takeExponent text).1 ++ (takeExponent text).2 = text := by
  unfold takeExponent
  split
  · rfl
  · next c rest =>
    split
    · have hsign := takeSign_append rest
      have hdigits := takeDigits_append (takeSign rest).2
      dsimp only
      split
      · rfl
      · next digits after _ h =>
        rw [h] at hdigits
        dsimp only at hdigits ⊢
        rw [List.cons_append, List.cons_append, List.append_assoc, hdigits, hsign]
    · rfl

theorem takeDecimal?_append {text literal : Text} (h : takeDecimal? text = some literal) :
    literal ≠ [] ∧ ∃ after, text = literal ++ after := by
  have hsign := takeSign_append text
  have hdigits := takeDigits_append (takeSign text).2
  unfold takeDecimal? at h
  dsimp only at h
  split at h
  · cases h
  · next digits rest hne heq =>
    rw [heq] at hdigits
    have hfraction := takeFraction_append rest
    have hexponent := takeExponent_append (takeFraction rest).2
    dsimp only at h hdigits
    obtain rfl := Option.some.inj h
    refine ⟨fun hnil => hne ?_, (takeExponent (takeFraction rest).2).2, ?_⟩
    · simp only [List.append_eq_nil_iff] at hnil
      exact hnil.1.1.2
    · rw [List.append_assoc, hexponent, List.append_assoc, hfraction, List.append_assoc,
        hdigits, hsign]

theorem radixDigits_size {isDigit : Char → Bool} {radix : Nat} {rest value : Text} {size : Nat}
    (h : radixDigits isDigit radix rest = some (value, size)) :
    0 < size ∧ size ≤ rest.length + 2 := by
  unfold radixDigits at h
  split at h
  · cases h
  · obtain ⟨-, rfl⟩ := Prod.mk.inj (Option.some.inj h)
    have := (List.takeWhile_prefix isDigit (l := rest)).length_le
    omega

/-! ## Whole lexemes -/

/-- A lexeme is not empty and no longer than the text it opens; a name is this
opening itself. -/
structure Fits (text : Text) (lexeme : Lexeme) (size : Nat) : Prop where
  pos : 0 < size
  le : size ≤ text.length
  name : ∀ name, lexeme = identifier name → size = name.length ∧
    text = name ++ text.drop size ∧ ∃ c, text.head? = some c ∧ isNameStart c = true

theorem fits_decimal {text : Text} {lexeme : Lexeme} {size : Nat}
    (h : (takeDecimal? text).map decimalOf = some (lexeme, size)) : Fits text lexeme size := by
  obtain ⟨literal, hliteral, heq⟩ := Option.map_eq_some_iff.1 h
  obtain ⟨rfl, rfl⟩ := Prod.mk.inj heq
  obtain ⟨hne, after, rfl⟩ := takeDecimal?_append hliteral
  refine ⟨List.length_pos_iff.2 hne, by simp, fun name hname => ?_⟩
  cases hname

theorem fits_numeric {text : Text} {lexeme : Lexeme} {size : Nat}
    (h : numeric? text = some (lexeme, size)) : Fits text lexeme size := by
  unfold numeric? at h
  split at h
  · next mark rest =>
    dsimp only at h
    rcases Option.or_eq_some_iff.1 h with hmarked | ⟨-, hdecimal⟩
    · split at hmarked
      · obtain ⟨⟨value, n⟩, hdigits, heq⟩ := Option.map_eq_some_iff.1 hmarked
        obtain ⟨rfl, rfl⟩ := Prod.mk.inj heq
        obtain ⟨hpos, hle⟩ := radixDigits_size hdigits
        exact ⟨hpos, hle, fun name hname => by cases hname⟩
      · split at hmarked
        · obtain ⟨⟨value, n⟩, hdigits, heq⟩ := Option.map_eq_some_iff.1 hmarked
          obtain ⟨rfl, rfl⟩ := Prod.mk.inj heq
          obtain ⟨hpos, hle⟩ := radixDigits_size hdigits
          exact ⟨hpos, hle, fun name hname => by cases hname⟩
        · cases hmarked
    · exact fits_decimal hdecimal
  · exact fits_decimal h

theorem fits_register {text : Text} {lexeme : Lexeme} {size : Nat}
    (h : register? text = some (lexeme, size)) : Fits text lexeme size := by
  unfold register? at h
  split at h
  · split at h
    · obtain ⟨rfl, rfl⟩ := Prod.mk.inj (Option.some.inj h)
      exact ⟨by omega, by simp, fun name hname => by cases hname⟩
    · split at h
      · obtain ⟨rfl, rfl⟩ := Prod.mk.inj (Option.some.inj h)
        exact ⟨by omega, by simp, fun name hname => by cases hname⟩
      · cases h
  · split at h
    · obtain ⟨rfl, rfl⟩ := Prod.mk.inj (Option.some.inj h)
      exact ⟨by omega, by simp, fun name hname => by cases hname⟩
    · cases h
  · cases h

theorem symbol?_ne_identifier {c : Char} {name : Text} : symbol? c ≠ some (identifier name) := by
  unfold symbol?
  split <;> simp

theorem fits_first {text : Text} {lexeme : Lexeme} {size : Nat}
    (h : first? text = some (lexeme, size)) : Fits text lexeme size := by
  match text with
  | [] => cases h
  | c :: rest =>
    rw [first?] at h
    split at h
    · exact fits_register h
    · split at h
      · next hstart =>
        obtain ⟨rfl, rfl⟩ := Prod.mk.inj (Option.some.inj h)
        have hle := (List.takeWhile_prefix isNamePart (l := rest)).length_le
        refine ⟨by simp, by simpa using hle, fun name hname => ?_⟩
        obtain rfl := identifier.inj hname
        refine ⟨rfl, ?_, c, rfl, hstart⟩
        have hcut := (List.prefix_iff_eq_append.1 (List.takeWhile_prefix isNamePart (l := rest))).symm
        rw [List.length_cons, List.drop_succ_cons, List.cons_append, ← hcut]
      · rcases Option.or_eq_some_iff.1 h with hnumeric | ⟨-, hsymbol⟩
        · exact fits_numeric hnumeric
        · obtain ⟨symbol, hc, heq⟩ := Option.map_eq_some_iff.1 hsymbol
          obtain ⟨rfl, rfl⟩ := Prod.mk.inj heq
          refine ⟨by omega, by simp, fun name hname => ?_⟩
          exact absurd (hname ▸ hc) symbol?_ne_identifier

/-- Behind a sign or a digit a numeric piece comes first. -/
theorem first?_of_numeric? {c : Char} {rest : Text} {found : Lexeme × Nat} (hmark : c ≠ '@')
    (hname : isNameStart c = false) (h : numeric? (c :: rest) = some found) :
    first? (c :: rest) = some found := by
  rw [first?, if_neg hmark, hname, if_neg Bool.false_ne_true, h, Option.some_or]

/-! ## Symbols -/

theorem numeric?_eq_none {c : Char} {rest : Text} (hzero : Text.isDigit c = false)
    (hminus : c ≠ '-') (hplus : c ≠ '+') : numeric? (c :: rest) = none := by
  have hc : c ≠ '0' := by
    rintro rfl
    exact absurd hzero (by decide)
  have hdecimal : takeDecimal? (c :: rest) = none := by
    simp [takeDecimal?, takeSign, takeDigits, hminus, hplus, hzero, List.span_eq_takeWhile_dropWhile]
  unfold numeric?
  split
  · next heq => exact absurd (List.cons.inj heq).1 hc
  · rw [hdecimal, Option.map_none]

theorem first?_symbol {c : Char} {rest : Text} {symbol : Lexeme} (hmark : c ≠ '@')
    (hname : isNameStart c = false) (hdigit : Text.isDigit c = false) (hminus : c ≠ '-')
    (hplus : c ≠ '+') (hsymbol : symbol? c = some symbol) :
    first? (c :: rest) = some (symbol, 1) := by
  rw [first?, if_neg hmark, hname, if_neg Bool.false_ne_true,
    numeric?_eq_none hdigit hminus hplus, Option.none_or, hsymbol, Option.map_some]

end Lexeme
end DeskCalc
