import DeskCalc.Proofs.Reading.LexemeKind

/-
What is read at the start of a text, and what is spelled there.

A lexeme that is read is spelled by an opening of the text, and a piece of any kind that opens
the text is no longer than what is read.  A text of a kind is its own longest piece, so it is of
one kind only.
-/
namespace DeskCalc
namespace Lexeme

variable {text piece rest digits fraction exponent : Text} {lexeme : Lexeme} {size : ℕ}
  {kind : Kind}
  {a c : Char}

theorem decimalOf_eq (literal : Text) :
    decimalOf literal = (Kind.decimal.lexeme literal, literal.length) := by
  rw [decimalOf, normalDecimal, Kind.lexeme]
  cases literal with
  | nil => rfl
  | cons c rest =>
    by_cases hplus : c = '+'
    · subst hplus
      rfl
    · rw [Text.after?, if_neg (Ne.symm hplus), if_neg (by simpa using hplus), Option.getD_none]

theorem exists_mark (h : ¬ Unmarked text) :
    ∃ (base : Base) (mark : Char) (rest : Text), text = '0' :: mark :: rest ∧ base.IsMark mark := by
  simp only [Unmarked, not_forall] at h
  obtain ⟨mark, rest, htext, hmark⟩ := h
  by_cases hhex : Base.hex.IsMark mark
  · exact ⟨.hex, mark, rest, htext, hhex⟩
  · refine ⟨.octal, mark, rest, htext, ?_⟩
    by_contra hoctal
    obtain ⟨hx, hX⟩ := not_or.1 hhex
    obtain ⟨ho, hO⟩ := not_or.1 hoctal
    exact hmark ⟨hx, hX, ho, hO⟩

/-! ## What is read is spelled -/

/-- An opening of a text, of one of the kinds, stands for the lexeme and has the size. -/
def Spelled (text : Text) (lexeme : Lexeme) (size : ℕ) : Prop :=
  ∃ (kind : Kind) (piece : Text), kind.Spells piece ∧ piece <+: text ∧
    kind.lexeme piece = lexeme ∧ piece.length = size

theorem spelled_decimal (h : (takeDecimal? text).map decimalOf = some (lexeme, size)) :
    Spelled text lexeme size := by
  obtain ⟨literal, hliteral, heq⟩ := Option.map_eq_some_iff.1 h
  rw [decimalOf_eq] at heq
  obtain ⟨hlexeme, hsize⟩ := Prod.mk.inj heq
  obtain ⟨-, rest, hrest⟩ := takeDecimal?_append hliteral
  exact ⟨.decimal, literal, decimalLiteral_of_takeDecimal? hliteral, ⟨rest, hrest.symm⟩, hlexeme,
    hsize⟩

theorem spelled_numeric (h : numeric? text = some (lexeme, size)) : Spelled text lexeme size := by
  by_cases hunmarked : Unmarked text
  · rw [numeric?_of_unmarked hunmarked] at h
    exact spelled_decimal h
  · obtain ⟨base, mark, rest, rfl, hmark⟩ := exists_mark hunmarked
    rw [Base.numeric?_mark hmark, Option.some_inj] at h
    split at h
    · refine spelled_decimal ?_
      rw [Base.takeDecimal?_mark hmark, Option.map_some, h]
    · next hrow =>
      obtain ⟨hlexeme, hsize⟩ := Prod.mk.inj h
      refine ⟨.based base, '0' :: mark :: rest.takeWhile base.isDigit,
        ⟨mark, _, rfl, hmark, hrow, fun _ => List.mem_takeWhile_imp⟩, ?_, hlexeme, hsize⟩
      simpa using List.takeWhile_prefix base.isDigit

theorem spelled_single (ha : (isLowerLetter a || decide (a = '@')) = true) (rest : Text) :
    Spelled ('@' :: a :: rest) (.register ['@', a]) 2 :=
  ⟨.register, ['@', a], ⟨a, rfl, by simpa using ha⟩, ⟨rest, rfl⟩, rfl, rfl⟩

theorem spelled_register (h : register? text = some (lexeme, size)) : Spelled text lexeme size := by
  unfold register? at h
  split at h
  · next a b rest =>
    split at h
    · next hrange =>
      obtain ⟨rfl, rfl⟩ := Prod.mk.inj (Option.some.inj h)
      exact ⟨.registerRange, ['@', a, '_', b], ⟨a, b, rfl, by simpa using hrange⟩, ⟨rest, rfl⟩, rfl,
        rfl⟩
    · split at h
      · next ha =>
        obtain ⟨rfl, rfl⟩ := Prod.mk.inj (Option.some.inj h)
        exact spelled_single ha _
      · cases h
  · split at h
    · next ha =>
      obtain ⟨rfl, rfl⟩ := Prod.mk.inj (Option.some.inj h)
      exact spelled_single ha _
    · cases h
  · cases h

theorem symbol?_eq_some_iff :
    symbol? c = some lexeme ↔ ∃ s : Symbol, c = s.char ∧ lexeme = s.lexeme := by
  constructor
  · intro h
    unfold symbol? at h
    split at h <;> cases h
    · exact ⟨.plus, rfl, rfl⟩
    · exact ⟨.minus, rfl, rfl⟩
    · exact ⟨.star, rfl, rfl⟩
    · exact ⟨.slash, rfl, rfl⟩
    · exact ⟨.caret, rfl, rfl⟩
    · exact ⟨.leftParen, rfl, rfl⟩
    · exact ⟨.rightParen, rfl, rfl⟩
    · exact ⟨.comma, rfl, rfl⟩
  · rintro ⟨s, rfl, rfl⟩
    cases s <;> rfl

theorem spelled_first (h : first? text = some (lexeme, size)) : Spelled text lexeme size := by
  match text with
  | [] => cases h
  | c :: rest =>
    rw [first?] at h
    split at h
    · exact spelled_register h
    · split at h
      · next hstart =>
        obtain ⟨rfl, rfl⟩ := Prod.mk.inj (Option.some.inj h)
        refine ⟨.identifier, c :: rest.takeWhile isNamePart,
          ⟨c, _, rfl, hstart, fun _ => List.mem_takeWhile_imp⟩, ?_, rfl, rfl⟩
        simpa using List.takeWhile_prefix isNamePart
      · rcases Option.or_eq_some_iff.1 h with hnumeric | ⟨-, hsymbol⟩
        · exact spelled_numeric hnumeric
        · obtain ⟨symbol, hc, heq⟩ := Option.map_eq_some_iff.1 hsymbol
          obtain ⟨rfl, rfl⟩ := Prod.mk.inj heq
          obtain ⟨s, rfl, rfl⟩ := symbol?_eq_some_iff.1 hc
          exact ⟨.symbol s, [s.char], rfl, ⟨rest, rfl⟩, rfl, rfl⟩

/-! ## What is spelled is not longer -/

/-- A row of digits is part of the whole row of digits that stands there. -/
theorem DigitRow.exists_full (h : DigitRow digits) (rest : Text) :
    ∃ more after, rest = more ++ after ∧ DigitRow (digits ++ more) ∧ NoDigit after := by
  refine ⟨rest.takeWhile Text.isDigit, rest.dropWhile Text.isDigit,
    List.takeWhile_append_dropWhile.symm, ⟨by simp [h.1], ?_⟩, ?_⟩
  · exact List.forall_mem_append.2 ⟨h.2, fun _ => List.mem_takeWhile_imp⟩
  · intro c hc
    have hnot := List.head?_dropWhile_not Text.isDigit rest
    rwa [hc] at hnot

theorem length_le_takeFraction (h : FractionPart fraction) (rest : Text) :
    fraction.length ≤ (takeFraction (fraction ++ rest)).1.length := by
  rcases h with rfl | ⟨row, rfl, hrow⟩
  · exact Nat.zero_le _
  · obtain ⟨more, after, rfl, hfull, hafter⟩ := hrow.exists_full rest
    have htaken := hfull.takeFraction hafter
    rw [List.append_assoc] at htaken
    rw [List.cons_append, htaken]
    simp

theorem length_le_takeExponent (h : ExponentPart exponent) (rest : Text) :
    exponent.length ≤ (takeExponent (exponent ++ rest)).1.length := by
  rcases h with rfl | ⟨mark, sign, row, rfl, hmark, hsign, hrow⟩
  · exact Nat.zero_le _
  · obtain ⟨more, after, rfl, hfull, hafter⟩ := hrow.exists_full rest
    have htaken := hfull.takeExponent hmark hsign hafter
    rw [List.append_assoc] at htaken
    rw [List.cons_append, List.append_assoc, htaken]
    simp

/-- A literal that opens a text is no longer than the literal that is taken. -/
theorem exists_longer_decimal (h : DecimalLiteral piece) (rest : Text) :
    ∃ literal, takeDecimal? (piece ++ rest) = some literal ∧ piece.length ≤ literal.length := by
  obtain ⟨sign, digits, fraction, exponent, rfl, hsign, hdigits, hfraction, hexponent⟩ := h.parts
  simp only [List.append_assoc]
  -- Only the last part that there is may go on behind the piece.
  by_cases hnone : exponent = []
  · subst hnone
    rw [List.nil_append, List.append_nil]
    by_cases hwhole : fraction = []
    · subst hwhole
      obtain ⟨more, after, rfl, hfull, hafter⟩ := hdigits.exists_full rest
      have htaken := takeDecimal?_eq hsign hfull hafter
      rw [List.append_assoc] at htaken
      refine ⟨_, htaken, ?_⟩
      simp only [List.append_nil, List.length_append]
      omega
    · refine ⟨_, takeDecimal?_eq hsign hdigits
        (hfraction.noDigit fun hnil => absurd hnil hwhole), ?_⟩
      have hlonger := length_le_takeFraction hfraction rest
      simp only [List.length_append]
      omega
  · have hbehind : exponent = [] → NoDigit rest ∧ rest.head? ≠ some '.' := fun hnil =>
      absurd hnil hnone
    obtain ⟨hmark, hpoint⟩ := hexponent.noDigit hbehind
    have htaken := takeDecimal?_eq hsign hdigits (hfraction.noDigit fun _ => hmark)
    rw [hfraction.takeFraction hmark hpoint] at htaken
    refine ⟨_, htaken, ?_⟩
    have hlonger := length_le_takeExponent hexponent rest
    simp only [List.length_append]
    omega

theorem exists_longer_numeric (h : DecimalLiteral piece) (rest : Text) :
    ∃ lexeme size, numeric? (piece ++ rest) = some (lexeme, size) ∧ piece.length ≤ size := by
  obtain ⟨literal, hliteral, hle⟩ := exists_longer_decimal h rest
  by_cases hunmarked : Unmarked (piece ++ rest)
  · refine ⟨.decimal (normalDecimal literal), literal.length, ?_, hle⟩
    rw [numeric?_of_unmarked hunmarked, hliteral, Option.map_some, decimalOf]
  · obtain ⟨base, mark, tail, htext, hmark⟩ := exists_mark hunmarked
    rw [htext, Base.takeDecimal?_mark hmark, Option.some_inj] at hliteral
    rw [← hliteral, List.length_singleton] at hle
    rw [htext, Base.numeric?_mark hmark]
    by_cases hnone : tail.takeWhile base.isDigit = []
    · rw [if_pos hnone]
      exact ⟨_, 1, rfl, hle⟩
    · rw [if_neg hnone]
      exact ⟨_, _, rfl, by omega⟩

theorem exists_longer_register (ha : isLowerLetter a = true ∨ a = '@') (rest : Text) :
    ∃ lexeme size, register? ('@' :: a :: rest) = some (lexeme, size) ∧ 2 ≤ size := by
  have hsingle : (isLowerLetter a || decide (a = '@')) = true := by simpa using ha
  unfold register?
  split
  · next heq =>
    obtain rfl := (List.cons.inj (List.cons.inj heq).2).1
    rw [if_pos hsingle]
    split
    · exact ⟨_, 4, rfl, by decide⟩
    · exact ⟨_, 2, rfl, by decide⟩
  · next heq =>
    obtain rfl := (List.cons.inj (List.cons.inj heq).2).1
    exact ⟨_, 2, if_pos hsingle, by decide⟩
  · next hne => exact absurd rfl (hne a rest)

theorem symbol_start (s : Symbol) : s.char ≠ '@' ∧ isNameStart s.char = false := by
  cases s <;> decide

theorem ne_of_isNameStart (h : isNameStart c = true) : c ≠ '@' := by
  rintro rfl
  exact absurd h (by decide)

/-- A piece of any kind that opens a text is no longer than what is read there. -/
theorem exists_longer (h : kind.Spells piece) (rest : Text) :
    ∃ lexeme size, first? (piece ++ rest) = some (lexeme, size) ∧ piece.length ≤ size := by
  cases kind with
  | decimal =>
    obtain ⟨lexeme, size, hnumeric, hle⟩ := exists_longer_numeric h rest
    obtain ⟨c, tail, rfl, hat, hname, -⟩ := DecimalLiteral.head h
    exact ⟨lexeme, size, first?_of_numeric? hat hname hnumeric, hle⟩
  | based base =>
    obtain ⟨mark, row, rfl, hmark, hne, hrow⟩ := h
    have htaken : (row ++ rest).takeWhile base.isDigit = row ++ rest.takeWhile base.isDigit :=
      List.takeWhile_append_of_pos hrow
    have hnumeric := Base.numeric?_mark hmark (row ++ rest)
    rw [htaken, if_neg (by simp [hne])] at hnumeric
    exact ⟨_, _, first?_of_numeric? (by decide) (by decide) hnumeric, by simp⟩
  | register =>
    obtain ⟨a, rfl, ha⟩ := h
    exact exists_longer_register ha rest
  | registerRange =>
    obtain ⟨a, b, rfl, ha, hb⟩ := h
    refine ⟨.registerRange ['@', a, '_', b], 4, ?_, by simp⟩
    exact if_pos (by simp [ha, hb])
  | identifier =>
    obtain ⟨c, row, rfl, hstart, hrow⟩ := h
    have htaken : (row ++ rest).takeWhile isNamePart = row ++ rest.takeWhile isNamePart :=
      List.takeWhile_append_of_pos hrow
    rw [List.cons_append, first?, if_neg (ne_of_isNameStart hstart), if_pos hstart, htaken]
    exact ⟨_, _, rfl, by simp⟩
  | symbol s =>
    obtain rfl : piece = [s.char] := h
    obtain ⟨hat, hname⟩ := symbol_start s
    cases hnumeric : numeric? (s.char :: rest) with
    | some found =>
      exact ⟨found.1, found.2, first?_of_numeric? hat hname hnumeric, (fits_numeric hnumeric).pos⟩
    | none =>
      refine ⟨s.lexeme, 1, ?_, le_rfl⟩
      rw [List.singleton_append, first?, if_neg hat, hname, if_neg Bool.false_ne_true, hnumeric,
        Option.none_or, symbol?_eq_some_iff.2 ⟨s, rfl, rfl⟩, Option.map_some]

/-! ## One kind -/

/-- A text of a kind is its own longest piece. -/
theorem first?_of_spells (h : kind.Spells piece) :
    first? piece = some (kind.lexeme piece, piece.length) := by
  cases kind with
  | decimal =>
    rw [← decimalOf_eq]
    exact DecimalLiteral.first? h
  | based base =>
    obtain ⟨mark, row, rfl, hmark, hrow⟩ := h
    have hfirst := Base.first?_literal [] hmark hrow nofun
    rw [List.append_nil] at hfirst
    exact hfirst
  | register =>
    obtain ⟨a, rfl, ha⟩ := h
    exact if_pos (by simpa using ha)
  | registerRange =>
    obtain ⟨a, b, rfl, ha, hb⟩ := h
    exact if_pos (by simp [ha, hb])
  | identifier =>
    obtain ⟨c, row, rfl, hstart, hrow⟩ := h
    rw [first?, if_neg (ne_of_isNameStart hstart), if_pos hstart,
      List.takeWhile_eq_self_iff.2 hrow]
    rfl
  | symbol s =>
    obtain rfl : piece = [s.char] := h
    cases s <;> rfl

theorem kind_unique {kind' : Kind} (h : kind.Spells piece) (h' : kind'.Spells piece) :
    kind = kind' := by
  have hsame := (first?_of_spells h).symm.trans (first?_of_spells h')
  have hlexeme := (Prod.mk.inj (Option.some.inj hsame)).1
  rw [← kind.kind_lexeme piece, hlexeme, kind'.kind_lexeme]

/-! ## Sizes in bytes -/

theorem toNat_of_isDigit (h : Text.isDigit c = true) : c.toNat < 128 :=
  toNat_of_isNamePart (by rw [isNamePart, h, Bool.or_true])

theorem toNat_of_isNameStart (h : isNameStart c = true) : c.toNat < 128 :=
  toNat_of_isNamePart (by rw [isNamePart, h, Bool.true_or])

theorem toNat_of_isLowerLetter (h : isLowerLetter c = true) : c.toNat < 128 :=
  toNat_of_isNameStart (by rw [isNameStart, h, Bool.true_or, Bool.true_or])

theorem toNat_of_inDecimal (h : InDecimal c) : c.toNat < 128 := by
  have hothers : ∀ d ∈ ['-', '+', '.', 'e', 'E'], d.toNat < 128 := by simp
  exact h.elim toNat_of_isDigit (hothers c)

theorem toNat_of_baseDigit {base : Base} (h : base.isDigit c = true) : c.toNat < 128 := by
  have hall : ∀ d ∈ "0123456789abcdefABCDEF".toList, d.toNat < 128 := by simp
  exact hall c (Base.mem_of_isHexDigit (Base.isHexDigit_of_isDigit h))

/-- All characters of lexemes are of one byte. -/
theorem byteSize_of_spells (h : kind.Spells piece) : Text.byteSize piece = piece.length := by
  have hat : '@'.toNat < 128 := by decide
  refine byteSize_of_toNat_lt ?_
  cases kind with
  | decimal => exact fun c hc => toNat_of_inDecimal (DecimalLiteral.inDecimal h c hc)
  | based base =>
    obtain ⟨mark, row, rfl, hmark, -, hrow⟩ := h
    have hlow : mark.toNat < 128 := by
      cases base <;> rcases hmark with rfl | rfl <;> decide
    exact List.forall_mem_cons.2 ⟨by decide, List.forall_mem_cons.2
      ⟨hlow, fun c hc => toNat_of_baseDigit (hrow c hc)⟩⟩
  | register =>
    obtain ⟨a, rfl, ha⟩ := h
    have hlow : a.toNat < 128 := ha.elim toNat_of_isLowerLetter fun heq => heq ▸ hat
    simp [hlow]
  | registerRange =>
    obtain ⟨a, b, rfl, ha, hb⟩ := h
    simp [toNat_of_isLowerLetter ha, toNat_of_isLowerLetter hb]
  | identifier =>
    obtain ⟨c, row, rfl, hstart, hrow⟩ := h
    exact List.forall_mem_cons.2
      ⟨toNat_of_isNameStart hstart, fun d hd => toNat_of_isNamePart (hrow d hd)⟩
  | symbol s =>
    obtain rfl : piece = [s.char] := h
    cases s <;> simp [Symbol.char]

theorem decimalOf_literal (h : DecimalLiteral piece) :
    decimalOf piece = (Kind.decimal.lexeme piece, Text.byteSize piece) := by
  have hspells : Kind.decimal.Spells piece := h
  rw [decimalOf_eq, byteSize_of_spells hspells]

end Lexeme
end DeskCalc
