import DeskCalc.Proofs.Reading.Spelling

/-
The longest match.

The lexeme at the start of a text is the one of the longest piece that opens it, over all kinds.
A piece may stop in the middle of what looks like a longer one: an exponent, a fraction, the mark
of a base or the end of a range without the characters that it needs is left out.
-/
namespace DeskCalc
namespace Lexeme

variable {text piece rest : Text} {lexeme : Lexeme} {size : ℕ} {kind : Kind} {a c : Char}

/-! ## Parts that are not complete -/

/-- No opening of the text is matched. -/
def Unmatched (expression : RegularExpression Char) (text : Text) : Prop :=
  ∀ piece, piece <+: text → piece ∉ expression.matches'

instance (expression : RegularExpression Char) (text : Text) :
    Decidable (Unmatched expression text) :=
  decidable_of_iff (∀ piece ∈ text.inits, piece ∉ expression.matches') (by
    simp only [Unmatched, List.mem_inits])

theorem not_mem_of_unmatched_row {chars : Text} (h : Unmatched (Kind.row chars) rest)
    (hc : rest.head? = some c) : c ∉ chars := by
  obtain ⟨tail, rfl⟩ := List.head?_eq_some_iff.1 hc
  intro hmem
  exact h [c] ⟨tail, rfl⟩ (Kind.mem_row.2 ⟨List.cons_ne_nil _ _, by simpa using hmem⟩)

theorem noDigit_of_unmatched (h : Unmatched (Kind.row Kind.digits) rest) : NoDigit rest :=
  fun _ hc => Bool.eq_false_iff.2 fun hdigit =>
    not_mem_of_unmatched_row h hc (Kind.mem_digits.2 hdigit)

/-- Behind a sign, if there is one, stands no digit. -/
theorem noDigit_takeSign (h : Unmatched (Kind.sign * Kind.row Kind.digits) rest) :
    NoDigit (takeSign rest).2 := by
  refine noDigit_of_unmatched fun row hrow hmem => h ((takeSign rest).1 ++ row) ?_ ?_
  · conv_rhs => rw [← takeSign_append rest]
    exact (List.prefix_append_right_inj _).2 hrow
  · exact Language.mem_mul.2 ⟨_, Kind.mem_sign.2 (signPart_takeSign rest), row, hmem, rfl⟩

theorem takeDigits_of_noDigit (h : NoDigit rest) : takeDigits rest = ([], rest) := by
  rw [takeDigits, List.span_eq_takeWhile_dropWhile]
  cases rest with
  | nil => rfl
  | cons c rest => simp [h c rfl]

theorem takeFraction_of_noDigit (h : NoDigit rest) :
    takeFraction ('.' :: rest) = ([], '.' :: rest) := by
  rw [takeFraction, takeDigits_of_noDigit h]

theorem takeExponent_of_noDigit {mark : Char} (h : NoDigit (takeSign rest).2) :
    takeExponent (mark :: rest) = ([], mark :: rest) := by
  rw [takeExponent]
  split
  · dsimp only
    rw [takeDigits_of_noDigit h]
  · rfl

theorem unmarked_zero_cons (hc : c ∈ ['.', 'e', 'E']) : Unmarked ('0' :: c :: rest) := by
  intro mark tail htext
  obtain rfl : c = mark := (List.cons.inj (List.cons.inj htext).2).1
  have hothers : ∀ d ∈ ['.', 'e', 'E'], d ≠ 'x' ∧ d ≠ 'X' ∧ d ≠ 'o' ∧ d ≠ 'O' := by simp
  exact hothers c hc

/-- Without an integer behind the mark an exponent is left out. -/
theorem first?_dangling_exponent {mark : Char}
    (h : piece ∈ (Kind.sign * (Kind.row Kind.digits * Kind.fraction)).matches')
    (hmark : mark ∈ ['e', 'E']) (hrest : Unmatched (Kind.sign * Kind.row Kind.digits) rest) :
    first? (piece ++ mark :: rest) = some (Kind.decimal.lexeme piece, Text.byteSize piece) := by
  obtain ⟨sign, hsign, _, ⟨digits, hdigits, fraction, hfraction, rfl⟩, rfl⟩ := h
  replace hsign := Kind.mem_sign.1 hsign
  replace hdigits := Kind.mem_digitRow.1 hdigits
  replace hfraction := Kind.mem_fraction.1 hfraction
  have hothers : ∀ d ∈ ['e', 'E'], Text.isDigit d = false ∧ d ≠ '.' ∧ d ∈ ['.', 'e', 'E'] := by
    simp [Text.isDigit]
  obtain ⟨hdigit, hpoint, hlist⟩ := hothers mark hmark
  have hbehind : NoDigit (mark :: rest) := by simpa [NoDigit] using hdigit
  have htaken := takeDecimal?_eq hsign hdigits (hfraction.noDigit fun _ => hbehind)
  rw [hfraction.takeFraction hbehind (by simpa using hpoint),
    takeExponent_of_noDigit (noDigit_takeSign hrest), List.append_nil] at htaken
  have hliteral : DecimalLiteral (sign ++ (digits ++ fraction)) :=
    ⟨sign, digits, fraction, [], by rw [List.append_nil], hsign, hdigits, hfraction, .inl rfl⟩
  rw [← decimalOf_literal hliteral]
  refine hliteral.first?_append ?_ (hliteral.unmarked_append (unmarked_zero_cons hlist))
  rwa [List.append_assoc, List.append_assoc]

/-- Without a digit behind the point a fraction is left out. -/
theorem first?_dangling_fraction
    (h : piece ∈ (Kind.sign * Kind.row Kind.digits).matches')
    (hrest : Unmatched (Kind.row Kind.digits) rest) :
    first? (piece ++ '.' :: rest) = some (Kind.decimal.lexeme piece, Text.byteSize piece) := by
  obtain ⟨sign, hsign, digits, hdigits, rfl⟩ := h
  replace hsign := Kind.mem_sign.1 hsign
  replace hdigits := Kind.mem_digitRow.1 hdigits
  have hbehind : NoDigit ('.' :: rest) := by
    simp [NoDigit]
    decide
  have htaken := takeDecimal?_eq hsign hdigits hbehind
  rw [takeFraction_of_noDigit (noDigit_of_unmatched hrest)] at htaken
  have hliteral : DecimalLiteral (sign ++ digits) :=
    ⟨sign, digits, [], [], by rw [List.append_nil, List.append_nil], hsign, hdigits, .inl rfl,
      .inl rfl⟩
  rw [← decimalOf_literal hliteral]
  refine hliteral.first?_append ?_ (hliteral.unmarked_append (unmarked_zero_cons (by simp)))
  rw [List.append_assoc, htaken]
  simp [takeExponent]

/-- Without a digit behind the mark of a base only the zero is left. -/
theorem first?_dangling_mark {base : Base} {mark : Char} (hmark : base.IsMark mark)
    (hrest : Unmatched (Kind.row (Kind.baseDigits base)) rest) :
    first? ('0' :: mark :: rest) = some (.decimal ['0'], 1) := by
  have hnone : rest.takeWhile base.isDigit = [] := by
    cases rest with
    | nil => rfl
    | cons c tail =>
      have hc := mt Kind.mem_baseDigits.2 (not_mem_of_unmatched_row hrest rfl)
      exact List.takeWhile_cons_of_neg hc
  refine first?_of_numeric? (by decide) (by decide) ?_
  rw [Base.numeric?_mark hmark, if_pos hnone]
  rfl

/-- Without a letter behind the low line only the register is left. -/
theorem first?_dangling_range (ha : isLowerLetter a = true)
    (hrest : Unmatched (Kind.oneOf Kind.letters) rest) :
    first? ('@' :: a :: '_' :: rest) = some (.register ['@', a], 2) := by
  have hsingle : (isLowerLetter a || decide (a = '@')) = true := by simp [ha]
  cases rest with
  | nil => exact if_pos hsingle
  | cons b tail =>
    have hb : isLowerLetter b = false := by
      rw [Bool.eq_false_iff]
      intro hletter
      exact hrest [b] ⟨tail, rfl⟩ (Kind.mem_oneOf.2 ⟨b, Kind.mem_letters.2 hletter, rfl⟩)
    show (if (isLowerLetter a && isLowerLetter b) = true then _ else _) = _
    rw [hb, Bool.and_false, if_neg Bool.false_ne_true]
    exact if_pos hsingle

/-! ## The longest piece -/

/-- A piece of the kind opens the text, and no piece of any kind that opens it is longer. -/
structure Longest (text : Text) (kind : Kind) (piece : Text) : Prop where
  opens : piece <+: text
  matched : piece ∈ kind.expression.matches'
  greatest : ∀ (kind' : Kind) (piece' : Text), piece' <+: text →
    piece' ∈ kind'.expression.matches' → Text.byteSize piece' ≤ Text.byteSize piece

/-- A piece that opens a text is no longer than what is read there. -/
theorem length_le_of_first? {found : Lexeme} (hfirst : first? text = some (found, size))
    (h : kind.Spells piece) (hopens : piece <+: text) : piece.length ≤ size := by
  obtain ⟨rest, rfl⟩ := hopens
  obtain ⟨lexeme, longer, hlonger, hle⟩ := exists_longer h rest
  rw [hfirst] at hlonger
  obtain ⟨-, rfl⟩ := Prod.mk.inj (Option.some.inj hlonger)
  exact hle

theorem longest_of_first? (h : first? text = some (lexeme, size)) :
    ∃ kind piece, Longest text kind piece ∧ lexeme = kind.lexeme piece ∧
      size = Text.byteSize piece := by
  obtain ⟨kind, piece, hspells, hopens, rfl, rfl⟩ := spelled_first h
  refine ⟨kind, piece, ⟨hopens, Kind.mem_expression.2 hspells, ?_⟩, rfl,
    (byteSize_of_spells hspells).symm⟩
  intro kind' piece' hopens' hmatched
  have hspells' := Kind.mem_expression.1 hmatched
  rw [byteSize_of_spells hspells, byteSize_of_spells hspells']
  exact length_le_of_first? h hspells' hopens'

/-- The longest piece is read: what is read is as long, so it is the same piece, and it is of one
kind only. -/
theorem Longest.first? (h : Longest text kind piece) :
    Lexeme.first? text = some (kind.lexeme piece, Text.byteSize piece) := by
  have hspells := Kind.mem_expression.1 h.matched
  obtain ⟨rest, hrest⟩ := h.opens
  obtain ⟨lexeme, size, hfirst, hle⟩ := exists_longer hspells rest
  rw [hrest] at hfirst
  obtain ⟨kind', piece', hlongest, rfl, rfl⟩ := longest_of_first? hfirst
  have hspells' := Kind.mem_expression.1 hlongest.matched
  have hsize : piece.length = piece'.length := by
    have hgreatest := h.greatest kind' piece' hlongest.opens hlongest.matched
    rw [byteSize_of_spells hspells, byteSize_of_spells hspells'] at hgreatest
    rw [byteSize_of_spells hspells'] at hle
    exact le_antisymm hle hgreatest
  obtain rfl : piece = piece' :=
    (List.prefix_of_prefix_length_le h.opens hlongest.opens hsize.le).eq_of_length hsize
  rw [hfirst, kind_unique hspells hspells']

theorem ne_nil_of_spells (h : kind.Spells piece) : piece ≠ [] := by
  have hpos := (fits_first (first?_of_spells h)).pos
  exact List.length_pos_iff.1 hpos

theorem first?_eq_none_iff : first? text = none ↔ ∀ (kind : Kind) (piece : Text),
    piece <+: text → piece ≠ [] → piece ∉ kind.expression.matches' := by
  constructor
  · intro hnone kind piece ⟨rest, hrest⟩ _ hmatched
    obtain ⟨lexeme, size, hfirst, -⟩ := exists_longer (Kind.mem_expression.1 hmatched) rest
    rw [hrest, hnone] at hfirst
    cases hfirst
  · intro hno
    rw [Option.eq_none_iff_forall_ne_some]
    rintro ⟨lexeme, size⟩ hfirst
    obtain ⟨kind, piece, hspells, hopens, -⟩ := spelled_first hfirst
    exact hno kind piece hopens (ne_nil_of_spells hspells) (Kind.mem_expression.2 hspells)

/-- The longest piece that opens a text decides the lexeme, its kind and its size.  A part of a
piece that is not complete is left out: an exponent, a fraction, the mark of a base, the end of a
range. -/
theorem first_lexeme_is_longest :
    (∀ (text : Text) (lexeme : Lexeme) (size : ℕ), first? text = some (lexeme, size) ↔
      ∃ kind piece, Longest text kind piece ∧ lexeme = kind.lexeme piece ∧
        size = Text.byteSize piece) ∧
    (∀ text : Text, first? text = none ↔ ∀ (kind : Kind) (piece : Text),
      piece <+: text → piece ≠ [] → piece ∉ kind.expression.matches') ∧
    (∀ (kind kind' : Kind) (piece : Text), piece ∈ kind.expression.matches' →
      piece ∈ kind'.expression.matches' → kind = kind') ∧
    (∀ (piece : Text) (mark : Char) (rest : Text),
      piece ∈ (Kind.sign * (Kind.row Kind.digits * Kind.fraction)).matches' →
      mark ∈ ['e', 'E'] → Unmatched (Kind.sign * Kind.row Kind.digits) rest →
      first? (piece ++ mark :: rest) = some (Kind.decimal.lexeme piece, Text.byteSize piece)) ∧
    (∀ piece rest : Text, piece ∈ (Kind.sign * Kind.row Kind.digits).matches' →
      Unmatched (Kind.row Kind.digits) rest →
      first? (piece ++ '.' :: rest) = some (Kind.decimal.lexeme piece, Text.byteSize piece)) ∧
    (∀ (base : Base) (mark : Char) (rest : Text), mark ∈ [base.mark, base.mark.toUpper] →
      Unmatched (Kind.row (Kind.baseDigits base)) rest →
      first? ('0' :: mark :: rest) = some (.decimal ['0'], 1)) ∧
    ∀ (a : Char) (rest : Text), a ∈ Kind.letters → Unmatched (Kind.oneOf Kind.letters) rest →
      first? ('@' :: a :: '_' :: rest) = some (.register ['@', a], 2) := by
  refine ⟨fun text lexeme size => ⟨longest_of_first?, ?_⟩, fun _ => first?_eq_none_iff,
    fun kind kind' piece h h' => kind_unique (Kind.mem_expression.1 h) (Kind.mem_expression.1 h'),
    fun piece mark rest hpiece hmark hrest => first?_dangling_exponent hpiece hmark hrest,
    fun piece rest hpiece hrest => first?_dangling_fraction hpiece hrest,
    fun base mark rest hmark hrest =>
      first?_dangling_mark (by simpa [Base.IsMark] using hmark) hrest,
    fun a rest ha hrest => first?_dangling_range (Kind.mem_letters.1 ha) hrest⟩
  rintro ⟨kind, piece, hlongest, rfl, rfl⟩
  exact hlongest.first?

/-- Of `0x1f` the longest piece is the whole literal.  Each of the other texts stops in the middle
of a part. -/
theorem first_lexeme_is_longest_in_part :
    (∃ kind piece, Longest "0x1f + 1".toList kind piece ∧ .hex "31".toList = kind.lexeme piece ∧
      4 = Text.byteSize piece) ∧
    (∀ (kind : Kind) (piece : Text), piece <+: "#1".toList → piece ≠ [] →
      piece ∉ kind.expression.matches') ∧
    first? "-1.5e+x".toList = some (.decimal "-1.5".toList, 4) ∧
    first? "+1.e5".toList = some (.decimal "1".toList, 2) ∧
    first? "0Xg".toList = some (.decimal "0".toList, 1) ∧
    first? "@a_1".toList = some (.register "@a".toList, 2) := by
  obtain ⟨hlongest, hnone, -, hexponent, hfraction, hmark, hrange⟩ := first_lexeme_is_longest
  exact ⟨(hlongest _ _ _).1 (by decide), (hnone _).1 (by decide),
    hexponent "-1.5".toList 'e' "+x".toList (by decide +kernel) (by decide) (by decide +kernel),
    hfraction "+1".toList "e5".toList (by decide +kernel) (by decide +kernel),
    hmark .hex 'X' "g".toList (by decide) (by decide +kernel),
    hrange 'a' "1".toList (by decide) (by decide +kernel)⟩

end Lexeme
end DeskCalc
