import DeskCalc.Proofs.Reading.Derivation

/-
How far a token looks ahead.

A token is a longest lexeme, so it depends on what stands behind it, but only on the
first character there.  `Numeral.change_after` and `BuiltinName.change_after` say that a
token stays what it is in front of any other text that is detached from it.
-/
namespace DeskCalc
namespace Lexeme

/-- No lexeme goes on into this text. -/
def Detached (after : Text) : Prop :=
  atWordBoundary after = true ∧ after.head? ≠ some '.'

theorem detached_nil : Detached [] := ⟨rfl, by simp⟩

/-! ## Characters of words -/

/-- Letters, digits and the low line. -/
def InWord (c : Char) : Prop := Text.isAlphanumeric c = true ∨ c = '_'

theorem Detached.head {after : Text} (h : Detached after) {c : Char}
    (hc : after.head? = some c) : ¬ InWord c ∧ c ≠ '.' := by
  obtain ⟨rest, rfl⟩ := List.head?_eq_some_iff.1 hc
  simpa [Detached, atWordBoundary, InWord] using h

theorem inWord_of_range {c : Char}
    (h : (48 ≤ c.toNat ∧ c.toNat ≤ 57) ∨ (65 ≤ c.toNat ∧ c.toNat ≤ 90) ∨
      (97 ≤ c.toNat ∧ c.toNat ≤ 122)) : InWord c := by
  left
  exact Text.isAlphanumeric_of_isAlphanum (Text.isAlphanum_iff.2 (by omega))

theorem between_iff {low high c : Char} :
    (low ≤ c && c ≤ high) = true ↔ low.toNat ≤ c.toNat ∧ c.toNat ≤ high.toNat := by
  rw [Bool.and_eq_true, decide_eq_true_eq, decide_eq_true_eq]
  exact Iff.rfl

theorem inWord_of_isDigit {c : Char} (h : Text.isDigit c = true) : InWord c :=
  inWord_of_range (Or.inl (between_iff.1 h))

theorem inWord_of_isOctalDigit {c : Char} (h : Text.isOctalDigit c = true) : InWord c := by
  have hrange := between_iff.1 h
  have hseven : '7'.toNat = 55 := rfl
  have hzero : '0'.toNat = 48 := rfl
  exact inWord_of_range (by omega)

theorem inWord_of_isHexDigit {c : Char} (h : Text.isHexDigit c = true) : InWord c := by
  rw [Text.isHexDigit, Bool.or_eq_true, Bool.or_eq_true] at h
  rcases h with (hdigit | hlower) | hupper
  · exact inWord_of_isDigit hdigit
  · have hrange := between_iff.1 hlower
    have ha : 'a'.toNat = 97 := rfl
    have hf : 'f'.toNat = 102 := rfl
    exact inWord_of_range (by omega)
  · have hrange := between_iff.1 hupper
    have ha : 'A'.toNat = 65 := rfl
    have hf : 'F'.toNat = 70 := rfl
    exact inWord_of_range (by omega)

theorem inWord_of_isNamePart {c : Char} (h : isNamePart c = true) : InWord c := by
  rw [isNamePart, isNameStart, Bool.or_eq_true, Bool.or_eq_true, Bool.or_eq_true] at h
  rcases h with ((hlower | hupper) | hline) | hdigit
  · exact inWord_of_range (Or.inr (Or.inr (between_iff.1 hlower)))
  · exact inWord_of_range (Or.inr (Or.inl (between_iff.1 hupper)))
  · exact Or.inr (beq_iff_eq.1 hline)
  · exact inWord_of_isDigit hdigit

theorem toNat_of_isNamePart {c : Char} (h : isNamePart c = true) : c.toNat < 128 := by
  rw [isNamePart, isNameStart, Bool.or_eq_true, Bool.or_eq_true, Bool.or_eq_true] at h
  rcases h with ((hlower | hupper) | hline) | hdigit
  · exact Nat.lt_of_le_of_lt (between_iff.1 hlower).2 (by decide)
  · exact Nat.lt_of_le_of_lt (between_iff.1 hupper).2 (by decide)
  · rw [beq_iff_eq.1 hline]
    decide
  · exact Nat.lt_of_le_of_lt (between_iff.1 hdigit).2 (by decide)

/-- A text of characters of one byte is as long in bytes as in characters. -/
theorem byteSize_of_toNat_lt {text : Text} (h : ∀ c ∈ text, c.toNat < 128) :
    Text.byteSize text = text.length := by
  induction text with
  | nil => rfl
  | cons c text ih =>
    obtain ⟨hc, htext⟩ := List.forall_mem_cons.1 h
    have hone : c.utf8Size = 1 :=
      Char.utf8Size_eq_one_iff.2 (UInt32.le_iff_toNat_le.2 (Nat.le_of_lt_succ hc))
    rw [Text.byteSize, hone, ih htext, List.length_cons, Nat.add_comm]

/-- A row of characters ends where a text begins that does not go on with it. -/
theorem takeWhile_row {isPart : Char → Bool} {row after : Text}
    (hrow : ∀ c ∈ row, isPart c = true)
    (hafter : ∀ c, after.head? = some c → isPart c = false) :
    (row ++ after).takeWhile isPart = row := by
  rw [List.takeWhile_append_of_pos hrow]
  match after with
  | [] => rw [List.takeWhile_nil, List.append_nil]
  | c :: rest =>
    have hc : ¬ isPart c = true := by rw [hafter c rfl]; exact Bool.false_ne_true
    rw [List.takeWhile_cons_of_neg hc, List.append_nil]

theorem Detached.head_false {after : Text} (h : Detached after) {isPart : Char → Bool}
    (hword : ∀ c, isPart c = true → InWord c) {c : Char} (hc : after.head? = some c) :
    isPart c = false := by
  by_contra hpart
  exact (h.head hc).1 (hword c (Bool.not_eq_false _ ▸ hpart))

/-! ## Decimal literals -/

def SignPart (sign : Text) : Prop := sign = [] ∨ sign = ['-'] ∨ sign = ['+']

def DigitRow (digits : Text) : Prop := digits ≠ [] ∧ ∀ c ∈ digits, Text.isDigit c = true

theorem digitRow_zero : DigitRow ['0'] :=
  ⟨List.cons_ne_nil _ _, List.forall_mem_singleton.2 (by decide)⟩

def FractionPart (fraction : Text) : Prop :=
  fraction = [] ∨ ∃ digits, fraction = '.' :: digits ∧ DigitRow digits

def ExponentPart (exponent : Text) : Prop :=
  exponent = [] ∨ ∃ mark sign digits, exponent = mark :: (sign ++ digits) ∧
    (mark = 'e' ∨ mark = 'E') ∧ SignPart sign ∧ DigitRow digits

/-- A decimal literal and its parts. -/
structure DecimalLiteral (literal : Text) : Prop where
  parts : ∃ sign digits fraction exponent, literal = sign ++ (digits ++ (fraction ++ exponent)) ∧
    SignPart sign ∧ DigitRow digits ∧ FractionPart fraction ∧ ExponentPart exponent

theorem signPart_takeSign (text : Text) : SignPart (takeSign text).1 := by
  unfold takeSign SignPart
  split <;> simp

theorem isDigit_of_mem_takeDigits {text digits rest : Text} (h : takeDigits text = (digits, rest)) :
    ∀ c ∈ digits, Text.isDigit c = true := by
  rw [takeDigits, List.span_eq_takeWhile_dropWhile] at h
  obtain ⟨rfl, -⟩ := Prod.mk.inj h
  exact fun c hc => List.mem_takeWhile_imp hc

theorem fractionPart_takeFraction (text : Text) : FractionPart (takeFraction text).1 := by
  unfold takeFraction
  split
  · next rest =>
    split
    · exact Or.inl rfl
    · next digits after hne heq =>
      refine Or.inr ⟨digits, rfl, fun hnil => hne hnil, isDigit_of_mem_takeDigits heq⟩
  · exact Or.inl rfl

theorem exponentPart_takeExponent (text : Text) : ExponentPart (takeExponent text).1 := by
  unfold takeExponent
  split
  · exact Or.inl rfl
  · next c rest =>
    split
    · next hmark =>
      dsimp only
      split
      · exact Or.inl rfl
      · next digits after hne heq =>
        refine Or.inr ⟨c, _, digits, rfl, by simpa using hmark, signPart_takeSign rest,
          fun hnil => hne hnil, isDigit_of_mem_takeDigits heq⟩
    · exact Or.inl rfl

theorem decimalLiteral_of_takeDecimal? {text literal : Text}
    (h : takeDecimal? text = some literal) : DecimalLiteral literal := by
  unfold takeDecimal? at h
  dsimp only at h
  split at h
  · cases h
  · next digits rest hne heq =>
    obtain rfl := Option.some.inj h
    refine ⟨_, digits, _, _, by rw [List.append_assoc, List.append_assoc],
      signPart_takeSign text, ⟨fun hnil => hne hnil, isDigit_of_mem_takeDigits heq⟩,
      fractionPart_takeFraction rest, exponentPart_takeExponent _⟩

/-- A text that a row of digits does not go into. -/
def NoDigit (after : Text) : Prop := ∀ c, after.head? = some c → Text.isDigit c = false

theorem Detached.noDigit {after : Text} (h : Detached after) : NoDigit after :=
  fun _ => h.head_false fun _ => inWord_of_isDigit

theorem DigitRow.takeDigits {digits after : Text} (h : DigitRow digits) (hafter : NoDigit after) :
    takeDigits (digits ++ after) = (digits, after) := by
  have htaken := takeWhile_row h.2 hafter
  have hsplit := List.takeWhile_append_dropWhile (p := Text.isDigit) (l := digits ++ after)
  rw [htaken] at hsplit
  rw [Lexeme.takeDigits, List.span_eq_takeWhile_dropWhile, htaken, List.append_cancel_left hsplit]

theorem SignPart.takeSign {sign digits rest : Text} (h : SignPart sign)
    (hdigits : DigitRow digits) :
    takeSign (sign ++ (digits ++ rest)) = (sign, digits ++ rest) := by
  rcases h with rfl | rfl | rfl
  · match digits, hdigits with
    | c :: digits, hrow =>
      have hc := hrow.2 c List.mem_cons_self
      have hminus : c ≠ '-' := by rintro rfl; exact absurd hc (by decide)
      have hplus : c ≠ '+' := by rintro rfl; exact absurd hc (by decide)
      simp [Lexeme.takeSign, hminus, hplus]
    | [], hrow => exact absurd rfl hrow.1
  · rfl
  · rfl

/-- A point with a row of digits behind it is a fraction. -/
theorem DigitRow.takeFraction {digits after : Text} (h : DigitRow digits)
    (hafter : NoDigit after) :
    takeFraction ('.' :: (digits ++ after)) = ('.' :: digits, after) := by
  match digits, h with
  | c :: digits, hrow =>
    have hdigits := hrow.takeDigits hafter
    rw [List.cons_append] at hdigits
    simp only [List.cons_append, Lexeme.takeFraction, hdigits]
  | [], hrow => exact absurd rfl hrow.1

theorem FractionPart.takeFraction {fraction after : Text} (h : FractionPart fraction)
    (hafter : NoDigit after) (hpoint : after.head? ≠ some '.') :
    takeFraction (fraction ++ after) = (fraction, after) := by
  rcases h with rfl | ⟨digits, rfl, hdigits⟩
  · unfold Lexeme.takeFraction
    split
    · next rest heq => exact absurd (by rw [← List.nil_append after, heq]; rfl) hpoint
    · rfl
  · exact hdigits.takeFraction hafter

/-- An exponent mark with an integer behind it is an exponent. -/
theorem DigitRow.takeExponent {mark : Char} {sign digits after : Text} (h : DigitRow digits)
    (hmark : mark = 'e' ∨ mark = 'E') (hsign : SignPart sign) (hafter : NoDigit after) :
    takeExponent (mark :: (sign ++ (digits ++ after))) = (mark :: (sign ++ digits), after) := by
  have hrow := h.takeDigits hafter
  have htaken := @SignPart.takeSign _ _ after hsign h
  have hexponent : (decide (mark = 'e') || decide (mark = 'E')) = true := by simpa using hmark
  match digits, h with
  | c :: digits, _ =>
    rw [List.cons_append] at hrow htaken
    simp only [List.cons_append, Lexeme.takeExponent, if_pos hexponent, htaken, hrow]
  | [], h => exact absurd rfl h.1

theorem ExponentPart.takeExponent {exponent after : Text} (h : ExponentPart exponent)
    (hafter : Detached after) : takeExponent (exponent ++ after) = (exponent, after) := by
  rcases h with rfl | ⟨mark, sign, digits, rfl, hmark, hsign, hdigits⟩
  · match after with
    | [] => rfl
    | c :: rest =>
      have hc : ¬ (c = 'e' ∨ c = 'E') := by
        rintro (rfl | rfl) <;> exact (hafter.head rfl).1 (inWord_of_range (by decide))
      rw [List.nil_append, Lexeme.takeExponent, if_neg (by simpa using hc)]
  · rw [List.cons_append, List.append_assoc]
    exact hdigits.takeExponent hmark hsign hafter.noDigit

/-- A sign and all the digits behind it are taken, then what is found of the other parts. -/
theorem takeDecimal?_eq {sign digits rest : Text} (hsign : SignPart sign)
    (hdigits : DigitRow digits) (hrest : NoDigit rest) : takeDecimal? (sign ++ (digits ++ rest)) =
      some (sign ++ (digits ++ ((takeFraction rest).1 ++
        (takeExponent (takeFraction rest).2).1))) := by
  have hrow := hdigits.takeDigits hrest
  have htaken := @SignPart.takeSign _ _ rest hsign hdigits
  match digits, hdigits with
  | c :: digits, _ =>
    rw [List.cons_append] at hrow htaken
    simp only [List.append_assoc, List.cons_append, Lexeme.takeDecimal?, htaken, hrow]
  | [], hdigits => exact absurd rfl hdigits.1

/-- An exponent keeps digits and a point away from what is before it. -/
theorem ExponentPart.noDigit {exponent after : Text} (h : ExponentPart exponent)
    (hafter : exponent = [] → NoDigit after ∧ after.head? ≠ some '.') :
    NoDigit (exponent ++ after) ∧ (exponent ++ after).head? ≠ some '.' := by
  rcases h with rfl | ⟨mark, _, _, rfl, hmark, -, -⟩
  · exact hafter rfl
  · rcases hmark with rfl | rfl <;> simp [NoDigit] <;> decide

/-- A fraction keeps digits away from what is before it. -/
theorem FractionPart.noDigit {fraction after : Text} (h : FractionPart fraction)
    (hafter : fraction = [] → NoDigit after) : NoDigit (fraction ++ after) := by
  rcases h with rfl | ⟨row, rfl, -⟩
  · exact hafter rfl
  · simp [NoDigit]
    decide

/-- A decimal literal is cut off in front of a detached text. -/
theorem DecimalLiteral.takeDecimal? {literal after : Text} (h : DecimalLiteral literal)
    (hafter : Detached after) : takeDecimal? (literal ++ after) = some literal := by
  obtain ⟨sign, digits, fraction, exponent, rfl, hsign, hdigits, hfraction, hexponent⟩ := h.parts
  obtain ⟨hbehind, hpoint⟩ := hexponent.noDigit fun _ => ⟨hafter.noDigit, hafter.2⟩
  rw [List.append_assoc, List.append_assoc, List.append_assoc,
    takeDecimal?_eq hsign hdigits (hfraction.noDigit fun _ => hbehind),
    hfraction.takeFraction hbehind hpoint, hexponent.takeExponent hafter]

/-! ## Literals with a base mark -/

/-- No base mark stands behind a leading zero. -/
def Unmarked (text : Text) : Prop :=
  ∀ mark rest, text = '0' :: mark :: rest → mark ≠ 'x' ∧ mark ≠ 'X' ∧ mark ≠ 'o' ∧ mark ≠ 'O'

theorem numeric?_of_unmarked {text : Text} (h : Unmarked text) :
    numeric? text = (takeDecimal? text).map decimalOf := by
  unfold numeric?
  split
  · next mark rest =>
    obtain ⟨hx, hX, ho, hO⟩ := h mark rest rfl
    simp [hx, hX, ho, hO]
  · rfl

/-- The characters of decimal literals. -/
def InDecimal (c : Char) : Prop := Text.isDigit c = true ∨ c ∈ ['-', '+', '.', 'e', 'E']

theorem SignPart.inDecimal {sign : Text} (h : SignPart sign) : ∀ c ∈ sign, InDecimal c := by
  rcases h with rfl | rfl | rfl <;> simp [InDecimal]

theorem DigitRow.inDecimal {digits : Text} (h : DigitRow digits) : ∀ c ∈ digits, InDecimal c :=
  fun c hc => Or.inl (h.2 c hc)

theorem DecimalLiteral.inDecimal {literal : Text} (h : DecimalLiteral literal) :
    ∀ c ∈ literal, InDecimal c := by
  obtain ⟨sign, digits, fraction, exponent, rfl, hsign, hdigits, hfraction, hexponent⟩ := h.parts
  have hfraction : ∀ c ∈ fraction, InDecimal c := by
    rcases hfraction with rfl | ⟨row, rfl, hrow⟩
    · simp
    · exact List.forall_mem_cons.2 ⟨by simp [InDecimal], hrow.inDecimal⟩
  have hexponent : ∀ c ∈ exponent, InDecimal c := by
    rcases hexponent with rfl | ⟨mark, sign, row, rfl, hmark, hsign, hrow⟩
    · simp
    · refine List.forall_mem_cons.2 ⟨?_, List.forall_mem_append.2 ⟨hsign.inDecimal, hrow.inDecimal⟩⟩
      rcases hmark with rfl | rfl <;> simp [InDecimal]
  exact List.forall_mem_append.2 ⟨hsign.inDecimal, List.forall_mem_append.2
    ⟨hdigits.inDecimal, List.forall_mem_append.2 ⟨hfraction, hexponent⟩⟩⟩

theorem DecimalLiteral.ne_nil {literal : Text} (h : DecimalLiteral literal) : literal ≠ [] := by
  obtain ⟨sign, digits, fraction, exponent, rfl, -, hdigits, -, -⟩ := h.parts
  simp [hdigits.1]

/-- A base mark belongs to no decimal literal, so only what stands behind one can begin with it. -/
theorem DecimalLiteral.unmarked_append {literal after : Text} (h : DecimalLiteral literal)
    (hafter : Unmarked ('0' :: after)) : Unmarked (literal ++ after) := by
  intro mark rest htext
  match literal, h with
  | [], h => exact absurd rfl h.ne_nil
  | [c], _ => exact hafter mark rest (congrArg _ (List.cons.inj htext).2)
  | c :: d :: literal, h =>
    obtain rfl : d = mark := (List.cons.inj (List.cons.inj htext).2).1
    have hother : ∀ c, ¬ InDecimal c → d ≠ c := by
      rintro c hc rfl
      exact hc (h.inDecimal d (by simp))
    exact ⟨hother 'x' (by simp [InDecimal]; decide), hother 'X' (by simp [InDecimal]; decide),
      hother 'o' (by simp [InDecimal]; decide), hother 'O' (by simp [InDecimal]; decide)⟩

/-- Nor does it belong to a detached text. -/
theorem DecimalLiteral.unmarked {literal after : Text} (h : DecimalLiteral literal)
    (hafter : Detached after) : Unmarked (literal ++ after) := by
  refine h.unmarked_append fun mark rest htext => ?_
  have hmark : ¬ InWord mark := (hafter.head ((List.cons.inj htext).2 ▸ rfl)).1
  have hother : ∀ c, InWord c → mark ≠ c := by
    rintro c hc rfl
    exact hmark hc
  exact ⟨hother 'x' (inWord_of_range (by decide)), hother 'X' (inWord_of_range (by decide)),
    hother 'o' (inWord_of_range (by decide)), hother 'O' (inWord_of_range (by decide))⟩

/-- A literal with a base mark is cut off in front of a detached text. -/
theorem radixDigits_detached {isDigit : Char → Bool} {radix : Nat} {row after value : Text}
    {size : Nat} (hword : ∀ c, isDigit c = true → InWord c)
    (hrow : ∀ c ∈ row, isDigit c = true) (hafter : Detached after)
    (h : radixDigits isDigit radix row = some (value, size)) :
    radixDigits isDigit radix (row ++ after) = some (value, size) := by
  have hall : row.takeWhile isDigit = row := List.takeWhile_eq_self_iff.2 hrow
  rw [radixDigits, hall] at h
  rw [radixDigits, takeWhile_row hrow fun _ => hafter.head_false hword, h]

/-- The word of a literal with a base mark. -/
theorem word_of_radixDigits {isDigit : Char → Bool} {radix : Nat} {mark : Char}
    {word after rest value : Text} (htext : word ++ after = '0' :: mark :: rest)
    (h : radixDigits isDigit radix rest = some (value, word.length)) :
    ∃ row, word = '0' :: mark :: row ∧ (∀ c ∈ row, isDigit c = true) ∧
      radixDigits isDigit radix row = some (value, word.length) := by
  have hrow : ∀ c ∈ rest.takeWhile isDigit, isDigit c = true := fun _ => List.mem_takeWhile_imp
  have hall : (rest.takeWhile isDigit).takeWhile isDigit = rest.takeWhile isDigit :=
    List.takeWhile_eq_self_iff.2 hrow
  have hcut : rest.take (rest.takeWhile isDigit).length = rest.takeWhile isDigit :=
    (List.prefix_iff_eq_take.1 (List.takeWhile_prefix isDigit)).symm
  have hsame : radixDigits isDigit radix (rest.takeWhile isDigit) =
      radixDigits isDigit radix rest := by
    rw [radixDigits, radixDigits, hall]
  have hlength : word.length = (rest.takeWhile isDigit).length + 2 := by
    unfold radixDigits at h
    split at h
    · cases h
    · exact (Prod.mk.inj (Option.some.inj h)).2.symm
  refine ⟨rest.takeWhile isDigit, ?_, hrow, hsame.trans h⟩
  have hword : ('0' :: mark :: rest).take word.length = word := by rw [← htext, List.take_left]
  rw [← hword, hlength, List.take_succ_cons, List.take_succ_cons, hcut]

/-! ## Whole lexemes -/

theorem numeric?_detached {word after after' : Text} {lexeme : Lexeme}
    (h : numeric? (word ++ after) = some (lexeme, word.length)) (hafter : Detached after') :
    numeric? (word ++ after') = some (lexeme, word.length) := by
  have hdecimal : (takeDecimal? (word ++ after)).map decimalOf = some (lexeme, word.length) →
      numeric? (word ++ after') = some (lexeme, word.length) := by
    intro hmap
    obtain ⟨literal, hliteral, heq⟩ := Option.map_eq_some_iff.1 hmap
    obtain ⟨-, rest, hrest⟩ := takeDecimal?_append hliteral
    have hword : word = literal :=
      List.append_inj_left hrest (Prod.mk.inj heq).2.symm
    have hparts := hword ▸ decimalLiteral_of_takeDecimal? hliteral
    rw [numeric?_of_unmarked (hparts.unmarked hafter), hparts.takeDecimal? hafter, Option.map_some,
      hword, heq, hword]
  unfold numeric? at h
  split at h
  · next mark rest htext =>
    rw [← htext] at h
    rcases Option.or_eq_some_iff.1 h with hmarked | ⟨-, hmap⟩
    · split at hmarked
      · next hx =>
        obtain ⟨⟨value, size⟩, hdigits, heq⟩ := Option.map_eq_some_iff.1 hmarked
        obtain ⟨rfl, rfl⟩ := Prod.mk.inj heq
        obtain ⟨row, hword, hrow, hvalue⟩ := word_of_radixDigits htext hdigits
        have hread := radixDigits_detached (fun _ => inWord_of_isHexDigit) hrow hafter hvalue
        rw [hword] at hread ⊢
        simp [numeric?, hx, hread]
      · next hx =>
        split at hmarked
        · next ho =>
          obtain ⟨⟨value, size⟩, hdigits, heq⟩ := Option.map_eq_some_iff.1 hmarked
          obtain ⟨rfl, rfl⟩ := Prod.mk.inj heq
          obtain ⟨row, hword, hrow, hvalue⟩ := word_of_radixDigits htext hdigits
          have hread := radixDigits_detached (fun _ => inWord_of_isOctalDigit) hrow hafter hvalue
          rw [hword] at hread ⊢
          simp [numeric?, hx, ho, hread]
        · cases hmarked
    · exact hdecimal hmap
  · exact hdecimal h

/-- A register with no low line behind it. -/
theorem register?_single {a : Char} {after : Text}
    (ha : (isLowerLetter a || decide (a = '@')) = true) (hafter : Detached after) :
    register? ('@' :: a :: after) = some (register ['@', a], 2) := by
  unfold register?
  split
  · next heq =>
    obtain ⟨-, htail⟩ := List.cons.inj heq
    obtain ⟨-, hlow⟩ := List.cons.inj htail
    exact absurd (Or.inr rfl) (hafter.head (hlow ▸ rfl)).1
  · next heq =>
    obtain ⟨-, htail⟩ := List.cons.inj heq
    obtain ⟨rfl, -⟩ := List.cons.inj htail
    exact if_pos ha
  · next hne => exact absurd rfl (hne a after)

theorem register?_detached {word after after' : Text} {lexeme : Lexeme}
    (h : register? (word ++ after) = some (lexeme, word.length)) (hafter : Detached after') :
    register? (word ++ after') = some (lexeme, word.length) := by
  have htake : (word ++ after).take word.length = word := List.take_left
  have hsingle : ∀ a rest, word ++ after = '@' :: a :: rest →
      (if (isLowerLetter a || decide (a = '@')) = true then some (register ['@', a], 2) else none) =
        some (lexeme, word.length) →
      register? (word ++ after') = some (lexeme, word.length) := by
    intro a rest htext hfound
    split at hfound
    · next ha =>
      obtain ⟨rfl, hlength⟩ := Prod.mk.inj (Option.some.inj hfound)
      rw [htext, ← hlength] at htake
      rw [← htake]
      exact register?_single ha hafter
    · cases hfound
  unfold register? at h
  split at h
  · next a b rest htext =>
    split at h
    · next hrange =>
      obtain ⟨rfl, hlength⟩ := Prod.mk.inj (Option.some.inj h)
      rw [htext, ← hlength] at htake
      rw [← htake]
      exact if_pos hrange
    · exact hsingle a _ htext h
  · next a rest _ htext => exact hsingle a rest htext h
  · cases h

/-- A lexeme that stands for a value stays the longest one in front of a detached text. -/
theorem first?_detached {word after after' : Text} {lexeme : Lexeme}
    (h : first? (word ++ after) = some (lexeme, word.length))
    (hvalue : (Grammar.operandOf? lexeme).isSome = true) (hafter : Detached after') :
    first? (word ++ after') = some (lexeme, word.length) := by
  match word, (fits_first h).pos with
  | c :: word, _ =>
    rw [List.cons_append, first?] at h ⊢
    split at h
    · next hat => rw [if_pos hat, ← List.cons_append, register?_detached h hafter]
    · next hat =>
      split at h
      · obtain ⟨rfl, -⟩ := Prod.mk.inj (Option.some.inj h)
        cases hvalue
      · next hname =>
        rcases Option.or_eq_some_iff.1 h with hnumeric | ⟨-, hsymbol⟩
        · rw [if_neg hat, if_neg hname, ← List.cons_append, numeric?_detached hnumeric hafter,
            Option.some_or]
        · obtain ⟨symbol, hc, heq⟩ := Option.map_eq_some_iff.1 hsymbol
          obtain ⟨rfl, -⟩ := Prod.mk.inj heq
          unfold symbol? at hc
          split at hc <;> first | cases hc; cases hvalue | cases hc

end Lexeme

namespace Grammar

open Lexeme

/-- A numeral stays one in front of any detached text. -/
theorem Numeral.change_after {word : Word} {after after' : Text} (h : Numeral word after)
    (hafter : Detached after') : Numeral word after' := by
  obtain ⟨lexeme, hfirst, hkind, -⟩ := h
  refine ⟨lexeme, first?_detached hfirst ?_ hafter, hkind, hafter.1⟩
  rw [hkind, Option.isSome_some]

/-- A name starts with a letter or a low line and takes what goes on with it. -/
theorem BuiltinName.row {word : Word} {after : Text} (h : BuiltinName word after) :
    ∃ c row, word.text = c :: row ∧ c ≠ '@' ∧ isNameStart c = true ∧
      (row ++ after).takeWhile isNamePart = row := by
  obtain ⟨-, -, hfirst, -⟩ := h
  obtain ⟨-, -, c, hhead, hstart⟩ := (fits_first hfirst).name _ rfl
  match hword : word.text, (fits_first hfirst).pos with
  | d :: row, _ =>
    obtain rfl : d = c := by simpa [hword] using hhead
    have hat : d ≠ '@' := by
      rintro rfl
      exact absurd hstart (by decide)
    rw [hword, List.cons_append, first?, if_neg hat, if_pos hstart] at hfirst
    have hname := Lexeme.identifier.inj (Prod.mk.inj (Option.some.inj hfirst)).1
    exact ⟨d, row, rfl, hat, hstart, (List.cons.inj hname).2⟩

/-- A name stays one in front of any text that does not go on with it. -/
theorem BuiltinName.change_after {word : Word} {after after' : Text} (h : BuiltinName word after)
    (hafter : ∀ c, after'.head? = some c → isNamePart c = false) : BuiltinName word after' := by
  obtain ⟨c, row, hword, hat, hstart, htaken⟩ := h.row
  have hrow : ∀ d ∈ row, isNamePart d = true := by
    rw [← htaken]
    exact fun _ => List.mem_takeWhile_imp
  refine ⟨h.1, h.2.1, ?_, h.2.2.2⟩
  rw [hword, List.cons_append, first?, if_neg hat, if_pos hstart, takeWhile_row hrow hafter]

/-- What stands behind a name does not go on with it. -/
theorem BuiltinName.head {word : Word} {after : Text} (h : BuiltinName word after) {c : Char}
    (hc : after.head? = some c) : isNamePart c = false := by
  obtain ⟨_, row, -, -, -, htaken⟩ := h.row
  have hsplit := List.takeWhile_append_dropWhile (p := isNamePart) (l := row ++ after)
  rw [htaken] at hsplit
  have hnot := List.head?_dropWhile_not isNamePart (row ++ after)
  rw [List.append_cancel_left hsplit, hc] at hnot
  exact hnot

end Grammar
end DeskCalc
