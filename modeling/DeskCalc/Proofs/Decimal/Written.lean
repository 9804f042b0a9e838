import DeskCalc.Decimal.Literal
import DeskCalc.Proofs.Decimal.Digits
import DeskCalc.Proofs.Decimal.Value

/-
Printed decimals are read back.

What is printed has a whole part, perhaps a fraction and perhaps an exponent.  Such a text
is a literal, and reading it gives all its digits and the scale that its point and its
exponent ask for.  `read?_render` says that this is what was printed.
-/
namespace DeskCalc

namespace Text

theorem splitAt?_of_not_mem {mark : Char} {text : Text} (h : mark ∉ text) :
    splitAt? mark text = none := by
  induction text with
  | nil => rfl
  | cons c rest ih =>
    have hc : c ≠ mark := fun hc => h (hc ▸ List.mem_cons_self)
    rw [splitAt?, if_neg hc, ih fun hrest => h (List.mem_cons_of_mem _ hrest)]
    rfl

theorem splitAt?_append {mark : Char} {before behind : Text} (h : mark ∉ before) :
    splitAt? mark (before ++ mark :: behind) = some (before, behind) := by
  induction before with
  | nil => exact if_pos rfl
  | cons c rest ih =>
    have hc : c ≠ mark := fun hc => h (hc ▸ List.mem_cons_self)
    rw [List.cons_append, splitAt?, if_neg hc, ih fun hrest => h (List.mem_cons_of_mem _ hrest)]
    rfl

theorem signed_append (negative : Bool) (s t : Text) :
    signed negative s ++ t = signed negative (s ++ t) := by
  cases negative <;> rfl

theorem not_mem_signed {c : Char} {negative : Bool} {row : Text} (hminus : c ≠ '-')
    (h : c ∉ row) : c ∉ signed negative row := by
  cases negative with
  | false => exact h
  | true => simp [signed, hminus, h]

theorem map_toLower_row {row : Text} (h : ∀ c ∈ row, isDigit c = true) :
    row.map Char.toLower = row := by
  rw [List.map_congr_left fun c hc => toLower_of_isDigit (h c hc)]
  exact List.map_id row

theorem map_toLower_signed (negative : Bool) (text : Text) :
    (signed negative text).map Char.toLower = signed negative (text.map Char.toLower) := by
  cases negative <;> rfl

end Text

namespace Decimal

open Text Lexeme

/-- The parts of a printed magnitude. -/
structure Form where
  whole : Text
  fraction : Text
  exponent : Option ℤ

def fractionText : Text → Text
  | [] => []
  | digits => '.' :: digits

def exponentText (mark : Char) : Option ℤ → Text
  | none => []
  | some n => mark :: Text.ofInt n

namespace Form

/-- The printed text, with a capital or a small exponent mark. -/
def text (form : Form) (mark : Char) : Text :=
  form.whole ++ (fractionText form.fraction ++ exponentText mark form.exponent)

def digits (form : Form) : Text := form.whole ++ form.fraction

def scale (form : Form) : ℤ := form.fraction.length - form.exponent.getD 0

theorem signed_text (form : Form) (negative : Bool) (mark : Char) :
    signed negative (form.text mark) = signed negative form.whole ++
      fractionText form.fraction ++ exponentText mark form.exponent := by
  rw [text, ← signed_append, List.append_assoc]

structure Valid (form : Form) : Prop where
  whole : DigitRow form.whole
  fraction : ∀ c ∈ form.fraction, isDigit c = true

variable {form : Form}

theorem Valid.digits (h : form.Valid) : DigitRow form.digits := by
  refine ⟨?_, List.forall_mem_append.2 ⟨h.whole.2, h.fraction⟩⟩
  simp [Form.digits, h.whole.1]

/-! ## The text is a literal -/

theorem signPart_signed (negative : Bool) : SignPart (signed negative []) := by
  cases negative <;> simp [signed, SignPart]

theorem fractionPart_fractionText {row : Text} (h : ∀ c ∈ row, isDigit c = true) :
    FractionPart (fractionText row) := by
  cases row with
  | nil => exact Or.inl rfl
  | cons c rest => exact Or.inr ⟨c :: rest, rfl, List.cons_ne_nil _ _, h⟩

theorem exponentPart_exponentText {mark : Char} (hmark : mark = 'e' ∨ mark = 'E')
    (exponent : Option ℤ) : ExponentPart (exponentText mark exponent) := by
  cases exponent with
  | none => exact Or.inl rfl
  | some n =>
    refine Or.inr ⟨mark, signed (decide (n < 0)) [], ofNat n.natAbs, ?_, hmark,
      signPart_signed _, digitRow_ofNat _⟩
    rw [signed_append, List.nil_append, ← ofInt_eq]
    rfl

theorem Valid.decimalLiteral (h : form.Valid) (negative : Bool) {mark : Char}
    (hmark : mark = 'e' ∨ mark = 'E') : DecimalLiteral (signed negative (form.text mark)) := by
  refine ⟨signed negative [], form.whole, fractionText form.fraction,
    exponentText mark form.exponent, ?_, signPart_signed negative, h.whole,
    fractionPart_fractionText h.fraction, exponentPart_exponentText hmark _⟩
  rw [signed_append, List.nil_append, text]

theorem map_toLower_exponentText (exponent : Option ℤ) :
    (exponentText 'E' exponent).map Char.toLower = exponentText 'e' exponent := by
  cases exponent with
  | none => rfl
  | some n =>
    have hdigits := map_toLower_row (digitRow_ofNat n.natAbs).2
    show 'E'.toLower :: (Text.ofInt n).map Char.toLower = 'e' :: Text.ofInt n
    rw [ofInt_eq, map_toLower_signed, hdigits]
    rfl

theorem map_toLower_fractionText {row : Text} (h : ∀ c ∈ row, isDigit c = true) :
    (fractionText row).map Char.toLower = fractionText row := by
  cases row with
  | nil => rfl
  | cons c rest => exact congrArg ('.' :: ·) (map_toLower_row h)

/-- Only the exponent mark has a small form. -/
theorem Valid.normalDecimal (h : form.Valid) (negative : Bool) :
    normalDecimal (signed negative (form.text 'E')) = signed negative (form.text 'e') := by
  have hplus : Text.after? ['+'] (signed negative (form.text 'E')) = none := by
    match hwhole : form.whole, h.whole with
    | c :: rest, hrow =>
      have hc : '+' ≠ c := (ne_of_isDigit (hrow.2 c List.mem_cons_self) (by decide)).symm
      cases negative with
      | false => simp [signed, text, hwhole, Text.after?, hc]
      | true => rfl
    | [], hrow => exact absurd rfl hrow.1
  rw [Lexeme.normalDecimal, hplus, Option.getD_none, map_toLower_signed, text, List.map_append,
    List.map_append, map_toLower_row h.whole.2, map_toLower_fractionText h.fraction,
    map_toLower_exponentText, text]

/-! ## Reading the text -/

theorem splitPoint_whole {base : Text} (h : '.' ∉ base) : splitPoint base = (base, 0) := by
  rw [splitPoint, splitAt?_of_not_mem h]

theorem splitPoint_pointed {lead fraction : Text} (h : '.' ∉ lead)
    (hfraction : ∀ c ∈ fraction, isDigit c = true) :
    splitPoint (lead ++ '.' :: fraction) = (lead ++ fraction, fraction.length) := by
  have hkept : fraction.filter (· != '_') = fraction :=
    List.filter_eq_self.2 fun c hc => by
      simpa using ne_of_isDigit (hfraction c hc) (by decide)
  rw [splitPoint, splitAt?_append h]
  dsimp only
  rw [hkept]

theorem Valid.splitPoint (h : form.Valid) (negative : Bool) :
    splitPoint (signed negative form.whole ++ fractionText form.fraction) =
      (signed negative form.digits, form.fraction.length) := by
  have hwhole : '.' ∉ signed negative form.whole := by
    refine not_mem_signed (by decide) fun hmem => ?_
    exact absurd (h.whole.2 _ hmem) (by decide)
  rw [Form.digits, ← signed_append]
  match hrow : form.fraction, h.fraction with
  | [], _ =>
    show Decimal.splitPoint (signed negative form.whole ++ []) = _
    rw [List.append_nil, splitPoint_whole hwhole]
    rfl
  | c :: rest, hfraction => exact splitPoint_pointed hwhole hfraction

theorem not_mark_of_isDigit {c : Char} (h : isDigit c = true) : (!isExponentMark c) = true := by
  have he : c ≠ 'e' := ne_of_isDigit h (by decide)
  have hE : c ≠ 'E' := ne_of_isDigit h (by decide)
  simp [isExponentMark, he, hE]

/-- The exponent starts at the first exponent mark. -/
theorem Valid.takeWhile (h : form.Valid) (negative : Bool) :
    (signed negative (form.text 'e')).takeWhile (fun c => !isExponentMark c) =
      signed negative form.whole ++ fractionText form.fraction := by
  have hwhole : ∀ c ∈ signed negative form.whole, (!isExponentMark c) = true := by
    have hrow : ∀ c ∈ form.whole, (!isExponentMark c) = true :=
      fun c hc => not_mark_of_isDigit (h.whole.2 c hc)
    cases negative with
    | false => exact hrow
    | true => exact List.forall_mem_cons.2 ⟨by decide, hrow⟩
  have hfraction : ∀ c ∈ fractionText form.fraction, (!isExponentMark c) = true := by
    match form.fraction, h.fraction with
    | [], _ => simp [fractionText]
    | c :: rest, hrow =>
      exact List.forall_mem_cons.2 ⟨by decide, fun d hd => not_mark_of_isDigit (hrow d hd)⟩
  rw [signed_text]
  refine takeWhile_row (List.forall_mem_append.2 ⟨hwhole, hfraction⟩) fun c hc => ?_
  cases hexponent : form.exponent with
  | none =>
    rw [hexponent] at hc
    cases hc
  | some n =>
    rw [hexponent] at hc
    obtain rfl : 'e' = c := Option.some.inj hc
    rfl

/-- All digits are read, with the scale that the point and the exponent ask for. -/
theorem Valid.read? (h : form.Valid) (negative : Bool) (hscale : saturate form.scale = form.scale) :
    Decimal.read? (signed negative (form.text 'e')) =
      some ⟨withSign negative (positional 10 form.digits), form.scale⟩ := by
  have hleft : (signed negative (form.text 'e')).drop
      (signed negative form.whole ++ fractionText form.fraction).length =
        exponentText 'e' form.exponent := by
    rw [signed_text, List.drop_left]
  unfold Decimal.read?
  simp only [h.takeWhile, hleft, h.splitPoint, h.digits.integer?]
  rw [scale] at hscale ⊢
  cases hexponent : form.exponent with
  | none =>
    rw [hexponent] at hscale
    exact if_pos hscale
  | some n =>
    rw [hexponent] at hscale
    simp only [exponentText, plainInteger?_ofInt]
    exact if_pos hscale

end Form

/-! ## What is printed -/

/-- The text has a form with these digits and this scale. -/
def Shows (text digits : Text) (scale : ℤ) : Prop :=
  ∃ form : Form, form.Valid ∧ text = form.text 'E' ∧
    positional 10 form.digits = positional 10 digits ∧ form.scale = scale

/-- The text shows all its digits in front of and behind the point, without an exponent. -/
def ShowsPlainly (text digits : Text) (scale : ℤ) : Prop :=
  ∃ form : Form, form.Valid ∧ form.exponent = none ∧ text = form.text 'E' ∧
    positional 10 form.digits = positional 10 digits ∧ form.scale = scale

variable {digits : Text} {scale : ℤ}

theorem ShowsPlainly.shows {text : Text} (h : ShowsPlainly text digits scale) :
    Shows text digits scale := by
  obtain ⟨form, hvalid, -, hform⟩ := h
  exact ⟨form, hvalid, hform⟩

theorem fractionText_of_ne_nil {row : Text} (h : row ≠ []) : fractionText row = '.' :: row := by
  cases row with
  | nil => exact absurd rfl h
  | cons c rest => rfl

theorem shows_scientific (h : DigitRow digits) (scale : ℤ) :
    Shows (scientific digits (digits.length - 1 - scale)) digits scale := by
  match digits, h with
  | [d], h =>
    refine ⟨⟨[d], [], some _⟩, ⟨h, by simp⟩, rfl, rfl, ?_⟩
    simp [Form.scale]
  | lead :: d :: rest, h =>
    obtain ⟨hlead, hrest⟩ := List.forall_mem_cons.1 h.2
    refine ⟨⟨[lead], d :: rest, some _⟩, ⟨⟨by simp, by simpa using hlead⟩, hrest⟩, rfl, rfl, ?_⟩
    simp only [Form.scale, List.length_cons, Option.getD_some]
    omega
  | [], h => exact absurd rfl h.1

theorem shows_positionalText (h : DigitRow digits) (hscale : 0 ≤ scale) :
    ShowsPlainly (positionalText digits scale) digits scale := by
  rw [positionalText]
  by_cases hwhole : scale ≤ 0
  · obtain rfl : scale = 0 := by omega
    rw [if_pos hwhole]
    exact ⟨⟨digits, [], none⟩, ⟨h, by simp⟩, rfl, rfl, by simp [Form.digits], rfl⟩
  · have hplaces : (scale.toNat : ℤ) = scale := by omega
    rw [if_neg hwhole]
    dsimp only
    by_cases hshort : digits.length ≤ scale.toNat
    · have hfraction : zeros (scale.toNat - digits.length) ++ digits ≠ [] := by
        simp [h.1]
      rw [if_pos hshort]
      refine ⟨⟨['0'], zeros (scale.toNat - digits.length) ++ digits, none⟩,
        ⟨digitRow_zero, ?_⟩, rfl, ?_, ?_, ?_⟩
      · refine List.forall_mem_append.2 ⟨fun c hc => ?_, h.2⟩
        rw [List.eq_of_mem_replicate hc]
        decide
      · rw [Form.text, fractionText_of_ne_nil hfraction]
        simp [exponentText]
      · exact positional_zeros (scale.toNat - digits.length + 1) digits
      · simp only [Form.scale, zeros, List.length_append, List.length_replicate,
          Option.getD_none]
        omega
    · have hfraction : digits.drop (digits.length - scale.toNat) ≠ [] := by
        rw [← List.length_pos_iff, List.length_drop]
        omega
      have hlead : digits.take (digits.length - scale.toNat) ≠ [] := by
        rw [← List.length_pos_iff, List.length_take]
        omega
      rw [if_neg hshort]
      refine ⟨⟨digits.take (digits.length - scale.toNat),
        digits.drop (digits.length - scale.toNat), none⟩,
        ⟨⟨hlead, fun c hc => h.2 c (List.mem_of_mem_take hc)⟩,
          fun c hc => h.2 c (List.mem_of_mem_drop hc)⟩, rfl, ?_, ?_, ?_⟩
      · rw [Form.text, fractionText_of_ne_nil hfraction]
        simp [exponentText]
      · rw [Form.digits, List.take_append_drop]
      · simp only [Form.scale, List.length_drop, Option.getD_none]
        omega

theorem shows_renderMagnitude (h : DigitRow digits) (hscale : 0 ≤ scale) :
    Shows (renderMagnitude digits scale) digits scale := by
  rw [renderMagnitude]
  split
  · exact shows_scientific h scale
  · rw [if_neg (by rw [trailingZeroLimit]; omega)]
    exact (shows_positionalText h hscale).shows

/-- A decimal that is not zero and has a scale of 64 bits, none of it negative, is printed as
a literal, and the literal is read as this decimal. -/
theorem read?_render {x : Decimal} (hx : x.mantissa ≠ 0) (hscale : 0 ≤ x.scale)
    (hsaturate : saturate x.scale = x.scale) :
    DecimalLiteral x.render ∧ Decimal.read? (normalDecimal x.render) = some x := by
  obtain ⟨form, hvalid, htext, hdigits, hform⟩ :=
    shows_renderMagnitude (digitRow_ofNat x.mantissa.natAbs) hscale
  have hrender : x.render = signed x.isNegative (form.text 'E') := by
    rw [render, isZero_of_ne hx, if_neg Bool.false_ne_true, ← htext, signed]
  have hmantissa : withSign x.isNegative (positional 10 form.digits) = x.mantissa := by
    rw [hdigits, positional_ofNat, isNegative, withSign_natAbs]
  rw [hrender]
  refine ⟨hvalid.decimalLiteral _ (Or.inr rfl), ?_⟩
  rw [hvalid.normalDecimal, hvalid.read? _ (by rw [hform, hsaturate]), hmantissa, hform]

theorem read?_render_zero {x : Decimal} (hx : x.mantissa = 0) :
    DecimalLiteral x.render ∧ Decimal.read? (normalDecimal x.render) = some zero := by
  rw [render, if_pos (isZero_of_eq hx)]
  refine ⟨⟨[], ['0'], [], [], rfl, Or.inl rfl, digitRow_zero, Or.inl rfl, Or.inl rfl⟩, ?_⟩
  decide

end Decimal
end DeskCalc
