import DeskCalc.Proofs.Reading.Token

/-
The grammar of sentences, stated on its own.

    expression := operand (sign operand)*
    operand    := numeral  |  '(' expression ')'  |  name '(' list [','] ')'
    list       := expression (',' expression)*

`Derives` relates a place to the words of a phrase and the place behind it.  A trailing
comma leaves no word.  The lemmas below it say that phrases move forward and that what
stands behind a phrase decides whether it goes on.
-/
namespace DeskCalc
namespace Grammar

inductive Category where
  | expression
  | operand
  | list
  deriving DecidableEq, Repr

/-- The comma that may stand before the `)` of a call. -/
def OptionalComma (p q : Place) : Prop :=
  p = q ∨ ∃ word, Token (Mark ',' .trailingComma) p word q

inductive Derives : Category → Place → List Word → Place → Prop where
  | single {p q : Place} {words : List Word} (first : Derives .operand p words q) :
      Derives .expression p words q
  | chain {p q r s : Place} {words more : List Word} {sign : Word}
      (first : Derives .operand p words q) (signed : Token Sign q sign r)
      (rest : Derives .expression r more s) : Derives .expression p (words ++ sign :: more) s
  | numeral {p q : Place} {word : Word} (number : Token Numeral p word q) :
      Derives .operand p [word] q
  | group {p q r s : Place} {opening closing : Word} {words : List Word}
      (opened : Token (Mark '(' .leftParen) p opening q) (inner : Derives .expression q words r)
      (closed : Token (Mark ')' .rightParen) r closing s) :
      Derives .operand p (opening :: (words ++ [closing])) s
  | call {p q r s t u : Place} {name opening closing : Word} {words : List Word}
      (named : Token BuiltinName p name q) (opened : Token (Mark '(' .leftParen) q opening r)
      (inner : Derives .list r words s) (comma : OptionalComma s t)
      (closed : Token (Mark ')' .rightParen) t closing u) :
      Derives .operand p (name :: opening :: (words ++ [closing])) u
  | last {p q : Place} {words : List Word} (only : Derives .expression p words q) :
      Derives .list p words q
  | more {p q r s : Place} {words more : List Word} {comma : Word}
      (first : Derives .expression p words q) (separated : Token (Mark ',' .comma) q comma r)
      (rest : Derives .list r more s) : Derives .list p (words ++ comma :: more) s

/-- The source is one expression with blanks around its tokens, and these are its
words. -/
def Sentence (source : Text) (words : List Word) : Prop :=
  ∃ stop : Place, Derives .expression (.start source) words stop ∧ stop.Blank

/-! ## Progress -/

/-- The second place is further to the right. -/
def Place.Before (p q : Place) : Prop :=
  Text.byteSize q.rest < Text.byteSize p.rest ∧ p.offset < q.offset

theorem Place.Before.trans {p q r : Place} (h : p.Before q) (h' : q.Before r) : p.Before r :=
  ⟨Nat.lt_trans h'.1 h.1, Nat.lt_trans h.2 h'.2⟩

section Progress

variable {Spelled : Word → Text → Prop} {p q : Place} {word : Word}

theorem Token.before (h : Token Spelled p word q) (hne : word.text ≠ []) : p.Before q := by
  have hpos := Text.byteSize_pos hne
  have hskip := p.byteSize_skip_le
  have hsize := congrArg Text.byteSize h.text
  rw [Text.byteSize_append] at hsize
  have hoffset : p.offset ≤ p.skip.offset := Nat.le_add_right _ _
  have hstop := h.stop
  exact ⟨by omega, by omega⟩

theorem Numeral.ne_nil {after : Text} (h : Numeral word after) : word.text ≠ [] := by
  obtain ⟨lexeme, hfirst, -, -⟩ := h
  exact List.length_pos_iff.1 (Lexeme.fits_first hfirst).pos

theorem Sign.ne_nil {after : Text} (h : Sign word after) : word.text ≠ [] := by
  obtain ⟨-, -, op, htext⟩ := h
  exact htext ▸ List.cons_ne_nil _ _

theorem Mark.ne_nil {symbol : Char} {kind : WordKind} {after : Text}
    (h : Mark symbol kind word after) : word.text ≠ [] :=
  h.2.2 ▸ List.cons_ne_nil _ _

theorem BuiltinName.ne_nil {after : Text} (h : BuiltinName word after) : word.text ≠ [] :=
  List.length_pos_iff.1 (Lexeme.fits_first h.2.2.1).pos

theorem Token.sign_before (h : Token Sign p word q) : p.Before q := h.before h.spelled.ne_nil

theorem Token.mark_before {symbol : Char} {kind : WordKind}
    (h : Token (Mark symbol kind) p word q) : p.Before q := h.before h.spelled.ne_nil

theorem Token.name_before (h : Token BuiltinName p word q) : p.Before q :=
  h.before h.spelled.ne_nil

theorem OptionalComma.before (h : OptionalComma p q) {r : Place} (hr : q.Before r) :
    p.Before r := by
  rcases h with rfl | ⟨comma, hcomma⟩
  · exact hr
  · exact hcomma.mark_before.trans hr

theorem Derives.before {category : Category} {words : List Word}
    (h : Derives category p words q) : p.Before q := by
  induction h with
  | single _ ih => exact ih
  | chain _ hsign _ ih ih' => exact ih.trans (hsign.sign_before.trans ih')
  | numeral hnumber => exact hnumber.before hnumber.spelled.ne_nil
  | group hopen _ hclose ih =>
    exact hopen.mark_before.trans (ih.trans hclose.mark_before)
  | call hname hopen _ hcomma hclose ih =>
    exact hname.name_before.trans
      (hopen.mark_before.trans (ih.trans (hcomma.before hclose.mark_before)))
  | last _ ih => exact ih
  | more _ hcomma _ ih ih' => exact ih.trans (hcomma.mark_before.trans ih')

theorem Derives.ne_nil {category : Category} {words : List Word}
    (h : Derives category p words q) : words ≠ [] := by
  induction h with
  | single _ ih => exact ih
  | last _ ih => exact ih
  | _ => simp

end Progress

/-! ## Putting phrases together -/

/-- An expression goes on with a sign and another expression. -/
theorem Derives.append {p q r s : Place} {words more : List Word} {sign : Word}
    (h : Derives .expression p words q) (hsign : Token Sign q sign r)
    (hmore : Derives .expression r more s) :
    Derives .expression p (words ++ sign :: more) s := by
  generalize hc : Category.expression = category at h
  induction h with
  | single hfirst => exact .chain hfirst hsign hmore
  | chain hfirst hsigned _ _ ih =>
    rw [List.append_assoc, List.cons_append]
    exact .chain hfirst hsigned (ih hsign hc)
  | _ => cases hc

/-- A list goes on with a comma and another list. -/
theorem Derives.append_list {p q r s : Place} {words more : List Word} {comma : Word}
    (h : Derives .list p words q) (hcomma : Token (Mark ',' .comma) q comma r)
    (hmore : Derives .list r more s) : Derives .list p (words ++ comma :: more) s := by
  generalize hc : Category.list = category at h
  induction h with
  | last hfirst => exact .more hfirst hcomma hmore
  | more hfirst hseparated _ _ ih =>
    rw [List.append_assoc, List.cons_append]
    exact .more hfirst hseparated (ih hcomma hc)
  | _ => cases hc

/-! ## At most one kind of token stands at a place -/

section Exclusion

variable {p q q' : Place} {word word' : Word} {symbol symbol' : Char} {kind kind' : WordKind}

/-- The characters that group and separate. -/
def delimiters : List Char := ['(', ')', ',']

theorem first?_delimiter (rest : Text) (h : symbol ∈ delimiters) :
    ∃ lexeme, Lexeme.first? (symbol :: rest) = some (lexeme, 1) ∧
      operandOf? lexeme = none ∧ ∀ name, lexeme ≠ .identifier name := by
  simp only [delimiters, List.mem_cons, List.not_mem_nil, or_false] at h
  rcases h with rfl | rfl | rfl
  · exact ⟨.leftParen, Lexeme.first?_symbol (by decide) (by decide) (by decide) (by decide)
      (by decide) rfl, rfl, by simp⟩
  · exact ⟨.rightParen, Lexeme.first?_symbol (by decide) (by decide) (by decide) (by decide)
      (by decide) rfl, rfl, by simp⟩
  · exact ⟨.comma, Lexeme.first?_symbol (by decide) (by decide) (by decide) (by decide)
      (by decide) rfl, rfl, by simp⟩

theorem Token.mark_rest (h : Token (Mark symbol kind) p word q) :
    p.skip.rest = symbol :: q.rest := by
  rw [h.text, h.spelled.2.2, List.singleton_append]

theorem Token.mark_unique (h : Token (Mark symbol kind) p word q)
    (h' : Token (Mark symbol' kind') p word' q') : symbol = symbol' :=
  (List.cons.inj (h.mark_rest.symm.trans h'.mark_rest)).1

theorem Token.not_numeral_of_mark (h : Token (Mark symbol kind) p word q)
    (hsymbol : symbol ∈ delimiters) : ¬ Token Numeral p word' q' := by
  intro hnumber
  obtain ⟨lexeme, hfirst, hnone, -⟩ := first?_delimiter q.rest hsymbol
  obtain ⟨lexeme', hfirst', hsome, -⟩ := hnumber.spelled
  rw [← hnumber.text, h.mark_rest, hfirst] at hfirst'
  obtain ⟨rfl, -⟩ := Prod.mk.inj (Option.some.inj hfirst')
  rw [hnone] at hsome
  cases hsome

theorem Token.not_name_of_mark (h : Token (Mark symbol kind) p word q)
    (hsymbol : symbol ∈ delimiters) : ¬ Token BuiltinName p word' q' := by
  intro hname
  obtain ⟨lexeme, hfirst, -, hne⟩ := first?_delimiter q.rest hsymbol
  have hfirst' := hname.spelled.2.2.1
  rw [← hname.text, h.mark_rest, hfirst] at hfirst'
  exact hne _ (Prod.mk.inj (Option.some.inj hfirst')).1

theorem Token.not_sign_of_mark (h : Token (Mark symbol kind) p word q)
    (hsymbol : symbol ∈ delimiters) : ¬ Token Sign p word' q' := by
  intro hsign
  obtain ⟨-, -, op, htext⟩ := hsign.spelled
  have hrest := hsign.text
  rw [h.mark_rest, htext, List.singleton_append] at hrest
  rw [(List.cons.inj hrest).1] at hsymbol
  cases op <;> exact absurd hsymbol (by decide)

theorem Token.not_numeral_of_name (h : Token BuiltinName p word q) :
    ¬ Token Numeral p word' q' := by
  intro hnumber
  obtain ⟨lexeme, hfirst, hsome, -⟩ := hnumber.spelled
  rw [← hnumber.text, h.text, h.spelled.2.2.1] at hfirst
  obtain ⟨rfl, -⟩ := Prod.mk.inj (Option.some.inj hfirst)
  cases hsome

theorem Token.not_blank {Spelled : Word → Text → Prop} (h : Token Spelled p word q)
    (hne : word.text ≠ []) : ¬ p.Blank := by
  intro hblank
  have hnil := h.text.symm.trans (Place.skip_eq_nil_iff.2 hblank)
  exact hne (List.append_eq_nil_iff.1 hnil).1

/-- No sign follows: a phrase that stops here is over. -/
def Place.Ended (p : Place) : Prop := ∀ word q, ¬ Token Sign p word q

theorem Place.Blank.ended (h : p.Blank) : p.Ended :=
  fun _ _ hsign => hsign.not_blank hsign.spelled.ne_nil h

theorem Token.ended (h : Token (Mark symbol kind) p word q) (hsymbol : symbol ∈ delimiters) :
    p.Ended :=
  fun _ _ => h.not_sign_of_mark hsymbol

end Exclusion
end Grammar
end DeskCalc
