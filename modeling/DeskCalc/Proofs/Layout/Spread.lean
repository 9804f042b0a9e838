import DeskCalc.Proofs.Location.Blame
import DeskCalc.Proofs.Reading.Completion
import DeskCalc.Proofs.Tiling

/-
The words of a sentence with other gaps between them.

A token depends on what stands behind it only as far as the next character, and where no
gap is left this is the first one of a token that can follow: a sign, a bracket or a comma,
none of which goes on with a numeral or a name.  So the derivation of a sentence is also
one of its words with any blanks between them.
-/
namespace DeskCalc

namespace Grammar

open Lexeme

/-- Words with a gap in front of each, and the text behind them. -/
def spread (row : List (Text × Word)) (after : Text) : Text :=
  row.flatMap (fun pair => pair.1 ++ pair.2.text) ++ after

/-- Nothing but blanks before the words. -/
def Gaps (row : List (Text × Word)) : Prop := ∀ pair ∈ row, Text.Blank pair.1

section Spread

variable {row more : List (Text × Word)} {gap after : Text} {word : Word} {words : List Word}

theorem spread_nil (after : Text) : spread [] after = after := rfl

theorem spread_cons (gap : Text) (word : Word) (row : List (Text × Word)) (after : Text) :
    spread ((gap, word) :: row) after = gap ++ (word.text ++ spread row after) := by
  simp [spread]

theorem spread_append (row more : List (Text × Word)) (after : Text) :
    spread (row ++ more) after = spread row (spread more after) := by
  simp [spread]

theorem detached_gap (hgap : gap.Blank) (hafter : Detached after) :
    Detached (gap ++ after) := by
  match gap with
  | [] => exact hafter
  | c :: gap => exact detached_of_isBlank (hgap c List.mem_cons_self)

theorem detached_cons {c : Char} (hword : (Text.isAlphanumeric c || c == '_') = false)
    (hpoint : c ≠ '.') (after : Text) : Detached (c :: after) := by
  refine ⟨?_, by simpa using hpoint⟩
  rw [atWordBoundary, hword]
  rfl

theorem detached_sign {rest : Text} (h : Sign word rest) (after : Text) :
    Detached (word.text ++ after) := by
  obtain ⟨-, -, op, htext⟩ := h
  rw [htext]
  cases op <;> exact detached_cons (by decide +kernel) (by decide) after

theorem detached_mark {symbol : Char} {kind : WordKind} {rest : Text}
    (h : Mark symbol kind word rest) (hsymbol : symbol ∈ delimiters) (after : Text) :
    Detached (word.text ++ after) := by
  rw [h.2.2]
  simp only [delimiters, List.mem_cons, List.not_mem_nil, or_false] at hsymbol
  rcases hsymbol with rfl | rfl | rfl <;>
    exact detached_cons (by decide +kernel) (by decide) after

end Spread

/-! ## Tokens at another place -/

section Tokens

variable {Spelled : Word → Text → Prop} {p q : Place} {word : Word} {gap after : Text}

theorem Token.head (h : Token Spelled p word q) {c : Char} (hc : word.text.head? = some c) :
    Text.isBlank c = false := by
  have hnot := List.head?_dropWhile_not Text.isBlank p.rest
  obtain ⟨row, hword⟩ := List.head?_eq_some_iff.1 hc
  rw [show p.rest.dropWhile Text.isBlank = word.text ++ q.rest from h.text, hword] at hnot
  exact hnot

/-- A token stays one behind other blanks, if it is still spelled as it has to be. -/
theorem Token.relaid (h : Token Spelled p word q) (hne : word.text ≠ [])
    (hgap : gap.Blank) (offset : Nat)
    (hspelled : Spelled { word with offset := offset + Text.byteSize gap } after) :
    ∃ word' stop, Token Spelled ⟨gap ++ (word.text ++ after), offset⟩ word' ⟨after, stop⟩ ∧
      word'.unplaced = word.unplaced := by
  have hskip : Place.skip ⟨gap ++ (word.text ++ after), offset⟩ =
      ⟨word.text ++ after, offset + Text.byteSize gap⟩ := by
    obtain ⟨c, row, hword⟩ := List.exists_cons_of_ne_nil hne
    have hc : ¬ Text.isBlank c = true := by
      rw [h.head (hword ▸ rfl)]
      exact Bool.false_ne_true
    rw [skip_append hgap, Place.skip, hword, List.cons_append, List.dropWhile_cons_of_neg hc,
      List.takeWhile_cons_of_neg hc]
    rfl
  exact ⟨{ word with offset := offset + Text.byteSize gap }, _, ⟨congrArg Place.rest hskip,
    (congrArg Place.offset hskip).symm, rfl, hspelled⟩, rfl⟩

end Tokens

/-! ## Phrases at another place -/

/-- Wherever the words are put, with any blanks between them, they form a phrase, unless the
text behind them goes on with the last one. -/
def Relays (category : Category) (words : List Word) : Prop :=
  ∀ {row : List (Text × Word)} {after : Text}, row.map Prod.snd = words → Gaps row →
    Detached after → ∀ offset, ∃ words' stop,
      Derives category ⟨spread row after, offset⟩ words' ⟨after, stop⟩ ∧
        words'.map Word.unplaced = words.map Word.unplaced

section Phrases

variable {category : Category} {p q : Place} {words : List Word}

/-- A row with a word in the middle. -/
theorem exists_split {row : List (Text × Word)} {word : Word} {more : List Word}
    (h : row.map Prod.snd = words ++ word :: more) (hgaps : Gaps row) :
    ∃ front gap back, row = front ++ (gap, word) :: back ∧ front.map Prod.snd = words ∧
      back.map Prod.snd = more ∧ Gaps front ∧ gap.Blank ∧ Gaps back := by
  obtain ⟨front, behind, rfl, hfront, hbehind⟩ := List.map_eq_append_iff.1 h
  obtain ⟨⟨gap, other⟩, back, rfl, rfl, hback⟩ := List.map_eq_cons_iff.1 hbehind
  obtain ⟨hgaps, hbehind⟩ := List.forall_mem_append.1 hgaps
  obtain ⟨hgap, hbehind⟩ := List.forall_mem_cons.1 hbehind
  exact ⟨front, gap, back, rfl, hfront, hback, hgaps, hgap, hbehind⟩

/-- A mark is cut off wherever it is put. -/
theorem Token.relaid_mark {symbol : Char} {kind : WordKind} {word : Word}
    (h : Token (Mark symbol kind) p word q) {gap : Text} (hgap : gap.Blank)
    (after : Text) (offset : Nat) : ∃ word' stop,
      Token (Mark symbol kind) ⟨gap ++ (word.text ++ after), offset⟩ word' ⟨after, stop⟩ ∧
        word'.unplaced = word.unplaced :=
  h.relaid h.spelled.ne_nil hgap offset h.spelled

/-- A phrase in brackets. -/
theorem Relays.closed (h : Relays category words) {opening closing : Word} {r s : Place}
    (hopen : Token (Mark '(' .leftParen) p opening q)
    (hclose : Token (Mark ')' .rightParen) r closing s) {row : List (Text × Word)} {after : Text}
    (hrow : row.map Prod.snd = opening :: (words ++ [closing])) (hgaps : Gaps row) (offset : Nat) :
    ∃ opening' words' closing' start middle stop,
      Token (Mark '(' .leftParen) ⟨spread row after, offset⟩ opening' start ∧
        Derives category start words' middle ∧
        Token (Mark ')' .rightParen) middle closing' ⟨after, stop⟩ ∧
        (opening' :: (words' ++ [closing'])).map Word.unplaced =
          (opening :: (words ++ [closing])).map Word.unplaced := by
  obtain ⟨⟨gap, _⟩, behind, rfl, rfl, hbehind⟩ := List.map_eq_cons_iff.1 hrow
  obtain ⟨hgap, hgaps⟩ := List.forall_mem_cons.1 hgaps
  obtain ⟨middle, gap', back, rfl, hmiddle, hback, hmiddleGaps, hgap', -⟩ :=
    exists_split hbehind hgaps
  obtain rfl := List.map_eq_nil_iff.1 hback
  rw [spread_cons, spread_append, spread_cons, spread_nil]
  obtain ⟨opening', start, hopen', hopening⟩ :=
    hopen.relaid_mark hgap (spread middle (gap' ++ (closing.text ++ after))) offset
  obtain ⟨words', stop, hwords', hwords⟩ := h hmiddle hmiddleGaps
    (detached_gap hgap' (detached_mark hclose.spelled (by decide) after)) start
  obtain ⟨closing', stop', hclose', hclosing⟩ := hclose.relaid_mark hgap' after stop
  refine ⟨opening', words', closing', _, _, stop', hopen', hwords', hclose', ?_⟩
  simp only [List.map_cons, List.map_append, hopening, hwords, hclosing]

theorem Derives.relays (h : Derives category p words q) : Relays category words := by
  induction h with
  | single _ ih =>
    intro row after hrow hgaps hafter offset
    obtain ⟨words', stop, hfirst, hwords⟩ := ih hrow hgaps hafter offset
    exact ⟨words', stop, .single hfirst, hwords⟩
  | last _ ih =>
    intro row after hrow hgaps hafter offset
    obtain ⟨words', stop, honly, hwords⟩ := ih hrow hgaps hafter offset
    exact ⟨words', stop, .last honly, hwords⟩
  | numeral hnumber =>
    intro row after hrow hgaps hafter offset
    obtain ⟨⟨gap, word⟩, rfl, rfl⟩ := List.map_eq_singleton_iff.1 hrow
    obtain ⟨word', stop, htoken, hword⟩ := hnumber.relaid hnumber.spelled.ne_nil
      (hgaps _ List.mem_cons_self) offset (hnumber.spelled.change_after hafter)
    refine ⟨[word'], stop, .numeral ?_, congrArg (fun w => [w]) hword⟩
    rw [spread_cons, spread_nil]
    exact htoken
  | chain _ hsign _ ih ih' =>
    intro row after hrow hgaps hafter offset
    obtain ⟨front, gap, back, rfl, hfront, hback, hgaps, hgap, hgaps'⟩ := exists_split hrow hgaps
    rw [spread_append, spread_cons]
    obtain ⟨words', stop, hfirst, hwords⟩ := ih hfront hgaps
      (detached_gap hgap (detached_sign hsign.spelled (spread back after))) offset
    obtain ⟨sign', stop', hsigned, hsign'⟩ :=
      hsign.relaid hsign.spelled.ne_nil hgap stop hsign.spelled
    obtain ⟨more', stop'', hrest, hmore⟩ := ih' hback hgaps' hafter stop'
    refine ⟨_, stop'', .chain hfirst hsigned hrest, ?_⟩
    simp only [List.map_append, List.map_cons, hwords, hsign', hmore]
  | more _ hcomma _ ih ih' =>
    intro row after hrow hgaps hafter offset
    obtain ⟨front, gap, back, rfl, hfront, hback, hgaps, hgap, hgaps'⟩ := exists_split hrow hgaps
    rw [spread_append, spread_cons]
    obtain ⟨words', stop, hfirst, hwords⟩ := ih hfront hgaps
      (detached_gap hgap (detached_mark hcomma.spelled (by decide) (spread back after))) offset
    obtain ⟨comma', stop', hseparated, hcomma'⟩ :=
      hcomma.relaid_mark hgap (spread back after) stop
    obtain ⟨more', stop'', hrest, hmore⟩ := ih' hback hgaps' hafter stop'
    refine ⟨_, stop'', .more hfirst hseparated hrest, ?_⟩
    simp only [List.map_append, List.map_cons, hwords, hcomma', hmore]
  | group hopen _ hclose ih =>
    intro row after hrow hgaps _ offset
    obtain ⟨_, _, _, _, _, stop, hopen', hinner, hclose', hwords⟩ :=
      ih.closed hopen hclose hrow hgaps offset
    exact ⟨_, stop, .group hopen' hinner hclose', hwords⟩
  | call hname hopen _ _ hclose ih =>
    -- The trailing comma is not among the words, and is not put back.
    intro row after hrow hgaps _ offset
    obtain ⟨⟨gap, name⟩, behind, rfl, rfl, hbehind⟩ := List.map_eq_cons_iff.1 hrow
    obtain ⟨hgap, hgaps⟩ := List.forall_mem_cons.1 hgaps
    have hdetached : Detached (spread behind after) := by
      obtain ⟨⟨gap', _⟩, inner, rfl, rfl, -⟩ := List.map_eq_cons_iff.1 hbehind
      rw [spread_cons]
      exact detached_gap (List.forall_mem_cons.1 hgaps).1
        (detached_mark hopen.spelled (by decide) _)
    rw [spread_cons]
    obtain ⟨name', stop, hnamed, hname'⟩ := hname.relaid hname.spelled.ne_nil hgap offset
      (hname.spelled.change_after fun _ => hdetached.head_false fun _ => inWord_of_isNamePart)
    obtain ⟨_, _, _, _, _, stop', hopen', hinner, hclose', hwords⟩ :=
      ih.closed hopen hclose hbehind hgaps stop
    refine ⟨_, stop', .call hnamed hopen' hinner (Or.inl rfl) hclose', ?_⟩
    rw [List.map_cons, hname', hwords]
    rfl

/-- The words of an accepted source are accepted with any blanks around them, and are the
same but for their places. -/
theorem parse_spread {source last : Text} {log log' : Log} {row : List (Text × Word)}
    (h : (parse source log).1 = .ok words) (hrow : row.map Prod.snd = words) (hgaps : Gaps row)
    (hlast : last.Blank) :
    ∃ words', (parse (spread row last) log').1 = .ok words' ∧
      words'.map Word.unplaced = words.map Word.unplaced := by
  obtain ⟨stop, hderives, -⟩ := parse_eq_ok_iff.1 h
  have hdetached : Detached last := by
    rw [← List.append_nil last]
    exact detached_gap hlast detached_nil
  obtain ⟨words', stop', hspread, hwords⟩ := hderives.relays hrow hgaps hdetached 0
  exact ⟨words', parse_eq_ok_iff.2 ⟨_, hspread, hlast⟩, hwords⟩

end Phrases

/-! ## Uniform layout -/

/-- Words with one blank between each two. -/
def uniform : List Word → List (Text × Word)
  | [] => []
  | word :: words => ([], word) :: words.map fun word => ([' '], word)

theorem words_uniform (words : List Word) : (uniform words).map Prod.snd = words := by
  cases words with
  | nil => rfl
  | cons word words =>
    rw [uniform, List.map_cons, List.map_map]
    exact congrArg _ (List.map_id words)

theorem gaps_uniform (words : List Word) : Gaps (uniform words) := by
  cases words with
  | nil => exact fun _ hmem => by cases hmem
  | cons word words =>
    refine List.forall_mem_cons.2 ⟨fun _ hc => (by cases hc), fun pair hpair c hc => ?_⟩
    obtain ⟨_, -, rfl⟩ := List.mem_map.1 hpair
    rw [List.mem_singleton.1 hc]
    decide

theorem spread_uniform (words : List Word) : spread (uniform words) [] = joinTexts words := by
  cases words with
  | nil => rfl
  | cons word words =>
    rw [uniform, spread_cons, List.nil_append, joinTexts, List.map_cons]
    induction words generalizing word with
    | nil => simp [spread]
    | cons next words ih =>
      rw [List.map_cons, spread_cons, ih, List.map_cons, List.intercalate_cons_cons, List.append_assoc]

/-- The uniform text of words is the same wherever they stand. -/
theorem joinTexts_of_unplaced {words words' : List Word}
    (h : words'.map Word.unplaced = words.map Word.unplaced) : joinTexts words' = joinTexts words := by
  have htexts : words'.map Word.text = words.map Word.text := by
    have hmap := congrArg (List.map Word.text) h
    rw [List.map_map, List.map_map] at hmap
    exact hmap
  rw [joinTexts, htexts, joinTexts]

end Grammar
end DeskCalc
