import DeskCalc.Proofs.Diagnosis.Attempt
import DeskCalc.Proofs.Reading.Acceptance

/-
The words of an accepted source tile it.

Reading goes back and tries again, but what it keeps are words that stand one behind the
other in the source, with nothing but blanks between them.  The one thing that is left out
is the comma that may stand before the `)` of a call.  `Tiles` says this of the text behind
a place, given the brackets that are open there; `Path.tiles` follows the tokens of a source
from stance to stance.
-/
namespace DeskCalc

/-- The span lies in the source, its ends on boundaries of characters, and this is the part
of the source between them. -/
def Span.Covers (span : Span) (source part : Text) : Prop :=
  ∃ before after, source = before ++ (part ++ after) ∧ Text.byteSize before = span.start ∧
    span.stop = span.start + Text.byteSize part

/-- Nothing but blanks. -/
def Text.Blank (text : Text) : Prop := ∀ c ∈ text, isBlank c = true

/-- Blanks, and one comma among them where one may be left out. -/
def Text.Filler (comma : Bool) (text : Text) : Prop :=
  text.Blank ∨ comma = true ∧
    ∃ before after : Text, text = before ++ ',' :: after ∧ before.Blank ∧ after.Blank

namespace Grammar

/-! ## Words that tile a text -/

/-- The word is the `)` of a call, the innermost bracket that is open before it. -/
def closesCall (opened : List Bracket) (word : Word) : Bool :=
  word.kind == .rightParen && opened.head? == some .call

/-- The brackets that are open behind a word.  A `(` behind a name opens a call. -/
def openedBehind (opened : List Bracket) (last : Option WordKind) (word : Word) :
    List Bracket :=
  match word.kind with
  | .leftParen => (if last = some .functionName then .call else .group) :: opened
  | .rightParen => opened.tail
  | _ => opened

/-- The text behind a place consists of the words and of filler before and behind them.
Only the `)` of a call may have a comma in the filler before it. -/
def Tiles : List Bracket → Option WordKind → Place → List Word → Prop
  | _, _, p, [] => p.rest.Blank
  | opened, last, p, word :: words =>
      ∃ filler rest : Text, p.rest = filler ++ (word.text ++ rest) ∧
        word.offset = p.offset + Text.byteSize filler ∧
        filler.Filler (closesCall opened word) ∧
        Tiles (openedBehind opened last word) (some word.kind) ⟨rest, word.stop⟩ words

section Tiles

variable {opened : List Bracket} {last : Option WordKind} {p q : Place} {word : Word}
  {words : List Word}

theorem Token.stop_eq {Spelled : Word → Text → Prop} (h : Token Spelled p word q) :
    q = ⟨q.rest, word.stop⟩ := by
  have hstop : q.offset = word.stop := by rw [h.stop, Word.stop, h.offset]
  rw [← hstop]

/-- A token is a word behind blanks. -/
theorem Tiles.token {Spelled : Word → Text → Prop} (htoken : Token Spelled p word q)
    (h : Tiles (openedBehind opened last word) (some word.kind) q words) :
    Tiles opened last p (word :: words) := by
  refine ⟨p.rest.takeWhile Text.isBlank, q.rest, ?_, htoken.offset, ?_, ?_⟩
  · rw [← htoken.text]
    exact List.takeWhile_append_dropWhile.symm
  · exact Or.inl fun c hc => List.mem_takeWhile_imp hc
  · rw [← htoken.stop_eq]
    exact h

/-- What the words cover, if they tile what is left of a source. -/
theorem Tiles.covers {before : Text} (h : Tiles opened last p words)
    (hbefore : Text.byteSize before = p.offset) :
    ∀ word ∈ words, word.span.Covers (before ++ p.rest) word.text ∧ p.offset ≤ word.offset := by
  induction words generalizing opened last p before with
  | nil => simp
  | cons word words ih =>
    obtain ⟨filler, rest, htext, hoffset, -, hrest⟩ := h
    have hsize : Text.byteSize (before ++ filler) = word.offset := by
      rw [Text.byteSize_append]
      omega
    have hstop : Text.byteSize (before ++ filler ++ word.text) = word.stop := by
      rw [Text.byteSize_append, hsize, Word.stop]
    have hsource : before ++ p.rest = before ++ filler ++ word.text ++ rest := by
      rw [htext]
      simp only [List.append_assoc]
    intro other hother
    rcases List.mem_cons.1 hother with rfl | hother
    · refine ⟨⟨before ++ filler, rest, ?_, hsize, rfl⟩, by omega⟩
      rw [hsource, List.append_assoc]
    · obtain ⟨hcovers, hle⟩ := ih hrest hstop other hother
      refine ⟨hsource ▸ hcovers, ?_⟩
      have hword : word.offset ≤ word.stop := Nat.le_add_right _ _
      dsimp only at hle
      omega

theorem Tiles.covers_start {source : Text} (h : Tiles opened last (.start source) words) :
    ∀ word ∈ words, word.span.Covers source word.text := by
  intro word hword
  have hbefore : Text.byteSize [] = (Place.start source).offset := rfl
  exact (h.covers hbefore word hword).1

/-- The words stand one behind the other. -/
theorem Tiles.ordered (h : Tiles opened last p words) :
    words.Pairwise fun a b => a.stop ≤ b.offset := by
  induction words generalizing opened last p with
  | nil => exact List.Pairwise.nil
  | cons word words ih =>
    obtain ⟨filler, rest, -, -, -, hrest⟩ := h
    refine List.pairwise_cons.2 ⟨fun other hother => ?_, ih hrest⟩
    -- Any text of the right size may stand before the words that are left.
    have hbefore : Text.byteSize (List.replicate word.stop 'a') = word.stop := by
      generalize word.stop = n
      induction n with
      | zero => rfl
      | succ n ih => rw [List.replicate_succ, Text.byteSize, ih]; exact Nat.add_comm 1 n
    exact (hrest.covers hbefore other hother).2

end Tiles

/-! ## Tokens of a source -/

/-- Where the filler before the next word starts: at the place itself, or in front of the
trailing comma that was read last. -/
inductive Awaits (c : Stance) (p : Place) : List Bracket → Place → Prop where
  | here (h : c.demand ≠ .closing) : Awaits c p c.opened p
  | comma {front : Place} {blanks : Text} (h : c.demand = .closing) (blank : blanks.Blank)
      (text : front.rest = blanks ++ ',' :: p.rest)
      (offset : p.offset = front.offset + Text.byteSize (blanks ++ [','])) :
      Awaits c p (.call :: c.opened) front

section Moves

variable {c d : Stance} {p q front : Place} {word : Word} {words : List Word}
  {opened : List Bracket} {last : Option WordKind}

/-- A move that no trailing comma has a part in takes a word that counts, and keeps account
of the open brackets. -/
theorem Move.opened_behind (h : Move c p word d q) (hc : c.demand ≠ .closing)
    (hd : d.demand ≠ .closing) (hlast : last = some .functionName ↔ c.demand = .arguments) :
    openedBehind c.opened last word = d.opened ∧ word.kind.isVirtual = false ∧
      (some word.kind = some .functionName ↔ d.demand = .arguments) := by
  cases h with
  | numeral h =>
    have hoperand := h.spelled.kind
    revert hoperand
    rw [openedBehind]
    cases word.kind <;> simp [WordKind.isOperand, WordKind.isVirtual]
  | group h =>
    have hname : last ≠ some .functionName := fun heq => by cases hlast.1 heq
    simp [openedBehind, h.spelled.1, hname, WordKind.isVirtual]
  | call h => simp [openedBehind, h.spelled.1, hlast.2 rfl, WordKind.isVirtual]
  | name h | sign h | close h | comma h =>
    simp [openedBehind, h.spelled.1, WordKind.isVirtual]
  | trailing h => exact absurd rfl hd
  | last h => exact absurd rfl hc

/-- Tokens that lead to the end of a source tile what is left of it. -/
theorem Path.tiles (h : Path c p words d q) (hd : d = .complete) (hblank : q.Blank)
    (hawaits : Awaits c p opened front)
    (hlast : last = some .functionName ↔ c.demand = .arguments) :
    Tiles opened last front (spoken words) := by
  induction h generalizing opened front last with
  | nil =>
    subst hd
    cases hawaits with
    | here => exact hblank
    | comma hclosing => cases hclosing
  | @cons c e d p r q word words hmove hpath ih =>
    cases hawaits with
    | here hc =>
      by_cases he : e.demand = .closing
      · -- The comma is left out, and belongs to the filler before the `)`.
        cases hmove with
        | trailing hcomma =>
          have hspoken : spoken (word :: words) = spoken words := by
            rw [← List.singleton_append, spoken_append, hcomma.spelled.spoken_trailing,
              List.nil_append]
          rw [hspoken]
          refine ih hd hblank ?_ (by simpa using hlast)
          have hblanks : Text.Blank (p.rest.takeWhile Text.isBlank) :=
            fun b hb => List.mem_takeWhile_imp hb
          refine .comma rfl hblanks ?_ ?_
          · rw [← hcomma.mark_rest]
            exact List.takeWhile_append_dropWhile.symm
          · rw [hcomma.stop, hcomma.spelled.2.2, Text.byteSize_append, Place.skip, Nat.add_assoc]
        | _ => cases he
      · obtain ⟨hopened, hspoken, hname⟩ := hmove.opened_behind hc he hlast
        rw [spoken_of_kind hspoken]
        refine Tiles.token hmove.token ?_
        rw [hopened]
        exact ih hd hblank (.here he) hname
    | @comma front blanks hclosing hfiller htext hoffset =>
      cases hmove with
      | @last s _ _ _ hclose =>
        rw [hclose.spelled.spoken rfl]
        refine ⟨blanks ++ ',' :: p.rest.takeWhile Text.isBlank, r.rest, ?_, ?_, ?_, ?_⟩
        · rw [htext, ← hclose.text, List.append_assoc, List.cons_append]
          exact congrArg (blanks ++ ',' :: ·) List.takeWhile_append_dropWhile.symm
        · rw [hclose.offset, Place.skip, hoffset]
          simp only [Text.byteSize_append, Text.byteSize]
          omega
        · refine Or.inr ⟨by simp [closesCall, hclose.spelled.1], blanks, _, rfl, hfiller, ?_⟩
          exact fun b hb => List.mem_takeWhile_imp hb
        · have hopened : openedBehind (.call :: s) last word = s := by
            simp [openedBehind, hclose.spelled.1]
          rw [← hclose.stop_eq, hopened]
          exact ih hd hblank (.here (by simp)) (by simp [hclose.spelled.1])
      | _ => cases hclosing

theorem spoken_tokens (words : List Word) : spoken (tokens words) = spoken words := by
  rw [spoken, spoken, tokens, List.filter_filter]
  refine List.filter_congr fun word _ => ?_
  rw [Word.isVirtual]
  cases word.kind <;> rfl

theorem Path.text_ne_nil (h : Path c p words d q) : ∀ word ∈ words, word.text ≠ [] := by
  induction h with
  | nil => simp
  | cons hmove _ ih => exact List.forall_mem_cons.2 ⟨hmove.token.spelled.ne_nil, ih⟩

/-- The words of an accepted source tile it. -/
theorem tiles_of_parse {source : Text} {log : Log} (h : (parse source log).1 = .ok words) :
    Tiles [] none (.start source) words ∧
      ∀ word ∈ words, word.isVirtual = false ∧ word.text ≠ [] := by
  match hread : Reader.expression (.start source) with
  | none => exact absurd h (parse_of_none hread)
  | some (found, stop) =>
    obtain ⟨rfl, hblank⟩ := (parse_of_some hread).1 h
    have hpath := path_of_expression hread
    rw [← spoken_tokens]
    refine ⟨hpath.tiles rfl hblank (.here (by decide)) (by decide), fun word hword => ?_⟩
    obtain ⟨hmem, hspoken⟩ := List.mem_filter.1 hword
    exact ⟨by simpa using hspoken, hpath.text_ne_nil word hmem⟩

end Moves

end Grammar

open Grammar

/-- The words of an accepted source stand in it one behind the other, each with the text of
its bytes.  Outside of them are only blanks, and a comma among the blanks before the `)` of
a call.  So none of the words is left over from an attempt that was given up, and none is
there twice or missing. -/
theorem words_tile_source {source : Text} {log : Log} {words : List Word}
    (h : (parse source log).1 = .ok words) :
    (∀ word ∈ words, word.isVirtual = false ∧ word.text ≠ [] ∧
      word.span.Covers source word.text) ∧
    (words.Pairwise fun a b => a.offset < b.offset ∧ a.stop ≤ b.offset) ∧
    Tiles [] none (.start source) words := by
  obtain ⟨htiles, hspoken⟩ := tiles_of_parse h
  refine ⟨fun word hword => ⟨(hspoken word hword).1, (hspoken word hword).2,
    htiles.covers_start word hword⟩, ?_, htiles⟩
  refine htiles.ordered.imp_of_mem fun {a b} ha _ hstop => ⟨?_, hstop⟩
  have hpos := Text.byteSize_pos (hspoken a ha).2
  rw [Word.stop] at hstop
  omega

/-- The comma before the `)` of a call is left out, and so are the blanks. -/
theorem words_tile_call :
    Tiles [] none (.start "max( 1 , 2 ,) ".toList)
      [.plain ['m', 'a', 'x'] .functionName 0, .plain ['('] .leftParen 3, .plain ['1'] .number 5,
        .plain [','] .comma 7, .plain ['2'] .number 9, .plain [')'] .rightParen 12] := by
  have hparse : (parse "max( 1 , 2 ,) ".toList {}).1 = .ok
      [.plain ['m', 'a', 'x'] .functionName 0, .plain ['('] .leftParen 3, .plain ['1'] .number 5,
        .plain [','] .comma 7, .plain ['2'] .number 9, .plain [')'] .rightParen 12] := by
    decide +kernel
  exact (words_tile_source hparse).2.2

end DeskCalc
