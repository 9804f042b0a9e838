import DeskCalc.Proofs.Reading.Lookahead
import DeskCalc.Proofs.Reading.Pending

/-
Whatever has been read can be completed.

The tokens of a path do not depend on the text behind them, as long as it is detached.
So that text can be replaced by one that closes the open brackets, and the source up to
there opens an expression (`Path.completed`).
-/
namespace DeskCalc
namespace Text

def blankCodes : List Nat :=
  [9, 10, 11, 12, 13, 0x20, 0x85, 0xA0, 0x1680, 0x2000, 0x2001, 0x2002, 0x2003, 0x2004, 0x2005,
    0x2006, 0x2007, 0x2008, 0x2009, 0x200A, 0x2028, 0x2029, 0x202F, 0x205F, 0x3000]

theorem mem_blankCodes {c : Char} (h : isBlank c = true) : c.toNat ∈ blankCodes := by
  simp only [isBlank, Bool.or_eq_true, Bool.and_eq_true, decide_eq_true_eq, beq_iff_eq] at h
  simp only [blankCodes, List.mem_cons, List.not_mem_nil, or_false]
  omega

theorem not_alphanumeric_of_isBlank {c : Char} (h : isBlank c = true) :
    isAlphanumeric c = false := by
  have hall : ∀ n ∈ blankCodes, inRanges n alphanumericRanges = false := by decide +kernel
  exact hall c.toNat (mem_blankCodes h)

end Text

namespace Grammar

open Lexeme

theorem detached_of_isBlank {c : Char} {after : Text} (h : Text.isBlank c = true) :
    Detached (c :: after) := by
  have hline : c ≠ '_' := by
    rintro rfl
    exact absurd h (by decide)
  have hpoint : c ≠ '.' := by
    rintro rfl
    exact absurd h (by decide)
  simp [Detached, atWordBoundary, Text.not_alphanumeric_of_isBlank h, hline, hpoint]

/-! ## Another text behind a path -/

/-- A text that may take the place of another one behind a token: it is detached, or it
starts in the same way. -/
def Replaces (after' after : Text) : Prop :=
  Detached after' ∨ (after'.head? = after.head? ∧ after.head? ≠ some '.')

theorem atWordBoundary_of_head {after after' : Text} (h : after'.head? = after.head?) :
    atWordBoundary after' = atWordBoundary after := by
  match after, after', h with
  | [], [], _ => rfl
  | c :: _, d :: _, h =>
    obtain rfl : d = c := Option.some.inj h
    rfl
  | [], _ :: _, h => cases h
  | _ :: _, [], h => cases h

theorem Recognized.change_after {word : Word} {after after' : Text} (h : Recognized word after)
    (hafter : Replaces after' after) : Recognized word after' := by
  have hnumeral : Numeral word after → Numeral word after' := fun hnumber => by
    rcases hafter with hdetached | ⟨hhead, hpoint⟩
    · exact hnumber.change_after hdetached
    · refine hnumber.change_after ⟨?_, hhead ▸ hpoint⟩
      obtain ⟨-, -, -, hboundary⟩ := hnumber
      rw [atWordBoundary_of_head hhead, hboundary]
  have hname : BuiltinName word after → BuiltinName word after' := fun hname => by
    refine hname.change_after fun c hc => ?_
    rcases hafter with hdetached | ⟨hhead, -⟩
    · exact hdetached.head_false (fun _ => inWord_of_isNamePart) hc
    · exact hname.head (hhead ▸ hc)
  unfold Recognized at h ⊢
  split at h
  all_goals first | exact hnumeral h | exact hname h | exact h

section Replacing

variable {c d : Stance} {p q : Place} {word : Word} {words : List Word}

theorem first?_point (after : Text) : first? ('.' :: after) = none := by
  have hnumeric : numeric? ('.' :: after) = none :=
    numeric?_eq_none (by decide) (by decide) (by decide)
  rw [first?, if_neg (by decide), if_neg (by decide), hnumeric, Option.none_or]
  rfl

/-- No token starts with a point. -/
theorem Recognized.head_ne {after : Text} (h : Recognized word after) :
    (word.text ++ after).head? ≠ some '.' := by
  intro hhead
  obtain ⟨rest, htext⟩ := List.head?_eq_some_iff.1 hhead
  have hnone : first? (word.text ++ after) = none := by rw [htext, first?_point]
  unfold Recognized at h
  split at h
  case h_10 => exact h
  case h_4 =>
    obtain ⟨-, -, op, hop⟩ := h
    rw [hop] at htext
    have hpoint := (List.cons.inj htext).1
    cases op <;> exact absurd hpoint (by decide)
  case h_5 =>
    rw [h.2.2.1] at hnone
    cases hnone
  case h_6 | h_7 | h_8 | h_9 =>
    rw [h.2.2] at htext
    exact absurd (List.cons.inj htext).1 (by decide)
  all_goals
    obtain ⟨lexeme, hfirst, -⟩ := h
    rw [hnone] at hfirst
    cases hfirst

/-- A token with the blanks before it and another text behind it. -/
theorem Token.change_after {Spelled : Word → Text → Prop} (h : Token Spelled p word q)
    (hne : word.text ≠ []) {after : Text} (hspelled : Spelled word after) :
    Token Spelled ⟨p.rest.takeWhile Text.isBlank ++ (word.text ++ after), p.offset⟩ word
      ⟨after, q.offset⟩ := by
  have hblank : ∀ c ∈ p.rest.takeWhile Text.isBlank, Text.isBlank c = true :=
    fun _ => List.mem_takeWhile_imp
  have hhead : ∀ c, (word.text ++ after).head? = some c → Text.isBlank c = false := by
    intro c hc
    have hnot := List.head?_dropWhile_not Text.isBlank p.rest
    rw [show p.rest.dropWhile Text.isBlank = word.text ++ q.rest from h.text] at hnot
    match hword : word.text, hne with
    | d :: row, _ =>
      rw [hword] at hc hnot
      obtain rfl : d = c := Option.some.inj hc
      exact hnot
  have htaken := takeWhile_row hblank hhead
  have hdropped := List.takeWhile_append_dropWhile (p := Text.isBlank)
    (l := p.rest.takeWhile Text.isBlank ++ (word.text ++ after))
  rw [htaken] at hdropped
  have hskip : Place.skip ⟨p.rest.takeWhile Text.isBlank ++ (word.text ++ after), p.offset⟩ =
      ⟨word.text ++ after, p.skip.offset⟩ := by
    rw [Place.skip, htaken, List.append_cancel_left hdropped, Place.skip]
  refine ⟨by rw [hskip], by rw [hskip, h.offset], by rw [hskip, h.stop], hspelled⟩

theorem Move.change_after (h : Move c p word d q) {after : Text} (hafter : Replaces after q.rest) :
    Move c ⟨p.rest.takeWhile Text.isBlank ++ (word.text ++ after), p.offset⟩ word d
      ⟨after, q.offset⟩ :=
  have hspelled := h.token.spelled
  h.of_kind (h.token.change_after (Recognized.ne_nil hspelled)
    (Recognized.change_after hspelled hafter)) rfl

theorem Move.rest_eq (h : Move c p word d q) :
    p.rest = p.rest.takeWhile Text.isBlank ++ (word.text ++ q.rest) := by
  rw [← h.token.text]
  exact List.takeWhile_append_dropWhile.symm

/-- What a stance admits starts with no point. -/
theorem Move.head_ne (h : Move c p word d q) : p.rest.head? ≠ some '.' := by
  have hhead := Recognized.head_ne h.token.spelled
  rw [h.rest_eq]
  match hblanks : p.rest.takeWhile Text.isBlank with
  | [] => exact hhead
  | b :: blanks =>
    have hblank : Text.isBlank b = true :=
      List.mem_takeWhile_imp (hblanks ▸ List.mem_cons_self)
    rw [List.cons_append, List.head?_cons]
    rintro ⟨⟩
    exact absurd hblank (by decide)

/-- The text behind a path can be replaced by a detached one. -/
theorem Path.change_after (h : Path c p words d q) {after : Text} (hafter : Detached after) :
    ∃ front, p.rest = front ++ q.rest ∧ q.offset = p.offset + Text.byteSize front ∧
      Path c ⟨front ++ after, p.offset⟩ words d ⟨after, q.offset⟩ := by
  induction h with
  | nil => exact ⟨[], rfl, rfl, .nil⟩
  | @cons c d _ p r q word words hmove hpath ih =>
    obtain ⟨front, hfront, hoffset, hrest⟩ := ih
    have hreplaces : Replaces (front ++ after) r.rest := by
      match front, hpath with
      | [], _ => exact Or.inl hafter
      | f :: front, .cons hnext _ =>
        exact Or.inr ⟨by rw [hfront]; rfl, hnext.head_ne⟩
      | f :: front, .nil =>
        exact absurd (List.append_left_eq_self.1 hfront.symm) (List.cons_ne_nil f front)
    refine ⟨p.rest.takeWhile Text.isBlank ++ (word.text ++ front), ?_, ?_, ?_⟩
    · rw [List.append_assoc, List.append_assoc, ← hfront]
      exact hmove.rest_eq
    · have hstop := hmove.token.stop
      have hskip : p.skip.offset = p.offset + Text.byteSize (p.rest.takeWhile Text.isBlank) := rfl
      rw [Text.byteSize_append, Text.byteSize_append]
      omega
    · rw [List.append_assoc, List.append_assoc]
      exact .cons (hmove.change_after hreplaces) hrest

end Replacing

/-! ## Closing what is open -/

/-- A `)` for each open bracket. -/
def closers (opened : List Bracket) : Text := opened.flatMap fun _ => [' ', ')']

/-- What completes an expression. -/
def Stance.ending : Stance → Text
  | ⟨.operand, s⟩ => ' ' :: '1' :: closers s
  | ⟨.arguments, s⟩ => ' ' :: '(' :: ' ' :: '1' :: closers (.call :: s)
  | ⟨.operator, s⟩ => closers s
  | ⟨.closing, s⟩ => ' ' :: ')' :: closers s

theorem detached_closers (s : List Bracket) : Detached (closers s) := by
  cases s with
  | nil => exact detached_nil
  | cons => exact detached_of_isBlank (by decide)

theorem detached_ending (c : Stance) : Detached c.ending := by
  match c with
  | ⟨.operator, s⟩ => exact detached_closers s
  | ⟨.operand, _⟩ | ⟨.arguments, _⟩ | ⟨.closing, _⟩ => exact detached_of_isBlank (by decide)

theorem skip_append {blanks : Text} (hblanks : ∀ c ∈ blanks, Text.isBlank c = true) (rest : Text)
    (offset : Nat) : Place.skip ⟨blanks ++ rest, offset⟩ =
      Place.skip ⟨rest, offset + Text.byteSize blanks⟩ := by
  rw [Place.skip, Place.skip, List.dropWhile_append_of_pos hblanks,
    List.takeWhile_append_of_pos hblanks, Text.byteSize_append, Nat.add_assoc]

/-- A token behind blanks. -/
theorem token_behind_blanks {Spelled : Word → Text → Prop} {blanks rest : Text} {word : Word}
    {offset stop : Nat} (hblanks : ∀ c ∈ blanks, Text.isBlank c = true)
    (hhead : ∀ c, word.text.head? = some c → Text.isBlank c = false) (hne : word.text ≠ [])
    (hoffset : word.offset = offset + Text.byteSize blanks)
    (hstop : stop = offset + Text.byteSize blanks + Text.byteSize word.text)
    (hspelled : Spelled word rest) :
    Token Spelled ⟨blanks ++ (word.text ++ rest), offset⟩ word ⟨rest, stop⟩ := by
  have hskip : Place.skip ⟨blanks ++ (word.text ++ rest), offset⟩ =
      ⟨word.text ++ rest, offset + Text.byteSize blanks⟩ := by
    obtain ⟨c, row, htext⟩ := List.exists_cons_of_ne_nil hne
    have hc : Text.isBlank c = false := hhead c (by rw [htext, List.head?_cons])
    rw [skip_append hblanks, htext]
    simp [Place.skip, hc, Text.byteSize]
  refine ⟨by rw [hskip], by rw [hskip, hoffset], ?_, hspelled⟩
  rw [hskip]
  exact hstop

/-- A token of one character behind a blank. -/
theorem token_behind_blank {Spelled : Word → Text → Prop} {c : Char} {word : Word} {rest : Text}
    {offset : Nat} (hoffset : word.offset = offset + 1) (htext : word.text = [c])
    (hblank : Text.isBlank c = false) (hspelled : Spelled word rest) :
    Token Spelled ⟨' ' :: c :: rest, offset⟩ word ⟨rest, offset + 1 + c.utf8Size⟩ := by
  have hspace : ∀ d ∈ [' '], Text.isBlank d = true := List.forall_mem_singleton.2 (by decide)
  have htoken : Token Spelled ⟨[' '] ++ (word.text ++ rest), offset⟩ word
      ⟨rest, offset + 1 + c.utf8Size⟩ := by
    refine token_behind_blanks hspace ?_ ?_ hoffset ?_ hspelled
    · rw [htext]
      rintro d ⟨⟩
      exact hblank
    · rw [htext]
      exact List.cons_ne_nil _ _
    · rw [htext]
      rfl
  rwa [htext] at htoken

theorem token_mark (symbol : Char) (kind : WordKind) (hblank : Text.isBlank symbol = false)
    (rest : Text) (offset : Nat) : Token (Mark symbol kind) ⟨' ' :: symbol :: rest, offset⟩
      (.plain [symbol] kind (offset + 1)) ⟨rest, offset + 1 + symbol.utf8Size⟩ :=
  token_behind_blank rfl rfl hblank ⟨rfl, rfl, rfl⟩

theorem token_one {rest : Text} (hrest : Detached rest) (offset : Nat) :
    Token Numeral ⟨' ' :: '1' :: rest, offset⟩ (.plain ['1'] .number (offset + 1))
      ⟨rest, offset + 1 + '1'.utf8Size⟩ :=
  have hone : Numeral (.plain ['1'] .number (offset + 1)) [] :=
    ⟨.decimal ['1'], rfl, rfl, rfl⟩
  token_behind_blank rfl rfl (by decide) (hone.change_after hrest)

theorem path_closers (s : List Bracket) (offset : Nat) :
    ∃ words stop, Path ⟨.operator, s⟩ ⟨closers s, offset⟩ words .complete ⟨[], stop⟩ := by
  induction s generalizing offset with
  | nil => exact ⟨[], offset, .nil⟩
  | cons bracket s ih =>
    have hclose := token_mark ')' .rightParen (by decide) (closers s) offset
    obtain ⟨words, stop, hpath⟩ := ih (offset + 1 + ')'.utf8Size)
    exact ⟨_, stop, .cons (.close hclose) hpath⟩

theorem path_ending (c : Stance) (offset : Nat) :
    ∃ words stop, Path c ⟨c.ending, offset⟩ words .complete ⟨[], stop⟩ := by
  have hoperand : ∀ s offset, ∃ words stop,
      Path ⟨.operand, s⟩ ⟨' ' :: '1' :: closers s, offset⟩ words .complete ⟨[], stop⟩ := by
    intro s offset
    have hone := token_one (detached_closers s) offset
    obtain ⟨words, stop, hpath⟩ := path_closers s (offset + 1 + '1'.utf8Size)
    exact ⟨_, stop, .cons (.numeral hone) hpath⟩
  match c with
  | ⟨.operand, s⟩ => exact hoperand s offset
  | ⟨.operator, s⟩ => exact path_closers s offset
  | ⟨.arguments, s⟩ =>
    have hopen := token_mark '(' .leftParen (by decide) (' ' :: '1' :: closers (.call :: s)) offset
    obtain ⟨words, stop, hpath⟩ := hoperand (.call :: s) (offset + 1 + '('.utf8Size)
    exact ⟨_, stop, .cons (.call hopen) hpath⟩
  | ⟨.closing, s⟩ =>
    have hclose := token_mark ')' .rightParen (by decide) (closers s) offset
    obtain ⟨words, stop, hpath⟩ := path_closers s (offset + 1 + ')'.utf8Size)
    exact ⟨_, stop, .cons (.last hclose) hpath⟩

/-! ## Completed sources -/

/-- Blanks before a place make no difference to what is read from there. -/
theorem Move.of_skip {c d : Stance} {p p' q : Place} {word : Word} (h : Move c p word d q)
    (hskip : p'.skip = p.skip) : Move c p' word d q := by
  have htoken := h.token
  refine h.of_kind ⟨?_, ?_, ?_, htoken.spelled⟩ rfl
  · rw [hskip, htoken.text]
  · rw [hskip, htoken.offset]
  · rw [hskip, htoken.stop]

/-- The text up to the first place behind a path that is not blank can be completed to a
source that is an expression and starts with the tokens of the path. -/
theorem Path.completed {source : Text} {c : Stance} {q : Place} {words : List Word}
    (h : Path .initial (.start source) words c q) :
    ∃ before completion more stop, source = before ++ q.skip.rest ∧
      Text.byteSize before = q.skip.offset ∧
      Path .initial (.start (before ++ completion)) (words ++ more) .complete stop ∧
        stop.Blank := by
  have hblanks : ∀ b ∈ q.rest.takeWhile Text.isBlank, Text.isBlank b = true :=
    fun _ => List.mem_takeWhile_imp
  have hdetached : Detached (q.rest.takeWhile Text.isBlank ++ c.ending) := by
    match hmatch : q.rest.takeWhile Text.isBlank with
    | [] => exact detached_ending c
    | b :: blanks => exact detached_of_isBlank (hblanks b (hmatch ▸ List.mem_cons_self))
  obtain ⟨front, hfront, hoffset, hpath⟩ := h.change_after hdetached
  obtain ⟨more, stop, hending⟩ :=
    path_ending c (q.offset + Text.byteSize (q.rest.takeWhile Text.isBlank))
  have hskip := skip_append hblanks c.ending q.offset
  have hmore : ∃ stop, Path c ⟨q.rest.takeWhile Text.isBlank ++ c.ending, q.offset⟩ more
      .complete stop ∧ stop.Blank := by
    cases more with
    | nil =>
      generalize hplace : (⟨c.ending, _⟩ : Place) = place at hending
      cases hending
      have hnil : Stance.complete.ending = [] := rfl
      refine ⟨_, .nil, ?_⟩
      simpa [Place.Blank, hnil] using hblanks
    | cons word more =>
      cases hending with
      | cons hmove hrest =>
        exact ⟨⟨[], stop⟩, .cons (hmove.of_skip hskip) hrest, by simp [Place.Blank]⟩
  obtain ⟨stop, hmore, hblank⟩ := hmore
  refine ⟨front ++ q.rest.takeWhile Text.isBlank, c.ending, more, stop, ?_, ?_, ?_, hblank⟩
  · rw [List.append_assoc, Place.skip, List.takeWhile_append_dropWhile]
    exact hfront
  · rw [Text.byteSize_append, Place.skip, hoffset]
    exact congrArg (· + _) (Nat.zero_add _).symm
  · rw [List.append_assoc]
    exact hpath.append hmore

end Grammar
end DeskCalc
