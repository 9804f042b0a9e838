import DeskCalc.Grammar.Sentence
import DeskCalc.Proofs.Reading.Watched

/-
Reading ends.

Rules go back all the time and may match without reading anything, so a cursor alone does not
count the steps that are left.  Two things do.  Rules are transactions, so a match never leads
back, and a round of a repetition that is followed by another one has moved.  And a pattern that
is led by a token has read it before it enters an expression (`Pattern.led`), so an expression
gets ahead of the one around it.  Whatever holds for these reasons holds on any fuel above the
size of the source.
-/
namespace DeskCalc
namespace Grammar

open Watched

/-! ## Patterns led by a token -/

namespace Pattern

mutual

/-- Whatever the pattern matches starts with a token, and no expression is entered before it. -/
def led : Pattern → Bool
  | token _ => true
  | expression => false
  | sequence parts => ledFirst parts
  | alternative parts => ledAll parts
  | optionalSequence parts => ledFirst parts
  | repetition _ _ => false

def ledFirst : List Pattern → Bool
  | [] => false
  | part :: _ => led part

def ledAll : List Pattern → Bool
  | [] => true
  | part :: parts => led part && ledAll parts

end

theorem ledAll_iff {parts : List Pattern} : ledAll parts = true ↔ ∀ part ∈ parts, part.led := by
  induction parts with
  | nil => simp [ledAll]
  | cons part parts ih => simp [ledAll, ih]

theorem led_of_ledFirst {parts : List Pattern} (h : ledFirst parts = true) :
    ∃ part others, parts = part :: others ∧ part.led = true := by
  match parts, h with
  | part :: others, h => exact ⟨part, others, rfl, h⟩

end Pattern

namespace Consumes

variable {rule : Rule} {rules : List Rule}

theorem sequence (h : Consumes rule) (hrule : Transactional rule)
    (hrules : ∀ r ∈ rules, Transactional r) : Consumes (Rule.sequence (rule :: rules)) := by
  intro state after p hat hrun
  rw [Rule.sequence, Rule.inOrder] at hrun
  rcases hfirst : rule state with ⟨matched, between⟩
  cases matched with
  | false =>
    rw [hfirst] at hrun
    cases hrun
  | true =>
    obtain ⟨q, hq, -, -⟩ := hrule.matched hat hfirst
    have hlt := h hat hfirst
    rw [hfirst] at hrun
    dsimp only at hrun
    rcases Transactional.inOrder hrules hq with
      ⟨words, r, log, hrest, passes⟩ | ⟨cursor, words, log, hrest⟩
    · rw [hrest] at hrun
      obtain rfl := (Prod.mk.inj hrun).2
      exact Nat.lt_of_lt_of_le hlt (hq.cursor ▸ passes.le)
    · rw [hrest] at hrun
      cases hrun

theorem optionalSequence (h : Consumes rule) (hrule : Transactional rule)
    (hrules : ∀ r ∈ rules, Transactional r) :
    Consumes (Rule.optionalSequence (rule :: rules)) := by
  intro state after p hat hrun
  rw [Rule.optionalSequence, Rule.asFarAs] at hrun
  rcases hfirst : rule state with ⟨matched, between⟩
  cases matched with
  | false =>
    rw [hfirst] at hrun
    cases hrun
  | true =>
    obtain ⟨q, hq, -, -⟩ := hrule.matched hat hfirst
    have hlt := h hat hfirst
    obtain ⟨words, r, log, hrest, passes⟩ := Transactional.asFarAs hrules hq
    rw [hfirst] at hrun
    dsimp only at hrun
    rw [hrest] at hrun
    obtain rfl := (Prod.mk.inj hrun).2
    exact Nat.lt_of_lt_of_le hlt (hq.cursor ▸ passes.le)

theorem alternative (h : ∀ r ∈ rules, Consumes r) (htransactional : ∀ r ∈ rules, Transactional r) :
    Consumes (Rule.alternative rules) := by
  intro state after p hat hrun
  suffices hfrom : ∀ log, Rule.firstFrom state.snapshot rules { state with log } = (true, after) →
      state.cursor < after.cursor from hfrom state.log hrun
  clear hrun
  induction rules with
  | nil =>
    intro log hrun
    cases hrun
  | cons rule rules ih =>
    obtain ⟨hfirst, hothers⟩ := List.forall_mem_cons.1 h
    obtain ⟨hrule, hrules⟩ := List.forall_mem_cons.1 htransactional
    intro log hrun
    rw [Rule.firstFrom] at hrun
    rcases hone : rule { state with log } with ⟨matched, found⟩
    cases matched with
    | true =>
      rw [hone] at hrun
      obtain rfl : found = after := (Prod.mk.inj hrun).2
      have hlt := hfirst (hat.with_log log) hone
      exact hlt
    | false =>
      obtain ⟨log', hrestored⟩ := hrule.restored (hat.with_log log) hone
      have hsnapshot : found.restore state.snapshot = { state with log := log' } := hrestored
      rw [hone] at hrun
      dsimp only at hrun
      rw [hsnapshot] at hrun
      exact ih hothers hrules log' hrun

end Consumes

theorem TokenRule.consumes (t : TokenRule) : Consumes t.rule := by
  intro state after p hat hrun
  rcases t.takes hat with ⟨word, q, htoken, hfound⟩ | ⟨log, hmissing⟩
  · obtain rfl : state.extend [word] q state.log = after :=
      (Prod.mk.inj (hfound.symm.trans hrun)).2
    have hlt := (htoken.before (Recognized.ne_nil htoken.spelled)).2
    rwa [← hat.cursor] at hlt
  · rw [hmissing] at hrun
    cases hrun

namespace Pattern

variable {nested : Rule} {watched : WatchedRule} {source : Text} {start fuel : Nat}
  {parts : List Pattern}

theorem forall₂_watchedAll
    (h : ∀ part ∈ parts, Tracks source start (part.watched watched fuel) (part.rule nested)) :
    List.Forall₂ (Tracks source start) (watchedAll watched fuel parts) (rules nested parts) := by
  induction parts with
  | nil => exact .nil
  | cons part parts ih =>
    obtain ⟨hpart, hparts⟩ := List.forall_mem_cons.1 h
    exact .cons hpart (ih hparts)

theorem transactional_rules (h : Transactional nested) (parts : List Pattern) :
    ∀ r ∈ rules nested parts, Transactional r :=
  forall_mem_rules fun part _ => part.transactional h

theorem consumes (h : Transactional nested) (pattern : Pattern) (hled : pattern.led = true) :
    Consumes (pattern.rule nested) := by
  induction pattern with
  | token t => exact t.consumes
  | expression => cases hled
  | sequence parts ih =>
    obtain ⟨part, others, rfl, hpart⟩ := led_of_ledFirst hled
    exact (ih part List.mem_cons_self hpart).sequence (part.transactional h)
      (transactional_rules h others)
  | alternative parts ih =>
    have hparts := ledAll_iff.1 hled
    exact Consumes.alternative
      (forall_mem_rules fun part hpart => ih part hpart (hparts part hpart))
      (transactional_rules h parts)
  | optionalSequence parts ih =>
    obtain ⟨part, others, rfl, hpart⟩ := led_of_ledFirst hled
    exact (ih part List.mem_cons_self hpart).optionalSequence (part.transactional h)
      (transactional_rules h others)
  | repetition part atLeastOnce ih => cases hled

/-- Every expression in a pattern is entered where the pattern starts or further on. -/
theorem tracks (h : Transactional nested) (hnested : Tracks source start watched nested)
    (hfuel : source.byteSize - start < fuel) (pattern : Pattern) :
    Tracks source start (pattern.watched watched fuel) (pattern.rule nested) := by
  induction pattern with
  | token t => exact fun state _ => gives_pure (t.rule state)
  | expression => exact hnested
  | sequence parts ih =>
    exact (Tracks.inOrder (forall₂_watchedAll ih) (transactional_rules h parts)).sequence
  | alternative parts ih =>
    exact Tracks.alternative (transactional_rules h parts) (forall₂_watchedAll ih)
  | optionalSequence parts ih =>
    exact Tracks.asFarAs (forall₂_watchedAll ih) (transactional_rules h parts) false
  | repetition part atLeastOnce ih => exact ih.repetition (part.transactional h) hfuel atLeastOnce

/-- In a pattern that is led by a token, every expression is entered further on. -/
theorem led_tracks (h : Transactional nested) (hnested : Tracks source (start + 1) watched nested)
    (hfuel : source.byteSize - start < fuel) (pattern : Pattern) (hled : pattern.led = true) :
    Tracks source start (pattern.watched watched fuel) (pattern.rule nested) := by
  have hothers : ∀ others : List Pattern, List.Forall₂ (Tracks source (start + 1))
      (watchedAll watched fuel others) (rules nested others) :=
    fun others => forall₂_watchedAll fun part _ => part.tracks h hnested (by omega)
  induction pattern with
  | token t => exact fun state _ => gives_pure (t.rule state)
  | expression => cases hled
  | sequence parts ih =>
    obtain ⟨part, others, rfl, hpart⟩ := led_of_ledFirst hled
    have hleads : Leads source start (start + 1) (part.rule nested) :=
      (part.consumes h hpart).leads (part.transactional h)
    exact (Tracks.inOrder_cons (ih part List.mem_cons_self hpart) hleads
      (Tracks.inOrder (hothers others) (transactional_rules h others))).sequence
  | alternative parts ih =>
    have hparts := ledAll_iff.1 hled
    exact Tracks.alternative (transactional_rules h parts)
      (forall₂_watchedAll fun part hpart => ih part hpart (hparts part hpart))
  | optionalSequence parts ih =>
    obtain ⟨part, others, rfl, hpart⟩ := led_of_ledFirst hled
    have hleads : Leads source start (start + 1) (part.rule nested) :=
      (part.consumes h hpart).leads (part.transactional h)
    exact Tracks.asFarAs_cons (ih part List.mem_cons_self hpart) hleads
      (Tracks.asFarAs (hothers others) (transactional_rules h others) true) false
  | repetition part atLeastOnce ih => cases hled

end Pattern

/-! ## Expressions -/

theorem led_expressionPattern : expressionPattern.led = true := rfl

/-- An expression inside another one starts further on, where less remains. -/
theorem expression?_gives (fuel depth : Nat) {state : State} {p : Place} (hat : state.At p)
    (hfuel : state.remaining < fuel) (hdepth : state.remaining < depth) :
    (expression? fuel state).Gives (expressionWithin depth state) := by
  induction fuel generalizing depth state p with
  | zero => omega
  | succ fuel ih =>
    cases depth with
    | zero => omega
    | succ depth =>
      refine expressionPattern.led_tracks (transactional_expressionWithin depth) ?_ hfuel
        led_expressionPattern ⟨⟨p, hat⟩, rfl, Nat.le_refl _⟩
      intro inner hinner
      obtain ⟨q, hq⟩ := hinner.boundary
      have hstart := hinner.start
      have hforward : Advance.Forward (.nested state.cursor inner.cursor) := hstart
      have hbound := hq.cursor_le
      have hless : inner.remaining < state.remaining := by
        rw [State.remaining, State.remaining, hinner.source]
        rw [hinner.source] at hbound
        omega
      exact (gives_note hforward).bind (ih depth hq (by omega) (by omega))

theorem expression?_tracks {source : Text} {fuel : Nat} (h : source.byteSize < fuel) :
    Tracks source 0 (expression? fuel) expression := by
  intro state hready
  obtain ⟨p, hat⟩ := hready.boundary
  have hfuel := Nat.lt_of_le_of_lt hready.remaining_le h
  exact expression?_gives fuel (state.remaining + 1) hat hfuel (Nat.lt_succ_self _)

theorem expressionWithin_eq {state : State} {p : Place} (hat : state.At p) {depth : Nat}
    (h : state.remaining < depth) : expressionWithin depth state = expression state := by
  have hfuel := Nat.lt_succ_self state.remaining
  have hdepth := (expression?_gives _ depth hat hfuel h).result?
  have hexpression := (expression?_gives _ (state.remaining + 1) hat hfuel hfuel).result?
  exact Option.some.inj (hdepth.symm.trans hexpression)

end Grammar

open Grammar

/-- What is made of an expression that was read from the start of a source. -/
def sentenceOf (outcome : Bool × State) : Except ParseError (List Word) × Log :=
  let (matched, state) := outcome
  let state := state.skipBlanks
  let leftover := state.rest.trimEnd
  let words := state.words.filter fun word => !word.isVirtual
  if !matched || words.isEmpty then
    let (message, span, log) := explain state.log state.cursor
    (.error (.invalidExpression message span), log)
  else if !leftover.isEmpty then
    let (message, span, log) := explain state.log state.cursor
    (.error (.unconsumedInput leftover message span), log)
  else (.ok words, state.log)

theorem parse_eq_sentenceOf (source : Text) (log : Log) :
    parse source log = sentenceOf (expression { source, log }) := rfl

/-- A source read on fuel. -/
def parse? (fuel : Nat) (source : Text) (log : Log) :
    Watched (Except ParseError (List Word) × Log) := do
  let outcome ← expression? fuel { source, log }
  pure (sentenceOf outcome)

/-- Any fuel above the size of a source is enough to read it: enough for the depth to which
expressions nest and for the rounds of every repetition.  The words, the error and the log are
those that are found without it, and on the way every expression inside another one is entered
further to the right than that one, and every round but the last of a repetition moves to the
right.  A greater depth changes nothing.  The same holds of every rule that can be built, from
every place of the source. -/
theorem parsing_terminates (source : Text) (log : Log) {fuel : Nat} (h : source.byteSize < fuel) :
    (parse? fuel source log).Gives (parse source log) ∧
      expressionWithin fuel { source, log } = expression { source, log } ∧
      ∀ (pattern : Pattern) (state : State) (rest : Text), state.source = source →
        source.dropBytes state.cursor = some rest →
          (pattern.watched (expression? fuel) fuel state).Gives
            (pattern.rule expression state) := by
  have hstart := State.at_start source log
  refine ⟨?_, expressionWithin_eq hstart h, fun pattern state rest hsource hcut => ?_⟩
  · have hready : Ready source 0 { source, log } := ⟨⟨_, hstart⟩, rfl, Nat.zero_le _⟩
    rw [parse_eq_sentenceOf]
    exact (expression?_tracks h hready).bind (Watched.gives_pure _)
  · have hready : Ready source 0 state :=
      ⟨⟨⟨rest, state.cursor⟩, hsource ▸ hcut, rfl⟩, hsource, Nat.zero_le _⟩
    exact pattern.tracks transactional_expression (expression?_tracks h) h hready

/-- Seven bytes are read on eight units of fuel. -/
theorem parsing_terminates_in_brackets : Text.byteSize "1 + (2)".toList < 8 ∧
    (parse? 8 "1 + (2)".toList .empty).Gives (parse "1 + (2)".toList .empty) :=
  have hsize : Text.byteSize "1 + (2)".toList < 8 := by decide
  ⟨hsize, (parsing_terminates "1 + (2)".toList .empty hsize).1⟩

end DeskCalc
