import DeskCalc.Grammar.Rule
import Mathlib.Data.List.Forall2
import DeskCalc.Proofs.Reading.Place

/-
Readers: what rules read, without the log.

A reader takes a place to the words found there and the place behind them.  Each way
of combining rules has its counterpart for readers.  `Reads` ties the two: a rule
matches exactly where its reader finds words, adds these words to the state, and
leaves the words of the state alone where it fails.
-/
namespace DeskCalc
namespace Grammar

abbrev Reader := Place → Option (List Word × Place)

namespace Reader

/-- All readers in order. -/
def inOrder : List Reader → Reader
  | [], p => some ([], p)
  | reader :: readers, p => do
      let (words, q) ← reader p
      let (more, r) ← inOrder readers q
      some (words ++ more, r)

/-- The first reader that finds something. -/
def firstOf : List Reader → Reader
  | [], _ => none
  | reader :: readers, p => (reader p).or (firstOf readers p)

/-- Readers in order as far as they find something. -/
def asFarAs : List Reader → Place → List Word × Place
  | [], p => ([], p)
  | reader :: readers, p =>
      match reader p with
      | none => ([], p)
      | some (words, q) =>
          let (more, r) := asFarAs readers q
          (words ++ more, r)

/-- The first reader, and the others as far as they find something. -/
def followed (first : Reader) (readers : List Reader) : Reader := fun p => do
  let (words, q) ← first p
  let (more, r) := asFarAs readers q
  some (words ++ more, r)

/-- A reader over and over, and how often it found something. -/
def repeatWithin (reader : Reader) : Nat → Place → Nat × List Word × Place
  | 0, p => (0, [], p)
  | fuel + 1, p =>
      match reader p with
      | none => (0, [], p)
      | some (words, q) =>
          if q.offset = p.offset then (1, words, q)
          else
            let (count, more, r) := repeatWithin reader fuel q
            (count + 1, words ++ more, r)

/-- A reader as often as it finds something, with a placeholder if that is not at
all. -/
def repetition (reader : Reader) : Reader := fun p =>
  match repeatWithin reader (Text.byteSize p.rest + 1) p with
  | (0, words, q) => some (words ++ [.placeholder q.offset], q)
  | (_ + 1, words, q) => some (words, q)

end Reader

/-- The rule reads what the reader reads. -/
structure Reads (rule : Rule) (reader : Reader) : Prop where
  matched : ∀ {state : State} {p q : Place} {words : List Word}, state.At p →
    reader p = some (words, q) →
      ∃ log, rule state = (true, state.extend words q log) ∧ (state.extend words q log).At q
  failed : ∀ {state : State} {p : Place}, state.At p → reader p = none →
    ∃ cursor log, rule state = (false, { state with cursor, log })

namespace Reads

theorem extend_nil {state : State} {p : Place} (h : state.At p) (log : Log) :
    state.extend [] p log = { state with log } := by
  rw [State.extend, List.append_nil, ← h.cursor]

theorem extend_extend (state : State) (words more : List Word) (q r : Place) (log log' : Log) :
    (state.extend words q log).extend more r log' = state.extend (words ++ more) r log' := by
  rw [State.extend, State.extend, State.extend, List.append_assoc]

variable {rule : Rule} {reader : Reader} {rules : List Rule} {readers : List Reader}

/-! ## Sequences -/

theorem inOrder_matched (h : List.Forall₂ Reads rules readers) {state : State} {p q : Place}
    {words : List Word} (hat : state.At p) (hread : Reader.inOrder readers p = some (words, q)) :
    ∃ log, Rule.inOrder rules state = (true, state.extend words q log) ∧
      (state.extend words q log).At q := by
  induction h generalizing state p words with
  | nil =>
    simp only [Reader.inOrder, Option.some.injEq, Prod.mk.injEq] at hread
    obtain ⟨rfl, rfl⟩ := hread
    refine ⟨state.log, ?_, ?_⟩
    · rw [Rule.inOrder, extend_nil hat]
    · rw [extend_nil hat]
      exact hat
  | cons hrule hrest ih =>
    simp only [Reader.inOrder, Option.bind_eq_bind, Option.bind_eq_some_iff] at hread
    obtain ⟨⟨found, r⟩, hfirst, ⟨more, s⟩, hmore, heq⟩ := hread
    obtain ⟨rfl, rfl⟩ := Prod.mk.inj (Option.some.inj heq)
    obtain ⟨log, hrun, hr⟩ := hrule.matched hat hfirst
    obtain ⟨log', hrun', hs⟩ := ih hr hmore
    rw [extend_extend] at hrun' hs
    refine ⟨log', ?_, hs⟩
    rw [Rule.inOrder, hrun]
    exact hrun'

theorem inOrder_failed (h : List.Forall₂ Reads rules readers) {state : State} {p : Place}
    (hat : state.At p) (hread : Reader.inOrder readers p = none) :
    ∃ cursor words log, Rule.inOrder rules state =
      (false, ⟨state.source, cursor, state.words ++ words, log⟩) := by
  induction h generalizing state p with
  | nil => simp [Reader.inOrder] at hread
  | @cons rule reader rules readers hrule hrest ih =>
    cases hfirst : reader p with
    | none =>
      obtain ⟨cursor, log, hrun⟩ := hrule.failed hat hfirst
      refine ⟨cursor, [], log, ?_⟩
      rw [Rule.inOrder, hrun, List.append_nil]
    | some found =>
      obtain ⟨words, q⟩ := found
      obtain ⟨log, hrun, hq⟩ := hrule.matched hat hfirst
      have hmore : Reader.inOrder readers q = none := by
        cases hr : Reader.inOrder readers q with
        | none => rfl
        | some rest => simp [Reader.inOrder, hfirst, hr] at hread
      obtain ⟨cursor, more, log', hrun'⟩ := ih hq hmore
      refine ⟨cursor, words ++ more, log', ?_⟩
      rw [Rule.inOrder, hrun]
      simpa [State.extend, List.append_assoc] using hrun'

theorem sequence (h : List.Forall₂ Reads rules readers) :
    Reads (Rule.sequence rules) (Reader.inOrder readers) where
  matched hat hread := by
    obtain ⟨log, hrun, hq⟩ := inOrder_matched h hat hread
    exact ⟨log, by rw [Rule.sequence, hrun], hq⟩
  failed {state _} hat hread := by
    obtain ⟨cursor, words, log, hrun⟩ := inOrder_failed h hat hread
    refine ⟨state.cursor, log, ?_⟩
    rw [Rule.sequence, hrun]
    exact congrArg _ (State.restore_snapshot state cursor words log)

/-! ## Alternatives -/

theorem alternative (h : List.Forall₂ Reads rules readers) :
    Reads (Rule.alternative rules) (Reader.firstOf readers) := by
  -- The rules are tried from one snapshot, with a log that grows.
  suffices hfrom : ∀ (state : State) (log : Log) (p : Place), state.At p →
      (∀ words q, Reader.firstOf readers p = some (words, q) →
        ∃ log', Rule.firstFrom state.snapshot rules { state with log } =
          (true, state.extend words q log') ∧ (state.extend words q log').At q) ∧
      (Reader.firstOf readers p = none →
        ∃ log', Rule.firstFrom state.snapshot rules { state with log } =
          (false, { state with log := log' })) by
    constructor
    · intro state p q words hat hread
      exact (hfrom state state.log p hat).1 words q hread
    · intro state p hat hread
      obtain ⟨log, hrun⟩ := (hfrom state state.log p hat).2 hread
      exact ⟨state.cursor, log, hrun⟩
  induction h with
  | nil => exact fun state log p hat => ⟨by simp [Reader.firstOf], fun _ => ⟨log, rfl⟩⟩
  | @cons rule reader rules readers hrule hrest ih =>
    intro state log p hat
    cases hfirst : reader p with
    | some found =>
      obtain ⟨words, q⟩ := found
      obtain ⟨log', hrun, hq⟩ := hrule.matched (hat.with_log log) hfirst
      refine ⟨fun words' q' hread => ?_, fun hread => ?_⟩
      · rw [Reader.firstOf, hfirst, Option.some_or, Option.some.injEq, Prod.mk.injEq] at hread
        obtain ⟨rfl, rfl⟩ := hread
        exact ⟨log', by rw [Rule.firstFrom, hrun]; rfl, hq⟩
      · rw [Reader.firstOf, hfirst, Option.some_or] at hread
        cases hread
    | none =>
      obtain ⟨cursor, log', hrun⟩ := hrule.failed (hat.with_log log) hfirst
      have hnext : Rule.firstFrom state.snapshot (rule :: rules) { state with log } =
          Rule.firstFrom state.snapshot rules { state with log := log' } := by
        rw [Rule.firstFrom, hrun]
        exact congrArg _ (State.restore_failed state cursor log')
      rw [hnext, Reader.firstOf, hfirst, Option.none_or]
      exact ih state log' p hat

/-! ## Sequences that may stop -/

theorem asFarAs (h : List.Forall₂ Reads rules readers) {state : State} {p : Place}
    (hat : state.At p) :
    ∃ log, Rule.asFarAs true rules state =
        (true, state.extend (Reader.asFarAs readers p).1 (Reader.asFarAs readers p).2 log) ∧
      (state.extend (Reader.asFarAs readers p).1 (Reader.asFarAs readers p).2 log).At
        (Reader.asFarAs readers p).2 := by
  induction h generalizing state p with
  | nil =>
    refine ⟨state.log, ?_, ?_⟩
    · rw [Rule.asFarAs, Reader.asFarAs, extend_nil hat]
    · rw [Reader.asFarAs, extend_nil hat]
      exact hat
  | @cons rule reader _ _ hrule hrest ih =>
    cases hfirst : reader p with
    | none =>
      obtain ⟨cursor, log, hrun⟩ := hrule.failed hat hfirst
      simp only [Reader.asFarAs, hfirst]
      refine ⟨log, ?_, ?_⟩
      · rw [Rule.asFarAs, hrun, extend_nil hat]
        exact congrArg _ (State.restore_failed state cursor log)
      · rw [extend_nil hat]
        exact hat.with_log log
    | some found =>
      obtain ⟨words, q⟩ := found
      obtain ⟨log, hrun, hq⟩ := hrule.matched hat hfirst
      obtain ⟨log', hrun', hr⟩ := ih hq
      rw [extend_extend] at hrun' hr
      simp only [Reader.asFarAs, hfirst]
      refine ⟨log', ?_, hr⟩
      rw [Rule.asFarAs, hrun]
      exact hrun'

theorem optionalSequence (hfirst : Reads rule reader) (h : List.Forall₂ Reads rules readers) :
    Reads (Rule.optionalSequence (rule :: rules)) (Reader.followed reader readers) where
  matched {state p q words} hat hread := by
    simp only [Reader.followed, Option.bind_eq_bind, Option.bind_eq_some_iff] at hread
    obtain ⟨⟨found, r⟩, hread, heq⟩ := hread
    obtain ⟨rfl, rfl⟩ := Prod.mk.inj (Option.some.inj heq)
    obtain ⟨log, hrun, hr⟩ := hfirst.matched hat hread
    obtain ⟨log', hrun', hs⟩ := asFarAs h hr
    rw [extend_extend] at hrun' hs
    refine ⟨log', ?_, hs⟩
    rw [Rule.optionalSequence, Rule.asFarAs, hrun]
    exact hrun'
  failed {state p} hat hread := by
    have hnone : reader p = none := by
      cases hr : reader p with
      | none => rfl
      | some found => simp [Reader.followed, hr] at hread
    obtain ⟨cursor, log, hrun⟩ := hfirst.failed hat hnone
    refine ⟨state.cursor, log, ?_⟩
    rw [Rule.optionalSequence, Rule.asFarAs, hrun]
    exact congrArg _ (State.restore_failed state cursor log)

/-! ## Repetitions -/

theorem repeatWithin (h : Reads rule reader) (fuel : Nat) {state : State} {p q : Place}
    {count : Nat} {words : List Word} (hat : state.At p)
    (hread : Reader.repeatWithin reader fuel p = (count, words, q)) :
    ∃ log, Rule.repeatWithin rule fuel state = (count, state.extend words q log) ∧
      (state.extend words q log).At q := by
  induction fuel generalizing state p count words with
  | zero =>
    simp only [Reader.repeatWithin, Prod.mk.injEq] at hread
    obtain ⟨rfl, rfl, rfl⟩ := hread
    refine ⟨state.log, ?_, ?_⟩
    · rw [Rule.repeatWithin, extend_nil hat]
    · rw [extend_nil hat]
      exact hat
  | succ fuel ih =>
    cases hone : reader p with
    | none =>
      simp only [Reader.repeatWithin, hone, Prod.mk.injEq] at hread
      obtain ⟨rfl, rfl, rfl⟩ := hread
      obtain ⟨cursor, log, hrun⟩ := h.failed hat hone
      refine ⟨log, ?_, ?_⟩
      · rw [Rule.repeatWithin, hrun, extend_nil hat]
        exact congrArg _ (State.restore_failed state cursor log)
      · rw [extend_nil hat]
        exact hat.with_log log
    | some found =>
      obtain ⟨found, r⟩ := found
      obtain ⟨log, hrun, hr⟩ := h.matched hat hone
      have hmoved : (state.extend found r log).cursor = state.cursor ↔ r.offset = p.offset := by
        rw [← hat.cursor]
        rfl
      simp only [Reader.repeatWithin, hone] at hread
      rw [Rule.repeatWithin, hrun]
      by_cases hstop : r.offset = p.offset
      · rw [if_pos hstop] at hread
        obtain ⟨rfl, rfl, rfl⟩ := hread
        exact ⟨log, if_pos (hmoved.2 hstop), hr⟩
      · rw [if_neg hstop] at hread
        obtain ⟨rfl, rfl, rfl⟩ := hread
        obtain ⟨log', hrun', hs⟩ := ih hr rfl
        rw [extend_extend] at hrun' hs
        refine ⟨log', ?_, hs⟩
        dsimp only
        rw [if_neg (mt hmoved.1 hstop), hrun']

theorem repetition (h : Reads rule reader) :
    Reads (Rule.repetition rule false) (Reader.repetition reader) where
  matched {state p q words} hat hread := by
    match hr : Reader.repeatWithin reader (Text.byteSize p.rest + 1) p with
    | (0, found, r) =>
      simp only [Reader.repetition, hr, Option.some.injEq, Prod.mk.injEq] at hread
      obtain ⟨rfl, rfl⟩ := hread
      obtain ⟨log, hrun, hs⟩ := repeatWithin h _ hat hr
      refine ⟨log, ?_, hs.cut, rfl⟩
      rw [Rule.repetition, hat.remaining, hrun]
      simp [State.pushPlaceholder, State.push, State.extend]
    | (count + 1, found, r) =>
      simp only [Reader.repetition, hr, Option.some.injEq, Prod.mk.injEq] at hread
      obtain ⟨rfl, rfl⟩ := hread
      obtain ⟨log, hrun, hs⟩ := repeatWithin h _ hat hr
      refine ⟨log, ?_, hs⟩
      rw [Rule.repetition, hat.remaining, hrun]
  failed {state p} hat hread := by
    match hr : Reader.repeatWithin reader (Text.byteSize p.rest + 1) p with
    | (0, found, r) => simp [Reader.repetition, hr] at hread
    | (count + 1, found, r) => simp [Reader.repetition, hr] at hread

end Reads
end Grammar
end DeskCalc
