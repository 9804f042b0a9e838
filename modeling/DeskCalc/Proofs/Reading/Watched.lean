import DeskCalc.Proofs.Transaction

/-
Watched rules.

Nothing in the rules bounds how deep expressions nest or how often a repetition goes round.  A
watched rule runs on fuel that may run out, and writes down each time that it enters an
expression inside another one or starts another round.  `Tracks` ties it to the rule: from a
place of the source on it gives what the rule does, and each of these steps is a step to the
right.
-/
namespace DeskCalc
namespace Grammar

/-! ## Watched rules -/

/-- What a rule does next, and the cursors before and behind: it enters an expression while
another one is running, or it repeats itself behind a match. -/
inductive Advance where
  | nested (outer inner : Nat)
  | round (before after : Nat)
  deriving DecidableEq, Repr

/-- A step to the right. -/
def Advance.Forward : Advance → Prop
  | nested outer inner => outer < inner
  | round before after => before < after

/-- A result and the advances on the way to it, `none` if the fuel ran out. -/
def Watched (α : Type) : Type := Option (α × List Advance)

namespace Watched

instance : Monad Watched where
  pure a := some (a, [])
  bind x f := Option.bind x fun (a, before) =>
    Option.map (fun (b, behind) => (b, before ++ behind)) (f a)

def exhausted {α : Type} : Watched α := none

def note (advance : Advance) : Watched Unit := some ((), [advance])

def result? {α : Type} (x : Watched α) : Option α := Option.map Prod.fst x

end Watched

abbrev WatchedRule := State → Watched (Bool × State)

namespace WatchedRule

def inOrder : List WatchedRule → WatchedRule
  | [], state => pure (true, state)
  | rule :: rules, state => do
      let (matched, after) ← rule state
      if matched then inOrder rules after else pure (false, after)

def sequence (rules : List WatchedRule) : WatchedRule := fun state => do
  let (matched, after) ← inOrder rules state
  pure (matched, if matched then after else after.restore state.snapshot)

def firstFrom (snapshot : Snapshot) : List WatchedRule → WatchedRule
  | [], state => pure (false, state)
  | rule :: rules, state => do
      let (matched, after) ← rule state
      if matched then pure (true, after) else firstFrom snapshot rules (after.restore snapshot)

def alternative (rules : List WatchedRule) : WatchedRule := fun state =>
  firstFrom state.snapshot rules state

def asFarAs (before : Bool) : List WatchedRule → WatchedRule
  | [], state => pure (before, state)
  | rule :: rules, state => do
      let (matched, after) ← rule state
      if matched then asFarAs true rules after else pure (before, after.restore state.snapshot)

def optionalSequence (rules : List WatchedRule) : WatchedRule := asFarAs false rules

def repeatWithin (rule : WatchedRule) : Nat → State → Watched (Nat × State)
  | 0, _ => .exhausted
  | fuel + 1, state => do
      let (matched, after) ← rule state
      if !matched then pure (0, after.restore state.snapshot)
      else if after.cursor = state.cursor then pure (1, after)
      else do
        .note (.round state.cursor after.cursor)
        let (count, final) ← repeatWithin rule fuel after
        pure (count + 1, final)

def repetition (rule : WatchedRule) (atLeastOnce : Bool) (fuel : Nat) : WatchedRule :=
  fun state => do
    let (count, after) ← repeatWithin rule fuel state
    if count = 0 then
      pure (if atLeastOnce then (false, after) else (true, after.pushPlaceholder))
    else pure (true, after)

end WatchedRule

namespace Pattern

mutual

/-- The rule of a pattern, watched, with fuel for each repetition in it. -/
def watched (nested : WatchedRule) (fuel : Nat) : Pattern → WatchedRule
  | token t => fun state => pure (t.rule state)
  | expression => nested
  | sequence parts => .sequence (watchedAll nested fuel parts)
  | alternative parts => .alternative (watchedAll nested fuel parts)
  | optionalSequence parts => .optionalSequence (watchedAll nested fuel parts)
  | repetition part atLeastOnce => .repetition (watched nested fuel part) atLeastOnce fuel

def watchedAll (nested : WatchedRule) (fuel : Nat) : List Pattern → List WatchedRule
  | [] => []
  | part :: parts => watched nested fuel part :: watchedAll nested fuel parts

end

end Pattern

/-- An expression, watched, with fuel for the expressions nested in it. -/
def expression? : Nat → WatchedRule
  | 0, _ => .exhausted
  | fuel + 1, state =>
      expressionPattern.watched
        (fun inner => do
          .note (.nested state.cursor inner.cursor)
          expression? fuel inner)
        (fuel + 1) state

/-! ## Runs that go forward -/

namespace Watched

variable {α β : Type} {x : Watched α} {f : α → Watched β} {a : α} {b : β}

/-- The fuel lasts, this is the result, and every advance is a step to the right. -/
def Gives (x : Watched α) (a : α) : Prop :=
  ∃ advances, x = some (a, advances) ∧ ∀ advance ∈ advances, advance.Forward

theorem gives_pure (a : α) : Gives (pure a) a :=
  ⟨[], rfl, fun _ h => absurd h List.not_mem_nil⟩

theorem Gives.bind (h : x.Gives a) (h' : (f a).Gives b) : (x >>= f).Gives b := by
  obtain ⟨before, rfl, hbefore⟩ := h
  obtain ⟨behind, hf, hbehind⟩ := h'
  refine ⟨before ++ behind, ?_, List.forall_mem_append.2 ⟨hbefore, hbehind⟩⟩
  show Option.map _ (f a) = _
  rw [hf]
  rfl

theorem gives_note {advance : Advance} (h : advance.Forward) : (note advance).Gives () :=
  ⟨[advance], rfl, List.forall_mem_singleton.2 h⟩

theorem Gives.result? (h : x.Gives a) : x.result? = some a := by
  obtain ⟨advances, rfl, -⟩ := h
  rfl

end Watched

/-! ## Where a rule may start -/

/-- The state stands between two characters of a source, not before a cursor. -/
structure Ready (source : Text) (start : Nat) (state : State) : Prop where
  boundary : ∃ p, state.At p
  source : state.source = source
  start : start ≤ state.cursor

/-- From any state that is ready a match leads to one that is ready from a later cursor on. -/
def Leads (source : Text) (start later : Nat) (rule : Rule) : Prop :=
  ∀ ⦃state after : State⦄, Ready source start state → rule state = (true, after) →
    Ready source later after

/-- A match moves the cursor. -/
def Consumes (rule : Rule) : Prop :=
  ∀ ⦃state after : State⦄ ⦃p : Place⦄, state.At p → rule state = (true, after) →
    state.cursor < after.cursor

section Leads

variable {source : Text} {state after : State} {p : Place} {rule : Rule} {start : Nat}

theorem State.At.cursor_le (h : state.At p) : state.cursor ≤ state.source.byteSize := by
  obtain ⟨before, hsource, hsize⟩ := Text.dropBytes_eq_some_iff.1 h.cut
  rw [hsource, Text.byteSize_append]
  omega

theorem Ready.with_log (h : Ready source start state) (log : Log) :
    Ready source start { state with log } := by
  obtain ⟨⟨p, hat⟩, hsource, hstart⟩ := h
  exact ⟨⟨p, hat.with_log log⟩, hsource, hstart⟩

theorem Ready.remaining_le (h : Ready source start state) :
    state.remaining ≤ source.byteSize - start := by
  have hstart := h.start
  rw [State.remaining, h.source]
  omega

theorem Transactional.matched (h : Transactional rule) (hat : state.At p)
    (hrun : rule state = (true, after)) :
    ∃ q, after.At q ∧ after.source = state.source ∧ state.cursor ≤ after.cursor := by
  have hleaves := h hat
  rw [hrun] at hleaves
  cases hleaves with
  | @matched words q passes log => exact ⟨q, passes.at hat log, rfl, hat.cursor ▸ passes.le⟩

theorem Transactional.restored (h : Transactional rule) (hat : state.At p)
    (hrun : rule state = (false, after)) :
    ∃ log, after.restore state.snapshot = { state with log } := by
  have hleaves := h hat
  rw [hrun] at hleaves
  cases hleaves with
  | failed text blank log => exact ⟨log, State.restore_failed state _ log⟩

theorem Transactional.leads (h : Transactional rule) : Leads source start start rule := by
  intro state after hready hrun
  obtain ⟨p, hat⟩ := hready.boundary
  obtain ⟨q, hq, hsource, hle⟩ := h.matched hat hrun
  exact ⟨⟨q, hq⟩, hsource.trans hready.source, hready.start.trans hle⟩

theorem Consumes.leads (hconsumes : Consumes rule) (h : Transactional rule) :
    Leads source start (start + 1) rule := by
  intro state after hready hrun
  obtain ⟨p, hat⟩ := hready.boundary
  have hnext := h.leads hready hrun
  exact ⟨hnext.boundary, hnext.source, Nat.lt_of_le_of_lt hready.start (hconsumes hat hrun)⟩

/-- Behind a match that moved the cursor there is less to read. -/
theorem Transactional.remaining_lt (h : Transactional rule) (hat : state.At p)
    (hrun : rule state = (true, after)) (hlt : state.cursor < after.cursor) :
    after.remaining < state.remaining := by
  obtain ⟨q, hq, hsource, -⟩ := h.matched hat hrun
  have hbound := hq.cursor_le
  rw [State.remaining, State.remaining, hsource]
  rw [hsource] at hbound
  omega

end Leads

/-! ## Watched rules and rules -/

open Watched

/-- Where it may start, the watched rule gives what the rule does. -/
def Tracks (source : Text) (start : Nat) (watched : WatchedRule) (rule : Rule) : Prop :=
  ∀ ⦃state : State⦄, Ready source start state → (watched state).Gives (rule state)

namespace Tracks

variable {source : Text} {start later : Nat} {watched : WatchedRule} {rule : Rule}
  {watcheds : List WatchedRule} {rules : List Rule}

theorem inOrder_nil : Tracks source start (WatchedRule.inOrder []) (Rule.inOrder []) :=
  fun state _ => gives_pure (true, state)

/-- What comes behind the first rule starts where that one leads. -/
theorem inOrder_cons (hfirst : Tracks source start watched rule)
    (hleads : Leads source start later rule)
    (hrest : Tracks source later (WatchedRule.inOrder watcheds) (Rule.inOrder rules)) :
    Tracks source start (WatchedRule.inOrder (watched :: watcheds))
      (Rule.inOrder (rule :: rules)) := by
  intro state hready
  refine (hfirst hready).bind ?_
  rw [Rule.inOrder]
  rcases hrun : rule state with ⟨matched, after⟩
  cases matched with
  | true => exact hrest (hleads hready hrun)
  | false => exact gives_pure (false, after)

theorem inOrder (h : List.Forall₂ (Tracks source start) watcheds rules)
    (htransactional : ∀ rule ∈ rules, Transactional rule) :
    Tracks source start (WatchedRule.inOrder watcheds) (Rule.inOrder rules) := by
  induction h with
  | nil => exact inOrder_nil
  | cons hfirst _ ih =>
    obtain ⟨hrule, hrules⟩ := List.forall_mem_cons.1 htransactional
    exact inOrder_cons hfirst hrule.leads (ih hrules)

theorem sequence
    (h : Tracks source start (WatchedRule.inOrder watcheds) (Rule.inOrder rules)) :
    Tracks source start (WatchedRule.sequence watcheds) (Rule.sequence rules) := by
  intro state hready
  refine (h hready).bind ?_
  rw [Rule.sequence]
  rcases Rule.inOrder rules state with ⟨matched, after⟩
  cases matched with
  | true => exact gives_pure (true, after)
  | false => exact gives_pure (false, after.restore state.snapshot)

theorem asFarAs_nil (before : Bool) :
    Tracks source start (WatchedRule.asFarAs before []) (Rule.asFarAs before []) :=
  fun state _ => gives_pure (before, state)

theorem asFarAs_cons (hfirst : Tracks source start watched rule)
    (hleads : Leads source start later rule)
    (hrest : Tracks source later (WatchedRule.asFarAs true watcheds) (Rule.asFarAs true rules))
    (before : Bool) :
    Tracks source start (WatchedRule.asFarAs before (watched :: watcheds))
      (Rule.asFarAs before (rule :: rules)) := by
  intro state hready
  refine (hfirst hready).bind ?_
  rw [Rule.asFarAs]
  rcases hrun : rule state with ⟨matched, after⟩
  cases matched with
  | true => exact hrest (hleads hready hrun)
  | false => exact gives_pure (before, after.restore state.snapshot)

theorem asFarAs (h : List.Forall₂ (Tracks source start) watcheds rules)
    (htransactional : ∀ rule ∈ rules, Transactional rule) (before : Bool) :
    Tracks source start (WatchedRule.asFarAs before watcheds) (Rule.asFarAs before rules) := by
  induction h generalizing before with
  | nil => exact asFarAs_nil before
  | cons hfirst _ ih =>
    obtain ⟨hrule, hrules⟩ := List.forall_mem_cons.1 htransactional
    exact asFarAs_cons hfirst hrule.leads (ih hrules true) before

/-- Each alternative starts in the same place, with a log that grows. -/
theorem alternative (htransactional : ∀ rule ∈ rules, Transactional rule)
    (h : List.Forall₂ (Tracks source start) watcheds rules) :
    Tracks source start (WatchedRule.alternative watcheds) (Rule.alternative rules) := by
  intro state hready
  suffices hfrom : ∀ log, (WatchedRule.firstFrom state.snapshot watcheds { state with log }).Gives
      (Rule.firstFrom state.snapshot rules { state with log }) from hfrom state.log
  induction h with
  | nil => exact fun log => gives_pure (false, ({ state with log } : State))
  | @cons watched rule watcheds rules hfirst _ ih =>
    obtain ⟨hrule, hrules⟩ := List.forall_mem_cons.1 htransactional
    intro log
    have hready' := hready.with_log log
    refine (hfirst hready').bind ?_
    rw [Rule.firstFrom]
    rcases hrun : rule { state with log } with ⟨matched, after⟩
    cases matched with
    | true => exact gives_pure (true, after)
    | false =>
      obtain ⟨p, hat⟩ := hready'.boundary
      obtain ⟨log', hrestored⟩ := hrule.restored hat hrun
      have hsnapshot : after.restore state.snapshot = { state with log := log' } := hrestored
      show Gives (WatchedRule.firstFrom state.snapshot watcheds (after.restore state.snapshot))
        (Rule.firstFrom state.snapshot rules (after.restore state.snapshot))
      rw [hsnapshot]
      exact ih hrules log'

/-- A round that is followed by another one moved the cursor, so the bytes that remain bound
the rounds that are left. -/
theorem repeatWithin (h : Tracks source start watched rule) (htransactional : Transactional rule)
    (rounds rounds' : Nat) {state : State} (hready : Ready source start state)
    (hrounds : state.remaining < rounds) (hrounds' : state.remaining < rounds') :
    (WatchedRule.repeatWithin watched rounds state).Gives
      (Rule.repeatWithin rule rounds' state) := by
  induction rounds generalizing rounds' state with
  | zero => omega
  | succ rounds ih =>
    cases rounds' with
    | zero => omega
    | succ rounds' =>
      refine (h hready).bind ?_
      rw [Rule.repeatWithin]
      rcases hrun : rule state with ⟨matched, after⟩
      cases matched with
      | false => exact gives_pure (0, after.restore state.snapshot)
      | true =>
        obtain ⟨p, hat⟩ := hready.boundary
        obtain ⟨q, hq, hsource, hle⟩ := htransactional.matched hat hrun
        by_cases hstop : after.cursor = state.cursor
        · simp only [Bool.not_true, Bool.false_eq_true, if_false, if_pos hstop]
          exact gives_pure (1, after)
        · have hlt : state.cursor < after.cursor := by omega
          have hless := htransactional.remaining_lt hat hrun hlt
          simp only [Bool.not_true, Bool.false_eq_true, if_false, if_neg hstop]
          have hforward : Advance.Forward (.round state.cursor after.cursor) := hlt
          refine (gives_note hforward).bind ?_
          exact (ih rounds' (htransactional.leads hready hrun) (by omega) (by omega)).bind
            (gives_pure _)

theorem repetition (h : Tracks source start watched rule) (htransactional : Transactional rule)
    {fuel : Nat} (hfuel : source.byteSize - start < fuel) (atLeastOnce : Bool) :
    Tracks source start (WatchedRule.repetition watched atLeastOnce fuel)
      (Rule.repetition rule atLeastOnce) := by
  intro state hready
  have hrounds := Nat.lt_of_le_of_lt hready.remaining_le hfuel
  refine (h.repeatWithin htransactional fuel (state.remaining + 1) hready hrounds
    (Nat.lt_succ_self _)).bind ?_
  rw [Rule.repetition]
  rcases Rule.repeatWithin rule (state.remaining + 1) state with ⟨count, after⟩
  cases count with
  | zero => exact gives_pure _
  | succ count => exact gives_pure (true, after)

end Tracks

end Grammar
end DeskCalc
