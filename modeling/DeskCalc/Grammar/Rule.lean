import DeskCalc.Grammar.State

/-
Rules and the ways of combining them.

A rule matches, adding words and moving the cursor, or fails.  A combined rule
that fails leaves the words as they were; what it may change is the log.
-/
namespace DeskCalc
namespace Grammar

/-- Whether the rule matched, and the state after it. -/
abbrev Rule := State → Bool × State

namespace Rule

def empty : Rule := fun state => (true, state)

/-- All rules in order, up to the first that fails. -/
def inOrder : List Rule → Rule
  | [], state => (true, state)
  | rule :: rules, state =>
      match rule state with
      | (true, state) => inOrder rules state
      | (false, state) => (false, state)

/-- All rules in order, or nothing at all. -/
def sequence (rules : List Rule) : Rule := fun state =>
  match inOrder rules state with
  | (true, after) => (true, after)
  | (false, after) => (false, after.restore state.snapshot)

def firstFrom (snapshot : Snapshot) : List Rule → Rule
  | [], state => (false, state)
  | rule :: rules, state =>
      match rule state with
      | (true, state) => (true, state)
      | (false, state) => firstFrom snapshot rules (state.restore snapshot)

def alternative (rules : List Rule) : Rule := fun state =>
  firstFrom state.snapshot rules state

/-- Rules in order as far as they match; `matched` tells whether one did before. -/
def asFarAs (matched : Bool) : List Rule → Rule
  | [], state => (matched, state)
  | rule :: rules, state =>
      match rule state with
      | (true, state) => asFarAs true rules state
      | (false, after) => (matched, after.restore state.snapshot)

/-- Rules in order as far as they match, the first one at least. -/
def optionalSequence (rules : List Rule) : Rule := asFarAs false rules

/-- A rule over and over, at most `fuel` times, and how often it matched.  A
match that does not move the cursor is the last one. -/
def repeatWithin (rule : Rule) : Nat → State → Nat × State
  | 0, state => (0, state)
  | fuel + 1, state =>
      match rule state with
      | (false, after) => (0, after.restore state.snapshot)
      | (true, after) =>
          if after.cursor = state.cursor then (1, after)
          else
            let (count, final) := repeatWithin rule fuel after
            (count + 1, final)

/-- A rule as often as it matches.  If that is not at all, the repetition fails
when it has to match once, and leaves a placeholder otherwise. -/
def repetition (rule : Rule) (atLeastOnce : Bool) : Rule := fun state =>
  match repeatWithin rule (state.remaining + 1) state with
  | (0, after) => if atLeastOnce then (false, after) else (true, after.pushPlaceholder)
  | (_ + 1, after) => (true, after)

end Rule
end Grammar
end DeskCalc
