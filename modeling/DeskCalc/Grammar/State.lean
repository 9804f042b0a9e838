import DeskCalc.Diagnostic.Log
import DeskCalc.Text.Blank
import DeskCalc.Word

/-
The state of reading a source: a cursor, the words found so far, and the log.

Going back to a snapshot undoes the cursor and the words but keeps the log, which
is how the log learns of every attempt.
-/
namespace DeskCalc
namespace Grammar

structure State where
  source : Text
  cursor : Nat := 0
  words : List Word := []
  log : Log := {}
  deriving DecidableEq, Repr

structure Snapshot where
  cursor : Nat
  count : Nat
  deriving DecidableEq, Repr

namespace State

/-- The text from the cursor on; empty if the cursor is inside a character. -/
def rest (state : State) : Text := (state.source.dropBytes state.cursor).getD []

/-- The bytes from the cursor to the end. -/
def remaining (state : State) : Nat := state.source.byteSize - state.cursor

def snapshot (state : State) : Snapshot := ⟨state.cursor, state.words.length⟩

def restore (state : State) (snapshot : Snapshot) : State :=
  { state with cursor := snapshot.cursor, words := state.words.take snapshot.count }

def skipBlanks (state : State) : State :=
  { state with cursor := state.cursor + Text.byteSize (state.rest.takeWhile Text.isBlank) }

def advance (state : State) (size : Nat) : State :=
  { state with cursor := min (state.cursor + size) state.source.byteSize }

def push (state : State) (word : Word) : State := { state with words := state.words ++ [word] }

def pushPlaceholder (state : State) : State := state.push (.placeholder state.cursor)

/-- What the last word calls for; virtual words do not count. -/
def due (state : State) : Turn :=
  match state.words.reverse.find? fun word => !word.isVirtual with
  | some word => if word.kind.endsOperand then .operator else .operand
  | none => .operand

def expect (state : State) (expectation : Expectation) (forced : Bool) : State :=
  { state with log := state.log.expect expectation state.cursor state.due forced }

def report (state : State) (message : String) (span : Span) (forced : Bool) : State :=
  { state with log := state.log.add message span forced }

end State
end Grammar
end DeskCalc
