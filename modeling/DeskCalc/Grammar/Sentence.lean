import DeskCalc.Error
import DeskCalc.Grammar.Expression

/-
Reading a whole source.

A source is accepted if an expression covers all of it.  Otherwise the diagnostic
furthest to the right says why not.
-/
namespace DeskCalc

open Grammar

/-- The diagnostic that explains a rejected source, and the log that holds it. -/
def explain (log : Log) (cursor : Nat) : String × Span × Log :=
  match log.latest? with
  | some entry => (entry.message, entry.span, log)
  | none =>
      let message := "invalid expression"
      (message, .point cursor, log.add message (.point cursor) true)

/-- The words of a source without the virtual ones, and the log afterwards. -/
def parse (source : Text) (log : Log) : Except ParseError (List Word) × Log :=
  let (matched, state) := expression { source, log }
  let state := state.skipBlanks
  let leftover := state.rest.trimEnd
  let words := state.words.filter fun word => !word.isVirtual
  if !matched || words.isEmpty then
    let (message, span, log) := explain state.log state.cursor
    (.error (.invalidExpression message span), log)
  else if !leftover.isEmpty then
    let (message, span, log) := explain state.log state.cursor
    (.error (.unconsumedInput leftover message span), log)
  else (.ok words, state.log)

def joinTexts (words : List Word) : Text := [' '].intercalate (words.map Word.text)

/-- A source with its layout made uniform. -/
def format (source : Text) : Except ParseError Text := (parse source {}).1.map joinTexts

end DeskCalc
