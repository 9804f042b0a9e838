import DeskCalc.Builtin
import DeskCalc.Grammar.Rule
import DeskCalc.Lexeme

/-
Rules for single tokens.

Each skips blanks, then takes the token that it is for or records that this token
was expected.
-/
namespace DeskCalc
namespace Grammar

def missing (expectation : Expectation) (forced : Bool) (state : State) : Bool × State :=
  (false, state.expect expectation forced)

/-- A token of a text that stands at the cursor. -/
def found (word : Word) (state : State) : Bool × State :=
  (true, (state.advance word.text.byteSize).push word)

/-- The kind and normal form of a word for a value. -/
def operandOf? : Lexeme → Option (WordKind × Text)
  | .decimal value | .hex value | .octal value => some (.number, value)
  | .register name => some (.register, name)
  | .registerRange name => some (.registerRange, name)
  | _ => none

/-- The word for a value at the start of a text.  A literal that runs into a
letter, a digit or a low line is none. -/
def operandWord? (text : Text) (offset : Nat) : Option Word := do
  let (lexeme, size) ← Lexeme.first? text
  let (kind, value) ← operandOf? lexeme
  if Lexeme.atWordBoundary (text.drop size) then
    some { text := text.take size, value, kind, offset }
  else none

def number : Rule := fun state =>
  let state := state.skipBlanks
  match operandWord? state.rest state.cursor with
  | some word => found word state
  | none => missing .number false state

def isOperatorSymbol (c : Char) : Bool := ['+', '-', '*', '/', '^'].contains c

def operator : Rule := fun state =>
  let state := state.skipBlanks
  match state.rest with
  | c :: _ =>
      if isOperatorSymbol c then found (.plain [c] .operator state.cursor) state
      else missing .operator false state
  | [] => missing .operator false state

def punctuation (symbol : Char) (kind : WordKind) (expectation : Expectation) (forced : Bool) :
    Rule := fun state =>
  let state := state.skipBlanks
  if state.rest.head? = some symbol then found (.plain [symbol] kind state.cursor) state
  else missing expectation forced state

def leftParen : Rule := punctuation '(' .leftParen .leftParen false

/-- A missing `)` is the most useful thing to report at its place. -/
def rightParen : Rule := punctuation ')' .rightParen .rightParen true

def comma : Rule := punctuation ',' .comma .comma false

/-- The comma that may stand before the `)` of a call. -/
def trailingComma : Rule := punctuation ',' .trailingComma .comma false

/-- The name of a builtin.  Another name with a `(` behind it is meant as a call,
which is reported; any other name may be something else. -/
def functionName : Rule := fun state =>
  let state := state.skipBlanks
  match Lexeme.first? state.rest with
  | some (.identifier name, size) =>
      if (Builtin.ofName? name).isSome then
        found (.plain name .functionName state.cursor) state
      else if (Text.trimStart (state.rest.drop size)).head? = some '(' then
        (false, state.report s!"unknown function '{String.ofList name}'"
          ⟨state.cursor, state.cursor + size⟩ true)
      else missing .functionName false state
  | _ => missing .functionName false state

end Grammar
end DeskCalc
