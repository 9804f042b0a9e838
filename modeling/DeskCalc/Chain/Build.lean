import DeskCalc.Chain.Basic
import DeskCalc.Context
import DeskCalc.Error

/-
Building a chain from words.

The words are taken one after the other.  Number words are read and register
words are looked up; an operator gets its weight from its kind and the number of
parentheses that are open.
-/
namespace DeskCalc
namespace Chain

/-- What has been built: operands with the operator behind each of them, and the
last operand if no operator follows it yet. -/
structure Assembly where
  pairs : List (Number × Operator) := []
  last : Option Number := none
  /-- The weight that the open parentheses add. -/
  base : Int := 0
  deriving Repr

namespace Assembly

def wantsOperand (assembly : Assembly) : Bool := assembly.last.isNone

def pushOperand (assembly : Assembly) (number : Number) : Assembly :=
  { assembly with last := some number }

/-- An operator behind the last operand, or behind a placeholder if there is
none. -/
def pushOperator (assembly : Assembly) (kind : OperatorKind) (words : List Word) : Assembly :=
  let operator : Operator := ⟨kind, kind.weight + assembly.base, words⟩
  { assembly with
    pairs := assembly.pairs ++ [(assembly.last.getD .placeholder, operator)]
    last := none }

/-- Values with a comma between each two. -/
def pushList (assembly : Assembly) : List Number → Assembly
  | [] => assembly
  | [number] => assembly.pushOperand number
  | number :: rest => ((assembly.pushOperand number).pushOperator .comma []).pushList rest

def openGroup (assembly : Assembly) (word : Word) : Assembly :=
  let pushed := assembly.pushOperator .openParen [word]
  { pushed with base := pushed.base + OperatorKind.groupWeight }

def closeGroup (assembly : Assembly) (word : Word) : Assembly :=
  let pushed := (assembly.pushOperator .closeParen [word]).pushOperand .placeholder
  { pushed with base := pushed.base - OperatorKind.groupWeight }

def toRow : List (Number × Operator) → Number → Row
  | [], last => ⟨last, []⟩
  | (number, operator) :: rest, last => (toRow rest last).attach number operator

end Assembly

/-! ## Values of words -/

/-- The key or range that a register word names, without the leading mark. -/
def registerKey (word : Word) : Text := (Text.after? ['@'] word.value).getD word.value

def operand (word : Word) (value : Decimal) : Number := { value := some value, words := [word] }

def literalValue (context : Context) (word : Word) : Except EvalError Decimal :=
  match Decimal.read? word.value with
  | none => .error (.malformedLiteral word.text word.span)
  | some value =>
      match Context.confine value with
      | none => .error (.domain .numberOutOfRange word.span)
      | some value => .ok (context.snapped value)

/-- The value of a stored number, for the word that refers to it. -/
def storedValue (word : Word) (number : Number) : Except EvalError Decimal :=
  match number.value with
  | some value => .ok value
  | none => .error (.register (.notFound word.value) word.span)

/-- The register, or an error at the word that needs it. -/
def requireRegister (register : Option Register) (word : Word) : Except EvalError Register :=
  match register with
  | some register => .ok register
  | none => .error (.unknownRegister word.text word.span)

def atWord {α : Type} (word : Word) : Except RegisterError α → Except EvalError α
  | .ok value => .ok value
  | .error cause => .error (.register cause word.span)

def registerValue (register : Option Register) (word : Word) : Except EvalError Decimal := do
  let register ← requireRegister register word
  let number ← atWord word (register.read (registerKey word))
  storedValue word number

def rangeValues (register : Option Register) (word : Word) : Except EvalError (List Decimal) := do
  let register ← requireRegister register word
  match Text.splitAt? '_' (registerKey word) with
  | none => .error (.malformedLiteral word.text word.span)
  | some (first, last) => do
      let numbers ← atWord word (register.readRange first last)
      numbers.mapM (storedValue word)

/-- The values that an operand word stands for: several for a register range, else
one. -/
def wordValues (context : Context) (register : Option Register) (word : Word) :
    Except EvalError (List Decimal) :=
  match word.kind with
  | .registerRange => rangeValues register word
  | .register => (registerValue register word).map fun value => [value]
  | _ => (literalValue context word).map fun value => [value]

/-! ## Words in turn -/

def fits (wantsOperand : Bool) (kind : WordKind) : Bool :=
  kind.isVirtual || (kind.isOperand || kind.isOpening) == wantsOperand

def misplaced (wantsOperand : Bool) (span : Span) : CalcError :=
  .parsing (.invalidExpression
    (if wantsOperand then "expecting number" else "expecting operator") span)

def inEvaluation {α : Type} : Except EvalError α → Except CalcError α
  | .ok value => .ok value
  | .error error => .error (.evaluation error)

def place (context : Context) (register : Option Register) (assembly : Assembly) (word : Word) :
    Except CalcError Assembly :=
  match word.kind with
  | .leftParen => .ok (assembly.openGroup word)
  | .rightParen =>
      let closed := assembly.closeGroup word
      if closed.base < 0 then .error (.parsing (.unbalancedGrouping word.span)) else .ok closed
  | .functionName =>
      match Builtin.ofName? word.value with
      | none => .error (.evaluation (.unknownFunction word.text word.span))
      | some builtin => .ok (assembly.pushOperator (.call builtin) [word])
  | .operator =>
      match Arithmetic.ofSymbol? word.value with
      | none => .error (.evaluation (.unknownOperator word.text word.span))
      | some op => .ok (assembly.pushOperator (.arithmetic op) [word])
  | .comma => .ok (assembly.pushOperator .comma [word])
  | .number | .register | .registerRange =>
      (inEvaluation (wordValues context register word)).map fun values =>
        assembly.pushList (values.map (operand word))
  | .placeholder | .trailingComma => .ok assembly

def take (context : Context) (register : Option Register) (assembly : Assembly) (word : Word) :
    Except CalcError Assembly :=
  if fits assembly.wantsOperand word.kind then place context register assembly word
  else .error (misplaced assembly.wantsOperand word.span)

/-- The chain of words, whose last one stops at `stop`. -/
def finish (assembly : Assembly) (stop : Nat) : Except CalcError Chain :=
  if assembly.base ≠ 0 then .error (.parsing (.unbalancedGrouping (.point stop)))
  else
    match assembly.last with
    | none => .error (misplaced true (.point stop))
    | some last => .ok { Assembly.toRow assembly.pairs last with }

def ofWords (words : List Word) (register : Option Register) (context : Context) :
    Except CalcError Chain := do
  let assembly ← words.foldlM (take context register) {}
  finish assembly ((words.getLast?.map Word.stop).getD 0)

end Chain
end DeskCalc
