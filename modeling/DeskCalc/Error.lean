import DeskCalc.Operator
import DeskCalc.Register

/-
What can go wrong in a calculation.

An error names its cause and the part of the source to look at; `message` gives
the wording.
-/
namespace DeskCalc

inductive ParseError where
  /-- Nothing at the start of the source forms an expression. -/
  | invalidExpression (message : String) (span : Span)
  /-- An expression was read but more text follows. -/
  | unconsumedInput (leftover : Text) (message : String) (span : Span)
  | unbalancedGrouping (span : Span)
  deriving DecidableEq, Repr

namespace ParseError

def message : ParseError → String
  | invalidExpression message _ => message
  | unconsumedInput _ message _ => message
  | unbalancedGrouping _ => "unbalanced parentheses"

def span : ParseError → Span
  | invalidExpression _ span => span
  | unconsumedInput _ _ span => span
  | unbalancedGrouping span => span

end ParseError

/-- Arguments and results outside the domain of an operation. -/
inductive DomainError where
  | numberOutOfRange
  | resultOutOfRange
  | undefined (builtin : Builtin) (argument : Decimal)
  | callOutOfRange (builtin : Builtin) (argument : Decimal)
  | powerOutOfRange (base exponent : Decimal)
  | negativeBase (base exponent : Decimal)
  deriving DecidableEq, Repr

def DomainError.message : DomainError → String
  | numberOutOfRange => "number is out of range"
  | resultOutOfRange => "result is out of range"
  | undefined builtin x => s!"{builtin.name} is undefined for {x}"
  | callOutOfRange builtin x => s!"{builtin.name}({x}) is out of range"
  | powerOutOfRange base exponent => s!"{base} ^ {exponent} is out of range"
  | negativeBase base exponent =>
      s!"cannot raise negative {base} to fractional power {exponent}"

inductive EvalError where
  | unknownFunction (name : Text) (span : Span)
  | unknownOperator (symbol : Text) (span : Span)
  | argumentCount (builtin : Builtin) (expected : Arity) (found : Nat) (span : Span)
  | argumentType (expected : ParamType) (found : Decimal) (span : Span)
  | divisionByZero (span : Span)
  /-- A register is named but none is at hand. -/
  | unknownRegister (key : Text) (span : Span)
  | register (cause : RegisterError) (span : Span)
  | malformedLiteral (text : Text) (span : Span)
  | domain (cause : DomainError) (span : Span)
  | missingOperand (symbol : String) (span : Span)
  deriving DecidableEq, Repr

namespace EvalError

def message : EvalError → String
  | unknownFunction name _ => s!"unknown function '{String.ofList name}'"
  | unknownOperator symbol _ => s!"unknown operator '{String.ofList symbol}'"
  | argumentCount builtin expected found _ =>
      s!"{builtin.name}: expecting {expected} parameters got {found}"
  | argumentType expected found _ => s!"this param must be {expected.name}, got {found}"
  | divisionByZero _ => "cannot divide by zero"
  | unknownRegister key _ => s!"unknown register: {String.ofList key}"
  | register cause _ => cause.message
  | malformedLiteral text _ => s!"malformed number '{String.ofList text}'"
  | domain cause _ => cause.message
  | missingOperand symbol _ => s!"missing operand for '{symbol}'"

def span : EvalError → Span
  | unknownFunction _ span => span
  | unknownOperator _ span => span
  | argumentCount _ _ _ span => span
  | argumentType _ _ span => span
  | divisionByZero span => span
  | unknownRegister _ span => span
  | register _ span => span
  | malformedLiteral _ span => span
  | domain _ span => span
  | missingOperand _ span => span

end EvalError

/-- Any error of a calculation. -/
inductive CalcError where
  | parsing (error : ParseError)
  | evaluation (error : EvalError)
  deriving DecidableEq, Repr

namespace CalcError

def message : CalcError → String
  | parsing error => error.message
  | evaluation error => error.message

def span : CalcError → Span
  | parsing error => error.span
  | evaluation error => error.span

end CalcError
end DeskCalc
