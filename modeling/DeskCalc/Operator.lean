import DeskCalc.Builtin
import DeskCalc.Word

/-
Operators of an evaluation and their weights.

A weight says how early an operator is applied.  The arithmetic operators have
the weights of their precedence; a parenthesis lifts everything inside it above
everything outside.
-/
namespace DeskCalc

inductive Arithmetic where
  | add
  | sub
  | mul
  | div
  /-- Associates to the left, like the others. -/
  | pow
  deriving DecidableEq, Repr

namespace Arithmetic

def all : List Arithmetic := [add, sub, mul, div, pow]

def symbol : Arithmetic → Char
  | add => '+'
  | sub => '-'
  | mul => '*'
  | div => '/'
  | pow => '^'

def ofSymbol? : Text → Option Arithmetic
  | [c] => all.find? fun op => op.symbol == c
  | _ => none

def weight : Arithmetic → Int
  | add | sub => 10
  | mul | div => 20
  | pow => 30

end Arithmetic

inductive OperatorKind where
  | arithmetic (op : Arithmetic)
  | openParen
  | closeParen
  /-- Separates the arguments of a call. -/
  | comma
  | call (builtin : Builtin)
  deriving DecidableEq, Repr

namespace OperatorKind

/-- The lift of a parenthesis and the weight of a call. -/
def groupWeight : Int := 100

/-- The weight outside all parentheses. -/
def weight : OperatorKind → Int
  | arithmetic op => op.weight
  | openParen => groupWeight
  | closeParen => 0
  | comma => 0
  | call _ => groupWeight

def symbol : OperatorKind → String
  | arithmetic op => op.symbol.toString
  | openParen => "("
  | closeParen => ")"
  | comma => ","
  | call builtin => builtin.name

/-- The kinds that a call takes in together with its arguments. -/
def isDelimiter : OperatorKind → Bool
  | openParen | closeParen | comma => true
  | _ => false

end OperatorKind

/-- An operator with its place in the order of application.  The comma between
two values of a register range has no words. -/
structure Operator where
  kind : OperatorKind
  weight : Int
  words : List Word
  deriving DecidableEq, Repr

namespace Operator

def symbol (operator : Operator) : String := operator.kind.symbol

def span? (operator : Operator) : Option Span := Word.spanOf? operator.words

end Operator
end DeskCalc
