import DeskCalc.Span

/-
Diagnostics: what was expected or wrong at a position of a source.
-/
namespace DeskCalc

/-- What the words read so far call for: a value, or something that follows a
value. -/
inductive Turn where
  | operand
  | operator
  deriving DecidableEq, Repr

inductive Expectation where
  | number
  | operator
  | leftParen
  | rightParen
  | comma
  | functionName
  deriving DecidableEq, Repr

namespace Expectation

def turn : Expectation → Turn
  | number | leftParen | functionName => .operand
  | operator | rightParen | comma => .operator

def name : Expectation → String
  | number => "number"
  | operator => "operator"
  | leftParen => "'('"
  | rightParen => "')'"
  | comma => "','"
  | functionName => "function name"

def all : List Expectation := [number, operator, leftParen, rightParen, comma, functionName]

def message (expectation : Expectation) : String := s!"expecting {expectation.name}"

end Expectation

structure Diagnostic where
  message : String
  /-- The text in question; empty for a single position. -/
  span : Span
  /-- When the expected token is due, if a token was expected. -/
  turn : Option Turn
  /-- Holds against everything that is not forced. -/
  forced : Bool
  deriving DecidableEq, Repr

end DeskCalc
