import DeskCalc.Grammar.Token

/-
The grammar of expressions.

    expression := operand (operator expression)*
    operand    := number (operator number)*  |  '(' expression ')'  |  call
    call       := name '(' expression (',' expression)* [','] ')'

Every expression inside another one starts further to the right, so the depth of
nesting is bounded by the bytes that remain.
-/
namespace DeskCalc
namespace Grammar

open Rule

/-- Numbers with operators between them. -/
def numberRun : Rule :=
  optionalSequence [number, repetition (sequence [operator, number]) false]

/-! ## Rules that contain expressions -/

def groupOf (expression : Rule) : Rule := sequence [leftParen, expression, rightParen]

def argumentsOf (expression : Rule) : Rule :=
  optionalSequence
    [expression, repetition (sequence [comma, expression]) false, trailingComma]

def callOf (expression : Rule) : Rule :=
  sequence [functionName, leftParen, argumentsOf expression, rightParen]

def operandOf (expression : Rule) : Rule :=
  alternative [numberRun, groupOf expression, callOf expression]

def expressionOf (expression : Rule) : Rule :=
  optionalSequence
    [operandOf expression, repetition (sequence [operator, expression]) false]

/-- An expression nested at most `depth` deep. -/
def expressionWithin : Nat → Rule
  | 0, state => (false, state)
  | depth + 1, state => expressionOf (expressionWithin depth) state

def expression : Rule := fun state => expressionWithin (state.remaining + 1) state

/-- An expression in parentheses. -/
def group : Rule := groupOf expression

/-- A builtin with at least one argument. -/
def call : Rule := callOf expression

end Grammar
end DeskCalc
