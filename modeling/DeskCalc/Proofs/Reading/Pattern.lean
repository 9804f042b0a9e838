import DeskCalc.Grammar.Expression

/-
Patterns: the rules that can be built.

A pattern is the syntax of a rule: tokens and expressions, and the ways of combining rules, in
any nesting.  What holds of the rule of every pattern is proved by induction on the pattern.
The rules of the grammar are rules of patterns, and `expressionPattern` is what an expression
consists of.
-/
namespace DeskCalc
namespace Grammar

/-- The rules that read a single token. -/
inductive TokenRule where
  | number
  | operator
  | leftParen
  | rightParen
  | comma
  | trailingComma
  | functionName
  deriving DecidableEq, Repr

def TokenRule.rule : TokenRule → Rule
  | number => Grammar.number
  | operator => Grammar.operator
  | leftParen => Grammar.leftParen
  | rightParen => Grammar.rightParen
  | comma => Grammar.comma
  | trailingComma => Grammar.trailingComma
  | functionName => Grammar.functionName

inductive Pattern where
  | token (token : TokenRule)
  | expression
  | sequence (parts : List Pattern)
  | alternative (parts : List Pattern)
  | optionalSequence (parts : List Pattern)
  | repetition (part : Pattern) (atLeastOnce : Bool)
  deriving Repr

namespace Pattern

/-- What holds of a pattern if it holds of its parts holds of every pattern. -/
@[elab_as_elim, induction_eliminator]
theorem inductionOn {motive : Pattern → Prop} (token : ∀ t, motive (.token t))
    (expression : motive .expression)
    (sequence : ∀ parts, (∀ part ∈ parts, motive part) → motive (.sequence parts))
    (alternative : ∀ parts, (∀ part ∈ parts, motive part) → motive (.alternative parts))
    (optionalSequence : ∀ parts, (∀ part ∈ parts, motive part) → motive (.optionalSequence parts))
    (repetition : ∀ part atLeastOnce, motive part → motive (.repetition part atLeastOnce))
    (pattern : Pattern) : motive pattern := by
  refine @Pattern.rec motive (fun parts => ∀ part ∈ parts, motive part) token expression sequence
    alternative optionalSequence repetition ?_ ?_ pattern
  · exact fun part hpart => absurd hpart List.not_mem_nil
  · exact fun first parts hfirst hparts => List.forall_mem_cons.2 ⟨hfirst, hparts⟩

/-! ## Rules of patterns -/

mutual

/-- The rule of a pattern, given the rule for the expressions in it. -/
def rule (nested : Rule) : Pattern → Rule
  | token t => t.rule
  | expression => nested
  | sequence parts => Rule.sequence (rules nested parts)
  | alternative parts => Rule.alternative (rules nested parts)
  | optionalSequence parts => Rule.optionalSequence (rules nested parts)
  | repetition part atLeastOnce => Rule.repetition (rule nested part) atLeastOnce

def rules (nested : Rule) : List Pattern → List Rule
  | [] => []
  | part :: parts => rule nested part :: rules nested parts

end

theorem forall_mem_rules {Holds : Rule → Prop} {nested : Rule} {parts : List Pattern}
    (h : ∀ part ∈ parts, Holds (rule nested part)) : ∀ r ∈ rules nested parts, Holds r := by
  induction parts with
  | nil => exact fun r hr => absurd hr List.not_mem_nil
  | cons part parts ih =>
    obtain ⟨hpart, hparts⟩ := List.forall_mem_cons.1 h
    exact List.forall_mem_cons.2 ⟨hpart, ih hparts⟩

end Pattern

/-! ## The grammar -/

def numberRunPattern : Pattern :=
  .optionalSequence
    [.token .number, .repetition (.sequence [.token .operator, .token .number]) false]

def groupPattern : Pattern :=
  .sequence [.token .leftParen, .expression, .token .rightParen]

def argumentsPattern : Pattern :=
  .optionalSequence
    [.expression, .repetition (.sequence [.token .comma, .expression]) false,
      .token .trailingComma]

def callPattern : Pattern :=
  .sequence [.token .functionName, .token .leftParen, argumentsPattern, .token .rightParen]

def operandPattern : Pattern := .alternative [numberRunPattern, groupPattern, callPattern]

def expressionPattern : Pattern :=
  .optionalSequence
    [operandPattern, .repetition (.sequence [.token .operator, .expression]) false]

theorem rule_numberRunPattern (nested : Rule) : numberRunPattern.rule nested = numberRun := rfl

theorem rule_groupPattern : groupPattern.rule expression = group := rfl

theorem rule_callPattern : callPattern.rule expression = call := rfl

theorem rule_expressionPattern (nested : Rule) :
    expressionPattern.rule nested = expressionOf nested := rfl

end Grammar
end DeskCalc
