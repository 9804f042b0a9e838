import DeskCalc.Proofs.Diagnosis.Course
import DeskCalc.Proofs.Reading.Stance

/-
The courses of the rules of expressions.

Every rule for a token notes one diagnostic where the token is missing, and every other
rule is combined from these.  So the log receives, when a source is read from its start,
exactly the diagnostics of the course of expressions, in order (`notes_expression`).
-/
namespace DeskCalc
namespace Grammar

/-! ## Courses -/

/-- The name of a function that does not exist, and its size: the longest lexeme at a
place, with a `(` behind it. -/
def UnknownCall (p : Place) (name : Text) (size : Nat) : Prop :=
  Lexeme.first? p.rest = some (.identifier name, size) ∧ Builtin.ofName? name = none ∧
    (Text.trimStart (p.rest.drop size)).head? = some '('

/-- The diagnostic for the name of a function that does not exist. -/
def unknownCall (p : Place) (name : Text) (size : Nat) : Diagnostic :=
  { message := s!"unknown function '{String.ofList name}'"
    span := ⟨p.offset, p.offset + size⟩
    turn := none
    forced := true }

/-- What is noted where no builtin is named. -/
def missedName (p : Place) : Diagnostic :=
  match Lexeme.first? p.rest with
  | some (.identifier name, size) =>
      if (Text.trimStart (p.rest.drop size)).head? = some '(' then unknownCall p name size
      else Log.expected .functionName p.offset false
  | _ => Log.expected .functionName p.offset false

namespace Course

/-- The course of a token that a function finds. -/
def token (find : Text → Nat → Option Word) (miss : Place → Diagnostic) : Course :=
  ⟨.token find, fun p => if (find p.skip.rest p.skip.offset).isSome then [] else [miss p.skip]⟩

def numeral : Course := token operandWord? fun p => Log.expected .number p.offset false

def sign : Course := token signWord? fun p => Log.expected .operator p.offset false

def mark (symbol : Char) (kind : WordKind) (expectation : Expectation) (forced : Bool) : Course :=
  token (markWord? symbol kind) fun p => Log.expected expectation p.offset forced

def leftParen : Course := mark '(' .leftParen .leftParen false

def rightParen : Course := mark ')' .rightParen .rightParen true

def comma : Course := mark ',' .comma .comma false

def trailingComma : Course := mark ',' .trailingComma .comma false

def name : Course := token nameWord? missedName

def numberRun : Course := followed numeral [repetition (inOrder [sign, numeral])]

def groupOf (expression : Course) : Course := inOrder [leftParen, expression, rightParen]

def argumentsOf (expression : Course) : Course :=
  followed expression [repetition (inOrder [comma, expression]), trailingComma]

def callOf (expression : Course) : Course :=
  inOrder [name, leftParen, argumentsOf expression, rightParen]

def operandOf (expression : Course) : Course :=
  firstOf [numberRun, groupOf expression, callOf expression]

def expressionOf (expression : Course) : Course :=
  followed (operandOf expression) [repetition (inOrder [sign, expression])]

def expressionWithin : Nat → Course
  | 0 => ⟨fun _ => none, fun _ => []⟩
  | depth + 1 => expressionOf (expressionWithin depth)

theorem reader_expressionWithin (depth : Nat) :
    (expressionWithin depth).reader = Reader.expressionWithin depth := by
  induction depth with
  | zero => rfl
  | succ depth ih =>
    show Reader.expressionOf (expressionWithin depth).reader = _
    rw [ih]
    rfl

end Course

/-! ## Rules and their courses -/

section Rules

open Log

variable {rule : Rule} {course : Course}

theorem follows_token {find : Text → Nat → Option Word} {Spelled : Word → Text → Prop}
    {miss : Place → Diagnostic} {noted : State → Log} (hfinds : Finds find Spelled)
    (htakes : Takes rule find noted)
    (hnotes : ∀ state : State, Notes state.log (miss ⟨state.rest, state.cursor⟩) (noted state)) :
    Follows rule (Course.token find miss) where
  reads := hfinds.reads htakes
  logs {state p} hat := by
    have hskip := hat.skipBlanks
    have hplace : (⟨state.skipBlanks.rest, state.skipBlanks.cursor⟩ : Place) = p.skip := by
      rw [hskip.rest, hskip.cursor]
    show NotesAll _ (if (find p.skip.rest p.skip.offset).isSome then [] else [miss p.skip]) _
    rw [← hplace, htakes state]
    dsimp only
    cases find state.skipBlanks.rest state.skipBlanks.cursor with
    | some word => exact .nil
    | none => exact .cons (hnotes state.skipBlanks) .nil

theorem notes_missing (expectation : Expectation) (forced : Bool) (state : State) :
    Notes state.log (expected expectation state.cursor forced)
      (notedMissing expectation forced state) :=
  notes_expect ..

theorem follows_number : Follows number Course.numeral :=
  follows_token finds_operandWord? takes_number (notes_missing .number false)

theorem follows_operator : Follows operator Course.sign :=
  follows_token finds_signWord? takes_operator (notes_missing .operator false)

theorem follows_punctuation (symbol : Char) (kind : WordKind) (expectation : Expectation)
    (forced : Bool) : Follows (punctuation symbol kind expectation forced)
      (Course.mark symbol kind expectation forced) :=
  follows_token (finds_markWord? symbol kind) (takes_punctuation symbol kind expectation forced)
    (notes_missing expectation forced)

theorem follows_functionName : Follows functionName Course.name := by
  refine follows_token finds_nameWord? takes_functionName fun state => ?_
  rw [missedName, notedName]
  dsimp only
  generalize Lexeme.first? state.rest = first
  rcases first with _ | ⟨lexeme, size⟩
  · exact notes_missing ..
  · cases lexeme with
    | identifier name =>
      dsimp only
      split
      · exact notes_add ..
      · exact notes_missing ..
    | _ => exact notes_missing ..

theorem follows_numberRun : Follows numberRun Course.numberRun :=
  .optionalSequence follows_number
    (.cons (.repetition (.sequence (.cons follows_operator (.cons follows_number .nil)))) .nil)

theorem follows_groupOf (h : Follows rule course) : Follows (groupOf rule) (.groupOf course) :=
  .sequence (.cons (follows_punctuation ..) (.cons h (.cons (follows_punctuation ..) .nil)))

theorem follows_argumentsOf (h : Follows rule course) :
    Follows (argumentsOf rule) (.argumentsOf course) :=
  .optionalSequence h
    (.cons (.repetition (.sequence (.cons (follows_punctuation ..) (.cons h .nil))))
      (.cons (follows_punctuation ..) .nil))

theorem follows_callOf (h : Follows rule course) : Follows (callOf rule) (.callOf course) :=
  .sequence (.cons follows_functionName (.cons (follows_punctuation ..)
    (.cons (follows_argumentsOf h) (.cons (follows_punctuation ..) .nil))))

theorem follows_operandOf (h : Follows rule course) :
    Follows (operandOf rule) (.operandOf course) :=
  .alternative (.cons follows_numberRun (.cons (follows_groupOf h) (.cons (follows_callOf h) .nil)))

theorem follows_expressionOf (h : Follows rule course) :
    Follows (expressionOf rule) (.expressionOf course) :=
  .optionalSequence (follows_operandOf h)
    (.cons (.repetition (.sequence (.cons follows_operator (.cons h .nil)))) .nil)

theorem follows_expressionWithin (depth : Nat) :
    Follows (expressionWithin depth) (.expressionWithin depth) := by
  induction depth with
  | zero =>
    refine ⟨⟨fun _ hread => ?_, fun {state _} _ _ => ⟨state.cursor, state.log, rfl⟩⟩, fun _ => .nil⟩
    cases hread
  | succ depth ih => exact ⟨⟨(follows_expressionOf ih).reads.matched,
      (follows_expressionOf ih).reads.failed⟩, (follows_expressionOf ih).logs⟩

/-- What reading a source from its start notes. -/
def missesOf (source : Text) : List Diagnostic :=
  (Course.expressionWithin (Text.byteSize source + 1)).misses (.start source)

theorem notes_expression (source : Text) (log : Log) :
    NotesAll log (missesOf source) (expression { source, log }).2.log := by
  have hat := State.at_start source log
  rw [expression, hat.remaining]
  exact (follows_expressionWithin _).logs hat

end Rules
end Grammar
end DeskCalc
