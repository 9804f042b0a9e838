import DeskCalc.Calculator
import DeskCalc.CommandLine.Options

/-
What the command line prints.

One expression is answered by its value or by a report.  Otherwise every line of
the input is evaluated, and each result is stored in the next slot of a register
that the lines behind it can refer to.
-/
namespace DeskCalc
namespace CommandLine

structure Printed where
  out : String := ""
  err : String := ""
  deriving DecidableEq, Repr

namespace Printed

def append (a b : Printed) : Printed := ⟨a.out ++ b.out, a.err ++ b.err⟩

instance : Append Printed := ⟨append⟩

def outLine (line : String) : Printed := { out := line ++ "\n" }

def errLine (line : String) : Printed := { err := line ++ "\n" }

end Printed

/-- The tokens of a source, or why it has none. -/
def printTokens (source : Text) : Printed × Bool :=
  match format source with
  | .ok tokens => (.outLine (String.ofList tokens), true)
  | .error error => (.errLine error.message, false)

/-- What is printed for the result of a source. -/
def printResult (source : Text) : Except CalcError Number × Calculator → Printed × Bool
  | (.ok number, _) => (.outLine (toString number), true)
  | (.error _, calculator) => (.errLine (calculator.report source), false)

/-- The value of a source, or the report of its error. -/
def printValueM (context : Context) (source : Text) : Checked (Printed × Bool) := do
  let result ← Calculator.evaluateM { context } source none
  pure (printResult source result)

/-! ## Lines of input -/

/-- The width of the column of results. -/
def resultWidth : Nat := 12

def padded (text : Text) : Text := text ++ List.replicate (resultWidth - text.length) ' '

/-- The line that shows a stored result with its slot and its source. -/
def storedLine (slot : Register.Slot) (number : Number) (source : Text) : String :=
  String.ofList ('@' :: Register.slotName slot :: ':' :: ' ' :: padded number.render ++
    "= ".toList ++ source)

/-- The calculator that all lines share, the stored values, and whether all lines so far
have succeeded. -/
structure Session where
  calculator : Calculator := {}
  queue : Register.Queue := {}
  succeeded : Bool := true

namespace Session

/-- The session before the first line. -/
def fresh (context : Context) : Session := { calculator := { context } }

/-- The session after a line whose result is there; the result is stored. -/
def conclude (session : Session) (source : Text) :
    Except CalcError Number × Calculator → Session × Printed
  | (.ok number, calculator) =>
      let (queue, slot) := session.queue.write number
      ({ session with calculator, queue }, .outLine (storedLine slot number source))
  | (.error _, calculator) =>
      ({ session with calculator, succeeded := false }, .errLine (calculator.report source))

/-- Evaluates one line; blanks around it do not count, and a blank line is passed
over. -/
def stepM (tokens : Bool) (session : Session) (line : Text) : Checked (Session × Printed) :=
  let source := line.trim
  if source.isEmpty then pure (session, {})
  else if tokens then
    let (printed, succeeded) := printTokens source
    pure ({ session with succeeded := session.succeeded && succeeded }, printed)
  else do
    let result ← session.calculator.evaluateM source (some session.queue.reader)
    pure (session.conclude source result)

def runM (tokens : Bool) : Session → List Text → Checked (Session × Printed)
  | session, [] => pure (session, {})
  | session, line :: rest => do
      let (session, first) ← session.stepM tokens line
      let (session, others) ← runM tokens session rest
      pure (session, first ++ others)

/-! ### Lines with scales of any size -/

def step (tokens : Bool) (session : Session) (line : Text) : Session × Printed :=
  (session.stepM tokens line).value

def run (tokens : Bool) (session : Session) (lines : List Text) : Session × Printed :=
  (session.runM tokens lines).value

theorem step_eq (tokens : Bool) (session : Session) (line : Text) :
    session.step tokens line =
      let source := line.trim
      if source.isEmpty then (session, {})
      else if tokens then
        let (printed, succeeded) := printTokens source
        ({ session with succeeded := session.succeeded && succeeded }, printed)
      else
        session.conclude source
          (session.calculator.evaluate source (some session.queue.reader)) := by
  unfold step stepM
  dsimp only
  split
  · rfl
  · split
    · rfl
    · exact Checked.value_bind ..

theorem run_cons (tokens : Bool) (session : Session) (line : Text) (rest : List Text) :
    session.run tokens (line :: rest) =
      let (session, first) := session.step tokens line
      let (session, others) := session.run tokens rest
      (session, first ++ others) := by
  simp [run, runM, step]

end Session

/-- The lines of an input; each ends at a line feed. -/
def lines : Text → List Text
  | [] => []
  | '\n' :: rest => [] :: lines rest
  | c :: rest =>
      match lines rest with
      | [] => [[c]]
      | line :: others => (c :: line) :: others

/-! ## The program -/

def exitCode (succeeded : Bool) : Nat := if succeeded then 0 else 1

def usage : String :=
  "usage: [--precision N] [--places N] [--rounding MODE] [--no-snap] [-t | --tokens] [EXPRESSION]"

/-- The answer to an expression on the command line, `none` if there is none. -/
def answerM? (options : Options) : Option (Checked (Printed × Bool)) :=
  options.expression.map fun source =>
    if options.tokens then pure (printTokens source) else printValueM options.context source

/-- The exit code and the printed text for arguments and input. -/
def runM (args : List String) (input : String) : Checked (Nat × Printed) :=
  match Request.ofArgs args with
  | .rejected => pure (2, .errLine usage)
  | .help => pure (0, .outLine usage)
  | .run options =>
      match answerM? options with
      | some answer => do
          let (printed, succeeded) ← answer
          pure (exitCode succeeded, printed)
      | none => do
          let (session, printed) ←
            Session.runM options.tokens (.fresh options.context) (lines input.toList)
          pure (exitCode session.succeeded, printed)

end CommandLine
end DeskCalc
