import DeskCalc.CommandLine.Session

/-
The program: evaluates the expression on the command line, or the lines of the
standard input as they come.
-/
namespace DeskCalc
namespace CommandLine

def emit (printed : Printed) : IO Unit := do
  IO.print printed.out
  IO.eprint printed.err

/-- The session behind the lines of the input, `none` if the program stops at one of
them. -/
partial def readLines (options : Options) (input : IO.FS.Stream) (session : Session) :
    IO (Option Session) := do
  let line ← input.getLine
  if line.isEmpty then
    return some session
  match (session.stepM options.tokens line.toList).run? with
  | none => return none
  | some (session, printed) =>
      emit printed
      readLines options input session

/-- The end of a program that stops because a scale does not fit. -/
def stop : IO UInt32 := do
  IO.eprintln "a scale does not fit in 64 bits"
  return 101

end CommandLine
end DeskCalc

open DeskCalc.CommandLine in
def main (args : List String) : IO UInt32 := do
  match Request.ofArgs args with
  | .run options =>
      match answerM? options with
      | some answer =>
          match answer.run? with
          | some (printed, succeeded) =>
              emit printed
              return (exitCode succeeded).toUInt32
          | none => stop
      | none =>
          match ← readLines options (← IO.getStdin) (.fresh options.context) with
          | some session => return (exitCode session.succeeded).toUInt32
          | none => stop
  | _ =>
      match (runM args "").run? with
      | some (code, printed) =>
          emit printed
          return code.toUInt32
      | none => stop
