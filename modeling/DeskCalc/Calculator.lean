import DeskCalc.Chain.Reduce
import DeskCalc.Diagnostic.Report
import DeskCalc.Grammar.Sentence

/-
The calculator: evaluation of a source, with a log that explains the last
failure.
-/
namespace DeskCalc

structure Calculator where
  context : Context := {}
  log : Log := {}
  deriving DecidableEq, Repr

namespace Calculator

def evaluateWordsM (context : Context) (words : List Word) (register : Option Register) :
    Checked (Except CalcError Number) :=
  match Chain.ofWords words register context with
  | .error error => pure (.error error)
  | .ok chain => do
      let result ← chain.evaluateM context
      pure (Chain.inEvaluation result)

/-- Reads and evaluates a source.  Reading leaves its attempts in the log if it fails, and
clears them if it does not. -/
def runM (calculator : Calculator) (source : Text) (register : Option Register) :
    Checked (Except CalcError Number × Log) :=
  match parse source .empty with
  | (.error error, log) => pure (.error (.parsing error), log)
  | (.ok words, _) => do
      let result ← evaluateWordsM calculator.context words register
      pure (result, .empty)

/-- The errors that reading takes from the log, so that they need not be recorded. -/
def isFromLog : CalcError → Bool
  | .parsing (.invalidExpression _ _) => true
  | .parsing (.unconsumedInput _ _ _) => true
  | _ => false

def recordError (log : Log) (error : CalcError) : Log :=
  if isFromLog error then log else log.add error.message error.span true

/-- A result with the calculator that it leaves behind. -/
def conclude (calculator : Calculator) :
    Except CalcError Number × Log → Except CalcError Number × Calculator
  | (.ok number, log) => (.ok number, { calculator with log })
  | (.error error, log) => (.error error, { calculator with log := recordError log error })

/-- The value of a source, and the calculator with the diagnostics of this call only.
Stored values are taken from the register, if there is one. -/
def evaluateM (calculator : Calculator) (source : Text) (register : Option Register) :
    Checked (Except CalcError Number × Calculator) := do
  let result ← calculator.runM source register
  pure (calculator.conclude result)

def report (calculator : Calculator) (source : Text) : String := calculator.log.report source

/-! ## Evaluation with scales of any size -/

def evaluateWords (context : Context) (words : List Word) (register : Option Register) :
    Except CalcError Number :=
  (evaluateWordsM context words register).value

def run (calculator : Calculator) (source : Text) (register : Option Register) :
    Except CalcError Number × Log :=
  (calculator.runM source register).value

def evaluate (calculator : Calculator) (source : Text) (register : Option Register) :
    Except CalcError Number × Calculator :=
  (calculator.evaluateM source register).value

theorem evaluateWords_eq (context : Context) (words : List Word) (register : Option Register) :
    evaluateWords context words register =
      Chain.ofWords words register context >>= fun chain =>
        Chain.inEvaluation (chain.evaluate context) := by
  rw [evaluateWords, evaluateWordsM]
  cases Chain.ofWords words register context with
  | error error => rfl
  | ok chain => exact Checked.value_bind ..

theorem run_eq (calculator : Calculator) (source : Text) (register : Option Register) :
    calculator.run source register =
      match parse source .empty with
      | (.error error, log) => (.error (.parsing error), log)
      | (.ok words, _) => (evaluateWords calculator.context words register, .empty) := by
  unfold run runM
  split
  · rfl
  · exact Checked.value_bind ..

theorem evaluate_eq (calculator : Calculator) (source : Text) (register : Option Register) :
    calculator.evaluate source register =
      calculator.conclude (calculator.run source register) :=
  Checked.value_bind ..

end Calculator

/-- The number of a result. -/
def numberOf (result : Except CalcError Number) : Except CalcError Decimal := do
  let number ← result
  match number.value with
  | some value => .ok value
  | none => .error (.parsing (.invalidExpression "expecting number" {}))

/-- The value of a source under the standard settings, without stored values. -/
def calculateM (source : Text) : Checked (Except CalcError Decimal) := do
  let (result, _) ← Calculator.evaluateM {} source none
  pure (numberOf result)

/-- The value of a source, with scales of any size. -/
def calculate (source : Text) : Except CalcError Decimal := (calculateM source).value

theorem calculate_eq (source : Text) :
    calculate source = numberOf (Calculator.evaluate {} source none).1 :=
  Checked.value_bind ..

end DeskCalc
