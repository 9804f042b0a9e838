import DeskCalc.Checked
import DeskCalc.Context
import DeskCalc.Decimal.Exponential
import DeskCalc.Error
import DeskCalc.Outcome

/-
What the builtin functions compute, and the check of a call's arguments.

`apply` computes from values alone; `call` takes the operands of an evaluation,
checks them against the signature, and reports a wrong argument where it stands.
-/
namespace DeskCalc
namespace Builtin

def countError (builtin : Builtin) (found : Nat) (span : Span) : EvalError :=
  .argumentCount builtin builtin.signature.arity found span

/-! ## Functions of any number of arguments -/

/-- The exact sum. -/
def evalSum (args : List Decimal) (span : Span) : Except EvalError Outcome :=
  if args.isEmpty then .error (countError sum 0 span)
  else .ok (.exact (args.foldl (· + ·) .zero))

/-- The largest argument, the last of several equal ones. -/
def evalMax (args : List Decimal) (span : Span) : Except EvalError Outcome :=
  match args with
  | [] => .error (countError max 0 span)
  | x :: rest => .ok (.exact (rest.foldl (fun best y => if best ≤ y then y else best) x))

/-- The smallest argument, the first of several equal ones. -/
def evalMin (args : List Decimal) (span : Span) : Except EvalError Outcome :=
  match args with
  | [] => .error (countError min 0 span)
  | x :: rest => .ok (.exact (rest.foldl (fun best y => if y < best then y else best) x))

/-! ## Functions of one value -/

def evalAbs (x : Decimal) : Outcome := .exact x.abs

/-- The root is exact if it squares back to the argument when rounded to half the
argument's fraction digits. -/
def evalSqrtM (x : Decimal) (span : Span) : Checked (Except EvalError Outcome) :=
  match x.sqrt? with
  | none => pure (.error (.domain (.undefined sqrt x) span))
  | some root => do
      let places := (← Checked.held (x.scale.toNat + 1)) / 2
      let candidate := root.roundTo places .halfEven
      let square ← Checked.times candidate candidate
      pure (.ok (if square.same x then .exact candidate else .approximate root true))

/-- A function known by a series, exact for some arguments only. -/
def evalSeries (builtin : Builtin) (x : Decimal) (defined exact : Bool) (value : Option Decimal)
    (span : Span) : Except EvalError Outcome :=
  if !defined then .error (.domain (.undefined builtin x) span)
  else
    match value with
    | none => .error (.domain (.callOutOfRange builtin x) span)
    | some value => .ok (.approximate value (!exact))

def evalLnM (context : Context) (x : Decimal) (span : Span) :
    Checked (Except EvalError Outcome) := do
  let logarithm ← x.lnM? context.precision
  pure (evalSeries ln x x.isPositive (x.same .one) logarithm span)

def evalLogM (context : Context) (x : Decimal) (span : Span) :
    Checked (Except EvalError Outcome) := do
  let logarithm ← x.log10M? context.precision
  pure (evalSeries log x x.isPositive x.powerOfTen?.isSome logarithm span)

def evalExpM (context : Context) (x : Decimal) (span : Span) :
    Checked (Except EvalError Outcome) := do
  let power ← x.expM? context.precision
  pure (evalSeries exp x true x.isZero power span)

/-- The integer with its written form in another base. -/
def evalRadix (radix : Nat) (mark : Text) (x : Decimal) (span : Span) :
    Except EvalError Outcome :=
  match x.toInt? with
  | none => .error (.argumentType .integer x span)
  | some n =>
      let sign : Text := if n < 0 then ['-'] else []
      .ok { value := x, display := some (sign ++ mark ++ Nat.toDigits radix n.natAbs) }

def evalHex (x : Decimal) (span : Span) : Except EvalError Outcome :=
  evalRadix 16 "0x".toList x span

def evalOct (x : Decimal) (span : Span) : Except EvalError Outcome :=
  evalRadix 8 "0o".toList x span

/-! ## Rounding on request -/

/-- The value with the wanted number of fraction digits; below zero these count
the digits before the point. -/
def evalRound (context : Context) (x places : Decimal) (span : Span) : Except EvalError Outcome :=
  match places.toInt64? with
  | none => .error (.argumentType .integer places span)
  | some n => .ok { value := context.quantize x n, precision := .settled }

/-! ## Calls -/

/-- The function of a builtin on plain values. -/
def applyM (context : Context) (builtin : Builtin) (args : List Decimal) (span : Span) :
    Checked (Except EvalError Outcome) :=
  match builtin, args with
  | sum, args => pure (evalSum args span)
  | max, args => pure (evalMax args span)
  | min, args => pure (evalMin args span)
  | abs, [x] => pure (.ok (evalAbs x))
  | sqrt, [x] => evalSqrtM x span
  | ln, [x] => evalLnM context x span
  | log, [x] => evalLogM context x span
  | exp, [x] => evalExpM context x span
  | round, [x, places] => pure (evalRound context x places span)
  | hex, [x] => pure (evalHex x span)
  | oct, [x] => pure (evalOct x span)
  | builtin, args => pure (.error (countError builtin args.length span))

/-- Where a wrong number of arguments is reported: the surplus ones, or the end
of the last one if some are missing. -/
def countSpan (builtin : Builtin) (arguments : List Number) (span : Span) : Span :=
  let stop := ((arguments.getLast?.bind Number.span?).map Span.stop).getD span.stop
  match builtin.signature with
  | .variadic => .point stop
  | .fixed params =>
      match arguments[params.length]? with
      | some surplus => ⟨(surplus.span?.map Span.start).getD stop, stop⟩
      | none => .point stop

/-- The value of one argument, if it has the type of its parameter. -/
def checkArgument (builtin : Builtin) (position : Nat) (number : Number) (span : Span) :
    Except EvalError Decimal :=
  let argumentSpan := number.span?.getD span
  match number.value with
  | none => .error (.missingOperand builtin.name argumentSpan)
  | some value =>
      let expected := builtin.signature.param position
      if expected = .integer && !value.isIntegral then
        .error (.argumentType expected value argumentSpan)
      else .ok value

/-- The values of the arguments from a position on. -/
def checkArguments (builtin : Builtin) (span : Span) :
    Nat → List Number → Except EvalError (List Decimal)
  | _, [] => .ok []
  | position, number :: rest => do
      let value ← checkArgument builtin position number span
      let values ← checkArguments builtin span (position + 1) rest
      .ok (value :: values)

/-- A call of a builtin that stands at `span`. -/
def callM (context : Context) (builtin : Builtin) (arguments : List Number) (span : Span) :
    Checked (Except EvalError Outcome) :=
  if !builtin.signature.arity.accepts arguments.length then
    pure (.error (countError builtin arguments.length (countSpan builtin arguments span)))
  else
    match checkArguments builtin span 0 arguments with
    | .error error => pure (.error error)
    | .ok values => builtin.applyM context values span

/-! ## Calls with scales of any size -/

def evalSqrt (x : Decimal) (span : Span) : Except EvalError Outcome := (evalSqrtM x span).value

def evalLn (context : Context) (x : Decimal) (span : Span) : Except EvalError Outcome :=
  (evalLnM context x span).value

def evalLog (context : Context) (x : Decimal) (span : Span) : Except EvalError Outcome :=
  (evalLogM context x span).value

def evalExp (context : Context) (x : Decimal) (span : Span) : Except EvalError Outcome :=
  (evalExpM context x span).value

def apply (context : Context) (builtin : Builtin) (args : List Decimal) (span : Span) :
    Except EvalError Outcome :=
  (builtin.applyM context args span).value

def call (context : Context) (builtin : Builtin) (arguments : List Number) (span : Span) :
    Except EvalError Outcome :=
  (builtin.callM context arguments span).value

theorem evalSqrt_eq (x : Decimal) (span : Span) :
    evalSqrt x span =
      match x.sqrt? with
      | none => .error (.domain (.undefined sqrt x) span)
      | some root =>
          let places := ((x.scale.toNat + 1 : Nat) : Int) / 2
          let candidate := root.roundTo places .halfEven
          .ok (if (candidate * candidate).same x then .exact candidate
            else .approximate root true) := by
  rw [evalSqrt, evalSqrtM]
  cases x.sqrt? <;> rfl

theorem evalLn_eq (context : Context) (x : Decimal) (span : Span) :
    evalLn context x span =
      evalSeries ln x x.isPositive (x.same .one) (x.ln? context.precision) span :=
  Checked.value_bind ..

theorem evalLog_eq (context : Context) (x : Decimal) (span : Span) :
    evalLog context x span =
      evalSeries log x x.isPositive x.powerOfTen?.isSome (x.log10? context.precision) span :=
  Checked.value_bind ..

theorem evalExp_eq (context : Context) (x : Decimal) (span : Span) :
    evalExp context x span =
      evalSeries exp x true x.isZero (x.exp? context.precision) span :=
  Checked.value_bind ..

theorem apply_eq (context : Context) (builtin : Builtin) (args : List Decimal) (span : Span) :
    builtin.apply context args span =
      match builtin, args with
      | sum, args => evalSum args span
      | max, args => evalMax args span
      | min, args => evalMin args span
      | abs, [x] => .ok (evalAbs x)
      | sqrt, [x] => evalSqrt x span
      | ln, [x] => evalLn context x span
      | log, [x] => evalLog context x span
      | exp, [x] => evalExp context x span
      | round, [x, places] => evalRound context x places span
      | hex, [x] => evalHex x span
      | oct, [x] => evalOct x span
      | builtin, args => .error (countError builtin args.length span) := by
  unfold apply applyM
  split <;> rfl

theorem call_eq (context : Context) (builtin : Builtin) (arguments : List Number)
    (span : Span) :
    builtin.call context arguments span =
      if !builtin.signature.arity.accepts arguments.length then
        .error (countError builtin arguments.length (countSpan builtin arguments span))
      else
        checkArguments builtin span 0 arguments >>= fun values =>
          builtin.apply context values span := by
  rw [call, callM]
  split
  · rfl
  · cases checkArguments builtin span 0 arguments <;> rfl

end Builtin
end DeskCalc
