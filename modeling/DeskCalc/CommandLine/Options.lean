import DeskCalc.Context
import DeskCalc.Text.Digit

/-
The options of the command line.

Options may stand before and behind the expression, each at most once.  An option
takes its value from behind an equals sign or from the next argument, which must
not look like an option itself; behind `--` nothing is an option.
-/
namespace DeskCalc
namespace CommandLine

structure Options where
  precision : Option Nat := none
  places : Option Int := none
  rounding : Option RoundingMode := none
  keepTiny : Bool := false
  tokens : Bool := false
  /-- Without an expression the lines of the input are evaluated. -/
  expression : Option Text := none
  deriving DecidableEq, Repr

namespace Options

def context (options : Options) : Context :=
  let standard : Context := {}
  { precision := options.precision.getD standard.precision
    places := options.places.getD standard.places
    rounding := options.rounding.getD standard.rounding
    snap := !options.keepTiny }

end Options

/-- What the arguments ask for. -/
inductive Request where
  | run (options : Options)
  | help
  | rejected
  deriving DecidableEq, Repr

/-! ## Values -/

def roundingModes : List (String × RoundingMode) :=
  [("half-up", .halfUp), ("half-even", .halfEven), ("half-down", .halfDown), ("up", .up),
    ("down", .down), ("ceiling", .ceiling), ("floor", .floor)]

def precision? (value : Text) : Option Nat :=
  match Text.plainInteger? value with
  | some n => if 1 ≤ n && n ≤ 60 then some n.toNat else none
  | none => none

def places? (value : Text) : Option Int :=
  (Text.plainInteger? value).filter fun n => 0 ≤ n && n ≤ 1000

def rounding? (value : Text) : Option RoundingMode := roundingModes.lookup (String.ofList value)

/-! ## Arguments -/

/-- A single `-` is a value like any other. -/
def looksLikeOption (arg : Text) : Bool := arg.head? = some '-' && arg ≠ ['-']

/-- The options with one more value, if the option is known, new, and its value
good. -/
def setValue (options : Options) (name value : Text) : Option Options :=
  match String.ofList name with
  | "--precision" =>
      if options.precision.isSome then none
      else (precision? value).map fun n => { options with precision := some n }
  | "--places" =>
      if options.places.isSome then none
      else (places? value).map fun n => { options with places := some n }
  | "--rounding" =>
      if options.rounding.isSome then none
      else (rounding? value).map fun mode => { options with rounding := some mode }
  | _ => none

def takesValue (name : Text) : Bool :=
  ["--precision", "--places", "--rounding"].contains (String.ofList name)

/-- The options with one more switch, if it is known and new. -/
def setSwitch (options : Options) (name : Text) : Option Options :=
  match String.ofList name with
  | "--no-snap" => if options.keepTiny then none else some { options with keepTiny := true }
  | "--tokens" | "-t" => if options.tokens then none else some { options with tokens := true }
  | _ => none

def setExpression (options : Options) (arg : Text) : Option Options :=
  if options.expression.isSome then none else some { options with expression := some arg }

def asksForHelp (arg : Text) : Bool := ["-h", "--help"].contains (String.ofList arg)

/-- Arguments of which none is an option. -/
def readPlain : List Text → Options → Request
  | [], options => .run options
  | arg :: rest, options =>
      match setExpression options arg with
      | some options => readPlain rest options
      | none => .rejected

def read : List Text → Options → Request
  | [], options => .run options
  | arg :: rest, options =>
      if arg = ['-', '-'] then readPlain rest options
      else if asksForHelp arg then .help
      else if !looksLikeOption arg then
        match setExpression options arg with
        | some options => read rest options
        | none => .rejected
      else
        match Text.splitAt? '=' arg with
        | some (name, value) =>
            match setValue options name value with
            | some options => read rest options
            | none => .rejected
        | none =>
            if takesValue arg then
              match rest with
              | [] => .rejected
              | value :: rest =>
                  if looksLikeOption value then .rejected
                  else
                    match setValue options arg value with
                    | some options => read rest options
                    | none => .rejected
            else
              match setSwitch options arg with
              | some options => read rest options
              | none => .rejected

def Request.ofArgs (args : List String) : Request := read (args.map String.toList) {}

end CommandLine
end DeskCalc
