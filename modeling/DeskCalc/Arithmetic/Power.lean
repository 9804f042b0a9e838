import DeskCalc.Arithmetic.Scalar
import DeskCalc.Context
import DeskCalc.Decimal.Exponential

/-
Powers.

A power with an integer exponent is computed by repeated squaring, and exact as
long as no step loses digits.  Any other exponent goes through the logarithm;
the result is exact if a short rounding of it turns out to be an exact root.
-/
namespace DeskCalc
namespace Arithmetic

-- Powers are the ones of the core library, also where another instance is at hand.
attribute [local instance (high)] instPowNat

/-- The largest integer exponent computed by squaring. -/
def maxIntegerExponent : Nat := 1000000000

/-- The digits that squaring carries beyond the working precision. -/
def powerGuardDigits : Nat := 10

/-- The result, multiplied by the square if the last binary digit of `n` is a one.
The product is put through `round`, and the flag tells whether it lost digits. -/
def multiplyIfOddM (round : Decimal → Decimal × Bool) (n : Nat) (result square : Decimal)
    (lost : Bool) : Checked (Decimal × Bool) :=
  if n % 2 = 1 then do
    let (value, dropped) := round (← Checked.times result square)
    pure (value, lost || dropped)
  else pure (result, lost)

/-- Multiplies `result` by the powers x^(2^i) that the binary digits of `n` call
for, `n` below 2^k.  Every product is put through `round`, and the flag tells
whether one of them lost digits. -/
def squareAndMultiplyM (round : Decimal → Decimal × Bool) :
    Nat → Nat → Decimal → Decimal → Bool → Checked (Decimal × Bool)
  | 0, _, result, _, lost => pure (result, lost)
  | k + 1, n, result, square, lost => do
      let (result, lost) ← multiplyIfOddM round n result square lost
      if n / 2 = 0 then pure (result, lost)
      else do
        let (square, dropped) := round (← Checked.times square square)
        squareAndMultiplyM round k (n / 2) result square (lost || dropped)

/-- The n-th power with every product put through `round`. -/
def powerWithM (round : Decimal → Decimal × Bool) (base : Decimal) (n : Nat) :
    Checked (Decimal × Bool) :=
  squareAndMultiplyM round (n.log2 + 1) n .one base false

/-- The n-th power without rounding. -/
def exactPowerM (base : Decimal) (n : Nat) : Checked Decimal := do
  let (power, _) ← powerWithM (·, false) base n
  pure power

def integerPowerM (context : Context) (base : Decimal) (exponent : Int) (span : Span) :
    Checked (Except EvalError Outcome) :=
  if exponent < 0 && base.isZero then pure (.error (.divisionByZero span))
  else do
    let (power, lost) ←
      powerWithM (context.widen powerGuardDigits).round base exponent.natAbs
    if exponent < 0 then
      if Context.maxExponent < power.adjustedExponent then pure (.ok (.approximate .zero true))
      else if power.adjustedExponent < -Context.maxExponent then
        pure (.error (.domain .resultOutOfRange span))
      else do
        let reciprocal ← divideM .one power span
        pure (reciprocal.map fun reciprocal =>
          .approximate reciprocal.value (lost || reciprocal.precision == .inexact))
    else pure (.ok (.approximate power lost))

/-- The largest numerator and denominator of an exponent for which an exact root
is looked for. -/
def maxRootTerm : Nat := 100

/-- The exponent as a fraction in lowest terms, if both terms are small.  Its
mantissa and its denominator must fit in 64 bits. -/
def smallFraction? (exponent : Decimal) : Option (Int × Nat) :=
  let denominator : Int := 10 ^ exponent.scale.toNat
  if exponent.scale < 0 || 18 < exponent.scale then none
  else if Decimal.saturate exponent.mantissa = exponent.mantissa then
    let divisor := Int.gcd exponent.mantissa denominator
    let p := exponent.mantissa.tdiv divisor
    let q := denominator.natAbs / divisor
    if maxRootTerm < p.natAbs || maxRootTerm < q then none else some (p, q)
  else none

/-- The exact power, if the approximation rounded to `precision` digits is one:
its q-th power is the p-th power of the base. -/
def exactRootM? (base exponent approximation : Decimal) (precision : Nat) :
    Checked (Option Decimal) :=
  match smallFraction? exponent with
  | none => pure none
  | some (p, q) => do
      let candidate := (approximation.withDigits precision).normalize
      let raised ← exactPowerM candidate q
      let wanted ← exactPowerM base p.natAbs
      if p < 0 then do
        let product ← Checked.times raised wanted
        pure (if product.same .one then some candidate else none)
      else pure (if raised.same wanted then some candidate else none)

def fractionalPowerM (context : Context) (base exponent : Decimal) (span : Span) :
    Checked (Except EvalError Outcome) :=
  if base.isNegative then pure (.error (.domain (.negativeBase base exponent) span))
  else if base.isZero then
    pure (if exponent.isPositive then .ok (.exact .zero) else .error (.divisionByZero span))
  else do
    match ← base.powfM? exponent context.precision with
    | none => pure (.error (.domain (.powerOutOfRange base exponent) span))
    | some value =>
        match ← exactRootM? base exponent value context.precision with
        | some root => pure (.ok (.exact root))
        | none => pure (.ok (.approximate value true))

/-- The power; an integer exponent may have trailing zeros. -/
def powerM (context : Context) (base exponent : Decimal) (span : Span) :
    Checked (Except EvalError Outcome) :=
  match exponent.toInt64? with
  | some n =>
      if n.natAbs ≤ maxIntegerExponent then integerPowerM context base n span
      else fractionalPowerM context base exponent span
  | none => fractionalPowerM context base exponent span

/-- Applies an operator to two values, without settling the result. -/
def evalM (context : Context) (op : Arithmetic) (left right : Decimal) (rightSpan : Span) :
    Checked (Except EvalError Outcome) :=
  match op with
  | pow => powerM context left right rightSpan
  | op => evalScalarM op left right rightSpan

/-! ## Powers with scales of any size -/

def squareAndMultiply (round : Decimal → Decimal × Bool) (k n : Nat) (result square : Decimal)
    (lost : Bool) : Decimal × Bool :=
  (squareAndMultiplyM round k n result square lost).value

def powerWith (round : Decimal → Decimal × Bool) (base : Decimal) (n : Nat) : Decimal × Bool :=
  (powerWithM round base n).value

def exactPower (base : Decimal) (n : Nat) : Decimal := (exactPowerM base n).value

def integerPower (context : Context) (base : Decimal) (exponent : Int) (span : Span) :
    Except EvalError Outcome :=
  (integerPowerM context base exponent span).value

def exactRoot? (base exponent approximation : Decimal) (precision : Nat) : Option Decimal :=
  (exactRootM? base exponent approximation precision).value

def fractionalPower (context : Context) (base exponent : Decimal) (span : Span) :
    Except EvalError Outcome :=
  (fractionalPowerM context base exponent span).value

def power (context : Context) (base exponent : Decimal) (span : Span) :
    Except EvalError Outcome :=
  (powerM context base exponent span).value

def eval (context : Context) (op : Arithmetic) (left right : Decimal) (rightSpan : Span) :
    Except EvalError Outcome :=
  (evalM context op left right rightSpan).value

theorem squareAndMultiply_succ (round : Decimal → Decimal × Bool) (k n : Nat)
    (result square : Decimal) (lost : Bool) :
    squareAndMultiply round (k + 1) n result square lost =
      let (result, lost) :=
        if n % 2 = 1 then
          let (value, dropped) := round (result * square)
          (value, lost || dropped)
        else (result, lost)
      if n / 2 = 0 then (result, lost)
      else
        let (square, dropped) := round (square * square)
        squareAndMultiply round k (n / 2) result square (lost || dropped) := by
  rw [squareAndMultiply, squareAndMultiplyM, Checked.value_bind, multiplyIfOddM]
  by_cases hodd : n % 2 = 1 <;> by_cases hlast : n / 2 = 0 <;>
    simp [squareAndMultiply, hodd, hlast]

theorem exactPower_eq (base : Decimal) (n : Nat) :
    exactPower base n = (powerWith (·, false) base n).1 := by
  simp [exactPower, exactPowerM, powerWith]

theorem integerPower_eq (context : Context) (base : Decimal) (exponent : Int) (span : Span) :
    integerPower context base exponent span =
      if exponent < 0 && base.isZero then .error (.divisionByZero span)
      else
        let (power, lost) :=
          powerWith (context.widen powerGuardDigits).round base exponent.natAbs
        if exponent < 0 then
          if Context.maxExponent < power.adjustedExponent then .ok (.approximate .zero true)
          else if power.adjustedExponent < -Context.maxExponent then
            .error (.domain .resultOutOfRange span)
          else
            divide .one power span >>= fun reciprocal =>
              .ok (.approximate reciprocal.value (lost || reciprocal.precision == .inexact))
        else .ok (.approximate power lost) := by
  rw [integerPower, integerPowerM]
  split
  · rfl
  · rw [Checked.value_bind, ← powerWith]
    dsimp only
    split
    · split
      · rfl
      · split
        · rfl
        · rw [Checked.value_bind, ← divide]
          rfl
    · rfl

theorem exactRoot?_eq (base exponent approximation : Decimal) (precision : Nat) :
    exactRoot? base exponent approximation precision =
      smallFraction? exponent >>= fun (p, q) =>
        let candidate := (approximation.withDigits precision).normalize
        let raised := exactPower candidate q
        let wanted := exactPower base p.natAbs
        if p < 0 then
          if (raised * wanted).same .one then some candidate else none
        else if raised.same wanted then some candidate
        else none := by
  rw [exactRoot?, exactRootM?]
  cases smallFraction? exponent with
  | none => rfl
  | some fraction =>
    rw [Checked.value_bind, Checked.value_bind]
    exact apply_ite Checked.value ..

theorem fractionalPower_eq (context : Context) (base exponent : Decimal) (span : Span) :
    fractionalPower context base exponent span =
      if base.isNegative then .error (.domain (.negativeBase base exponent) span)
      else if base.isZero then
        if exponent.isPositive then .ok (.exact .zero) else .error (.divisionByZero span)
      else
        match base.powf? exponent context.precision with
        | none => .error (.domain (.powerOutOfRange base exponent) span)
        | some value =>
            match exactRoot? base exponent value context.precision with
            | some root => .ok (.exact root)
            | none => .ok (.approximate value true) := by
  rw [fractionalPower, fractionalPowerM]
  split
  · rfl
  · split
    · rfl
    · rw [Checked.value_bind, ← Decimal.powf?]
      cases base.powf? exponent context.precision with
      | none => rfl
      | some value =>
        dsimp only
        rw [Checked.value_bind, ← exactRoot?]
        cases exactRoot? base exponent value context.precision <;> rfl

theorem power_eq (context : Context) (base exponent : Decimal) (span : Span) :
    power context base exponent span =
      match exponent.toInt64? with
      | some n =>
          if n.natAbs ≤ maxIntegerExponent then integerPower context base n span
          else fractionalPower context base exponent span
      | none => fractionalPower context base exponent span := by
  rw [power, powerM]
  cases exponent.toInt64? with
  | none => rfl
  | some n => exact apply_ite ..

end Arithmetic
end DeskCalc
