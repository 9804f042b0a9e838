import DeskCalc.Decimal.Logarithm

/-
The exponential function and powers with any exponent.

The argument is halved until it is below 0.01, the Taylor series is summed
there, and each halving is undone by a squaring.
-/
namespace DeskCalc
namespace Decimal

/-- Beyond this magnitude of the argument the result leaves the range of
representable numbers. -/
def exponentialLimit : Decimal := ofInt 23100

/-- Halvings until the argument is below 0.01, with their number. -/
def halveToSmall : Nat → Decimal → Decimal × Nat
  | 0, x => (x, 0)
  | fuel + 1, x =>
      if (⟨1, 2⟩ : Decimal) ≤ x.abs then
        let (small, count) := halveToSmall fuel (x / ofInt 2)
        (small, count + 1)
      else (x, 0)

/-- More halvings than a decimal of this size takes: ten is less than two to the
fourth. -/
def halvingBound (x : Decimal) : Nat := 4 * (x.adjustedExponent + 3).toNat + 1

/-- The terms of the Taylor series after the first, each from the one before it,
until one falls below the cutoff. -/
def taylorTermsM (working : Nat) (x : Decimal) :
    Nat → Decimal → Decimal → Nat → Checked Decimal
  | 0, _, sum, _ => pure sum
  | fuel + 1, term, sum, n => do
      let product ← Checked.times term x
      let term := (product / ofInt (n + 1)).withDigits working
      if term.isZero || decide (term.adjustedExponent < -(working : Int)) then pure sum
      else taylorTermsM working x fuel term (sum + term) (n + 1)

def squareTimesM (working : Nat) : Nat → Decimal → Checked Decimal
  | 0, x => pure x
  | count + 1, x => do
      let square ← Checked.times x x
      squareTimesM working count (square.withDigits working)

/-- The exponential, `none` if it is too large, zero if it is too small. -/
def expM? (x : Decimal) (precision : Nat) : Checked (Option Decimal) :=
  if x.isZero then pure (some one)
  else if 5 < x.adjustedExponent || decide (exponentialLimit < x.abs) then
    pure (if x.isPositive then none else some zero)
  else do
    let (small, count) := halveToSmall x.halvingBound x
    let working := precision + guardDigits + count
    let sum ← taylorTermsM working small (working + guardDigits) one one 0
    let power ← squareTimesM working count sum
    pure (some (power.withDigits working))

/-- A positive base to any power, `none` if the base is not positive or the
result is too large. -/
def powfM? (base exponent : Decimal) (precision : Nat) : Checked (Option Decimal) := do
  let working := precision + guardDigits
  match ← base.lnM? working with
  | none => pure none
  | some logarithm => do
      let product ← Checked.times exponent logarithm
      (product.withDigits (working + guardDigits)).expM? working

/-! ## Powers with scales of any size -/

def taylorTerms (working : Nat) (x : Decimal) (fuel : Nat) (term sum : Decimal) (n : Nat) :
    Decimal :=
  (taylorTermsM working x fuel term sum n).value

def squareTimes (working count : Nat) (x : Decimal) : Decimal :=
  (squareTimesM working count x).value

def exp? (x : Decimal) (precision : Nat) : Option Decimal := (x.expM? precision).value

def powf? (base exponent : Decimal) (precision : Nat) : Option Decimal :=
  (base.powfM? exponent precision).value

theorem taylorTerms_zero (working : Nat) (x term sum : Decimal) (n : Nat) :
    taylorTerms working x 0 term sum n = sum := rfl

theorem taylorTerms_succ (working : Nat) (x : Decimal) (fuel : Nat) (term sum : Decimal)
    (n : Nat) :
    taylorTerms working x (fuel + 1) term sum n =
      let term := (term * x / ofInt (n + 1)).withDigits working
      if term.isZero || decide (term.adjustedExponent < -(working : Int)) then sum
      else taylorTerms working x fuel term (sum + term) (n + 1) := by
  rw [taylorTerms, taylorTermsM, Checked.value_bind, Checked.value_times]
  exact apply_ite ..

theorem squareTimes_zero (working : Nat) (x : Decimal) : squareTimes working 0 x = x := rfl

theorem squareTimes_succ (working count : Nat) (x : Decimal) :
    squareTimes working (count + 1) x =
      squareTimes working count ((x * x).withDigits working) := rfl

theorem exp?_eq (x : Decimal) (precision : Nat) :
    x.exp? precision =
      if x.isZero then some one
      else if 5 < x.adjustedExponent || decide (exponentialLimit < x.abs) then
        if x.isPositive then none else some zero
      else
        let (small, count) := halveToSmall x.halvingBound x
        let working := precision + guardDigits + count
        let sum := taylorTerms working small (working + guardDigits) one one 0
        some ((squareTimes working count sum).withDigits working) := by
  rw [exp?, expM?]
  split
  · rfl
  · split
    · rfl
    · simp [taylorTerms, squareTimes]

theorem powf?_eq (base exponent : Decimal) (precision : Nat) :
    base.powf? exponent precision =
      let working := precision + guardDigits
      base.ln? working >>= fun logarithm =>
        ((exponent * logarithm).withDigits (working + guardDigits)).exp? working := by
  rw [powf?, powfM?, Checked.value_bind, ← ln?]
  dsimp only
  cases base.ln? (precision + guardDigits) with
  | none => rfl
  | some logarithm => rfl

end Decimal
end DeskCalc
