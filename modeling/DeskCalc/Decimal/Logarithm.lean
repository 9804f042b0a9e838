import DeskCalc.Checked
import DeskCalc.Decimal.Integral
import DeskCalc.Decimal.Root

/-
Logarithms of decimals to a number of significant digits.

A positive decimal is split into a leading part near one and a power of ten.
Square roots pull the leading part still nearer to one, and the series of the
inverse hyperbolic tangent does the rest.
-/
namespace DeskCalc
namespace Decimal

-- Powers are the ones of the core library, also where another instance is at hand.
attribute [local instance (high)] instPowNat

/-- The digits that a series carries beyond the ones asked for. -/
def guardDigits : Nat := 10

/-- A positive decimal as m * 10^k with m from 0.3 up to 3. -/
def split (x : Decimal) : Decimal × Int :=
  let exponent := x.adjustedExponent
  let scale := saturate (x.scale + exponent)
  let leading : Decimal := ⟨x.mantissa, scale⟩
  if ofInt 3 ≤ leading then (⟨x.mantissa, saturate (scale + 1)⟩, saturate (exponent + 1))
  else (leading, exponent)

def nearOne (m : Decimal) : Bool := decide (m ≤ ⟨11, 1⟩) && decide (⟨9, 1⟩ ≤ m)

/-- Roots taken until the decimal is near one, with their number. -/
def pullToOne (working : Nat) : Nat → Decimal → Decimal × Nat
  | 0, m => (m, 0)
  | fuel + 1, m =>
      if m.nearOne then (m, 0)
      else
        match m.sqrt? with
        | none => (m, 0)
        | some root =>
            let (near, roots) := pullToOne working fuel (root.withDigits working)
            (near, roots + 1)

/-- More roots than a decimal of this size takes to come near one: the logarithm
is below 2.4 (|e| + 1) and each root halves it. -/
def rootBound (m : Decimal) : Nat := (m.adjustedExponent.natAbs + 1).log2 + 8

/-- The terms of the series after the first, each from the power before it,
until one falls below the cutoff. -/
def atanhTermsM (working : Nat) (square : Decimal) (cutoff : Int) :
    Nat → Decimal → Decimal → Nat → Checked Decimal
  | 0, _, sum, _ => pure sum
  | fuel + 1, power, sum, n => do
      let product ← Checked.times power square
      let power := product.withDigits working
      let term := (power / ofInt (n + 2)).withDigits working
      if term.isZero || decide (term.adjustedExponent < cutoff) then pure sum
      else atanhTermsM working square cutoff fuel power (sum + term) (n + 2)

/-- The series z + z^3/3 + z^5/5 + ..., for small z. -/
def atanhM (z : Decimal) (working : Nat) : Checked Decimal :=
  if z.isZero then pure zero
  else do
    let square ← Checked.times z z
    atanhTermsM working (square.withDigits working) (saturate (z.adjustedExponent - working))
      (working + guardDigits) z z 1

/-- The natural logarithm of a positive decimal of moderate size. -/
def lnReducedM (m : Decimal) (working : Nat) : Checked Decimal := do
  let precise := working + guardDigits
  let (near, roots) := pullToOne precise m.rootBound m
  let z := ((near - one) / (near + one)).withDigits precise
  Checked.times (← atanhM z precise) (ofInt (2 * 2 ^ roots))

/-- The natural logarithm, `none` unless the decimal is positive. -/
def lnM? (x : Decimal) (precision : Nat) : Checked (Option Decimal) :=
  if x.isPositive then do
    let working := precision + guardDigits
    let (leading, exponent) := x.split
    let result ← lnReducedM leading working
    let result ←
      if exponent = 0 then pure result
      else do
        let shift ← Checked.times (← lnReducedM (ofInt 10) working) (ofInt exponent)
        pure (result + shift)
    pure (some (result.withDigits working))
  else pure none

/-- The logarithm to base ten, an exact integer for a power of ten. -/
def log10M? (x : Decimal) (precision : Nat) : Checked (Option Decimal) :=
  if x.isPositive then
    match x.powerOfTen? with
    | some exponent => pure (some (ofInt exponent))
    | none => do
        let working := precision + guardDigits
        let above ← x.lnM? working
        let below ← (ofInt 10).lnM? working
        pure do
          let above ← above
          let below ← below
          some ((above / below).withDigits working)
  else pure none

/-! ## Logarithms with scales of any size -/

def atanhTerms (working : Nat) (square : Decimal) (cutoff : Int) (fuel : Nat)
    (power sum : Decimal) (n : Nat) : Decimal :=
  (atanhTermsM working square cutoff fuel power sum n).value

def atanh (z : Decimal) (working : Nat) : Decimal := (z.atanhM working).value

def lnReduced (m : Decimal) (working : Nat) : Decimal := (m.lnReducedM working).value

def ln? (x : Decimal) (precision : Nat) : Option Decimal := (x.lnM? precision).value

def log10? (x : Decimal) (precision : Nat) : Option Decimal := (x.log10M? precision).value

theorem atanhTerms_zero (working : Nat) (square : Decimal) (cutoff : Int) (power sum : Decimal)
    (n : Nat) : atanhTerms working square cutoff 0 power sum n = sum := rfl

theorem atanhTerms_succ (working : Nat) (square : Decimal) (cutoff : Int) (fuel : Nat)
    (power sum : Decimal) (n : Nat) :
    atanhTerms working square cutoff (fuel + 1) power sum n =
      let power := (power * square).withDigits working
      let term := (power / ofInt (n + 2)).withDigits working
      if term.isZero || decide (term.adjustedExponent < cutoff) then sum
      else atanhTerms working square cutoff fuel power (sum + term) (n + 2) := by
  rw [atanhTerms, atanhTermsM, Checked.value_bind, Checked.value_times]
  exact apply_ite ..

theorem atanh_eq (z : Decimal) (working : Nat) :
    z.atanh working =
      if z.isZero then zero
      else
        atanhTerms working ((z * z).withDigits working) (saturate (z.adjustedExponent - working))
          (working + guardDigits) z z 1 := by
  rw [atanh, atanhM]
  exact apply_ite ..

theorem lnReduced_eq (m : Decimal) (working : Nat) :
    m.lnReduced working =
      let precise := working + guardDigits
      let (near, roots) := pullToOne precise m.rootBound m
      let z := ((near - one) / (near + one)).withDigits precise
      atanh z precise * ofInt (2 * 2 ^ roots) := by
  simp [lnReduced, lnReducedM, atanh]

theorem ln?_eq (x : Decimal) (precision : Nat) :
    x.ln? precision =
      if x.isPositive then
        let working := precision + guardDigits
        let (leading, exponent) := x.split
        let result := lnReduced leading working
        let result :=
          if exponent = 0 then result
          else result + lnReduced (ofInt 10) working * ofInt exponent
        some (result.withDigits working)
      else none := by
  rw [ln?, lnM?]
  split
  · dsimp only
    split <;> simp [lnReduced, *]
  · rfl

end Decimal
end DeskCalc
