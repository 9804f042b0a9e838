import DeskCalc.Decimal.Basic

/-
Rounding a decimal to a scale in one of seven modes.

`RoundingMode.away` is the whole difference between the modes: it says when the
magnitude goes up to the next unit, given the kept part, the lost part and the
unit they refer to.
-/
namespace DeskCalc

-- Powers are the ones of the core library, also where another instance is at hand.
attribute [local instance (high)] instPowNat

inductive RoundingMode where
  | halfUp
  | halfEven
  | halfDown
  | up
  | down
  | ceiling
  | floor
  deriving DecidableEq, Repr

namespace RoundingMode

/-- Whether a magnitude of `kept` units and a rest of `lost` parts of a `unit`
is rounded away from zero. -/
def away (mode : RoundingMode) (negative : Bool) (kept lost unit : Nat) : Bool :=
  if lost = 0 then false
  else
    match mode with
    | up => true
    | down => false
    | ceiling => !negative
    | floor => negative
    | halfUp => unit ≤ 2 * lost
    | halfDown => unit < 2 * lost
    | halfEven => unit < 2 * lost || (unit == 2 * lost && kept % 2 == 1)

/-- The magnitude `n` in whole units. -/
def quotient (mode : RoundingMode) (negative : Bool) (n unit : Nat) : Nat :=
  if mode.away negative (n / unit) (n % unit) unit then n / unit + 1 else n / unit

theorem le_quotient (mode : RoundingMode) (negative : Bool) (n unit : Nat) :
    n / unit ≤ mode.quotient negative n unit := by
  unfold quotient; split <;> omega

theorem quotient_le (mode : RoundingMode) (negative : Bool) (n unit : Nat) :
    mode.quotient negative n unit ≤ n / unit + 1 := by
  unfold quotient; split <;> omega

/-- A whole number of units is left alone in every mode. -/
theorem quotient_of_dvd {mode : RoundingMode} {negative : Bool} {n unit : Nat}
    (h : n % unit = 0) : mode.quotient negative n unit = n / unit := by
  simp [quotient, away, h]

end RoundingMode

namespace Decimal

def withSign (negative : Bool) (n : Nat) : Int := if negative then -n else n

/-- The given scale, rounded in the given mode. -/
def roundTo (x : Decimal) (scale : Int) (mode : RoundingMode) : Decimal :=
  if x.isZero then ⟨0, scale⟩
  else if x.scale ≤ scale then ⟨x.mantissaAt scale, scale⟩
  else
    let unit := 10 ^ (x.scale - scale).toNat
    ⟨withSign x.isNegative (mode.quotient x.isNegative x.mantissa.natAbs unit), scale⟩

end Decimal
end DeskCalc
