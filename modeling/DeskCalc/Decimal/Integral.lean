import DeskCalc.Decimal.Rounding

/-
Decimals that are integers, and powers of ten, recognised by the trailing zeros
of the mantissa, so that no decimal has to be written out to be tested.
-/
namespace DeskCalc
namespace Decimal

-- Powers are the ones of the core library, also where another instance is at hand.
attribute [local instance (high)] instPowNat

/-- No fraction is left once the trailing zeros are taken off. -/
def isIntegral (x : Decimal) : Bool :=
  decide (x.scale ≤ 0) || x.isZero || decide (x.scale ≤ trailingZeros x.mantissa.natAbs)

def toInt? (x : Decimal) : Option Int :=
  if x.isIntegral then some (x.truncateTo 0).mantissa else none

/-- The integer, if it fits in 64 bits.  A number of twenty digits or more is
refused by its size alone. -/
def toInt64? (x : Decimal) : Option Int :=
  if 18 < x.adjustedExponent then none
  else x.toInt?.filter fun n => saturate n == n

/-- The exponent of an exact power of ten. -/
def powerOfTen? (x : Decimal) : Option Int :=
  if x.mantissa = 10 ^ trailingZeros x.mantissa.natAbs then some x.adjustedExponent else none

end Decimal
end DeskCalc
