import DeskCalc.Decimal.Rounding

/-
Division of decimals to a hundred digits.

The dividend's mantissa is lengthened until it is not below the divisor's, and
the quotient then gets digits until it comes out even or has a hundred of them;
a half in the last place goes away from zero.
-/
namespace DeskCalc
namespace Decimal

-- Powers are the ones of the core library, also where another instance is at hand.
attribute [local instance (high)] instPowNat

/-- The most digits that a quotient is continued to. -/
def quotientDigits : Nat := 100

/-- How many zeros `n` needs before it is not below `d`. -/
def zerosToReach (n d : Nat) : Nat :=
  let missing := digitCount d - digitCount n
  if d ≤ n * 10 ^ missing then missing else missing + 1

/-- The quotient of two magnitudes as digits and the number of them that were
added to the quotient of the mantissas. -/
def divideMagnitudes (n d : Nat) : Nat × Nat :=
  let lead := zerosToReach n d
  let more := quotientDigits - digitCount (n * 10 ^ lead / d)
  let total := n * 10 ^ (lead + more)
  let q := total / d
  let r := total % d
  if r = 0 then
    let surplus := min more (trailingZeros q)
    (q / 10 ^ surplus, lead + more - surplus)
  else (if d ≤ 2 * r then q + 1 else q, lead + more)

/-- The quotient; the divisor is not zero.  A dividend of zero, and one over a
plain 1, comes back as it is. -/
def div (x y : Decimal) : Decimal :=
  if x.isZero || y = one then x
  else if x.mantissa = y.mantissa then ⟨1, x.scale - y.scale⟩
  else
    let (q, places) := divideMagnitudes x.mantissa.natAbs y.mantissa.natAbs
    ⟨withSign (x.isNegative != y.isNegative) q, x.scale - y.scale + places⟩

instance : Div Decimal := ⟨div⟩

end Decimal
end DeskCalc
