import DeskCalc.Decimal.Rounding

/-
The numeric settings of a calculation and what they do to a value.

After each operation a value is settled: rounded to the working precision,
checked against the range of representable numbers, and replaced by zero when it
is tiny.  The last value is finalized for display.
-/
namespace DeskCalc

structure Context where
  /-- Significant digits kept by each operation; 0 keeps all of them. -/
  precision : Nat := 30
  /-- Fraction digits of a result that is not exact. -/
  places : Int := 10
  rounding : RoundingMode := .halfUp
  /-- Whether tiny results become zero. -/
  snap : Bool := true
  deriving DecidableEq, Repr

namespace Context

/-- Numbers from 10^(maxExponent + 1) on are out of range, those below
10^(-maxExponent) count as zero. -/
def maxExponent : Int := 10000

def epsilon : Decimal := ⟨1, 29⟩

/-- The value in at most `precision` digits, and whether digits were lost. -/
def round (context : Context) (x : Decimal) : Decimal × Bool :=
  if context.precision = 0 || x.digits ≤ context.precision then (x, false)
  else
    let surplus := x.digits - context.precision
    let rounded := x.roundTo (Decimal.saturate (x.scale - surplus)) context.rounding
    (rounded, !rounded.same x)

def snapped (context : Context) (x : Decimal) : Decimal :=
  if !context.snap then x
  else if x.adjustedExponent < epsilon.adjustedExponent then .zero
  else if x.adjustedExponent = epsilon.adjustedExponent && decide (x.abs ≤ epsilon) then .zero
  else x

/-- The value if it is in range, zero if it is too small, `none` if it is too
large. -/
def confine (x : Decimal) : Option Decimal :=
  if maxExponent < x.adjustedExponent then none
  else if x.adjustedExponent < -maxExponent then some .zero
  else some x

/-- Rounding, the range check and snapping, in this order. -/
def settle (context : Context) (x : Decimal) : Option (Decimal × Bool) :=
  let (rounded, lost) := context.round x
  (confine rounded).map fun value => (context.snapped value, lost)

/-- The value with a fixed number of fraction digits.  Padding stops at
`maxExponent` places, and a rounding position far above the leading digit is
answered without writing the number out: it is zero or one unit. -/
def quantize (context : Context) (x : Decimal) (places : Int) : Decimal :=
  if x.scale ≤ places then x.truncateTo (min places (max x.scale maxExponent))
  else
    let lowest := Decimal.saturate (-Decimal.saturate (x.adjustedExponent + 2))
    if places < lowest then
      if (x.roundTo lowest context.rounding).isZero then .zero
      else ⟨if x.isNegative then -1 else 1, places⟩
    else x.roundTo places context.rounding

/-- The value to show: an inexact one with the context's places, an exact one
without trailing fraction zeros and written out. -/
def finalize (context : Context) (x : Decimal) (inexact : Bool) : Decimal :=
  if inexact then context.quantize x context.places
  else
    let short := x.normalize
    if short.scale < 0 then short.truncateTo 0 else short

def widen (context : Context) (digits : Nat) : Context :=
  { context with precision := context.precision + digits }

end Context
end DeskCalc
