import DeskCalc.Decimal.DigitCount

/-
Decimals: an integer mantissa with a scale, standing for mantissa * 10^(-scale).

One number has many representations, and the scale of a result decides how it
is printed, so every operation fixes the representation that it returns.
Comparison looks at the position of the leading digit first and aligns two
mantissas only when these positions agree, which keeps it cheap for numbers of
very different size.
-/
namespace DeskCalc

-- Powers are the ones of the core library, also where another instance is at hand.
attribute [local instance (high)] instPowNat

structure Decimal where
  mantissa : Int
  scale : Int
  deriving DecidableEq, Repr

namespace Decimal

def zero : Decimal := ⟨0, 0⟩

def one : Decimal := ⟨1, 0⟩

def ofInt (n : Int) : Decimal := ⟨n, 0⟩

def isZero (x : Decimal) : Bool := x.mantissa == 0

def isNegative (x : Decimal) : Bool := decide (x.mantissa < 0)

def isPositive (x : Decimal) : Bool := decide (0 < x.mantissa)

def neg (x : Decimal) : Decimal := ⟨-x.mantissa, x.scale⟩

def abs (x : Decimal) : Decimal := ⟨x.mantissa.natAbs, x.scale⟩

instance : Neg Decimal := ⟨neg⟩

/-! ## Size -/

def digits (x : Decimal) : Nat := digitCount x.mantissa.natAbs

/-- The power of ten of the leading digit. -/
def leadingExponent (x : Decimal) : Int := (x.digits : Int) - 1 - x.scale

/-- The number fits in 64 bits with a sign. -/
def InRange (n : Int) : Prop := -9223372036854775808 ≤ n ∧ n ≤ 9223372036854775807

instance (n : Int) : Decidable (InRange n) :=
  inferInstanceAs (Decidable (_ ∧ _))

/-- Exponents and scales that are computed for a comparison or a rounding stay
within 64 bits, held at the ends of that range. -/
def saturate (n : Int) : Int := max (-9223372036854775808) (min n 9223372036854775807)

/-- The power of ten of the leading digit, and 0 for zero. -/
def adjustedExponent (x : Decimal) : Int :=
  if x.isZero then 0 else saturate x.leadingExponent

/-! ## Order -/

/-- The mantissa at a scale that is not smaller than the stored one. -/
def mantissaAt (x : Decimal) (scale : Int) : Int :=
  x.mantissa * 10 ^ (scale - x.scale).toNat

def compareAligned (x y : Decimal) : Ordering :=
  let scale := max x.scale y.scale
  Ord.compare (x.mantissaAt scale) (y.mantissaAt scale)

/-- The order of the numbers, whatever their scales. -/
def compare (x y : Decimal) : Ordering :=
  match Ord.compare x.mantissa.sign y.mantissa.sign with
  | .lt => .lt
  | .gt => .gt
  | .eq =>
      if x.mantissa = 0 then .eq
      else
        match Ord.compare x.leadingExponent y.leadingExponent with
        | .eq => compareAligned x y
        | order => if x.mantissa < 0 then order.swap else order

instance : LT Decimal := ⟨fun x y => x.compare y = .lt⟩

instance : LE Decimal := ⟨fun x y => x.compare y ≠ .gt⟩

instance (x y : Decimal) : Decidable (x < y) :=
  inferInstanceAs (Decidable (x.compare y = .lt))

instance (x y : Decimal) : Decidable (x ≤ y) :=
  inferInstanceAs (Decidable (x.compare y ≠ .gt))

def same (x y : Decimal) : Bool := x.compare y == .eq

/-! ## Changing the representation -/

/-- No trailing zeros in the mantissa; zero has scale 0. -/
def normalize (x : Decimal) : Decimal :=
  if x.isZero then zero
  else
    let zeros := trailingZeros x.mantissa.natAbs
    ⟨x.mantissa.tdiv (10 ^ zeros), x.scale - zeros⟩

/-- More fraction digits, all of them zero. -/
def extend (x : Decimal) (places : Nat) : Decimal :=
  ⟨x.mantissa * 10 ^ places, x.scale + places⟩

/-- The given scale, with the digits below it cut off. -/
def truncateTo (x : Decimal) (scale : Int) : Decimal :=
  if x.isZero then ⟨0, scale⟩
  else if x.scale ≤ scale then ⟨x.mantissaAt scale, scale⟩
  else ⟨x.mantissa.tdiv (10 ^ (x.scale - scale).toNat), scale⟩

/-- Exactly `count` digits.  Surplus digits are rounded half up in a positive
mantissa and cut off in a negative one. -/
def withDigits (x : Decimal) (count : Nat) : Decimal :=
  if count < x.digits then
    let surplus := x.digits - count
    let unit : Int := 10 ^ surplus
    let kept := x.mantissa.tdiv unit
    let lost := x.mantissa.tmod unit
    ⟨if unit ≤ 2 * lost then kept + 1 else kept, x.scale - surplus⟩
  else x.extend (count - x.digits)

/-! ## Sum, difference, product -/

/-- A zero operand lengthens the fraction of the other one to its own length,
but by no more places than this. -/
def zeroPadding : Nat := 15

def extendTowards (x : Decimal) (scale : Int) : Decimal :=
  x.extend (min (scale - x.scale).toNat zeroPadding)

def add (x y : Decimal) : Decimal :=
  if y.isZero then x.extendTowards y.scale
  else if x.isZero then y.extendTowards x.scale
  else
    let scale := max x.scale y.scale
    ⟨x.mantissaAt scale + y.mantissaAt scale, scale⟩

def sub (x y : Decimal) : Decimal :=
  let scale := max x.scale y.scale
  ⟨x.mantissaAt scale - y.mantissaAt scale, scale⟩

/-- A factor written as a plain 1 gives the other factor in its shortest form. -/
def mul (x y : Decimal) : Decimal :=
  if x = one then y.normalize
  else if y = one then x.normalize
  else ⟨x.mantissa * y.mantissa, x.scale + y.scale⟩

instance : Add Decimal := ⟨add⟩

instance : Sub Decimal := ⟨sub⟩

instance : Mul Decimal := ⟨mul⟩

end Decimal
end DeskCalc
