import DeskCalc.Decimal.Basic
import DeskCalc.Text.Digit

/-
The written form of decimals.

A decimal is printed with all its fraction digits.  Far below one it is printed
with one digit before the point and an exponent, far above one as its mantissa
with an exponent.  Reading keeps the digits as they stand: the scale is the
number of fraction digits less the exponent.
-/
namespace DeskCalc
namespace Decimal

/-! ## Printing -/

/-- More zeros than this between the point and the first digit are printed as an
exponent. -/
def leadingZeroLimit : Nat := 5

/-- More zeros than this after the last digit are printed as an exponent. -/
def trailingZeroLimit : Nat := 15

def zeros (count : Nat) : Text := List.replicate count '0'

/-- One digit, a point if more follow, and the exponent of the first digit. -/
def scientific (digits : Text) (exponent : Int) : Text :=
  let mantissa :=
    match digits with
    | lead :: d :: rest => lead :: '.' :: d :: rest
    | short => short
  mantissa ++ 'E' :: Text.ofInt exponent

/-- Digits with a point `scale` places from the right. -/
def positionalText (digits : Text) (scale : Int) : Text :=
  if scale ≤ 0 then digits ++ zeros (-scale).toNat
  else
    let places := scale.toNat
    if digits.length ≤ places then "0.".toList ++ zeros (places - digits.length) ++ digits
    else digits.take (digits.length - places) ++ '.' :: digits.drop (digits.length - places)

def renderMagnitude (digits : Text) (scale : Int) : Text :=
  if leadingZeroLimit < scale - digits.length then
    scientific digits ((digits.length : Int) - 1 - scale)
  else if scale < -trailingZeroLimit then
    digits ++ "e+".toList ++ Text.ofInt (-scale)
  else positionalText digits scale

/-- The printed form; zero is `0` whatever its scale. -/
def render (x : Decimal) : Text :=
  if x.isZero then ['0']
  else
    let magnitude := renderMagnitude (Text.ofNat x.mantissa.natAbs) x.scale
    if x.isNegative then '-' :: magnitude else magnitude

instance : ToString Decimal := ⟨fun x => String.ofList x.render⟩

/-! ## Reading -/

def isExponentMark (c : Char) : Bool := c == 'e' || c == 'E'

/-- A mantissa with at most one point, as its digits without the point and the
number of them that stand behind it. -/
def splitPoint (base : Text) : Text × Nat :=
  match Text.splitAt? '.' base with
  | none => (base, 0)
  | some (lead, fraction) =>
      (lead ++ fraction, (fraction.filter (· != '_')).length)

/-- The decimal written by a text.  A sign, a point at either end and low lines
between the digits are allowed; the scale must fit in 64 bits. -/
def read? (text : Text) : Option Decimal := do
  let base := text.takeWhile fun c => !isExponentMark c
  let exponent ← match text.drop base.length with
    | [] => some 0
    | _ :: written => Text.plainInteger? written
  let (digits, places) := splitPoint base
  let scale := (places : Int) - exponent
  if saturate scale = scale then
    let mantissa ← Text.integer? digits
    some ⟨mantissa, scale⟩
  else none

end Decimal
end DeskCalc
