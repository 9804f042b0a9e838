import DeskCalc.Text.Basic

/-
Digits and positional numerals.

`positional` gives the value of a row of digits.  A written numeral may carry
one sign, and low lines between its digits once a digit has come.
-/
namespace DeskCalc
namespace Text

def isDigit (c : Char) : Bool := '0' ≤ c && c ≤ '9'

def isOctalDigit (c : Char) : Bool := '0' ≤ c && c ≤ '7'

def isHexDigit (c : Char) : Bool :=
  isDigit c || ('a' ≤ c && c ≤ 'f') || ('A' ≤ c && c ≤ 'F')

def digitValue (c : Char) : Nat :=
  if isDigit c then c.toNat - '0'.toNat
  else if 'a' ≤ c && c ≤ 'z' then c.toNat - 'a'.toNat + 10
  else c.toNat - 'A'.toNat + 10

def positional (radix : Nat) (digits : Text) : Nat :=
  digits.foldl (fun value c => value * radix + digitValue c) 0

def ofNat (n : Nat) : Text := Nat.toDigits 10 n

def ofInt (n : Int) : Text :=
  if n < 0 then '-' :: ofNat n.natAbs else ofNat n.natAbs

/-- An unsigned row of digits, with low lines allowed after the first digit. -/
def unsigned? (text : Text) : Option Nat :=
  match text with
  | [] => none
  | c :: _ =>
      if c = '_' then none
      else
        let digits := text.filter (· != '_')
        if digits.all isDigit then some (positional 10 digits) else none

/-- A row of digits that may follow one plus sign. -/
def natural? : Text → Option Nat
  | '+' :: '+' :: _ => none
  | '+' :: rest => unsigned? rest
  | text => unsigned? text

/-- A row of digits with a sign, low lines allowed between the digits. -/
def integer? : Text → Option Int
  | '-' :: '+' :: _ => none
  | '-' :: rest => (natural? rest).map fun n => -(n : Int)
  | text => (natural? text).map fun n => (n : Int)

/-- A row of digits, not empty and without low lines, with a sign before it. -/
def plainInteger? : Text → Option Int
  | '-' :: rest => if rest.isEmpty || !rest.all isDigit then none
      else some (-(positional 10 rest : Int))
  | '+' :: rest => if rest.isEmpty || !rest.all isDigit then none
      else some (positional 10 rest)
  | text => if text.isEmpty || !text.all isDigit then none
      else some (positional 10 text)

end Text
end DeskCalc
