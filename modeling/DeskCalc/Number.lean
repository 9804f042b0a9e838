import DeskCalc.Decimal.Literal
import DeskCalc.Text.Blank
import DeskCalc.Word

/-
Numbers: the operands of an evaluation.

A number knows the words that it was computed from.  One without a value is a
placeholder, which keeps a slot beside a parenthesis or a function name.
-/
namespace DeskCalc

structure Number where
  value : Option Decimal
  words : List Word := []
  /-- A text shown in place of the value. -/
  display : Option Text := none
  deriving DecidableEq, Repr

namespace Number

def ofDecimal (value : Decimal) : Number := { value := some value }

def placeholder : Number := { value := none }

def isPlaceholder (number : Number) : Bool := number.value.isNone

def span? (number : Number) : Option Span := Word.spanOf? number.words

/-- The texts of the words, joined without separators. -/
def source (number : Number) : Text := number.words.flatMap Word.text

/-- The display if it is more than blanks, else the value. -/
def render (number : Number) : Text :=
  match number.display.filter fun shown => !shown.trim.isEmpty, number.value with
  | some shown, _ => shown
  | none, some value => value.render
  | none, none => ['_']

instance : ToString Number := ⟨fun number => String.ofList number.render⟩

end Number
end DeskCalc
