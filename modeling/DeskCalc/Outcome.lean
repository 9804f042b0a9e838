import DeskCalc.Decimal.Literal

/-
The result of one operation before it is settled.
-/
namespace DeskCalc

/-- How a computed value relates to the exact one. -/
inductive Precision where
  | exact
  | inexact
  /-- Rounded on request, which makes up for earlier losses. -/
  | settled
  deriving DecidableEq, Repr

/-- The mark of lost digits after an outcome of this precision. -/
def Precision.mark (inexact : Bool) : Precision → Bool
  | .exact => inexact
  | .inexact => true
  | .settled => false

structure Outcome where
  value : Decimal
  display : Option Text := none
  precision : Precision := .exact
  deriving DecidableEq, Repr

namespace Outcome

def exact (value : Decimal) : Outcome := { value }

def approximate (value : Decimal) (inexact : Bool) : Outcome :=
  { value, precision := if inexact then .inexact else .exact }

end Outcome
end DeskCalc
