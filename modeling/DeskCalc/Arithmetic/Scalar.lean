import DeskCalc.Checked
import DeskCalc.Decimal.Division
import DeskCalc.Error
import DeskCalc.Outcome

/-
Sum, difference, product and quotient of two values.

The first three are exact.  A quotient is exact if it gives the dividend back.
-/
namespace DeskCalc
namespace Arithmetic

/-- The quotient.  Unless the dividend comes back as it is, the scale of the
divisor is taken from its scale before digits are added. -/
def quotientM (dividend divisor : Decimal) : Checked Decimal :=
  let quotient := dividend / divisor
  if dividend.isZero || divisor = .one then pure quotient
  else do
    let _ ← Checked.held (dividend.scale - divisor.scale)
    let _ ← Checked.held quotient.scale
    pure quotient

/-- The quotient as an outcome; a divisor of zero is reported at `span`. -/
def divideM (dividend divisor : Decimal) (span : Span) : Checked (Except EvalError Outcome) :=
  if divisor.isZero then pure (.error (.divisionByZero span))
  else do
    let quotient ← quotientM dividend divisor
    let product ← Checked.times quotient divisor
    pure (.ok (.approximate quotient (!product.same dividend)))

/-- The four operations that need no settings; `^` is not one of them. -/
def evalScalarM (op : Arithmetic) (left right : Decimal) (rightSpan : Span) :
    Checked (Except EvalError Outcome) :=
  match op with
  | add => pure (.ok (.exact (left + right)))
  | sub => pure (.ok (.exact (left - right)))
  | mul => do
      let product ← Checked.times left right
      pure (.ok (.exact product))
  | div => divideM left right rightSpan
  | pow => pure (.error (.unknownOperator [op.symbol] rightSpan))

/-! ## Quotients with scales of any size -/

def divide (dividend divisor : Decimal) (span : Span) : Except EvalError Outcome :=
  (divideM dividend divisor span).value

@[simp] theorem value_quotientM (dividend divisor : Decimal) :
    (quotientM dividend divisor).value = dividend / divisor := by
  rw [quotientM]
  split <;> rfl

theorem divide_eq (dividend divisor : Decimal) (span : Span) :
    divide dividend divisor span =
      if divisor.isZero then .error (.divisionByZero span)
      else
        let quotient := dividend / divisor
        .ok (.approximate quotient (!(quotient * divisor).same dividend)) := by
  rw [divide, divideM]
  split
  · rfl
  · simp

end Arithmetic
end DeskCalc
