import DeskCalc.Builtin.Eval
import DeskCalc.Proofs.Decimal.SquareRoot
import DeskCalc.Proofs.Scale.Keeps

/-
Square roots that are exact.

The root in a hundred digits is rounded to half the places of the number and squared.  The exact
root has no more places than that, in any representation of the number, so this rounding leaves
it alone; and whatever squares back is the root.  So the root is marked exact just if the number is
the square of a number of at most a hundred digits.
-/
namespace DeskCalc

open Decimal

namespace Builtin

variable {x root : Decimal} {span : Span} {r : ℚ}

/-- The root, rounded to half the places of the number. -/
def rootCandidate (x root : Decimal) : Decimal :=
  root.roundTo ((x.scale.toNat + 1) / 2 : ℕ) .halfEven

theorem evalSqrt_of_root (hroot : x.sqrt? = some root) : evalSqrt x span =
    if (rootCandidate x root * rootCandidate x root).same x then .ok (.exact (rootCandidate x root))
    else .ok (.approximate root true) := by
  rw [evalSqrt_eq, hroot]
  exact apply_ite Except.ok ..

theorem same_square_iff :
    (rootCandidate x root * rootCandidate x root).same x = true ↔
      (rootCandidate x root).toRat * (rootCandidate x root).toRat = x.toRat := by
  rw [same_iff, toRat_mul]

/-- Two halves of the places add up to a scale if they can be rounded up. -/
theorem fits_square (hscale : x.scale < 9223372036854775807) :
    (Demand.product (rootCandidate x root) (rootCandidate x root)).Fits := by
  have hhalf : (rootCandidate x root).scale = ((x.scale.toNat + 1) / 2 : ℕ) := scale_roundTo _ _ _
  show InRange (rootCandidate x root * rootCandidate x root).scale
  rw [mul_eq]
  split
  · next hone =>
    rw [hone]
    decide
  · show InRange ((rootCandidate x root).scale + (rootCandidate x root).scale)
    rw [hhalf]
    constructor <;> omega

/-- The program stops only if half the places cannot be rounded up. -/
theorem evalSqrtM_answers (hscale : x.scale < 9223372036854775807) :
    (evalSqrtM x span).Keeps Demand.Fits fun _ => True := by
  rw [evalSqrtM]
  cases x.sqrt? with
  | none => exact Checked.keeps_pure trivial
  | some root =>
    have hplaces : (Demand.scale (x.scale.toNat + 1)).Fits := by
      show InRange (x.scale.toNat + 1)
      constructor <;> omega
    refine (Checked.keeps_held hplaces rfl).bind fun places hheld => ?_
    rw [← hheld]
    exact (Checked.keeps_times (fits_square hscale) trivial).bind
      fun _ (_ : True) => Checked.keeps_pure trivial

/-- A root of at most a hundred digits is not changed by the rounding. -/
theorem toRat_rootCandidate (hsquare : root.toRat * root.toRat = x.toRat) :
    (rootCandidate x root).toRat = root.toRat := by
  obtain ⟨k, hk⟩ := root_mul_pow hsquare
    (show x.scale ≤ ((x.scale.toNat + 1) / 2 : ℕ) + ((x.scale.toNat + 1) / 2 : ℕ) by omega)
  rw [rootCandidate, toRat_roundTo_eq, RoundingMode.toPlaces_of_int _ hk]

end Builtin

open Builtin

end DeskCalc
