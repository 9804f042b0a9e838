import DeskCalc.Proofs.Decimal.Ratio
import DeskCalc.Proofs.Scale.Series

/-
Functions of a number.

Two decimals of one number differ by the zeros at the end.  A change to a number of digits, a
root and a quotient do not see these zeros: they look at the leading digits only, and what comes
out is the same decimal, whatever its argument is written like.
-/
namespace DeskCalc
namespace Decimal

variable {x y : Decimal} {count : ℕ}

/-- Of two decimals of one number, the longer one has zeros at its end. -/
theorem extend_eq_of_toRat (h : x.toRat = y.toRat) (hscale : x.scale ≤ y.scale) :
    x.extend (y.scale - x.scale).toNat = y := by
  have hplaces : x.scale + ((y.scale - x.scale).toNat : ℤ) = y.scale := by omega
  rw [← toRat_mantissaAt hscale, toRat, toRat] at h
  have hmantissa := mul_right_cancel₀ (ten_zpow_ne_zero _) h
  rw [extend, hplaces]
  cases y
  congr 1
  exact_mod_cast hmantissa

theorem mantissa_eq_zero_congr (h : x.toRat = y.toRat) : x.mantissa = 0 ↔ y.mantissa = 0 := by
  rw [← toRat_eq_zero, h, toRat_eq_zero]

theorem mantissa_pos_congr (h : x.toRat = y.toRat) : 0 < x.mantissa ↔ 0 < y.mantissa := by
  rw [← toRat_pos, h, toRat_pos]

/-- What does not see zeros at the end is the same for decimals of one number. -/
theorem congr_of_extend {α : Type} {f : Decimal → α}
    (hf : ∀ (z : Decimal) (k : ℕ), z.mantissa ≠ 0 → f (z.extend k) = f z)
    (h : x.toRat = y.toRat) (hx : x.mantissa ≠ 0) : f x = f y := by
  have hy : y.mantissa ≠ 0 := (mantissa_eq_zero_congr h).not.1 hx
  rcases le_total x.scale y.scale with hscale | hscale
  · rw [← extend_eq_of_toRat h hscale, hf _ _ hx]
  · rw [← extend_eq_of_toRat h.symm hscale, hf _ _ hy]

theorem leadingExponent_congr (h : x.toRat = y.toRat) (hx : x.mantissa ≠ 0) :
    x.leadingExponent = y.leadingExponent :=
  congr_of_extend (fun _ k hz => leadingExponent_extend hz k) h hx

theorem adjustedExponent_congr (h : x.toRat = y.toRat) :
    x.adjustedExponent = y.adjustedExponent := by
  by_cases hx : x.mantissa = 0
  · rw [Context.adjustedExponent_of_zero hx,
      Context.adjustedExponent_of_zero ((mantissa_eq_zero_congr h).1 hx)]
  · rw [Context.adjustedExponent_eq hx,
      Context.adjustedExponent_eq ((mantissa_eq_zero_congr h).not.1 hx), leadingExponent_congr h hx]

/-! ## A number of digits -/

theorem extend_extend (x : Decimal) (j k : ℕ) : (x.extend j).extend k = x.extend (j + k) := by
  simp only [extend, mul_assoc, ← pow_add, mk.injEq, true_and]
  push_cast
  omega

theorem withDigits_extend (hx : x.mantissa ≠ 0) (count k : ℕ) :
    (x.extend k).withDigits count = x.withDigits count := by
  have hdigits := digits_extend hx k
  by_cases hlong : x.digits + k ≤ count
  · rw [withDigits, withDigits, if_neg (by omega), if_neg (by omega), extend_extend, hdigits]
    congr 1
    omega
  · rw [withDigits, if_pos (by omega), hdigits]
    by_cases hmore : count < x.digits
    · -- The zeros go with the surplus.
      have hsurplus : x.digits + k - count = x.digits - count + k := by omega
      have hten : (0 : ℤ) < 10 ^ k := pow_pos (by norm_num) k
      have hhalf : ∀ {unit lost : ℤ}, 10 ^ k * unit ≤ 2 * (10 ^ k * lost) ↔ unit ≤ 2 * lost := by
        intro unit lost
        rw [mul_left_comm, mul_le_mul_iff_right₀ hten]
      rw [withDigits, if_pos hmore, hsurplus, extend]
      dsimp only
      rw [pow_add, mul_comm x.mantissa, mul_comm (10 ^ (x.digits - count)),
        Int.mul_tdiv_mul_of_pos _ _ hten, Int.mul_tmod_mul_of_pos _ _ hten]
      simp only [hhalf, mk.injEq, true_and]
      omega
    · -- There are zeros to spare.
      have hzeros : k = count - x.digits + (x.digits + k - count) := by omega
      have hunit : (0 : ℤ) < 10 ^ (x.digits + k - count) := pow_pos (by norm_num) _
      have hmantissa : (x.extend k).mantissa =
          x.mantissa * 10 ^ (count - x.digits) * 10 ^ (x.digits + k - count) := by
        rw [mul_assoc, ← pow_add, ← hzeros]
        rfl
      have hscale : (x.extend k).scale = x.scale + k := rfl
      rw [withDigits, if_neg hmore, hmantissa, hscale, extend]
      dsimp only
      rw [Int.mul_tdiv_cancel _ hunit.ne', Int.mul_tmod_left, mul_zero, if_neg (not_le.2 hunit)]
      congr 1
      omega

/-- Equal numbers other than zero are one decimal in any number of digits. -/
theorem withDigits_congr (h : x.toRat = y.toRat) (hx : x.mantissa ≠ 0) (count : ℕ) :
    x.withDigits count = y.withDigits count :=
  congr_of_extend (f := fun z => z.withDigits count)
    (fun _ k hz => withDigits_extend hz count k) h hx

/-! ## Roots -/

/-- The nearest root of a fraction does not depend on its terms. -/
theorem nearestRoot_congr {n d n' d' : ℕ} (hd : 0 < d) (hd' : 0 < d') (h : n * d' = n' * d) :
    nearestRoot n d = nearestRoot n' d' := by
  have hquotient : n / d = n' / d' := by
    rw [← Nat.mul_div_mul_right n d hd', h, mul_comm d d', Nat.mul_div_mul_right n' d' hd]
  rw [nearestRoot, nearestRoot, hquotient]
  generalize floorSqrt (n' / d') = r
  -- Both sides of a comparison are multiplied by the other denominator.
  have hsquare : (2 * r + 1) * (2 * r + 1) * d * d' = (2 * r + 1) * (2 * r + 1) * d' * d :=
    mul_right_comm _ _ _
  have hnumerator : 4 * n * d' = 4 * n' * d := by rw [mul_assoc, h, mul_assoc]
  have hlt : (2 * r + 1) * (2 * r + 1) * d < 4 * n ↔
      (2 * r + 1) * (2 * r + 1) * d' < 4 * n' := by
    rw [← Nat.mul_lt_mul_right hd', hsquare, hnumerator, Nat.mul_lt_mul_right hd]
  have heq : (2 * r + 1) * (2 * r + 1) * d = 4 * n ↔
      (2 * r + 1) * (2 * r + 1) * d' = 4 * n' := by
    rw [← Nat.mul_left_inj hd'.ne', hsquare, hnumerator, Nat.mul_left_inj hd.ne']
  simp only [hlt, heq, Bool.or_eq_true, decide_eq_true_eq, Bool.and_eq_true, beq_iff_eq]

/-- The root in a hundred digits. -/
def longRoot (x : Decimal) : Decimal :=
  let scale := (rootDigits : ℤ) - 1 - x.leadingExponent / 2
  let shift := 2 * scale - x.scale
  ⟨nearestRoot (x.mantissa.natAbs * 10 ^ shift.toNat) (10 ^ (-shift).toNat), scale⟩

theorem sqrt?_eq (hx : 0 < x.mantissa) :
    x.sqrt? = if x.toRat = 1 then some x else some x.longRoot := by
  have hnegative : ¬ x.isNegative = true := by
    rw [isNegative, decide_eq_true_eq]
    omega
  have hone : (x.isZero || x.same one) = true ↔ x.toRat = 1 := by
    rw [isZero_of_ne hx.ne', Bool.false_or, same_iff, toRat_one]
  rw [sqrt?]
  simp only [hone, if_neg hnegative]
  rfl

theorem longRoot_extend (hx : x.mantissa ≠ 0) (k : ℕ) : (x.extend k).longRoot = x.longRoot := by
  rw [longRoot, longRoot, leadingExponent_extend hx]
  generalize (rootDigits : ℤ) - 1 - x.leadingExponent / 2 = scale
  have hscale : (x.extend k).scale = x.scale + k := rfl
  have hmantissa : (x.extend k).mantissa.natAbs = x.mantissa.natAbs * 10 ^ k := by
    rw [extend, Int.natAbs_mul, Int.natAbs_pow]
    rfl
  have hroot : nearestRoot
        ((x.extend k).mantissa.natAbs * 10 ^ (2 * scale - (x.extend k).scale).toNat)
        (10 ^ (-(2 * scale - (x.extend k).scale)).toNat) =
      nearestRoot (x.mantissa.natAbs * 10 ^ (2 * scale - x.scale).toNat)
        (10 ^ (-(2 * scale - x.scale)).toNat) := by
    refine nearestRoot_congr (pow_pos (by norm_num) _) (pow_pos (by norm_num) _) ?_
    rw [hscale, hmantissa, mul_assoc, mul_assoc, mul_assoc, ← pow_add, ← pow_add, ← pow_add]
    congr 2
    omega
  rw [hroot]

end Decimal
end DeskCalc
