import DeskCalc.Decimal.Exponential
import DeskCalc.Proofs.Decimal.Quotient

/-
Sums are exact, and roundings are small.

A sum and a difference are those of the numbers.  What a quotient or a change to another number
of digits adds to the magnitude of a number is a fraction of it, so that a series whose terms
shrink fast enough stays where its terms say.
-/
namespace DeskCalc
namespace Decimal

variable {x y : Decimal}

theorem toRat_ofInt (n : ℤ) : (ofInt n).toRat = n := by
  simp [toRat, ofInt]

/-! ## Sums and differences -/

theorem toRat_mantissaAt_max (x y : Decimal) :
    ((x.mantissaAt (max x.scale y.scale) : ℤ) : ℚ) * 10 ^ (-max x.scale y.scale) = x.toRat ∧
      ((y.mantissaAt (max x.scale y.scale) : ℤ) : ℚ) * 10 ^ (-max x.scale y.scale) = y.toRat :=
  ⟨toRat_mantissaAt (le_max_left _ _), toRat_mantissaAt (le_max_right _ _)⟩

theorem toRat_add (x y : Decimal) : (x + y).toRat = x.toRat + y.toRat := by
  rw [add_eq]
  by_cases hy : y.isZero = true
  · rw [if_pos hy, extendTowards, toRat_extend, isZero_iff.1 hy, add_zero]
  · rw [if_neg hy]
    by_cases hx : x.isZero = true
    · rw [if_pos hx, extendTowards, toRat_extend, isZero_iff.1 hx, zero_add]
    · obtain ⟨hleft, hright⟩ := toRat_mantissaAt_max x y
      rw [if_neg hx, ← hleft, ← hright, ← add_mul, ← Int.cast_add, toRat]

theorem sub_eq (x y : Decimal) : x - y =
    ⟨x.mantissaAt (max x.scale y.scale) - y.mantissaAt (max x.scale y.scale),
      max x.scale y.scale⟩ := rfl

theorem toRat_sub (x y : Decimal) : (x - y).toRat = x.toRat - y.toRat := by
  obtain ⟨hleft, hright⟩ := toRat_mantissaAt_max x y
  rw [sub_eq, ← hleft, ← hright, ← sub_mul, ← Int.cast_sub, toRat]

/-- A difference of positive numbers does not lead their sum. -/
theorem leadingExponent_sub_le (hx : 0 < x.mantissa) (hy : 0 < y.mantissa)
    (hne : (x - y).mantissa ≠ 0) : (x - y).leadingExponent ≤ (x + y).leadingExponent := by
  have hxpos := toRat_pos.2 hx
  have hypos := toRat_pos.2 hy
  refine (le_leadingExponent_iff (mantissa_add_pos hx hy).ne').2 ?_
  refine (pow_leadingExponent_le hne).trans ?_
  rw [toRat_sub, toRat_add, abs_of_pos (add_pos hxpos hypos)]
  exact abs_sub_le_iff.2 ⟨by linarith, by linarith⟩

/-! ## Roundings -/

/-- In units of the last digit kept, a number is moved by one of them at most. -/
theorem abs_withDigits_mul_sub_le {count : ℕ} (hmore : count < x.digits) :
    |(x.withDigits count).mantissa * 10 ^ (x.digits - count) - x.mantissa| ≤
      10 ^ (x.digits - count) := by
  rw [withDigits, if_pos hmore]
  dsimp only
  generalize hunit : (10 : ℤ) ^ (x.digits - count) = unit
  have hpos : 0 < unit := hunit ▸ pow_pos (by norm_num) _
  have hsplit := Int.mul_tdiv_add_tmod x.mantissa unit
  have hupper := Int.tmod_lt_of_pos x.mantissa hpos
  have hlower := Int.lt_tmod_of_pos x.mantissa hpos
  generalize x.mantissa.tdiv unit = kept at hsplit ⊢
  generalize x.mantissa.tmod unit = lost at hsplit hupper hlower ⊢
  rw [← hsplit, mul_comm unit, abs_le]
  split
  · rw [add_mul, one_mul]
    constructor <;> omega
  · constructor <;> omega

/-- Another number of digits moves a number by a unit of the last of them at most. -/
theorem abs_toRat_withDigits_sub_le {count : ℕ} (hcount : count ≠ 0) (x : Decimal) :
    |(x.withDigits count).toRat - x.toRat| ≤ 10 ^ (1 - (count : ℤ)) * |x.toRat| := by
  by_cases hmore : count < x.digits
  · have hunits := abs_withDigits_mul_sub_le hmore
    have hscale : -(x.withDigits count).scale = ((x.digits - count : ℕ) : ℤ) + -x.scale := by
      rw [withDigits, if_pos hmore]
      dsimp only
      omega
    have hmoved : (x.withDigits count).toRat - x.toRat =
        (((x.withDigits count).mantissa * 10 ^ (x.digits - count) - x.mantissa : ℤ) : ℚ) *
          10 ^ (-x.scale) := by
      rw [toRat, toRat, hscale, ten_zpow_add, zpow_natCast]
      push_cast
      ring
    have hlead : 1 - (count : ℤ) + x.leadingExponent =
        ((x.digits - count : ℕ) : ℤ) + -x.scale := by
      rw [leadingExponent]
      omega
    calc |(x.withDigits count).toRat - x.toRat|
        ≤ (10 : ℚ) ^ (x.digits - count) * 10 ^ (-x.scale) := by
          rw [hmoved, abs_mul, abs_of_pos (ten_zpow_pos (-x.scale))]
          refine mul_le_mul_of_nonneg_right ?_ (ten_zpow_pos _).le
          exact_mod_cast hunits
      _ = 10 ^ (1 - (count : ℤ)) * 10 ^ x.leadingExponent := by
          rw [← ten_zpow_add, hlead, ten_zpow_add, zpow_natCast]
      _ ≤ 10 ^ (1 - (count : ℤ)) * |x.toRat| :=
          mul_le_mul_of_nonneg_left (pow_leadingExponent_le (mantissa_ne_of_digits hcount hmore))
            (ten_zpow_pos _).le
  · rw [withDigits, if_neg hmore, toRat_extend, sub_self, abs_zero]
    exact mul_nonneg (ten_zpow_pos _).le (abs_nonneg _)

/-- Another number of digits at most doubles a number. -/
theorem abs_toRat_withDigits_le {count : ℕ} (hcount : count ≠ 0) (x : Decimal) :
    |(x.withDigits count).toRat| ≤ 2 * |x.toRat| := by
  have hmoved := abs_toRat_withDigits_sub_le hcount x
  have hunit : (10 : ℚ) ^ (1 - (count : ℤ)) ≤ 1 :=
    zpow_le_one_of_nonpos₀ (by norm_num) (by omega)
  have hpart := mul_le_mul_of_nonneg_right hunit (abs_nonneg x.toRat)
  linarith [abs_sub_abs_le_abs_sub (x.withDigits count).toRat x.toRat]

/-- A quotient has a hundred digits. -/
theorem abs_toRat_div_sub_le (x : Decimal) (hy : y.mantissa ≠ 0) :
    |(x / y).toRat - x.toRat / y.toRat| ≤ 10 ^ (-99 : ℤ) * |x.toRat / y.toRat| := by
  rcases div_near x hy with hexact | hnear
  · rw [hexact, sub_self, abs_zero]
    exact mul_nonneg (ten_zpow_pos _).le (abs_nonneg _)
  · have hunit := ten_zpow_pos (x / y).scale
    have hclose := hnear.close
    have hlong := hnear.long
    rw [← toRat_mul_pow, ← sub_mul, abs_mul, abs_of_pos hunit] at hclose
    rw [abs_mul, abs_of_pos hunit] at hlong
    -- Half a unit of the last place, told in parts of a number of a hundred digits.
    have hhalf : (1 : ℚ) / 2 ≤ 10 ^ (-99 : ℤ) * (|x.toRat / y.toRat| * 10 ^ (x / y).scale) :=
      calc (1 : ℚ) / 2 ≤ 10 ^ (-99 : ℤ) * 10 ^ 99 := by norm_num
        _ ≤ _ := mul_le_mul_of_nonneg_left hlong (ten_zpow_pos _).le
    refine le_of_mul_le_mul_right (hclose.trans ?_) hunit
    rwa [mul_assoc]

/-- A quotient is at most a tenth larger than the exact one. -/
theorem abs_toRat_div_le (x : Decimal) (hy : y.mantissa ≠ 0) :
    |(x / y).toRat| ≤ 11 / 10 * (|x.toRat| / |y.toRat|) := by
  have hnear := abs_toRat_div_sub_le x hy
  have hunit : (10 : ℚ) ^ (-99 : ℤ) ≤ 1 / 10 := by norm_num
  have hpart := mul_le_mul_of_nonneg_right hunit (abs_nonneg (x.toRat / y.toRat))
  rw [← abs_div]
  linarith [abs_sub_abs_le_abs_sub (x / y).toRat (x.toRat / y.toRat)]

end Decimal
end DeskCalc
