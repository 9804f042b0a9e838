import DeskCalc.Proofs.Decimal.Quotient
import DeskCalc.Proofs.Decimal.Significant

/-
A quotient is the exact quotient in a hundred digits.

Unless it has more than a hundred digits in front of its point, a quotient is rounded to a
hundred of them, a half going away from zero.  It depends on the two numbers alone, and not on
how many zeros stand at the end of either.
-/
namespace DeskCalc
namespace Decimal

variable {n d : ℕ} {x y : Decimal}

/-- The first quotient has one digit, or it needs no zeros. -/
theorem first_quotient_lt (hn : n ≠ 0) (h : n < 10 ^ 100 * d) :
    n * 10 ^ zerosToReach n d / d < 10 ^ 100 := by
  have hd : 0 < d := Nat.pos_of_ne_zero fun hd => by
    rw [hd, mul_zero] at h
    omega
  rw [Nat.div_lt_iff_lt_mul hd, zerosToReach]
  by_cases hreach : d ≤ n * 10 ^ (digitCount d - digitCount n)
  · rw [if_pos hreach]
    by_cases hlonger : digitCount d ≤ digitCount n
    · rw [Nat.sub_eq_zero_of_le hlonger, pow_zero, mul_one]
      exact h
    · have hdigits : digitCount (n * 10 ^ (digitCount d - digitCount n)) = digitCount d := by
        rw [digitCount_mul_pow hn, Nat.add_sub_cancel' (not_le.1 hlonger).le]
      have hhigh := lt_pow_digitCount (n * 10 ^ (digitCount d - digitCount n))
      have hlow := pow_le_of_digitCount hd
      rw [hdigits, ← Nat.sub_add_cancel (digitCount_pos d), pow_succ'] at hhigh
      calc n * 10 ^ (digitCount d - digitCount n) < 10 * 10 ^ (digitCount d - 1) := hhigh
        _ ≤ 10 ^ 100 * d := Nat.mul_le_mul (by norm_num) hlow
  · rw [if_neg hreach, pow_succ, ← mul_assoc, mul_comm _ 10]
    calc 10 * (n * 10 ^ (digitCount d - digitCount n)) < 10 * d :=
          Nat.mul_lt_mul_of_pos_left (not_le.1 hreach) (by norm_num)
      _ ≤ 10 ^ 100 * d := Nat.mul_le_mul_right d (by norm_num)

/-- A number of a hundred digits in front of the point is rounded to a whole one. -/
theorem toDigits_hundred (mode : RoundingMode) {q : ℚ} (hlow : 10 ^ (99 : ℤ) ≤ q)
    (hhigh : q < 10 ^ (100 : ℤ)) : mode.toDigits 100 q = mode.nearby q := by
  have hpos : 0 < q := (ten_zpow_pos 99).trans_le hlow
  have hshift : RoundingMode.shift 100 q = 0 := by
    rw [RoundingMode.shift, abs_of_pos hpos, log_ten_eq hlow hhigh]
    rfl
  rw [RoundingMode.toDigits, hshift, neg_zero, zpow_zero, mul_one, mul_one]

theorem divideMagnitudes_eq (hn : n ≠ 0) (h : n < 10 ^ 100 * d) :
    ((divideMagnitudes n d).1 : ℚ) * 10 ^ (-((divideMagnitudes n d).2 : ℤ)) =
      RoundingMode.halfUp.toDigits 100 (n / d) := by
  have hd : 0 < d := Nat.pos_of_ne_zero fun hd => by
    rw [hd, mul_zero] at h
    omega
  have hcast : (0 : ℚ) < d := by exact_mod_cast hd
  have hlong := quotient_long hd (zerosToReach_spec (e := d) hn).1
  have hfirst := first_quotient_lt hn h
  rw [divideMagnitudes]
  dsimp only
  generalize zerosToReach n d = lead at hlong hfirst ⊢
  have hfew : digitCount (n * 10 ^ lead / d) ≤ quotientDigits := digitCount_le hfirst (by decide)
  have hlead : n * 10 ^ lead < 10 ^ digitCount (n * 10 ^ lead / d) * d :=
    (Nat.div_lt_iff_lt_mul hd).1 (lt_pow_digitCount _)
  generalize hmore : quotientDigits - digitCount (n * 10 ^ lead / d) = more at hlong ⊢
  have hshort : n * 10 ^ (lead + more) < 10 ^ 100 * d := by
    have hhundred : digitCount (n * 10 ^ lead / d) + more = 100 := by
      rw [← hmore, Nat.add_sub_cancel' hfew]
      rfl
    calc n * 10 ^ (lead + more) = n * 10 ^ lead * 10 ^ more := by rw [pow_add, mul_assoc]
      _ < 10 ^ digitCount (n * 10 ^ lead / d) * d * 10 ^ more :=
          Nat.mul_lt_mul_of_pos_right hlead (pow_pos (by norm_num) more)
      _ = 10 ^ 100 * d := by rw [mul_right_comm, ← pow_add, hhundred]
  generalize hplaces : lead + more = places at hlong hshort ⊢
  -- In units of its hundredth digit the quotient is a whole number and a rest.
  have hunits : RoundingMode.halfUp.toDigits 100 (n / d : ℚ) =
      RoundingMode.halfUp.nearby (((n * 10 ^ places : ℕ) : ℚ) / d) * 10 ^ (-(places : ℤ)) := by
    have hscaled : (n / d : ℚ) = ((n * 10 ^ places : ℕ) : ℚ) / d * 10 ^ (-(places : ℤ)) := by
      push_cast
      rw [div_mul_eq_mul_div, mul_assoc, ← zpow_natCast, ← ten_zpow_add, add_neg_cancel, zpow_zero,
        mul_one]
    rw [hscaled, RoundingMode.toDigits_mul_zpow, toDigits_hundred]
    · rw [le_div_iff₀ hcast]
      exact_mod_cast hlong
    · rw [div_lt_iff₀ hcast]
      exact_mod_cast hshort
  rw [hunits, ← RoundingMode.quotient_eq_nearby _ _ hd]
  by_cases heven : n * 10 ^ places % d = 0
  · have hsurplus : min more (trailingZeros (n * 10 ^ places / d)) ≤ places :=
      (min_le_left _ _).trans (by omega)
    have hexact := quotient_without_zeros hd.ne' (Nat.dvd_of_mod_eq_zero heven)
      (min_le_right more _) hsurplus
    rw [if_pos heven, RoundingMode.quotient_of_dvd heven]
    dsimp only
    rw [hexact, Int.cast_natCast, Nat.cast_div (Nat.dvd_of_mod_eq_zero heven) hcast.ne']
    push_cast
    rw [div_mul_eq_mul_div, div_mul_eq_mul_div, mul_assoc, mul_assoc, ← zpow_natCast,
      ← zpow_natCast, ← ten_zpow_add, ← ten_zpow_add, add_neg_cancel, add_neg_cancel]
  · rw [if_neg heven, RoundingMode.quotient, RoundingMode.away, if_neg heven]
    simp only [decide_eq_true_eq, Int.cast_natCast]

/-- The quotient is the exact one in a hundred digits. -/
theorem toRat_div (h : x.mantissa.natAbs < 10 ^ 100 * y.mantissa.natAbs) :
    (x / y).toRat = RoundingMode.halfUp.toDigits 100 (x.toRat / y.toRat) := by
  have hy : y.mantissa ≠ 0 := by
    intro hy
    rw [hy, Int.natAbs_zero, mul_zero] at h
    omega
  rw [div_eq]
  by_cases hplain : (x.isZero || y = one) = true
  · rw [if_pos hplain]
    rcases Bool.or_eq_true_iff.1 hplain with hzero | hone
    · rw [isZero_iff.1 hzero, zero_div, RoundingMode.toDigits_zero]
    · have hshort : InDigits 100 x.toRat := by
        rw [of_decide_eq_true hone] at h
        refine ⟨x.mantissa, -x.scale, ?_, rfl⟩
        rw [Int.abs_eq_natAbs]
        exact_mod_cast h
      rw [of_decide_eq_true hone, toRat_one, div_one,
        (RoundingMode.toDigits_eq_iff _ (by norm_num)).2 hshort]
  · have hx : x.mantissa ≠ 0 := fun hx => hplain (by simp [isZero_of_eq hx])
    rw [if_neg hplain, toRat_div_toRat, RoundingMode.toDigits_mul_zpow]
    by_cases hsame : x.mantissa = y.mantissa
    · have hone : InDigits 100 1 := ⟨1, 0, by norm_num, by simp⟩
      rw [if_pos hsame, hsame, div_self (Int.cast_ne_zero.2 hy),
        (RoundingMode.toDigits_eq_iff _ (by norm_num)).2 hone, toRat, Int.cast_one, neg_sub]
    · obtain ⟨sign, hsign, hwith, hmantissa⟩ := mantissa_div_mantissa x y
      have hquotient := divideMagnitudes_eq (Int.natAbs_ne_zero.2 hx) h
      have hscale : -(x.scale - y.scale + ((divideMagnitudes x.mantissa.natAbs
          y.mantissa.natAbs).2 : ℤ)) = -((divideMagnitudes x.mantissa.natAbs
            y.mantissa.natAbs).2 : ℤ) + (y.scale - x.scale) := by omega
      have hsigned : RoundingMode.halfUp.toDigits 100
          (sign * (x.mantissa.natAbs / y.mantissa.natAbs : ℚ)) =
            sign * RoundingMode.halfUp.toDigits 100 (x.mantissa.natAbs / y.mantissa.natAbs) := by
        rcases eq_or_eq_neg_of_abs_eq hsign with rfl | rfl
        · rw [Int.cast_one, one_mul, one_mul]
        · rw [Int.cast_neg, Int.cast_one, neg_one_mul, neg_one_mul, RoundingMode.toDigits_neg]
          rfl
      rw [if_neg hsame, hwith, hmantissa, hsigned, ← hquotient, toRat]
      dsimp only
      rw [hscale, ten_zpow_add, Int.cast_mul, Int.cast_natCast]
      ring

end Decimal
end DeskCalc
