import DeskCalc.Proofs.Decimal.Significant

/-
Rounding at a place.

`toPlaces` is the number rounded to a multiple of a power of ten, and `roundTo` computes it for a
decimal (`toRat_roundTo_eq`).  Every mode is monotone, since it never passes an integer and, between
two integers, only asks on which side of a border the number lies.  Of a number below one half only
the sign is seen, so far above the leading digit all places are rounded alike.
-/
namespace DeskCalc
namespace RoundingMode

open Decimal

variable {mode : RoundingMode} {q r : ℚ} {k places : ℤ}

/-! ## Order -/

theorem nearby_le (mode : RoundingMode) (h : q ≤ k) : mode.nearby q ≤ k := by
  have hlt : (mode.nearby q : ℚ) < (k : ℚ) + 1 := by
    linarith [(abs_lt.1 (abs_nearby_sub_lt mode q)).2]
  exact Int.lt_add_one_iff.1 (by exact_mod_cast hlt)

theorem le_nearby (mode : RoundingMode) (h : k ≤ q) : k ≤ mode.nearby q := by
  have hlt : (k : ℚ) < mode.nearby q + 1 := by
    linarith [(abs_lt.1 (abs_nearby_sub_lt mode q)).1]
  exact Int.lt_add_one_iff.1 (by exact_mod_cast hlt)

/-- Between two integers the modes compare with zero and with the half between. -/
theorem nearby_mono_of_floor (mode : RoundingMode) (hfloor : ⌊q⌋ = ⌊r⌋) (h : q ≤ r) :
    mode.nearby q ≤ mode.nearby r := by
  have hsign : q < 0 ↔ r < 0 := by
    rw [← Int.cast_zero, ← Int.floor_lt, ← Int.floor_lt, hfloor]
  have hceil : ⌈q⌉ ≤ ⌈r⌉ := Int.ceil_le_ceil h
  have hhalf : ⌊q + 1 / 2⌋ ≤ ⌊r + 1 / 2⌋ := Int.floor_le_floor (by linarith)
  have hhalf' : ⌈q - 1 / 2⌉ ≤ ⌈r - 1 / 2⌉ := Int.ceil_le_ceil (by linarith)
  cases mode with
  | halfEven =>
    simp only [nearby, hfloor]
    have heven := Int.emod_two_eq ⌊r⌋
    split_ifs <;> first | omega | (exfalso; linarith)
  | ceiling => exact hceil
  | floor => exact hfloor.le
  | _ =>
    simp only [nearby, hfloor, hsign]
    split_ifs <;> omega

theorem nearby_mono (mode : RoundingMode) (h : q ≤ r) : mode.nearby q ≤ mode.nearby r := by
  rcases (Int.floor_le_floor h).lt_or_eq with hlt | heq
  · -- An integer lies between the two numbers.
    have hbelow : q ≤ ⌊r⌋ := by
      have hnext := Int.lt_floor_add_one q
      have hcast : ((⌊q⌋ + 1 : ℤ) : ℚ) ≤ ⌊r⌋ := Int.cast_le.2 hlt
      push_cast at hcast
      linarith
    exact (nearby_le mode hbelow).trans (le_nearby mode (Int.floor_le r))
  · exact nearby_mono_of_floor mode heq h

/-! ## Numbers below one half -/

theorem sameHalves_of_small (hq : |q| < 1 / 2) (hr : |r| < 1 / 2) (hsign : cmp q 0 = cmp r 0) :
    SameHalves q r := by
  obtain ⟨hq, hq'⟩ := abs_lt.1 hq
  obtain ⟨hr, hr'⟩ := abs_lt.1 hr
  rintro b ⟨k, hk⟩
  rcases lt_trichotomy k 0 with hneg | rfl | hpos
  · have hcast : (k : ℚ) ≤ -1 := by exact_mod_cast (show k ≤ -1 by omega)
    rw [(cmp_eq_gt_iff q b).2 (by linarith), (cmp_eq_gt_iff r b).2 (by linarith)]
  · obtain rfl : b = 0 := by
      rw [Int.cast_zero] at hk
      linarith
    exact hsign
  · have hcast : (1 : ℚ) ≤ k := by exact_mod_cast (show 1 ≤ k by omega)
    rw [(cmp_eq_lt_iff q b).2 (by linarith), (cmp_eq_lt_iff r b).2 (by linarith)]

/-- A number below one half goes to zero, or to the unit of its sign. -/
theorem nearby_small (mode : RoundingMode) (hq : |q| < 1 / 2) :
    mode.nearby q = 0 ∨ mode.nearby q = if q < 0 then -1 else 1 := by
  obtain ⟨hlow, hhigh⟩ := abs_lt.1 hq
  have hleast : -1 ≤ mode.nearby q := le_nearby mode (by push_cast; linarith)
  have hmost : mode.nearby q ≤ 1 := nearby_le mode (by push_cast; linarith)
  by_cases hneg : q < 0
  · have hzero : mode.nearby q ≤ 0 := nearby_le mode (by exact_mod_cast hneg.le)
    rw [if_pos hneg]
    omega
  · have hzero : 0 ≤ mode.nearby q := le_nearby mode (by exact_mod_cast not_lt.1 hneg)
    rw [if_neg hneg]
    omega

/-! ## Multiples of a power of ten -/

/-- The number rounded to a multiple of 10^(-places). -/
def toPlaces (mode : RoundingMode) (places : ℤ) (q : ℚ) : ℚ :=
  mode.nearby (q * 10 ^ places) * 10 ^ (-places)

theorem toPlaces_zero (mode : RoundingMode) (places : ℤ) : mode.toPlaces places 0 = 0 := by
  rw [toPlaces, zero_mul, ← Int.cast_zero, nearby_intCast, Int.cast_zero, zero_mul]

theorem toPlaces_mono (mode : RoundingMode) (places : ℤ) (h : q ≤ r) :
    mode.toPlaces places q ≤ mode.toPlaces places r := by
  have hscaled : q * 10 ^ places ≤ r * 10 ^ places :=
    mul_le_mul_of_nonneg_right h (ten_zpow_pos places).le
  exact mul_le_mul_of_nonneg_right (Int.cast_le.2 (nearby_mono mode hscaled))
    (ten_zpow_pos (-places)).le

/-- A multiple of the power of ten is not changed. -/
theorem toPlaces_of_int (mode : RoundingMode) (h : q * 10 ^ places = k) :
    mode.toPlaces places q = q := by
  rw [toPlaces, h, nearby_intCast, ← h, mul_assoc, ← ten_zpow_add, add_neg_cancel, zpow_zero,
    mul_one]

/-- A rounding at a place needs no more digits than the number does. -/
theorem inDigits_toPlaces {count : ℕ} (mode : RoundingMode) (places : ℤ) (hcount : 1 ≤ count)
    (h : InDigits count q) : InDigits count (mode.toPlaces places q) := by
  obtain ⟨m, e, hm, rfl⟩ := h
  rcases le_total 0 (e + places) with hwhole | hfraction
  · obtain ⟨n, hn⟩ := Int.eq_ofNat_of_zero_le hwhole
    have hint : (m : ℚ) * 10 ^ e * 10 ^ places = ((m * 10 ^ n : ℤ) : ℚ) := by
      rw [mul_assoc, ← ten_zpow_add, hn, zpow_natCast]
      push_cast
      rfl
    rw [toPlaces_of_int mode hint]
    exact ⟨m, e, hm, rfl⟩
  · have hless : |(m : ℚ) * 10 ^ e * 10 ^ places| < ((10 ^ count : ℤ) : ℚ) := by
      have hone : (10 : ℚ) ^ (e + places) ≤ 1 := zpow_le_one_of_nonpos₀ (by norm_num) hfraction
      rw [mul_assoc, ← ten_zpow_add, abs_mul, abs_of_pos (ten_zpow_pos _)]
      exact (mul_le_of_le_one_right (abs_nonneg _) hone).trans_lt (by exact_mod_cast hm)
    exact .of_abs_le hcount (abs_nearby_le mode hless)

/-- Where the number is below a tenth of the unit, the place does not matter. -/
theorem nearby_far {lowest : ℤ} (mode : RoundingMode) (hsmall : |q * 10 ^ lowest| < 1 / 2)
    (hplaces : places ≤ lowest) :
    mode.nearby (q * 10 ^ places) = mode.nearby (q * 10 ^ lowest) := by
  have hpow : (10 : ℚ) ^ places ≤ 10 ^ lowest := zpow_le_zpow_right₀ (by norm_num) hplaces
  refine nearby_congr (sameHalves_of_small ?_ hsmall ?_) mode
  · refine lt_of_le_of_lt ?_ hsmall
    rw [abs_mul, abs_mul, abs_of_pos (ten_zpow_pos places), abs_of_pos (ten_zpow_pos lowest)]
    exact mul_le_mul_of_nonneg_left hpow (abs_nonneg q)
  · have hsign : ∀ n : ℤ, cmp (q * 10 ^ n) 0 = cmp q 0 := by
      intro n
      conv_lhs => rw [← zero_mul ((10 : ℚ) ^ n)]
      exact cmp_mul_pos_right (ten_zpow_pos n) q 0
    rw [hsign, hsign]

end RoundingMode

namespace Decimal

variable {x : Decimal} {places : ℤ}

/-- At its own scale, and at every greater one, a number is a whole number of units. -/
theorem toRat_mul_of_scale_le (h : x.scale ≤ places) :
    x.toRat * 10 ^ places = (x.mantissaAt places : ℤ) := by
  rw [← toRat_mantissaAt h, toRat, mul_assoc, ← ten_zpow_add, neg_add_cancel, zpow_zero, mul_one]

/-- To write a decimal with a scale is to round its number at that place. -/
theorem toRat_roundTo_eq (x : Decimal) (places : ℤ) (mode : RoundingMode) :
    (x.roundTo places mode).toRat = mode.toPlaces places x.toRat := by
  rw [roundTo]
  by_cases hx : x.mantissa = 0
  · rw [if_pos (isZero_of_eq hx), toRat_eq_zero.2 hx, RoundingMode.toPlaces_zero]
    exact toRat_eq_zero.2 rfl
  · rw [isZero_of_ne hx, if_neg Bool.false_ne_true]
    by_cases hscale : x.scale ≤ places
    · rw [if_pos hscale, toRat_mantissaAt hscale,
        RoundingMode.toPlaces_of_int mode (toRat_mul_of_scale_le hscale)]
    · rw [if_neg hscale]
      obtain ⟨n, hn⟩ := Int.eq_ofNat_of_zero_le (sub_nonneg.2 (not_le.1 hscale).le)
      have hunits : x.toRat * 10 ^ places = x.mantissa / ((10 ^ n : ℕ) : ℚ) := by
        rw [toRat, mul_assoc, ← ten_zpow_add, div_eq_mul_inv, Nat.cast_pow, ← zpow_natCast,
          ← zpow_neg]
        congr 2
        omega
      rw [hn, Int.toNat_natCast, toRat, RoundingMode.toPlaces, hunits, isNegative]
      dsimp only
      rw [RoundingMode.withSign_quotient _ _ (pow_pos (by norm_num) _)]

end Decimal
end DeskCalc
