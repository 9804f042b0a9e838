import DeskCalc.Proofs.Decimal.Canonical
import DeskCalc.Proofs.Decimal.Place

/-
Square roots of a hundred digits.

The root of a number has half the leading exponent of the number, so a root that has at most a
hundred digits is a whole number of units in the last place that is computed, and the nearest root
is that number.  What is computed has at most a hundred digits in any case.
-/
namespace DeskCalc

theorem floorSqrt_eq {n r : ℕ} (hlow : r * r ≤ n) (hhigh : n < (r + 1) * (r + 1)) :
    floorSqrt n = r := by
  have hleft := Nat.mul_self_lt_mul_self_iff.1 (hlow.trans_lt (lt_floorSqrt_succ_sq n))
  have hright := Nat.mul_self_lt_mul_self_iff.1 ((floorSqrt_sq_le n).trans_lt hhigh)
  omega

namespace Decimal

variable {x : Decimal} {r : ℚ}

/-- The nearest root of a square is its root. -/
theorem nearestRoot_square (k : ℕ) {d : ℕ} (hd : 0 < d) : nearestRoot (k * k * d) d = k := by
  have hroot : floorSqrt (k * k) = k := floorSqrt_eq le_rfl (Nat.mul_self_lt_mul_self (by omega))
  have hbelow : 4 * (k * k * d) < (2 * k + 1) * (2 * k + 1) * d := by
    rw [← mul_assoc]
    exact Nat.mul_lt_mul_of_pos_right (by ring_nf; omega) hd
  rw [nearestRoot, Nat.mul_div_cancel _ hd, hroot]
  rw [if_neg]
  simp only [Bool.or_eq_true, decide_eq_true_eq, Bool.and_eq_true, beq_iff_eq]
  omega

theorem nearestRoot_le {n d k : ℕ} (hd : 0 < d) (h : n < k * k * d) : nearestRoot n d ≤ k := by
  have hfloor : floorSqrt (n / d) < k := by
    have hquotient : n / d < k * k := (Nat.div_lt_iff_lt_mul hd).2 h
    exact Nat.mul_self_lt_mul_self_iff.1 ((floorSqrt_sq_le _).trans_lt hquotient)
  rw [nearestRoot]
  split <;> omega

/-! ## The root in a hundred digits -/

/-- The radicand in units of the last place of the root. -/
theorem longRoot_radicand (hx : 0 < x.mantissa) {scale shift : ℤ}
    (hshift : shift = 2 * scale - x.scale) :
    x.toRat * (10 ^ scale * 10 ^ scale) =
      ((x.mantissa.natAbs * 10 ^ shift.toNat : ℕ) : ℚ) / ((10 ^ (-shift).toNat : ℕ) : ℚ) := by
  have hsign : (x.mantissa : ℚ) = (x.mantissa.natAbs : ℚ) := by
    rw [Nat.cast_natAbs, abs_of_pos hx]
  have hpower : (10 : ℚ) ^ shift = 10 ^ shift.toNat / 10 ^ (-shift).toNat := by
    rw [← zpow_natCast, ← zpow_natCast, ← zpow_sub₀ (by norm_num)]
    congr 1
    omega
  rw [toRat, hsign, mul_assoc, ← ten_zpow_add, ← ten_zpow_add,
    show -x.scale + (scale + scale) = shift by omega, hpower]
  push_cast
  rw [mul_div_assoc]

/-- The leading digit of a root stands at half the place of that of the number. -/
theorem log_root (hx : 0 < x.mantissa) (hr : 0 ≤ r) (hsquare : r * r = x.toRat) :
    Int.log 10 |r| = x.leadingExponent / 2 := by
  have hlow := pow_leadingExponent_le hx.ne'
  have hhigh := lt_pow_leadingExponent x
  rw [abs_of_pos (toRat_pos.2 hx), ← hsquare] at hlow hhigh
  have hdouble : ∀ n : ℤ, ((10 : ℚ) ^ n) * 10 ^ n = 10 ^ (2 * n) := fun n => by
    rw [← ten_zpow_add, two_mul]
  rw [abs_of_nonneg hr]
  refine log_ten_eq ?_ ?_
  · refine (mul_self_le_mul_self_iff (ten_zpow_pos _).le hr).2 (le_trans ?_ hlow)
    rw [hdouble]
    exact zpow_le_zpow_right₀ (by norm_num) (by omega)
  · refine (mul_self_lt_mul_self_iff hr (ten_zpow_pos _).le).2 (hhigh.trans_le ?_)
    rw [hdouble]
    exact zpow_le_zpow_right₀ (by norm_num) (by omega)

/-- A root of at most a hundred digits is found. -/
theorem longRoot_of_square (hx : 0 < x.mantissa) (hr : 0 ≤ r) (hfew : InDigits 100 r)
    (hsquare : r * r = x.toRat) : x.longRoot.toRat = r := by
  obtain ⟨k, hk⟩ := RoundingMode.int_of_toDigits
    ((RoundingMode.toDigits_eq_iff .halfEven (by norm_num)).2 hfew)
  rw [RoundingMode.shift, log_root hx hr hsquare] at hk
  rw [longRoot]
  generalize hscale : (rootDigits : ℤ) - 1 - x.leadingExponent / 2 = scale
  rw [show ((100 : ℕ) : ℤ) - 1 - x.leadingExponent / 2 = scale from hscale] at hk
  have hkpos : 0 ≤ k := by
    have hnonneg := mul_nonneg hr (ten_zpow_pos scale).le
    rw [hk] at hnonneg
    exact_mod_cast hnonneg
  obtain ⟨n, rfl⟩ := Int.eq_ofNat_of_zero_le hkpos
  rw [Int.cast_natCast] at hk
  generalize hshift : 2 * scale - x.scale = shift
  have hradicand := longRoot_radicand hx hshift.symm
  have hd : 0 < 10 ^ (-shift).toNat := pow_pos (by norm_num) _
  -- In units of the last place the radicand is the square of an integer.
  have hterms : x.mantissa.natAbs * 10 ^ shift.toNat = n * n * 10 ^ (-shift).toNat := by
    rw [← hsquare, mul_mul_mul_comm, hk, eq_div_iff (by exact_mod_cast hd.ne')] at hradicand
    exact_mod_cast hradicand.symm
  rw [hterms, nearestRoot_square n hd, toRat]
  dsimp only
  rw [Int.cast_natCast, ← hk, mul_assoc, ← ten_zpow_add, add_neg_cancel, zpow_zero, mul_one]

/-- What is computed has at most a hundred digits. -/
theorem inDigits_longRoot (hx : 0 < x.mantissa) : InDigits 100 x.longRoot.toRat := by
  rw [longRoot]
  generalize hscale : (rootDigits : ℤ) - 1 - x.leadingExponent / 2 = scale
  generalize hshift : 2 * scale - x.scale = shift
  have hdigits : rootDigits = 100 := rfl
  have hd : 0 < 10 ^ (-shift).toNat := pow_pos (by norm_num) _
  have hradicand := longRoot_radicand hx hshift.symm
  have hless : x.toRat * (10 ^ scale * 10 ^ scale) < 10 ^ (200 : ℤ) := by
    have hhigh := lt_pow_leadingExponent x
    rw [abs_of_pos (toRat_pos.2 hx)] at hhigh
    rw [← ten_zpow_add]
    calc x.toRat * 10 ^ (scale + scale)
        < 10 ^ (x.leadingExponent + 1) * 10 ^ (scale + scale) :=
          mul_lt_mul_of_pos_right hhigh (ten_zpow_pos _)
      _ = 10 ^ (x.leadingExponent + 1 + (scale + scale)) := (ten_zpow_add _ _).symm
      _ ≤ 10 ^ (200 : ℤ) := zpow_le_zpow_right₀ (by norm_num) (by omega)
  have hmost : nearestRoot (x.mantissa.natAbs * 10 ^ shift.toNat) (10 ^ (-shift).toNat) ≤
      10 ^ 100 := by
    refine nearestRoot_le hd ?_
    rw [hradicand, div_lt_iff₀ (by exact_mod_cast hd),
      show (200 : ℤ) = ((100 + 100 : ℕ) : ℤ) from rfl, zpow_natCast, pow_add] at hless
    exact_mod_cast hless
  refine .of_abs_le (by norm_num) ?_
  rw [abs_of_nonneg (Int.natCast_nonneg _)]
  exact_mod_cast hmost

/-- Every number that is not negative has a root of at most a hundred digits, and the exact root if
that has no more. -/
theorem exists_root (hx : 0 ≤ x.toRat) : ∃ root, x.sqrt? = some root ∧ 0 ≤ root.toRat ∧
    InDigits 100 root.toRat ∧
      ∀ r, 0 ≤ r → InDigits 100 r → r * r = x.toRat → root.toRat = r := by
  rcases hx.lt_or_eq with hpos | hzero
  · have hmantissa := toRat_pos.1 hpos
    rw [sqrt?_eq hmantissa]
    by_cases hone : x.toRat = 1
    · rw [if_pos hone]
      refine ⟨x, rfl, hx, ⟨1, 0, by norm_num, by rw [hone]; norm_num⟩, fun r hr _ hsquare => ?_⟩
      rw [hone] at hsquare ⊢
      exact ((mul_self_eq_one_iff.1 hsquare).resolve_right (by linarith)).symm
    · rw [if_neg hone]
      exact ⟨x.longRoot, rfl, toRat_nonneg.2 (Int.natCast_nonneg _), inDigits_longRoot hmantissa,
        fun r hr hfew hsquare => longRoot_of_square hmantissa hr hfew hsquare⟩
  · have hroot : x.sqrt? = some x := by
      rw [sqrt?, isZero_iff.2 hzero.symm, Bool.true_or, if_pos rfl]
    refine ⟨x, hroot, hx, hzero ▸ .zero 100, fun r _ _ hsquare => ?_⟩
    rw [← hzero] at hsquare ⊢
    exact (mul_self_eq_zero.1 hsquare).symm

theorem sqrt?_of_neg (hx : x.toRat < 0) : x.sqrt? = none := by
  have hmantissa := toRat_neg_iff.1 hx
  have hother : ¬ (x.isZero || x.same one) = true := by
    rw [isZero_of_ne hmantissa.ne, Bool.false_or, same_iff, toRat_one]
    linarith
  rw [sqrt?, if_neg hother, isNegative, decide_eq_true hmantissa, if_pos rfl]

/-! ## The places of a root -/

/-- The root of a number has at most half its places. -/
theorem root_mul_pow (hsquare : r * r = x.toRat) {places : ℤ}
    (hplaces : x.scale ≤ places + places) :
    ∃ k : ℤ, r * 10 ^ places = k := by
  have hwhole : r * 10 ^ places * (r * 10 ^ places) = (x.mantissaAt (places + places) : ℤ) := by
    rw [mul_mul_mul_comm, hsquare, ← ten_zpow_add, toRat_mul_of_scale_le hplaces]
  have hden := congrArg Rat.den hwhole
  rw [Rat.mul_self_den, Rat.den_intCast] at hden
  exact ⟨_, (Rat.den_eq_one_iff _).1 (Nat.eq_one_of_mul_eq_one_right hden) |>.symm⟩

end Decimal
end DeskCalc
