import DeskCalc.Proofs.Decimal.Nearest
import Mathlib.Data.Nat.Cast.Field
import Mathlib.Tactic.FieldSimp

/-
How close a quotient comes to the number that it stands for.

A quotient that does not come out even has a hundred digits and is off by half a unit of its
last place at most.  The exact quotient of two numbers of few digits is a fraction with a small
denominator, so it lies on a half of the last digit kept or stays away from it by much more than
that.  The hundred digits therefore lie on the same side of every half, and rounding them gives
what rounding the exact quotient gives.
-/
namespace DeskCalc
namespace Decimal

/-! ## A hundred digits -/

/-- A quotient of integers is off by half a unit at most if the rest decides where it goes. -/
theorem abs_quotient_sub_le (m : ℕ) {d : ℕ} (hd : 0 < d) :
    |(((if d ≤ 2 * (m % d) then m / d + 1 else m / d) : ℕ) : ℚ) - m / d| ≤ 1 / 2 := by
  obtain ⟨hexact, hnonneg, hlost⟩ := RoundingMode.cast_div_eq m hd
  obtain ⟨-, hbelow, -⟩ := RoundingMode.rest_compare (m % d) hd
  rw [hexact]
  by_cases hhalf : d ≤ 2 * (m % d)
  · have hhigh := not_lt.1 (hbelow.not.2 (not_lt.2 hhalf))
    rw [if_pos hhalf, abs_le]
    push_cast
    constructor <;> linarith
  · have hlow := hbelow.2 (not_le.1 hhalf)
    rw [if_neg hhalf, abs_le]
    constructor <;> linarith

/-- The integer stands next to a number of a hundred digits that is not whole. -/
structure Beside (m : ℤ) (q : ℚ) : Prop where
  apart : ∀ k : ℤ, q ≠ k
  close : |(m : ℚ) - q| ≤ 1 / 2
  long : 10 ^ 99 ≤ |q|

theorem Beside.neg {m : ℤ} {q : ℚ} (h : Beside m q) : Beside (-m) (-q) where
  apart k hk := by
    refine h.apart (-k) ?_
    rw [Int.cast_neg, ← hk]
    ring
  close := by
    rw [Int.cast_neg, neg_sub_neg, abs_sub_comm]
    exact h.close
  long := by
    rw [abs_neg]
    exact h.long

theorem Beside.signed {m sign : ℤ} {q : ℚ} (h : Beside m q) (hsign : |sign| = 1) :
    Beside (sign * m) (sign * q) := by
  rcases eq_or_eq_neg_of_abs_eq hsign with rfl | rfl
  · rw [one_mul, Int.cast_one, one_mul]
    exact h
  · rw [neg_one_mul, Int.cast_neg, Int.cast_one, neg_one_mul]
    exact h.neg

section Magnitudes

variable {n d lead : ℕ}

/-- Zeros at the end of a quotient that comes out even can go. -/
theorem quotient_without_zeros {places surplus : ℕ} (hd : d ≠ 0) (heven : d ∣ n * 10 ^ places)
    (hsurplus : surplus ≤ trailingZeros (n * 10 ^ places / d)) (hmost : surplus ≤ places) :
    ((n * 10 ^ places / d / 10 ^ surplus : ℕ) : ℚ) = n * 10 ^ (places - surplus) / d := by
  have hcast : (d : ℚ) ≠ 0 := Nat.cast_ne_zero.2 hd
  have hzeros : 10 ^ surplus ∣ n * 10 ^ places / d :=
    (pow_dvd_pow 10 hsurplus).trans (pow_trailingZeros_dvd _)
  have hpow : (10 : ℚ) ^ places = 10 ^ (places - surplus) * 10 ^ surplus := by
    rw [← pow_add, Nat.sub_add_cancel hmost]
  rw [Nat.cast_div hzeros (by norm_num), Nat.cast_div heven hcast]
  push_cast
  rw [hpow, div_div, mul_comm (d : ℚ), ← mul_assoc, mul_comm _ ((10 : ℚ) ^ surplus),
    mul_div_mul_left _ _ (by norm_num)]

/-- With so many more places a quotient has a hundred digits. -/
theorem quotient_long (hd : 0 < d) (hreach : d ≤ n * 10 ^ lead) :
    10 ^ 99 * d ≤ n * 10 ^ (lead + (quotientDigits - digitCount (n * 10 ^ lead / d))) := by
  have hlong := pow_le_of_digitCount (Nat.div_pos hreach hd)
  have hdigits := digitCount_pos (n * 10 ^ lead / d)
  have hhundred : quotientDigits = 100 := rfl
  generalize hmore : quotientDigits - digitCount (n * 10 ^ lead / d) = more
  have hpow : 10 ^ 99 ≤ 10 ^ (digitCount (n * 10 ^ lead / d) - 1) * 10 ^ more := by
    rw [← pow_add]
    exact Nat.pow_le_pow_right (by norm_num) (by omega)
  calc 10 ^ 99 * d ≤ 10 ^ (digitCount (n * 10 ^ lead / d) - 1) * 10 ^ more * d :=
        Nat.mul_le_mul_right d hpow
    _ ≤ n * 10 ^ lead / d * 10 ^ more * d :=
        Nat.mul_le_mul_right d (Nat.mul_le_mul_right _ hlong)
    _ = n * 10 ^ lead / d * d * 10 ^ more := by ring
    _ ≤ n * 10 ^ lead * 10 ^ more := Nat.mul_le_mul_right _ (Nat.div_mul_le_self _ _)
    _ = n * 10 ^ (lead + more) := by rw [mul_assoc, pow_add]

theorem ne_intCast_of_not_dvd {m : ℕ} (hd : d ≠ 0) (hodd : ¬ d ∣ m) (k : ℤ) : (m : ℚ) / d ≠ k := by
  intro hk
  rw [div_eq_iff (Nat.cast_ne_zero.2 hd)] at hk
  have hdvd : (d : ℤ) ∣ (m : ℤ) := ⟨k, by rw [mul_comm]; exact_mod_cast hk⟩
  exact hodd (Int.natCast_dvd_natCast.1 hdvd)

/-- The quotient of two magnitudes is exact, or it stands next to the exact one. -/
theorem divideMagnitudes_near (hn : n ≠ 0) (hd : d ≠ 0) :
    ((divideMagnitudes n d).1 : ℚ) = n * 10 ^ (divideMagnitudes n d).2 / d ∨
      Beside (divideMagnitudes n d).1 (n * 10 ^ (divideMagnitudes n d).2 / d) := by
  have hdpos := Nat.pos_of_ne_zero hd
  have hcast : (0 : ℚ) < d := by exact_mod_cast hdpos
  obtain ⟨hreach, -⟩ := zerosToReach_spec (e := d) hn
  have hlong := quotient_long hdpos hreach
  rw [divideMagnitudes]
  dsimp only
  generalize zerosToReach n d = lead at hlong ⊢
  generalize quotientDigits - digitCount (n * 10 ^ lead / d) = more at hlong ⊢
  split
  · next heven =>
    -- The division comes out even: the zeros at the end go.
    left
    exact quotient_without_zeros hd (Nat.dvd_of_mod_eq_zero heven) (min_le_right _ _)
      ((min_le_left _ _).trans (Nat.le_add_left _ _))
  · next hodd =>
    right
    have hnear := abs_quotient_sub_le (n * 10 ^ (lead + more)) hdpos
    have hapart := ne_intCast_of_not_dvd hd fun hdvd => hodd (Nat.mod_eq_zero_of_dvd hdvd)
    push_cast at hnear hapart
    refine ⟨hapart, by exact_mod_cast hnear, ?_⟩
    rw [abs_of_nonneg (by positivity), le_div_iff₀ hcast]
    exact_mod_cast hlong

end Magnitudes

/-- The mantissa stands next to the number, in units of the last place. -/
def Approximates (z : Decimal) (q : ℚ) : Prop := Beside z.mantissa (q * 10 ^ z.scale)

variable {x y : Decimal}

theorem toRat_mul_pow (x : Decimal) : x.toRat * 10 ^ x.scale = x.mantissa := by
  rw [toRat, mul_assoc, ← ten_zpow_add, neg_add_cancel, zpow_zero, mul_one]

theorem toRat_one : one.toRat = 1 := by
  simp [toRat, one]

/-- The sign of a quotient comes before its magnitude. -/
theorem mantissa_div_mantissa (x y : Decimal) :
    ∃ sign : ℤ, |sign| = 1 ∧
      (∀ n : ℕ, withSign (x.isNegative != y.isNegative) n = sign * n) ∧
        (x.mantissa : ℚ) / y.mantissa = sign * (x.mantissa.natAbs / y.mantissa.natAbs) := by
  have hmagnitude : ∀ z : Decimal, (z.mantissa : ℚ) =
      (if z.isNegative then -1 else 1) * (z.mantissa.natAbs : ℚ) := by
    intro z
    rw [isNegative, Nat.cast_natAbs]
    by_cases hneg : z.mantissa < 0
    · rw [decide_eq_true hneg, if_pos rfl, abs_of_neg hneg]
      push_cast
      ring
    · rw [decide_eq_false hneg, if_neg Bool.false_ne_true, abs_of_nonneg (not_lt.1 hneg), one_mul]
  rw [hmagnitude x, hmagnitude y]
  generalize (x.mantissa.natAbs : ℚ) = n
  generalize (y.mantissa.natAbs : ℚ) = d
  cases x.isNegative <;> cases y.isNegative
  · exact ⟨1, by simp, by simp [withSign], by simp⟩
  · exact ⟨-1, by simp, by simp [withSign], by simp [div_neg]⟩
  · exact ⟨-1, by simp, by simp [withSign], by simp [neg_div]⟩
  · exact ⟨1, by simp, by simp [withSign], by simp [neg_div_neg_eq]⟩

theorem toRat_div_toRat (x y : Decimal) :
    x.toRat / y.toRat = x.mantissa / y.mantissa * 10 ^ (y.scale - x.scale) := by
  rw [toRat, toRat, mul_div_mul_comm, ← zpow_sub₀ (by norm_num)]
  congr 2
  omega

/-- A quotient is exact, or close to the exact quotient. -/
theorem div_near (x : Decimal) (hy : y.mantissa ≠ 0) :
    (x / y).toRat = x.toRat / y.toRat ∨ (x / y).Approximates (x.toRat / y.toRat) := by
  rw [div_eq]
  by_cases hplain : (x.isZero || y = one) = true
  · left
    rw [if_pos hplain]
    rcases Bool.or_eq_true_iff.1 hplain with hzero | hone
    · rw [isZero_iff.1 hzero, zero_div]
    · rw [of_decide_eq_true hone, toRat_one, div_one]
  · have hx : x.mantissa ≠ 0 := fun hx => hplain (by simp [isZero_of_eq hx])
    rw [if_neg hplain]
    by_cases hsame : x.mantissa = y.mantissa
    · left
      have hne : (y.mantissa : ℚ) ≠ 0 := Int.cast_ne_zero.2 hy
      rw [if_pos hsame, toRat_div_toRat, hsame, div_self hne, toRat, Int.cast_one, neg_sub]
    · rw [if_neg hsame]
      obtain ⟨sign, hsign, hwith, hmantissa⟩ := mantissa_div_mantissa x y
      have hnear := divideMagnitudes_near (Int.natAbs_ne_zero.2 hx) (Int.natAbs_ne_zero.2 hy)
      rw [hwith]
      generalize divideMagnitudes x.mantissa.natAbs y.mantissa.natAbs = result at hnear ⊢
      obtain ⟨m, places⟩ := result
      dsimp only at hnear ⊢
      -- The exact quotient in units of the last place.
      have hunits : x.toRat / y.toRat * 10 ^ (x.scale - y.scale + places) =
          sign * (x.mantissa.natAbs * 10 ^ places / y.mantissa.natAbs) := by
        have hplaces : y.scale - x.scale + (x.scale - y.scale + (places : ℤ)) = places := by omega
        rw [toRat_div_toRat, hmantissa, mul_assoc, ← ten_zpow_add, hplaces, zpow_natCast]
        ring
      rcases hnear with hexact | hclose
      · left
        refine mul_right_cancel₀ (ten_zpow_ne_zero (x.scale - y.scale + places)) ?_
        rw [hunits, ← hexact]
        refine (toRat_mul_pow ⟨sign * m, x.scale - y.scale + places⟩).trans ?_
        exact Int.cast_mul sign m
      · right
        rw [Approximates]
        dsimp only
        rw [hunits]
        exact hclose.signed hsign

theorem toRat_mul (x y : Decimal) : (x * y).toRat = x.toRat * y.toRat := by
  rw [mul_eq]
  split
  · next hone => rw [hone, toRat_normalize, toRat_one, one_mul]
  · split
    · next hone => rw [hone, toRat_normalize, toRat_one, mul_one]
    · rw [toRat, toRat, toRat, neg_add, ten_zpow_add]
      push_cast
      ring

/-- A quotient gives the dividend back if it is exact, and only then. -/
theorem same_div_mul_iff (hyne : y.toRat ≠ 0) :
    ((x / y) * y).same x = true ↔ (x / y).toRat = x.toRat / y.toRat := by
  rw [same_iff, toRat_mul, eq_div_iff hyne]

/-! ## Fractions and halves -/

section Fractions

variable {a b c d i : ℤ} {count : ℕ} {q : ℚ}

/-- A fraction with a small denominator is a half, or stays away from it. -/
theorem fraction_apart (hd : d ≠ 0) (hfew : |d| < 10 ^ count) {half : ℚ}
    (hhalf : ∃ k : ℤ, 2 * half = k) (hne : (c : ℚ) / d ≠ half) :
    1 / 2 * 10 ^ (-(count : ℤ)) ≤ |(c : ℚ) / d - half| := by
  obtain ⟨k, hk⟩ := hhalf
  have hdne : (d : ℚ) ≠ 0 := Int.cast_ne_zero.2 hd
  have hdpos : (0 : ℚ) < |(d : ℚ)| := abs_pos.2 hdne
  have hdifference : (c : ℚ) / d - half = 1 / 2 * ((2 * c - k * d : ℤ) / d) := by
    push_cast
    rw [← hk]
    field_simp
  have hnumerator : 2 * c - k * d ≠ 0 := by
    intro hzero
    rw [hzero, Int.cast_zero, zero_div, mul_zero] at hdifference
    exact hne (sub_eq_zero.1 hdifference)
  have hone : (1 : ℚ) ≤ |((2 * c - k * d : ℤ) : ℚ)| := by
    exact_mod_cast Int.one_le_abs hnumerator
  have hden : |(d : ℚ)| ≤ 10 ^ count := by exact_mod_cast hfew.le
  rw [hdifference, abs_mul, abs_of_pos (by norm_num : (0 : ℚ) < 1 / 2), abs_div, zpow_neg,
    zpow_natCast]
  refine mul_le_mul_of_nonneg_left ?_ (by norm_num)
  rw [inv_eq_one_div]
  exact div_le_div₀ (abs_nonneg _) hone hdpos hden

/-- A quotient of numbers of few digits keeps a small denominator if its own digits are moved in
front of the point. -/
theorem exists_fraction (hcount : 1 ≤ count) (ha : |a| < 10 ^ count) (hb : |b| < 10 ^ count)
    (hbne : b ≠ 0) (hlow : (10 : ℚ) ^ (count - 1) ≤ |(a : ℚ) / b * 10 ^ i|) :
    ∃ c d : ℤ, d ≠ 0 ∧ |d| < 10 ^ count ∧ (a : ℚ) / b * 10 ^ i = c / d := by
  rcases le_total 0 i with hi | hi
  · lift i to ℕ using hi
    refine ⟨a * 10 ^ i, b, hbne, hb, ?_⟩
    push_cast
    rw [zpow_natCast]
    ring
  · obtain ⟨n, hn⟩ := Int.eq_ofNat_of_zero_le (neg_nonneg.2 hi)
    obtain rfl : i = -(n : ℤ) := by omega
    have hfraction : (a : ℚ) / b * 10 ^ (-(n : ℤ)) = a / (b * 10 ^ n : ℤ) := by
      push_cast
      rw [zpow_neg, zpow_natCast, ← div_eq_mul_inv, div_div]
    have hd : b * 10 ^ n ≠ 0 := mul_ne_zero hbne (pow_ne_zero _ (by norm_num))
    have hdpos : (0 : ℚ) < |((b * 10 ^ n : ℤ) : ℚ)| := abs_pos.2 (Int.cast_ne_zero.2 hd)
    refine ⟨a, b * 10 ^ n, hd, ?_, hfraction⟩
    rw [hfraction, abs_div, le_div_iff₀ hdpos] at hlow
    have hproduct : 10 ^ (count - 1) * |b * 10 ^ n| ≤ |a| := by exact_mod_cast hlow
    have hten : (10 : ℤ) ^ count = 10 ^ (count - 1) * 10 := by
      rw [← pow_succ, Nat.sub_add_cancel hcount]
    have hsmall : |b * 10 ^ n| < 10 := by
      have hpos : (0 : ℤ) < 10 ^ (count - 1) := pow_pos (by norm_num) _
      exact lt_of_mul_lt_mul_left (hproduct.trans_lt (hten ▸ ha)) hpos.le
    exact hsmall.trans_le (le_self_pow₀ (by norm_num) (by omega))

end Fractions

/-! ## Rounding twice -/

namespace Approximates

variable {z : Decimal} {q : ℚ} {a b i s : ℤ} {count : ℕ}

/-- A number in units of the last place, told in units of another. -/
theorem moved (z : Decimal) (r : ℚ) (s : ℤ) :
    r * 10 ^ z.scale = r * 10 ^ s * 10 ^ (z.scale - s) := by
  rw [mul_assoc, ← ten_zpow_add]
  congr 2
  omega

/-- The last place is far behind the last digit kept. -/
theorem far (h : z.Approximates q) (hhigh : |q * 10 ^ s| < 10 ^ count) :
    100 ≤ z.scale - s + count := by
  have hlong := h.long
  rw [moved z q s, abs_mul, abs_of_pos (ten_zpow_pos _)] at hlong
  have hpow : (10 : ℚ) ^ (99 : ℤ) < 10 ^ ((count : ℤ) + (z.scale - s)) := by
    rw [ten_zpow_add, zpow_natCast]
    refine lt_of_le_of_lt ?_ (mul_lt_mul_of_pos_right hhigh (ten_zpow_pos _))
    exact_mod_cast hlong
  have hexponent := (zpow_lt_zpow_iff_right₀ (by norm_num : (1 : ℚ) < 10)).1 hpow
  omega

/-- A half of a place in front of the last one is a whole number of units of the last. -/
theorem ne_half (h : z.Approximates q) (hplace : s < z.scale) {half : ℚ}
    (hhalf : ∃ k : ℤ, 2 * half = k) : q * 10 ^ s ≠ half := by
  intro hmet
  obtain ⟨k, hk⟩ := hhalf
  obtain ⟨n, hn⟩ := Int.eq_ofNat_of_zero_le (show 0 ≤ z.scale - s - 1 by omega)
  refine h.apart (k * 5 * 10 ^ n) ?_
  rw [moved z q s, hmet, show z.scale - s = (n : ℤ) + 1 by omega, ten_zpow_add, zpow_natCast,
    zpow_one]
  push_cast
  rw [← hk]
  ring

theorem close_at (h : z.Approximates q) (s : ℤ) :
    |z.toRat * 10 ^ s - q * 10 ^ s| ≤ 1 / 2 * 10 ^ (s - z.scale) := by
  have hclose := h.close
  rw [← toRat_mul_pow, moved z z.toRat s, moved z q s, ← sub_mul, abs_mul,
    abs_of_pos (ten_zpow_pos _), ← le_div_iff₀ (ten_zpow_pos _), div_eq_mul_inv, ← zpow_neg,
    neg_sub] at hclose
  exact hclose

/-- The hundred digits of a quotient of numbers of few digits are rounded to what the exact
quotient is rounded to, and this is not the exact quotient. -/
theorem toDigits (h : z.Approximates q) (hq : q = a / b * 10 ^ i) (ha : |a| < 10 ^ count)
    (hb : |b| < 10 ^ count) (hbne : b ≠ 0) (hcount : 1 ≤ count) (hfew : count ≤ 49)
    (mode : RoundingMode) :
    mode.toDigits count z.toRat = mode.toDigits count q ∧ mode.toDigits count q ≠ q := by
  have hqne : q ≠ 0 := by
    rintro rfl
    have hzero := h.apart 0
    rw [zero_mul, Int.cast_zero] at hzero
    exact hzero rfl
  obtain ⟨hlow, hhigh⟩ := RoundingMode.shifted_bounds hcount hqne
  generalize hshift : RoundingMode.shift count q = s at hlow hhigh
  push_cast at hlow hhigh
  have hfar := h.far hhigh
  have hhalf : ∀ half : ℚ, (∃ k : ℤ, 2 * half = k) → q * 10 ^ s ≠ half :=
    fun half => h.ne_half (by omega)
  have hsame : RoundingMode.SameHalves (z.toRat * 10 ^ s) (q * 10 ^ s) := by
    have hvalue : q * 10 ^ s = a / b * 10 ^ (i + s) := by
      rw [hq, mul_assoc, ← ten_zpow_add]
    obtain ⟨c, d, hd, hsmall, hfraction⟩ := exists_fraction hcount ha hb hbne (hvalue ▸ hlow)
    rw [hfraction] at hvalue
    refine RoundingMode.sameHalves_of_close ?_ fun half hmet =>
      hvalue ▸ fraction_apart hd hsmall hmet (hvalue ▸ hhalf half hmet)
    refine (h.close_at s).trans_lt (mul_lt_mul_of_pos_left ?_ (by norm_num))
    exact zpow_lt_zpow_right₀ (by norm_num) (by omega)
  constructor
  · subst hshift
    exact RoundingMode.toDigits_congr hcount hqne hsame mode
  · intro hkept
    obtain ⟨k, hk⟩ := RoundingMode.int_of_toDigits hkept
    rw [hshift] at hk
    exact hhalf k (RoundingMode.half_of_int k) hk

end Approximates

end Decimal
end DeskCalc
