import DeskCalc.Proofs.Decimal.Nearest
import Mathlib.Data.Nat.Squarefree

/-
Numbers of few significant digits, and how far a rounding moves the others.

A rounding keeps exactly the numbers that can be written with the digits it leaves
(`toDigits_eq_iff`), and moves any other by less than one unit of the last digit kept, whatever
the mode.  A power that can be written with few digits leaves no room for a lower power of the
same base that cannot (`InDigits.of_pow`).
-/
namespace DeskCalc

/-- The number can be written with at most so many significant digits; zeros at the end do not
count. -/
def InDigits (count : ℕ) (q : ℚ) : Prop := ∃ m e : ℤ, |m| < 10 ^ count ∧ q = m * 10 ^ e

/-- A carry into one more digit leaves a power of ten, which has a single digit. -/
theorem InDigits.of_abs_le {count : ℕ} {k : ℤ} (hcount : 1 ≤ count) (h : |k| ≤ 10 ^ count)
    {e : ℤ} : InDigits count (k * 10 ^ e) := by
  rcases h.lt_or_eq with hlt | hcarry
  · exact ⟨k, e, hlt, rfl⟩
  · refine ⟨k.sign, count + e, ?_, ?_⟩
    · have hk : k ≠ 0 := abs_pos.1 (hcarry ▸ pow_pos (by norm_num) count)
      rw [Int.abs_sign_of_ne_zero hk]
      exact one_lt_pow₀ (by norm_num) (by omega)
    · have hpower : (k : ℚ) = k.sign * 10 ^ (count : ℤ) := by
        rw [zpow_natCast]
        exact_mod_cast (hcarry ▸ (Int.sign_mul_abs k).symm)
      rw [hpower, mul_assoc, ← Decimal.ten_zpow_add]

namespace RoundingMode

open Decimal

variable {mode : RoundingMode} {count : ℕ} {q : ℚ}

/-- Every mode goes to one of the two integers next to the number. -/
theorem abs_nearby_sub_lt (mode : RoundingMode) (q : ℚ) : |(mode.nearby q : ℚ) - q| < 1 := by
  have hfloor := Int.floor_le q
  have hfloor' := Int.lt_floor_add_one q
  have hceil := Int.le_ceil q
  have hceil' := Int.ceil_lt_add_one q
  rw [abs_lt]
  cases mode with
  | halfUp | halfDown =>
    have habove := Int.floor_le (q + 1 / 2)
    have habove' := Int.lt_floor_add_one (q + 1 / 2)
    have hbelow := Int.le_ceil (q - 1 / 2)
    have hbelow' := Int.ceil_lt_add_one (q - 1 / 2)
    simp only [nearby]
    split_ifs <;> constructor <;> linarith
  | halfEven =>
    simp only [nearby]
    split_ifs with hunder hover
    · constructor <;> linarith
    · push_cast
      constructor <;> linarith
    · -- On a half either neighbour is as close.
      rcases Int.emod_two_eq ⌊q⌋ with heven | hodd
      · rw [heven]
        push_cast
        constructor <;> linarith
      · rw [hodd]
        push_cast
        constructor <;> linarith
  | up | down =>
    simp only [nearby]
    split_ifs <;> constructor <;> linarith
  | ceiling | floor =>
    simp only [nearby]
    constructor <;> linarith

theorem abs_nearby_le (mode : RoundingMode) {k : ℤ} (h : |q| < k) : |mode.nearby q| ≤ k := by
  have hlt : |(mode.nearby q : ℚ)| < (k : ℚ) + 1 := by
    linarith [abs_sub_abs_le_abs_sub (mode.nearby q : ℚ) q, abs_nearby_sub_lt mode q]
  exact Int.lt_add_one_iff.1 (by exact_mod_cast hlt)

theorem toDigits_zero (mode : RoundingMode) (count : ℕ) : mode.toDigits count 0 = 0 :=
  toDigits_of_int (k := 0) (by rw [zero_mul, Int.cast_zero])

theorem toDigits_neg (mode : RoundingMode) (count : ℕ) (q : ℚ) :
    mode.toDigits count (-q) = -mode.mirror.toDigits count q := by
  rw [toDigits, toDigits, shift, shift, abs_neg, neg_mul, nearby_neg, Int.cast_neg, neg_mul]

theorem shift_mul_zpow (count : ℕ) (hq : q ≠ 0) (k : ℤ) :
    shift count (q * 10 ^ k) = shift count q - k := by
  have hlow := Int.zpow_log_le_self (by norm_num : 1 < 10) (abs_pos.2 hq)
  have hhigh := Int.lt_zpow_succ_log_self (by norm_num : 1 < 10) |q|
  have hpos := ten_zpow_pos k
  push_cast at hlow hhigh
  have hlog : Int.log 10 |q * 10 ^ k| = Int.log 10 |q| + k := by
    rw [abs_mul, abs_of_pos hpos]
    refine log_ten_eq ?_ ?_
    · rw [ten_zpow_add]
      exact mul_le_mul_of_nonneg_right hlow hpos.le
    · rw [add_right_comm, ten_zpow_add]
      exact mul_lt_mul_of_pos_right hhigh hpos
  rw [shift, shift, hlog]
  omega

/-- A rounding to significant digits does not see the point. -/
theorem toDigits_mul_zpow (mode : RoundingMode) (count : ℕ) (q : ℚ) (k : ℤ) :
    mode.toDigits count (q * 10 ^ k) = mode.toDigits count q * 10 ^ k := by
  by_cases hq : q = 0
  · rw [hq, zero_mul, toDigits_zero, zero_mul]
  · have hplace : k + (shift count q - k) = shift count q := by omega
    have hback : -(shift count q - k) = -shift count q + k := by omega
    rw [toDigits, toDigits, shift_mul_zpow count hq, mul_assoc, ← ten_zpow_add, hplace, hback,
      ten_zpow_add, mul_assoc]

/-- A rounding to so many digits moves a number by less than a unit of the last of them. -/
theorem abs_toDigits_sub_le (mode : RoundingMode) (hcount : 1 ≤ count) (q : ℚ) :
    |mode.toDigits count q - q| ≤ 10 ^ (1 - (count : ℤ)) * |q| := by
  by_cases hq : q = 0
  · rw [hq, toDigits_zero, sub_zero, abs_zero, mul_zero]
  · obtain ⟨hlow, -⟩ := shifted_bounds hcount hq
    have hnear := abs_nearby_sub_lt mode (q * 10 ^ shift count q)
    rw [toDigits]
    generalize mode.nearby (q * 10 ^ shift count q) = k at hnear
    generalize shift count q = s at hlow hnear ⊢
    have hpos := ten_zpow_pos s
    have hpow : ((10 ^ (count - 1) : ℤ) : ℚ) = 10 ^ ((count : ℤ) - 1) := by
      rw [Int.cast_pow, ← zpow_natCast, Nat.cast_sub hcount]
      rfl
    have hmoved : (k : ℚ) * 10 ^ (-s) - q = (k - q * 10 ^ s) * 10 ^ (-s) := by
      rw [sub_mul, mul_assoc q, ← ten_zpow_add, add_neg_cancel, zpow_zero, mul_one]
    -- One unit of the last digit kept is that part of the number.
    have hunit : (10 : ℚ) ^ (-s) ≤ 10 ^ (1 - (count : ℤ)) * |q| := by
      rw [hpow, abs_mul, abs_of_pos hpos] at hlow
      have hscaled := mul_le_mul_of_nonneg_left hlow
        (mul_pos (ten_zpow_pos (1 - (count : ℤ))) (ten_zpow_pos (-s))).le
      calc (10 : ℚ) ^ (-s) = 10 ^ (1 - (count : ℤ)) * 10 ^ (-s) * 10 ^ ((count : ℤ) - 1) := by
            rw [← ten_zpow_add, ← ten_zpow_add]
            congr 1
            omega
        _ ≤ 10 ^ (1 - (count : ℤ)) * 10 ^ (-s) * (|q| * 10 ^ s) := hscaled
        _ = 10 ^ (1 - (count : ℤ)) * |q| * (10 ^ s * 10 ^ (-s)) := by ring
        _ = 10 ^ (1 - (count : ℤ)) * |q| := by
            rw [← ten_zpow_add, add_neg_cancel, zpow_zero, mul_one]
    rw [hmoved, abs_mul, abs_of_pos (ten_zpow_pos (-s))]
    exact (mul_le_of_le_one_left (ten_zpow_pos (-s)).le hnear.le).trans hunit

/-- A number other than zero is not rounded to zero. -/
theorem toDigits_ne_zero (mode : RoundingMode) {count : ℕ} (hcount : 2 ≤ count) {q : ℚ}
    (hq : q ≠ 0) : mode.toDigits count q ≠ 0 := by
  intro hzero
  have herror := mode.abs_toDigits_sub_le (show 1 ≤ count by omega) q
  have hunit : (10 : ℚ) ^ (1 - (count : ℤ)) < 1 :=
    zpow_lt_one_of_neg₀ (by norm_num) (by omega)
  rw [hzero, zero_sub, abs_neg] at herror
  exact absurd herror (not_le.2 (mul_lt_of_lt_one_left (abs_pos.2 hq) hunit))

/-- A rounding keeps the numbers that have no more digits than it leaves, and no others. -/
theorem toDigits_eq_iff (mode : RoundingMode) (hcount : 1 ≤ count) :
    mode.toDigits count q = q ↔ InDigits count q := by
  by_cases hq : q = 0
  · rw [hq, toDigits_zero]
    exact iff_of_true rfl ⟨0, 0, by simp, by simp⟩
  · constructor
    · intro hkept
      obtain ⟨k, hk⟩ := int_of_toDigits hkept
      obtain ⟨-, hhigh⟩ := shifted_bounds hcount hq
      rw [hk] at hhigh
      refine ⟨k, -shift count q, by exact_mod_cast hhigh, ?_⟩
      rw [← hk, mul_assoc, ← ten_zpow_add, add_neg_cancel, zpow_zero, mul_one]
    · rintro ⟨m, e, hm, rfl⟩
      have hfew : |(m : ℚ)| < 10 ^ (count : ℤ) := by
        rw [zpow_natCast]
        exact_mod_cast hm
      have hlog : Int.log 10 |(m : ℚ) * 10 ^ e| < count + e := by
        refine (Int.lt_zpow_iff_log_lt (by norm_num : 1 < 10) (abs_pos.2 hq)).1 ?_
        push_cast
        rw [abs_mul, abs_of_pos (ten_zpow_pos e), ten_zpow_add]
        exact mul_lt_mul_of_pos_right hfew (ten_zpow_pos e)
      obtain ⟨n, hn⟩ := Int.eq_ofNat_of_zero_le
        (show 0 ≤ e + shift count (m * 10 ^ e) by rw [shift]; omega)
      refine toDigits_of_int (k := m * 10 ^ n) ?_
      rw [mul_assoc, ← ten_zpow_add, hn, zpow_natCast]
      push_cast
      rfl

/-- What a rounding leaves can be written with the digits it leaves, also after a carry. -/
theorem inDigits_toDigits (mode : RoundingMode) (hcount : 1 ≤ count) (q : ℚ) :
    InDigits count (mode.toDigits count q) := by
  by_cases hq : q = 0
  · rw [hq, toDigits_zero]
    exact ⟨0, 0, by simp, by simp⟩
  · obtain ⟨-, hhigh⟩ := shifted_bounds hcount hq
    exact .of_abs_le hcount (abs_nearby_le mode hhigh)

/-- A second rounding changes nothing. -/
theorem toDigits_toDigits (mode : RoundingMode) (hcount : 1 ≤ count) (q : ℚ) :
    mode.toDigits count (mode.toDigits count q) = mode.toDigits count q :=
  (toDigits_eq_iff mode hcount).2 (inDigits_toDigits mode hcount q)

/-- The number in so many digits, and whether that changes it. -/
def rounded (mode : RoundingMode) (count : ℕ) (q : ℚ) : ℚ × Bool :=
  (mode.toDigits count q, decide (mode.toDigits count q ≠ q))

theorem rounded_kept_iff (mode : RoundingMode) (count : ℕ) (q : ℚ) :
    (mode.rounded count q).2 = false ↔ (mode.rounded count q).1 = q := by
  rw [rounded, decide_eq_false_iff_not, not_not]

/-- A mode that treats both signs alike rounds the opposite number to the opposite. -/
theorem rounded_neg (hmode : mode.mirror = mode) (count : ℕ) (q : ℚ) :
    mode.rounded count (-q) = (-(mode.rounded count q).1, (mode.rounded count q).2) := by
  rw [rounded, rounded, toDigits_neg, hmode]
  exact Prod.ext rfl (decide_eq_decide.2 neg_inj.not)

end RoundingMode

/-- A context rounds as its mode does, if the place to which it rounds is in range. -/
theorem Context.round_eq_rounded {context : Context} {x : Decimal}
    (hprecision : context.precision ≠ 0)
    (hplace : context.precision < x.digits →
      Decimal.InRange (x.scale - (x.digits - context.precision : ℕ))) :
    ((context.round x).1.toRat, (context.round x).2) =
      context.rounding.rounded context.precision x.toRat := by
  obtain ⟨hvalue, hlost⟩ := round_eq hprecision hplace
  refine Prod.ext hvalue (Bool.eq_iff_iff.2 ?_)
  rw [hlost, RoundingMode.rounded, decide_eq_true_iff]

/-! ## Powers of few digits -/

namespace InDigits

variable {count : ℕ} {q : ℚ}

theorem zero (count : ℕ) : InDigits count 0 := ⟨0, 0, by simp, by simp⟩

/-- A mantissa that does not end in a zero cannot be shortened. -/
theorem abs_lt_of_not_dvd {m e : ℤ} (h : InDigits count (m * 10 ^ e)) (hm : ¬ 10 ∣ m) :
    |m| < 10 ^ count := by
  obtain ⟨a, f, ha, hvalue⟩ := h
  have hten : (10 : ℚ) ≠ 0 := by norm_num
  rcases lt_or_ge f e with hlt | hge
  · -- The short mantissa is the other one with zeros behind it.
    obtain ⟨n, hn⟩ := Int.eq_ofNat_of_zero_le (sub_nonneg.2 hlt.le)
    have hlonger : (a : ℚ) = m * 10 ^ n := by
      rw [← zpow_natCast, ← hn, zpow_sub₀ hten, mul_div_assoc', hvalue,
        mul_div_assoc, div_self (zpow_ne_zero f hten), mul_one]
    have hinteger : a = m * 10 ^ n := by exact_mod_cast hlonger
    refine lt_of_le_of_lt ?_ ha
    rw [hinteger, abs_mul]
    exact le_mul_of_one_le_right (abs_nonneg m) (Int.one_le_abs (pow_ne_zero _ (by norm_num)))
  · obtain ⟨n, hn⟩ := Int.eq_ofNat_of_zero_le (sub_nonneg.2 hge)
    have hlonger : (m : ℚ) = a * 10 ^ n := by
      rw [← zpow_natCast, ← hn, zpow_sub₀ hten, mul_div_assoc', ← hvalue,
        mul_div_assoc, div_self (zpow_ne_zero e hten), mul_one]
    have hinteger : m = a * 10 ^ n := by exact_mod_cast hlonger
    cases n with
    | zero =>
      rw [hinteger, pow_zero, mul_one]
      exact ha
    | succ n => exact absurd ⟨a * 10 ^ n, by rw [hinteger, pow_succ]; ring⟩ hm

theorem not_ten_dvd_pow {m : ℤ} (hm : ¬ 10 ∣ m) (n : ℕ) : ¬ 10 ∣ m ^ n := by
  have hten : Squarefree (10 : ℕ) := by decide +kernel
  intro hdvd
  have hdvd' : 10 ∣ m.natAbs ^ n := by
    rw [← Int.natAbs_pow]
    exact Int.natCast_dvd.1 hdvd
  rcases Nat.eq_zero_or_pos n with rfl | hn
  · exact absurd hdvd' (by norm_num)
  · exact hm (Int.natCast_dvd.2 ((hten.dvd_pow_iff_dvd hn.ne').1 hdvd'))

/-- Lower powers need no more digits. -/
theorem of_pow {x : Decimal} {i n : ℕ} (h : InDigits count (x.toRat ^ n)) (hpos : 1 ≤ i)
    (hi : i ≤ n) : InDigits count (x.toRat ^ i) := by
  by_cases hx : x.mantissa = 0
  · rw [Decimal.toRat_eq_zero.2 hx, zero_pow (by omega)]
    exact zero count
  · have hshort : ¬ (10 : ℤ) ∣ x.normalize.mantissa := fun hdvd =>
      Decimal.not_ten_dvd_normalize hx (Int.natCast_dvd.1 hdvd)
    rw [← Decimal.toRat_normalize] at h ⊢
    generalize x.normalize = y at h hshort ⊢
    have hpow : ∀ k : ℕ, y.toRat ^ k = ((y.mantissa ^ k : ℤ) : ℚ) * 10 ^ (-y.scale * k) := by
      intro k
      rw [Decimal.toRat, mul_pow, Int.cast_pow, zpow_mul, zpow_natCast]
    have hmantissa : y.mantissa ≠ 0 := by
      rintro hzero
      exact hshort (hzero ▸ dvd_zero 10)
    rw [hpow] at h
    refine ⟨y.mantissa ^ i, -y.scale * i, ?_, hpow i⟩
    refine lt_of_le_of_lt ?_ (h.abs_lt_of_not_dvd (not_ten_dvd_pow hshort n))
    rw [abs_pow, abs_pow]
    exact pow_le_pow_right₀ (Int.one_le_abs hmantissa) hi

end InDigits
end DeskCalc
