import DeskCalc.Proofs.Decimal.Estimate
import DeskCalc.Proofs.Decimal.SquareRoot
import Mathlib.Analysis.SpecialFunctions.Log.Basic

/-
Relative errors.

What is computed stands for a real number up to a part of that number.  The parts of operations
in sequence add up, as long as each is small; the logarithm turns a relative error into an
absolute one.  A quotient, a root and a change to another number of digits are off by a unit of
the last digit.
-/
namespace DeskCalc

/-- The first number is the second one, up to a part of it. -/
structure Within (part a b : ℝ) : Prop where
  nonneg : 0 ≤ part
  close : |a - b| ≤ part * |b|

namespace Within

variable {s t a b c : ℝ}

theorem refl (hs : 0 ≤ s) (a : ℝ) : Within s a a where
  nonneg := hs
  close := by
    rw [sub_self, abs_zero]
    exact mul_nonneg hs (abs_nonneg a)

theorem mono (h : Within s a b) (hst : s ≤ t) : Within t a b where
  nonneg := h.nonneg.trans hst
  close := h.close.trans (mul_le_mul_of_nonneg_right hst (abs_nonneg b))

theorem abs_le (h : Within s a b) : |a| ≤ (1 + s) * |b| := by
  linarith [h.close, abs_sub_abs_le_abs_sub a b]

theorem le_abs (h : Within s a b) : (1 - s) * |b| ≤ |a| := by
  have hclose := h.close
  rw [abs_sub_comm] at hclose
  linarith [abs_sub_abs_le_abs_sub b a]

/-- Errors in sequence add up.  The first one is a part of a number that is itself not exact, and
it counts twice for that. -/
theorem trans (h : Within s a b) (h' : Within t b c) (ht : t ≤ 1) : Within (2 * s + t) a c where
  nonneg := by linarith [h.nonneg, h'.nonneg]
  close := by
    have hb : s * |b| ≤ s * (2 * |c|) := by
      refine mul_le_mul_of_nonneg_left (h'.abs_le.trans ?_) h.nonneg
      exact mul_le_mul_of_nonneg_right (by linarith) (abs_nonneg c)
    calc |a - c| ≤ |a - b| + |b - c| := abs_sub_le a b c
      _ ≤ s * |b| + t * |c| := add_le_add h.close h'.close
      _ ≤ (2 * s + t) * |c| := by linarith

theorem mul_left (h : Within s a b) (c : ℝ) : Within s (c * a) (c * b) where
  nonneg := h.nonneg
  close := by
    rw [← mul_sub, abs_mul, abs_mul, mul_left_comm]
    exact mul_le_mul_of_nonneg_left h.close (abs_nonneg c)

theorem div_right (h : Within s a b) (c : ℝ) : Within s (a / c) (b / c) := by
  rw [div_eq_inv_mul, div_eq_inv_mul]
  exact h.mul_left c⁻¹

/-- Errors of two numbers that do not cancel. -/
theorem add {d : ℝ} (h : Within s a b) (h' : Within s c d) (hapart : |b| + |d| ≤ 5 * |b + d|) :
    Within (5 * s) (a + c) (b + d) where
  nonneg := by linarith [h.nonneg]
  close := by
    calc |a + c - (b + d)| = |a - b + (c - d)| := by rw [add_sub_add_comm]
      _ ≤ |a - b| + |c - d| := abs_add_le _ _
      _ ≤ s * |b| + s * |d| := add_le_add h.close h'.close
      _ ≤ 5 * s * |b + d| := by linarith [mul_le_mul_of_nonneg_left hapart h.nonneg]

theorem pos (h : Within s a b) (hs : s < 1) (hb : 0 < b) : 0 < a := by
  have hclose := (abs_sub_le_iff.1 h.close).2
  rw [abs_of_pos hb] at hclose
  linarith [mul_lt_mul_of_pos_right hs hb]

/-- The logarithm of what is off by a part is off by little more than that part. -/
theorem log (h : Within s a b) (hs : s ≤ 1 / 2) (hb : 0 < b) :
    |Real.log a - Real.log b| ≤ 2 * s := by
  have ha : 0 < a := h.pos (by linarith) hb
  have hclose := abs_sub_le_iff.1 h.close
  rw [abs_of_pos hb] at hclose
  have habove : Real.log (a / b) ≤ 2 * s := by
    refine (Real.log_le_sub_one_of_pos (div_pos ha hb)).trans ?_
    rw [sub_le_iff_le_add, div_le_iff₀ hb]
    linarith [mul_nonneg h.nonneg hb.le]
  have hbelow : Real.log (b / a) ≤ 2 * s := by
    refine (Real.log_le_sub_one_of_pos (div_pos hb ha)).trans ?_
    rw [sub_le_iff_le_add, div_le_iff₀ ha]
    -- The number that is divided by is at least half of the exact one.
    have hhalf : s * b ≤ s * (2 * a) := by
      refine mul_le_mul_of_nonneg_left ?_ h.nonneg
      linarith [mul_le_mul_of_nonneg_right hs hb.le]
    linarith
  rw [Real.log_div ha.ne' hb.ne'] at habove
  rw [Real.log_div hb.ne' ha.ne'] at hbelow
  exact abs_sub_le_iff.2 ⟨habove, hbelow⟩

end Within

/-! ## The digits of a number -/

/-- A unit of the last of so many digits, as a part of a number that has them. -/
noncomputable def digitUnit (count : ℕ) : ℝ := 10 ^ (1 - (count : ℤ))

theorem digitUnit_pos (count : ℕ) : 0 < digitUnit count := zpow_pos (by norm_num) _

theorem digitUnit_mono {count count' : ℕ} (h : count ≤ count') :
    digitUnit count' ≤ digitUnit count :=
  zpow_le_zpow_right₀ (by norm_num) (by omega)

theorem zpow_neg_le_digitUnit (count : ℕ) : (10 : ℝ) ^ (-(count : ℤ)) ≤ digitUnit count :=
  zpow_le_zpow_right₀ (by norm_num) (by omega)

theorem digitUnit_add (count more : ℕ) :
    digitUnit (count + more) = digitUnit count * (10 ^ more)⁻¹ := by
  rw [digitUnit, digitUnit, ← zpow_natCast, ← zpow_neg, ← zpow_add₀ (by norm_num)]
  congr 1
  push_cast
  ring

/-- A small part of a number, and no less than a unit of the last one of so many digits or of
those of a quotient. -/
structure Grain (count : ℕ) (unit : ℝ) : Prop where
  ne_zero : count ≠ 0
  digits : digitUnit count ≤ unit
  quotient : digitUnit 100 ≤ unit
  small : unit ≤ 1 / 10000000000

theorem Grain.pos {count : ℕ} {unit : ℝ} (h : Grain count unit) : 0 < unit :=
  (digitUnit_pos count).trans_le h.digits

/-- So many digits that a unit of the last one is small, and no more than a quotient has. -/
structure Ample (count : ℕ) : Prop where
  least : 11 ≤ count
  most : count ≤ 100

theorem Ample.ne_zero {count : ℕ} (h : Ample count) : count ≠ 0 :=
  Nat.ne_of_gt (Nat.lt_of_lt_of_le (by norm_num) h.least)

theorem Ample.unit_le {count : ℕ} (h : Ample count) : digitUnit count ≤ 1 / 10000000000 :=
  (digitUnit_mono h.least).trans_eq (by norm_num [digitUnit])

theorem Ample.grain {count : ℕ} (h : Ample count) : Grain count (digitUnit count) :=
  ⟨h.ne_zero, le_rfl, digitUnit_mono h.most, h.unit_le⟩

/-- From eleven digits on the units are small, also of more digits than a quotient has. -/
theorem grain_of_le {count : ℕ} (h : 11 ≤ count) : Grain count (1 / 10000000000) where
  ne_zero := by omega
  digits := (digitUnit_mono h).trans_eq (by norm_num [digitUnit])
  quotient := by norm_num [digitUnit]
  small := le_rfl

namespace Decimal

variable {x y : Decimal}

/-- The number that a decimal stands for, as a real number. -/
noncomputable def toReal (x : Decimal) : ℝ := (x.toRat : ℝ)

theorem toReal_add (x y : Decimal) : (x + y).toReal = x.toReal + y.toReal := by
  rw [toReal, toRat_add, Rat.cast_add, toReal, toReal]

theorem toReal_sub (x y : Decimal) : (x - y).toReal = x.toReal - y.toReal := by
  rw [toReal, toRat_sub, Rat.cast_sub, toReal, toReal]

theorem toReal_mul (x y : Decimal) : (x * y).toReal = x.toReal * y.toReal := by
  rw [toReal, toRat_mul, Rat.cast_mul, toReal, toReal]

theorem toReal_ofInt (n : ℤ) : (ofInt n).toReal = n := by
  rw [toReal, toRat_ofInt, Rat.cast_intCast]

theorem toReal_one : one.toReal = 1 := by
  rw [toReal, toRat_one, Rat.cast_one]

theorem toReal_pos : 0 < x.toReal ↔ 0 < x.mantissa := by
  rw [toReal, Rat.cast_pos, toRat_pos]

theorem toReal_eq_zero : x.toReal = 0 ↔ x.mantissa = 0 := by
  rw [toReal, Rat.cast_eq_zero, toRat_eq_zero]

theorem le_iff_toReal : x ≤ y ↔ x.toReal ≤ y.toReal := by
  rw [le_iff, toReal, toReal, Rat.cast_le]

theorem cast_ten_zpow (n : ℤ) : ((10 ^ n : ℚ) : ℝ) = 10 ^ n := by
  push_cast
  rfl

theorem abs_toReal_lt (x : Decimal) : |x.toReal| < 10 ^ (x.leadingExponent + 1) := by
  rw [toReal, ← Rat.cast_abs, ← cast_ten_zpow, Rat.cast_lt]
  exact lt_pow_leadingExponent x

theorem pow_le_abs_toReal (hx : x.mantissa ≠ 0) : 10 ^ x.leadingExponent ≤ |x.toReal| := by
  rw [toReal, ← Rat.cast_abs, ← cast_ten_zpow, Rat.cast_le]
  exact pow_leadingExponent_le hx

/-! ## Operations -/

theorem within_withDigits {count : ℕ} (hcount : count ≠ 0) (x : Decimal) :
    Within (digitUnit count) (x.withDigits count).toReal x.toReal where
  nonneg := (digitUnit_pos count).le
  close := by
    rw [toReal, toReal, digitUnit, ← cast_ten_zpow, ← Rat.cast_sub, ← Rat.cast_abs,
      ← Rat.cast_abs, ← Rat.cast_mul, Rat.cast_le]
    exact abs_toRat_withDigits_sub_le hcount x

theorem within_div (x : Decimal) (hy : y.mantissa ≠ 0) :
    Within (digitUnit 100) (x / y).toReal (x.toReal / y.toReal) where
  nonneg := (digitUnit_pos 100).le
  close := by
    rw [toReal, toReal, toReal, digitUnit, ← cast_ten_zpow, ← Rat.cast_div, ← Rat.cast_sub,
      ← Rat.cast_abs, ← Rat.cast_abs, ← Rat.cast_mul, Rat.cast_le]
    exact abs_toRat_div_sub_le x hy

/-- A quotient that is brought to another number of digits. -/
theorem within_div_withDigits {count : ℕ} {unit : ℝ} (hcount : Grain count unit) (x : Decimal)
    (hy : y.mantissa ≠ 0) :
    Within (3 * unit) ((x / y).withDigits count).toReal (x.toReal / y.toReal) := by
  have hone : digitUnit 100 ≤ 1 := zpow_le_one_of_nonpos₀ (by norm_num) (by norm_num)
  refine ((within_withDigits hcount.ne_zero (x / y)).trans (within_div x hy) hone).mono ?_
  linarith [hcount.digits, hcount.quotient]

/-! ### Roots -/

/-- The nearest root in units of the last place is one of the two beside the exact root. -/
theorem abs_nearestRoot_sub_le (n : ℕ) {d : ℕ} (hd : 0 < d) :
    |(nearestRoot n d : ℝ) - √((n : ℝ) / d)| ≤ 1 := by
  have hlow := floorSqrt_sq_le (n / d)
  have hhigh := lt_floorSqrt_succ_sq (n / d)
  rw [nearestRoot]
  generalize floorSqrt (n / d) = r at hlow hhigh
  rw [Nat.le_div_iff_mul_le hd] at hlow
  rw [Nat.div_lt_iff_lt_mul hd] at hhigh
  have hpos : (0 : ℝ) < d := by exact_mod_cast hd
  have hfrom : (r : ℝ) ≤ √((n : ℝ) / d) := by
    refine Real.le_sqrt_of_sq_le ?_
    rw [le_div_iff₀ hpos, sq]
    exact_mod_cast hlow
  have hto : √((n : ℝ) / d) ≤ r + 1 := by
    refine Real.sqrt_le_iff.2 ⟨by positivity, ?_⟩
    rw [div_le_iff₀ hpos, sq]
    exact_mod_cast hhigh.le
  rw [abs_le]
  split
  · push_cast
    constructor <;> linarith
  · constructor <;> linarith

/-- The power of ten by which a root is multiplied to bring its digits in front of the point. -/
def rootScale (x : Decimal) : ℤ := (rootDigits : ℤ) - 1 - x.leadingExponent / 2

/-- There the exact root has a hundred digits in front of the point. -/
theorem le_sqrt_mul_rootScale (hx : 0 < x.mantissa) :
    10 ^ (99 : ℤ) ≤ √x.toReal * 10 ^ x.rootScale := by
  have hpos := toReal_pos.2 hx
  have hlead := pow_le_abs_toReal hx.ne'
  have hunit : (0 : ℝ) < 10 ^ x.rootScale := zpow_pos (by norm_num) _
  have hdigits : (rootDigits : ℤ) = 100 := rfl
  have hplace : 198 ≤ x.leadingExponent + (x.rootScale + x.rootScale) := by
    rw [rootScale]
    omega
  rw [abs_of_pos hpos] at hlead
  have hsquare : (10 : ℝ) ^ (99 : ℤ) * 10 ^ (99 : ℤ) ≤
      x.toReal * (10 ^ x.rootScale * 10 ^ x.rootScale) :=
    calc (10 : ℝ) ^ (99 : ℤ) * 10 ^ (99 : ℤ) = 10 ^ (198 : ℤ) := by norm_num
      _ ≤ 10 ^ (x.leadingExponent + (x.rootScale + x.rootScale)) :=
          zpow_le_zpow_right₀ (by norm_num) hplace
      _ = 10 ^ x.leadingExponent * (10 ^ x.rootScale * 10 ^ x.rootScale) := by
          rw [zpow_add₀ (by norm_num), zpow_add₀ (by norm_num)]
      _ ≤ _ := mul_le_mul_of_nonneg_right hlead (mul_pos hunit hunit).le
  have hroot := Real.sqrt_le_sqrt hsquare
  rwa [Real.sqrt_mul_self (by norm_num), Real.sqrt_mul hpos.le,
    Real.sqrt_mul_self hunit.le] at hroot

/-- In units of its last place the computed root is next to the exact one. -/
theorem abs_longRoot_sub_le (hx : 0 < x.mantissa) :
    |x.longRoot.toReal * 10 ^ x.rootScale - √x.toReal * 10 ^ x.rootScale| ≤ 1 := by
  have hpos := toReal_pos.2 hx
  have hunit : (0 : ℝ) < 10 ^ x.rootScale := zpow_pos (by norm_num) _
  have hvalue : x.longRoot.toReal * 10 ^ x.rootScale = ((x.longRoot.mantissa : ℚ) : ℝ) := by
    rw [toReal, ← cast_ten_zpow, ← Rat.cast_mul]
    exact congrArg Rat.cast (toRat_mul_pow x.longRoot)
  rw [hvalue, longRoot]
  generalize hshift : 2 * ((rootDigits : ℤ) - 1 - x.leadingExponent / 2) - x.scale = shift
  have hunits : x.toReal * (10 ^ x.rootScale * 10 ^ x.rootScale) =
      ((x.mantissa.natAbs * 10 ^ shift.toNat : ℕ) : ℝ) / ((10 ^ (-shift).toNat : ℕ) : ℝ) := by
    rw [toReal, ← cast_ten_zpow, ← Rat.cast_mul, ← Rat.cast_mul, rootScale,
      longRoot_radicand hx hshift.symm, Rat.cast_div, Rat.cast_natCast, Rat.cast_natCast]
  have hnear := abs_nearestRoot_sub_le (x.mantissa.natAbs * 10 ^ shift.toNat)
    (show 0 < 10 ^ (-shift).toNat from pow_pos (by norm_num) _)
  rw [← hunits, Real.sqrt_mul hpos.le, Real.sqrt_mul_self hunit.le] at hnear
  dsimp only
  rwa [Int.cast_natCast, Rat.cast_natCast]

/-- The root in a hundred digits. -/
theorem within_longRoot (hx : 0 < x.mantissa) :
    Within (digitUnit 100) x.longRoot.toReal √x.toReal where
  nonneg := (digitUnit_pos 100).le
  close := by
    have hunit : (0 : ℝ) < 10 ^ x.rootScale := zpow_pos (by norm_num) _
    have hone : 1 ≤ digitUnit 100 * (√x.toReal * 10 ^ x.rootScale) :=
      calc (1 : ℝ) = digitUnit 100 * 10 ^ (99 : ℤ) := by
            rw [digitUnit]
            norm_num
        _ ≤ _ := mul_le_mul_of_nonneg_left (le_sqrt_mul_rootScale hx) (digitUnit_pos 100).le
    rw [abs_of_nonneg (Real.sqrt_nonneg _)]
    refine le_of_mul_le_mul_right ?_ hunit
    calc |x.longRoot.toReal - √x.toReal| * 10 ^ x.rootScale
        = |x.longRoot.toReal * 10 ^ x.rootScale - √x.toReal * 10 ^ x.rootScale| := by
          rw [← sub_mul, abs_mul, abs_of_pos hunit]
      _ ≤ 1 := abs_longRoot_sub_le hx
      _ ≤ digitUnit 100 * √x.toReal * 10 ^ x.rootScale := by rwa [mul_assoc]

/-- A positive number has a root. -/
theorem exists_sqrt?_within (hx : 0 < x.mantissa) : ∃ root, x.sqrt? = some root ∧
    Within (digitUnit 100) root.toReal √x.toReal := by
  rw [sqrt?_eq hx]
  by_cases hone : x.toRat = 1
  · rw [if_pos hone]
    refine ⟨x, rfl, ?_⟩
    rw [toReal, hone, Rat.cast_one, Real.sqrt_one]
    exact .refl (digitUnit_pos 100).le 1
  · rw [if_neg hone]
    exact ⟨x.longRoot, rfl, within_longRoot hx⟩

end Decimal
end DeskCalc
