import DeskCalc.Proofs.Accuracy.ArtanhSeries
import Mathlib.Analysis.SpecialFunctions.Exponential

/-
The series of the exponential function.

Each term is the one before it times the argument over a count, with a rounding.  What the exact
series still adds behind a term is told from what it adds behind the next one (`expTail_eq`), and
the terms fall fast enough for the roundings of all the steps to weigh little more than that of
the first one.
-/
namespace DeskCalc

/-! ## The exact series -/

/-- What the series adds behind the term of degree `n`, as a part of that term:
x / (n + 1) + x^2 / ((n + 1) (n + 2)) + ... -/
noncomputable def expTail (x : ℝ) (n : ℕ) : ℝ :=
  (Real.exp x - ∑ m ∈ Finset.range (n + 1), x ^ m / m.factorial) * (n.factorial / x ^ n)

section Tail

variable {x : ℝ}

theorem exp_eq_tail (x : ℝ) : Real.exp x = 1 + expTail x 0 := by
  simp [expTail]

/-- The next term, and what comes behind it. -/
theorem expTail_eq (x : ℝ) (n : ℕ) : expTail x n = x / (n + 1) * (1 + expTail x (n + 1)) := by
  by_cases hx : x = 0
  · cases n <;> simp [expTail, hx]
  · have hfactorial : (n.factorial : ℝ) ≠ 0 := by exact_mod_cast n.factorial_ne_zero
    have hcount : (n : ℝ) + 1 ≠ 0 := by positivity
    rw [expTail, expTail, Finset.sum_range_succ _ (n + 1), Nat.factorial_succ]
    push_cast
    field_simp
    ring

theorem abs_expTail_le (hx : |x| ≤ 1) (n : ℕ) : |expTail x n| ≤ 2 * |x| := by
  by_cases hne : x = 0
  · cases n <;> simp [expTail, hne]
  · have hpow : 0 < |x| ^ n := pow_pos (abs_pos.2 hne) n
    have hfactorial : (0 : ℝ) < n.factorial := by exact_mod_cast n.factorial_pos
    have hcount : ((n : ℝ) + 2) / ((n + 1) * (n + 1)) ≤ 2 := by
      rw [div_le_iff₀ (by positivity)]
      nlinarith [(Nat.cast_nonneg n : (0 : ℝ) ≤ n)]
    have hrest := Real.exp_bound hx (Nat.succ_pos n)
    calc |expTail x n|
        = |Real.exp x - ∑ m ∈ Finset.range (n + 1), x ^ m / m.factorial| *
            (n.factorial / |x| ^ n) := by
          rw [expTail, abs_mul, abs_div, abs_pow, abs_of_pos hfactorial]
      _ ≤ |x| ^ (n + 1) * (((n + 1).succ : ℝ) / ((n + 1).factorial * (n + 1 : ℕ))) *
            (n.factorial / |x| ^ n) := mul_le_mul_of_nonneg_right hrest (by positivity)
      _ = (n + 2) / ((n + 1) * (n + 1)) * |x| := by
          rw [Nat.factorial_succ, pow_succ]
          push_cast
          field_simp
          ring
      _ ≤ 2 * |x| := mul_le_mul_of_nonneg_right hcount (abs_nonneg x)

end Tail

namespace Decimal

variable {working : ℕ} {unit : ℝ} {x term sum : Decimal}

/-! ## The computed series -/

/-- A quotient that is brought to any number of digits, also to more than a quotient has. -/
theorem within_quotient (hworking : working ≠ 0) (hunit : digitUnit working + digitUnit 100 ≤ unit)
    (x : Decimal) {y : Decimal} (hy : y.mantissa ≠ 0) :
    Within (2 * unit) ((x / y).withDigits working).toReal (x.toReal / y.toReal) := by
  have hone : digitUnit 100 ≤ 1 := zpow_le_one_of_nonpos₀ (by norm_num) (by norm_num)
  refine ((within_withDigits hworking (x / y)).trans (within_div x hy) hone).mono ?_
  linarith [digitUnit_pos 100]

/-- One step of the series. -/
theorem within_taylor_step (hworking : working ≠ 0)
    (hunit : digitUnit working + digitUnit 100 ≤ unit) (term x : Decimal) (n : ℕ) :
    Within (2 * unit) ((term * x / ofInt (n + 1)).withDigits working).toReal
      (term.toReal * (x.toReal / (n + 1))) := by
  have hdivisor : (ofInt (n + 1)).mantissa ≠ 0 := by
    show (n : ℤ) + 1 ≠ 0
    omega
  have hterm := within_quotient hworking hunit (term * x) hdivisor
  rw [toReal_mul, toReal_ofInt] at hterm
  push_cast at hterm
  rwa [mul_div_assoc']

/-- For a small argument a term is a small part of the one before it, and what comes behind it is
less than the term itself. -/
theorem abs_taylor_rest_le {a : ℝ} (ha : |a| ≤ 1 / 100) (p : ℝ) (n : ℕ) :
    |p * (a / (n + 1))| ≤ |p| / 100 ∧ |1 + expTail a (n + 1)| ≤ 11 / 10 := by
  constructor
  · have hcount : |a / ((n : ℝ) + 1)| ≤ |a| := by
      rw [abs_div, abs_of_pos (show (0 : ℝ) < n + 1 by positivity)]
      exact div_le_self (abs_nonneg a) (by linarith [(Nat.cast_nonneg n : (0 : ℝ) ≤ n)])
    rw [abs_mul]
    linarith [mul_le_mul_of_nonneg_left (hcount.trans ha) (abs_nonneg p)]
  · have htail := abs_expTail_le (show |a| ≤ 1 by linarith) (n + 1)
    have hsum := abs_add_le 1 (expTail a (n + 1))
    rw [abs_one] at hsum
    linarith

/-- What is added behind one term is as exact as what is added behind the next one, up to the
rounding of this step. -/
theorem abs_taylor_rest_sub_le {part cut a p t total start : ℝ} {n : ℕ} (ha : |a| ≤ 1 / 100)
    (hfew : unit ≤ 1 / 100) (hpart : 0 ≤ part) (hterm : Within (2 * unit) t (p * (a / (n + 1))))
    (h : |total - (start + t + t * expTail a (n + 1))| ≤ |t| * (unit + part) + 2 * cut) :
    |total - (start + p * expTail a n)| ≤ |p| * (unit + 1 / 10 * part) + 2 * cut := by
  have hpositive : 0 ≤ unit := by linarith [hterm.nonneg]
  obtain ⟨hexact, hbehind⟩ := abs_taylor_rest_le ha p n
  have hnext : |t| ≤ |p| / 50 := by
    have hgrown := mul_le_mul_of_nonneg_left hexact (show 0 ≤ 1 + 2 * unit by linarith)
    have hslack := mul_le_mul_of_nonneg_right hfew (abs_nonneg p)
    linarith [hterm.abs_le, abs_nonneg p]
  have hrounded : |(t - p * (a / (n + 1))) * (1 + expTail a (n + 1))| ≤
      2 * unit * (|p| / 100) * (11 / 10) := by
    rw [abs_mul]
    refine mul_le_mul (hterm.close.trans ?_) hbehind (abs_nonneg _) (by positivity)
    exact mul_le_mul_of_nonneg_left hexact (by linarith)
  have hrest := mul_le_mul_of_nonneg_right hnext (add_nonneg hpositive hpart)
  have hroom := mul_nonneg hpositive (abs_nonneg p)
  have hroom' := mul_nonneg hpart (abs_nonneg p)
  calc |total - (start + p * expTail a n)|
      = |total - (start + t + t * expTail a (n + 1)) +
          (t - p * (a / (n + 1))) * (1 + expTail a (n + 1))| := by
        rw [expTail_eq a n]
        ring_nf
    _ ≤ |total - (start + t + t * expTail a (n + 1))| +
          |(t - p * (a / (n + 1))) * (1 + expTail a (n + 1))| := abs_add_le _ _
    _ ≤ |p| * (unit + 1 / 10 * part) + 2 * cut := by linarith

/-- What is left out behind a small term is small. -/
theorem abs_mul_expTail_le {bound a p t : ℝ} (ha : |a| ≤ 1 / 100) (hfew : unit ≤ 1 / 100) (n : ℕ)
    (hterm : Within (2 * unit) t (p * (a / (n + 1)))) (hbound : |t| ≤ bound) :
    |p * expTail a n| ≤ 2 * bound := by
  obtain ⟨-, hbehind⟩ := abs_taylor_rest_le ha p n
  have hlarge : 98 / 100 * |p * (a / (n + 1))| ≤ (1 - 2 * unit) * |p * (a / (n + 1))| :=
    mul_le_mul_of_nonneg_right (by linarith) (abs_nonneg _)
  have hmost := mul_le_mul_of_nonneg_left hbehind (abs_nonneg (p * (a / (n + 1))))
  rw [expTail_eq a n, ← mul_assoc, abs_mul]
  linarith [hterm.le_abs, abs_nonneg (p * (a / (n + 1)))]

/-- The sum of the series.  The rounding of one step weighs as much as the term before it, and
the terms fall; what is left out at the end is as small as the term that ends the series, or as
the term that is left when they are counted out. -/
theorem abs_taylorTerms_sub_le (hworking : working ≠ 0)
    (hunit : digitUnit working + digitUnit 100 ≤ unit) (hfew : unit ≤ 1 / 100)
    (hx : |x.toReal| ≤ 1 / 100) (hlimit : working ≤ 9223372036854775808) (fuel : ℕ)
    (term sum : Decimal) (n : ℕ) :
    |(taylorTerms working x fuel term sum n).toReal -
        (sum.toReal + term.toReal * expTail x.toReal n)| ≤
      |term.toReal| * (unit + (1 / 10) ^ fuel) + 2 * 10 ^ (-(working : ℤ)) := by
  have hpositive : 0 ≤ unit := by linarith [digitUnit_pos working, digitUnit_pos 100]
  have hcut : (0 : ℝ) < 10 ^ (-(working : ℤ)) := zpow_pos (by norm_num) _
  -- Whatever has been added up before, what is missing is the exact rest behind the term at hand.
  induction fuel generalizing term sum n with
  | zero =>
    have htail : |expTail x.toReal n| ≤ 1 := by
      linarith [abs_expTail_le (show |x.toReal| ≤ 1 by linarith) n]
    rw [taylorTerms_zero, sub_add_cancel_left, abs_neg, abs_mul, pow_zero]
    linarith [mul_le_mul_of_nonneg_left htail (abs_nonneg term.toReal),
      mul_nonneg (abs_nonneg term.toReal) hpositive]
  | succ fuel ih =>
    have hterm := within_taylor_step hworking hunit term x n
    rw [taylorTerms_succ]
    dsimp only
    generalize (term * x / ofInt (n + 1)).withDigits working = next at hterm ⊢
    split
    · next hstopped =>
      rw [sub_add_cancel_left, abs_neg]
      refine (abs_mul_expTail_le hx hfew n hterm
        (abs_toReal_le_of_stopped ⟨by omega, by omega⟩ hstopped)).trans
          (le_add_of_nonneg_left ?_)
      positivity
    · have hnext := ih next (sum + next) (n + 1)
      rw [toReal_add] at hnext
      rw [pow_succ']
      exact abs_taylor_rest_sub_le hx hfew (by positivity) hterm hnext

end Decimal
end DeskCalc
