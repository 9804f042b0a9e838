import DeskCalc.Proofs.Accuracy.Relative
import DeskCalc.Proofs.Scale.Series
import Mathlib.Analysis.SpecialFunctions.Artanh
import Mathlib.Analysis.SpecialFunctions.Log.Deriv

/-
The series of the inverse hyperbolic tangent.

Each term comes from the power before it, with a rounding for the power and one for the term.
What the exact series still adds behind a term is the next term and the square times what it adds
behind that one (`artanhTail_eq`), so the error of the rest is told from the error of one step.
The powers fall fast enough for all the steps together to weigh little more than the first one.
-/
namespace DeskCalc

/-! ## The exact series -/

/-- What the series adds behind the term of denominator `n`, as a part of the power in that
term: s / (n + 2) + s^2 / (n + 4) + ..., with the square s of the argument. -/
noncomputable def artanhTail (s : ℝ) (n : ℕ) : ℝ :=
  tsum fun k : ℕ => s ^ (k + 1) / ((n : ℝ) + 2 * ((k : ℝ) + 1))

section Tail

variable {s z : ℝ}

theorem artanhTail_term_le (hs : 0 ≤ s) (n k : ℕ) :
    s ^ (k + 1) / ((n : ℝ) + 2 * ((k : ℝ) + 1)) ≤ s / (n + 2) * s ^ k := by
  rw [div_mul_eq_mul_div, ← pow_succ']
  refine div_le_div_of_nonneg_left (pow_nonneg hs _) (by positivity) ?_
  linarith [(Nat.cast_nonneg k : (0 : ℝ) ≤ k)]

theorem summable_artanhTail (hs : 0 ≤ s) (hlt : s < 1) (n : ℕ) :
    Summable fun k : ℕ => s ^ (k + 1) / ((n : ℝ) + 2 * ((k : ℝ) + 1)) :=
  .of_nonneg_of_le (fun k => by positivity) (artanhTail_term_le hs n)
    ((summable_geometric_of_lt_one hs hlt).mul_left _)

theorem artanhTail_nonneg (hs : 0 ≤ s) (n : ℕ) : 0 ≤ artanhTail s n :=
  tsum_nonneg fun k => by positivity

/-- The first term behind is more than half of what is added. -/
theorem artanhTail_le (hs : 0 ≤ s) (hhalf : s ≤ 1 / 2) (n : ℕ) :
    artanhTail s n ≤ 2 * (s / (n + 2)) := by
  have hlt : s < 1 := by linarith
  have hfirst : 0 ≤ s / ((n : ℝ) + 2) := by positivity
  have hgeometric : (1 - s)⁻¹ ≤ 2 := by
    rw [inv_le_comm₀ (by linarith) two_pos]
    linarith
  calc artanhTail s n ≤ tsum fun k : ℕ => s / ((n : ℝ) + 2) * s ^ k :=
        (summable_artanhTail hs hlt n).tsum_le_tsum (artanhTail_term_le hs n)
          ((summable_geometric_of_lt_one hs hlt).mul_left _)
    _ = s / (n + 2) * (1 - s)⁻¹ := by rw [tsum_mul_left, tsum_geometric_of_lt_one hs hlt]
    _ ≤ 2 * (s / (n + 2)) := by
        rw [mul_comm 2]
        exact mul_le_mul_of_nonneg_left hgeometric hfirst

theorem artanhTail_le_one (hs : 0 ≤ s) (hhalf : s ≤ 1 / 2) (n : ℕ) : artanhTail s n ≤ 1 := by
  have hfirst : s / ((n : ℝ) + 2) ≤ s :=
    div_le_self hs (by linarith [(Nat.cast_nonneg n : (0 : ℝ) ≤ n)])
  linarith [artanhTail_le hs hhalf n]

theorem artanhTail_eq (hs : 0 ≤ s) (hlt : s < 1) (n : ℕ) :
    artanhTail s n = s / (n + 2) + s * artanhTail s (n + 2) := by
  rw [artanhTail, (summable_artanhTail hs hlt n).tsum_eq_zero_add, artanhTail, ← tsum_mul_left]
  congr 1
  · norm_num
  · refine tsum_congr fun k => ?_
    rw [mul_div_assoc', ← pow_succ']
    push_cast
    ring_nf

theorem two_mul_artanh (hz : |z| < 1) :
    2 * Real.artanh z = Real.log (1 + z) - Real.log (1 - z) := by
  obtain ⟨hlow, hhigh⟩ := abs_lt.1 hz
  rw [Real.artanh_eq_half_log ⟨hlow.le, hhigh.le⟩, Real.log_div (by linarith) (by linarith)]
  ring

/-- The first term is the argument itself. -/
theorem artanh_eq_tail (hz : |z| < 1) : Real.artanh z = z + z * artanhTail (z * z) 1 := by
  have hsum := Real.hasSum_log_sub_log_of_abs_lt_one hz
  have hfirst := hsum.summable.tsum_eq_zero_add
  rw [hsum.tsum_eq, ← two_mul_artanh hz] at hfirst
  have hrest : ∀ k : ℕ, (2 : ℝ) * (1 / (2 * ((k + 1 : ℕ) : ℝ) + 1)) * z ^ (2 * (k + 1) + 1) =
      2 * z * ((z * z) ^ (k + 1) / (((1 : ℕ) : ℝ) + 2 * ((k : ℝ) + 1))) := by
    intro k
    have hpow : z ^ (2 * (k + 1) + 1) = z * (z * z) ^ (k + 1) := by
      rw [pow_succ', pow_mul, sq]
    rw [hpow]
    push_cast
    ring
  rw [tsum_congr hrest, tsum_mul_left] at hfirst
  rw [artanhTail]
  push_cast at hfirst ⊢
  linarith

/-- What follows the first term has its sign. -/
theorem abs_le_abs_artanh (hz : |z| < 1) : |z| ≤ |Real.artanh z| := by
  have htail := artanhTail_nonneg (mul_self_nonneg z) 1
  rw [artanh_eq_tail hz, ← mul_one_add, abs_mul]
  refine le_mul_of_one_le_right (abs_nonneg z) ?_
  rw [abs_of_nonneg (by linarith)]
  linarith

theorem artanh_ratio (hz : 0 < z) :
    2 * Real.artanh ((z - 1) / (z + 1)) = Real.log z := by
  have hsum : 0 < z + 1 := by linarith
  have hlow : -1 ≤ (z - 1) / (z + 1) := by
    rw [le_div_iff₀ hsum]
    linarith
  have hhigh : (z - 1) / (z + 1) ≤ 1 := by
    rw [div_le_iff₀ hsum]
    linarith
  have hquotient : (1 + (z - 1) / (z + 1)) / (1 - (z - 1) / (z + 1)) = z := by
    field_simp
    ring
  rw [Real.artanh_eq_half_log ⟨hlow, hhigh⟩, hquotient]
  ring

/-- The error of a small argument. -/
theorem Within.artanh {part a b : ℝ} (h : Within part a b) (hpart : part ≤ 1 / 2)
    (hb : |b| ≤ 1 / 4) : Within (4 * part) (Real.artanh a) (Real.artanh b) where
  nonneg := by linarith [h.nonneg]
  close := by
    have hlow := neg_abs_le b
    have hhigh := le_abs_self b
    have ha : |a| < 1 := by
      linarith [h.abs_le, mul_le_mul_of_nonneg_right hpart (abs_nonneg b)]
    have hmoved : 0 ≤ part * |b| := mul_nonneg h.nonneg (abs_nonneg b)
    have hfew : 2 * (part * |b|) ≤ 1 / 2 := by
      linarith [mul_le_mul hpart hb (abs_nonneg b) (by norm_num)]
    -- One plus and one minus the argument are both at least a half.
    have hlog : ∀ {x y : ℝ}, |x - y| = |a - b| → 1 / 2 ≤ y →
        |Real.log x - Real.log y| ≤ 4 * (part * |b|) := by
      intro x y hxy hy
      have hnear : Within (2 * (part * |b|)) x y := by
        refine ⟨by linarith, ?_⟩
        rw [hxy, abs_of_pos (show 0 < y by linarith)]
        linarith [h.close, mul_le_mul_of_nonneg_left hy hmoved]
      linarith [hnear.log hfew (by linarith)]
    have hplus := hlog (x := 1 + a) (y := 1 + b) (by rw [add_sub_add_left_eq_sub]) (by linarith)
    have hminus := hlog (x := 1 - a) (y := 1 - b)
      (by rw [sub_sub_sub_cancel_left, abs_sub_comm]) (by linarith)
    have hsplit : 2 * (Real.artanh a - Real.artanh b) =
        Real.log (1 + a) - Real.log (1 + b) - (Real.log (1 - a) - Real.log (1 - b)) := by
      rw [mul_sub, two_mul_artanh ha, two_mul_artanh (by linarith)]
      ring
    have hdouble : 2 * |Real.artanh a - Real.artanh b| ≤ 8 * (part * |b|) := by
      rw [← abs_two, ← abs_mul, hsplit]
      linarith [abs_sub (Real.log (1 + a) - Real.log (1 + b))
        (Real.log (1 - a) - Real.log (1 - b))]
    have hlarge := mul_le_mul_of_nonneg_left (abs_le_abs_artanh (show |b| < 1 by linarith)) h.nonneg
    linarith

end Tail

namespace Decimal

variable {working : ℕ} {square power sum : Decimal} {cutoff : ℤ} {s : ℝ}

/-! ## The computed series -/

/-- A term that ends a series. -/
theorem abs_toReal_le_of_stopped {term : Decimal} (hcutoff : InRange cutoff)
    (h : (term.isZero || decide (term.adjustedExponent < cutoff)) = true) :
    |term.toReal| ≤ 10 ^ cutoff := by
  by_cases hne : term.mantissa = 0
  · rw [toReal_eq_zero.2 hne, abs_zero]
    positivity
  · rw [isZero_of_ne hne, Bool.false_or, decide_eq_true_eq, Context.adjustedExponent_eq hne,
      saturate] at h
    obtain ⟨hlow, hhigh⟩ := hcutoff
    refine (abs_toReal_lt term).le.trans (zpow_le_zpow_right₀ (by norm_num) ?_)
    omega

/-- One step of the series: the next power, and the term that it gives. -/
theorem within_atanh_step {unit : ℝ} (hworking : Grain working unit)
    (hsquare : Within unit square.toReal s) (power : Decimal) (n : ℕ) :
    Within (3 * unit) ((power * square).withDigits working).toReal (power.toReal * s) ∧
      Within (9 * unit)
        (((power * square).withDigits working / ofInt (n + 2)).withDigits working).toReal
        (power.toReal * (s / (n + 2))) := by
  have hunit := hworking.small
  have hpower : Within (3 * unit) ((power * square).withDigits working).toReal
      (power.toReal * s) := by
    have hproduct := within_withDigits hworking.ne_zero (power * square)
    rw [toReal_mul] at hproduct
    refine (hproduct.trans (hsquare.mul_left power.toReal) (by linarith)).mono ?_
    linarith [hworking.digits]
  refine ⟨hpower, ?_⟩
  have hdivisor : (ofInt (n + 2)).mantissa ≠ 0 := by
    show (n : ℤ) + 2 ≠ 0
    omega
  have hterm := within_div_withDigits hworking ((power * square).withDigits working) hdivisor
  rw [toReal_ofInt] at hterm
  push_cast at hterm
  rw [mul_div_assoc']
  exact (hterm.trans (hpower.div_right _) (by linarith)).mono (by linarith)

/-- What is added behind one term is as exact as what is added behind the next one, up to the
roundings of this step. -/
theorem abs_rest_sub_le {unit part cut p p' t total start : ℝ} {n : ℕ} (hs : 0 ≤ s)
    (hsmall : s ≤ 1 / 300) (hunit : unit ≤ 1 / 100) (hpart : 0 ≤ part)
    (hpower : Within (3 * unit) p' (p * s)) (hterm : Within (9 * unit) t (p * (s / (n + 2))))
    (h : |total - (start + t + p' * artanhTail s (n + 2))| ≤ |p'| * (unit + part) + 4 * cut) :
    |total - (start + p * artanhTail s n)| ≤ |p| * (unit + 1 / 100 * part) + 4 * cut := by
  have hpositive : 0 ≤ unit := by linarith [hpower.nonneg]
  have hfirst : s / ((n : ℝ) + 2) ≤ 1 / 600 := by
    rw [div_le_iff₀ (by positivity)]
    linarith [(Nat.cast_nonneg n : (0 : ℝ) ≤ n)]
  have hproduct : |p * s| ≤ |p| / 300 := by
    rw [abs_mul, abs_of_nonneg hs]
    linarith [mul_le_mul_of_nonneg_left hsmall (abs_nonneg p)]
  have hquotient : |p * (s / (n + 2))| ≤ |p| / 600 := by
    rw [abs_mul, abs_of_nonneg (by positivity : 0 ≤ s / ((n : ℝ) + 2))]
    linarith [mul_le_mul_of_nonneg_left hfirst (abs_nonneg p)]
  -- The next power is at most half a hundredth of this one, so the rest weighs little.
  have hnext : |p'| ≤ |p| / 200 := by
    have hgrown := mul_le_mul_of_nonneg_left hproduct (show 0 ≤ 1 + 3 * unit by linarith)
    have hslack := mul_le_mul_of_nonneg_right hunit (abs_nonneg p)
    linarith [hpower.abs_le, abs_nonneg p]
  have hbehind := mul_le_mul_of_nonneg_right hnext (add_nonneg hpositive hpart)
  have hterm' : |t - p * (s / (n + 2))| ≤ 9 * unit * (|p| / 600) :=
    hterm.close.trans (mul_le_mul_of_nonneg_left hquotient (by linarith))
  have hpower' : |(p' - p * s) * artanhTail s (n + 2)| ≤ 3 * unit * (|p| / 300) := by
    have hone := artanhTail_le_one hs (by linarith) (n + 2)
    rw [abs_mul, abs_of_nonneg (artanhTail_nonneg hs _)]
    refine (mul_le_of_le_one_right (abs_nonneg _) hone).trans (hpower.close.trans ?_)
    exact mul_le_mul_of_nonneg_left hproduct (by linarith)
  have hroom := mul_nonneg hpositive (abs_nonneg p)
  have hroom' := mul_nonneg hpart (abs_nonneg p)
  calc |total - (start + p * artanhTail s n)|
      = |total - (start + t + p' * artanhTail s (n + 2)) + (t - p * (s / (n + 2))) +
          (p' - p * s) * artanhTail s (n + 2)| := by
        rw [artanhTail_eq hs (by linarith) n]
        ring_nf
    _ ≤ |total - (start + t + p' * artanhTail s (n + 2))| + |t - p * (s / (n + 2))| +
          |(p' - p * s) * artanhTail s (n + 2)| := abs_add_three _ _ _
    _ ≤ |p| * (unit + 1 / 100 * part) + 4 * cut := by linarith

/-- What is left out behind a small term is small. -/
theorem abs_mul_artanhTail_le {unit bound p t : ℝ} (hs : 0 ≤ s) (hhalf : s ≤ 1 / 2)
    (hunit : unit ≤ 1 / 100) (n : ℕ) (hterm : Within (9 * unit) t (p * (s / (n + 2))))
    (hbound : |t| ≤ bound) : |p * artanhTail s n| ≤ 4 * bound := by
  have hfirst : 0 ≤ s / ((n : ℝ) + 2) := by positivity
  have hmost : |p * artanhTail s n| ≤ 2 * |p * (s / (n + 2))| := by
    rw [abs_mul, abs_mul, abs_of_nonneg (artanhTail_nonneg hs n), abs_of_nonneg hfirst,
      mul_left_comm]
    exact mul_le_mul_of_nonneg_left (artanhTail_le hs hhalf n) (abs_nonneg p)
  have hhalved : 1 / 2 * |p * (s / (n + 2))| ≤ (1 - 9 * unit) * |p * (s / (n + 2))| :=
    mul_le_mul_of_nonneg_right (by linarith) (abs_nonneg _)
  linarith [hterm.le_abs]

/-- The sum of the series.  The roundings of one step weigh as much as the power in it, and the
powers fall; what is left out at the end is as small as the term that ends the series, or as the
power that is left when the terms are counted out. -/
theorem abs_atanhTerms_sub_le (hworking : Ample working)
    (hsquare : Within (digitUnit working) square.toReal s) (hs : 0 ≤ s) (hsmall : s ≤ 1 / 300)
    (hcutoff : InRange cutoff) (fuel : ℕ) (power sum : Decimal) (n : ℕ) :
    |(atanhTerms working square cutoff fuel power sum n).toReal -
        (sum.toReal + power.toReal * artanhTail s n)| ≤
      |power.toReal| * (digitUnit working + (1 / 100) ^ fuel) + 4 * 10 ^ cutoff := by
  have hhalf : s ≤ 1 / 2 := by linarith
  have hunit : digitUnit working ≤ 1 / 100 := hworking.unit_le.trans (by norm_num)
  have hpositive := (digitUnit_pos working).le
  have hcut : (0 : ℝ) < 10 ^ cutoff := zpow_pos (by norm_num) cutoff
  -- Whatever has been added up before, what is missing is the exact rest behind the power at hand.
  induction fuel generalizing power sum n with
  | zero =>
    rw [atanhTerms_zero, sub_add_cancel_left, abs_neg, abs_mul,
      abs_of_nonneg (artanhTail_nonneg hs n), pow_zero]
    linarith [mul_le_mul_of_nonneg_left (artanhTail_le_one hs hhalf n) (abs_nonneg power.toReal),
      mul_nonneg (abs_nonneg power.toReal) hpositive]
  | succ fuel ih =>
    obtain ⟨hpower, hterm⟩ := within_atanh_step hworking.grain hsquare power n
    rw [atanhTerms_succ]
    dsimp only
    generalize (power * square).withDigits working = next at hpower hterm ⊢
    generalize (next / ofInt (n + 2)).withDigits working = term at hterm ⊢
    split
    · next hstopped =>
      rw [sub_add_cancel_left, abs_neg]
      refine (abs_mul_artanhTail_le hs hhalf hunit n hterm
        (abs_toReal_le_of_stopped hcutoff hstopped)).trans (le_add_of_nonneg_left ?_)
      positivity
    · have hnext := ih next (sum + term) (n + 2)
      rw [toReal_add] at hnext
      rw [pow_succ']
      exact abs_rest_sub_le hs hsmall hunit (by positivity) hpower hterm hnext

/-- There are enough terms. -/
theorem pow_le_digitUnit (count more : ℕ) : (1 / 100 : ℝ) ^ (count + more) ≤ digitUnit count :=
  calc (1 / 100 : ℝ) ^ (count + more) ≤ (1 / 100) ^ count :=
        pow_le_pow_of_le_one (by norm_num) (by norm_num) (Nat.le_add_right _ _)
    _ ≤ (1 / 10) ^ count := pow_le_pow_left₀ (by norm_num) (by norm_num) count
    _ = 10 ^ (-(count : ℤ)) := by rw [one_div, inv_pow, zpow_neg, zpow_natCast]
    _ ≤ digitUnit count := zpow_neg_le_digitUnit count

/-- The series of a small number, as exact as its digits. -/
theorem within_atanh {z : Decimal} {d : ℕ} {low : ℤ} (hworking : Ample working)
    (hsized : Sized d low 2 z) (hlow : -4611686018427387904 ≤ low)
    (hsmall : |z.toReal| ≤ 1 / 18) :
    Within (6 * digitUnit working) (z.atanh working).toReal (Real.artanh z.toReal) := by
  have hpositive := digitUnit_pos working
  by_cases hne : z.mantissa = 0
  · rw [atanh_eq, isZero_of_eq hne, if_pos rfl, toReal_eq_zero.2 hne, Real.artanh_zero,
      toReal_eq_zero.2 (show zero.mantissa = 0 from rfl)]
    exact .refl (by linarith) 0
  · obtain ⟨-, hfrom, hto⟩ := hsized hne
    have hzero : ¬ z.isZero = true := by
      rw [isZero_of_ne hne]
      exact Bool.false_ne_true
    have hmost := hworking.most
    have hcutoff : saturate (z.adjustedExponent - working) = z.leadingExponent - working := by
      rw [Context.adjustedExponent_eq hne, saturate, saturate]
      omega
    have hsquare : z.toReal * z.toReal ≤ 1 / 300 := by
      rw [← abs_mul_abs_self]
      linarith [mul_self_le_mul_self (abs_nonneg z.toReal) hsmall]
    rw [atanh_eq, if_neg hzero, hcutoff]
    have hrounded := within_withDigits hworking.ne_zero (z * z)
    rw [toReal_mul] at hrounded
    have hsum := abs_atanhTerms_sub_le hworking hrounded (mul_self_nonneg _) hsquare
      (show InRange (z.leadingExponent - working) from ⟨by omega, by omega⟩)
      (working + guardDigits) z z 1
    have hlt : |z.toReal| < 1 := by linarith
    rw [← artanh_eq_tail hlt] at hsum
    have hspent := pow_le_digitUnit working guardDigits
    have hended : (10 : ℝ) ^ (z.leadingExponent - working) ≤ |z.toReal| * digitUnit working := by
      rw [sub_eq_add_neg, zpow_add₀ (by norm_num)]
      exact mul_le_mul (pow_le_abs_toReal hne) (zpow_neg_le_digitUnit working)
        (zpow_pos (by norm_num) _).le (abs_nonneg _)
    refine ⟨by linarith, hsum.trans ?_⟩
    calc |z.toReal| * (digitUnit working + (1 / 100) ^ (working + guardDigits)) +
          4 * 10 ^ (z.leadingExponent - working)
        ≤ |z.toReal| * (digitUnit working + digitUnit working) +
            4 * (|z.toReal| * digitUnit working) := by gcongr
      _ = 6 * digitUnit working * |z.toReal| := by ring
      _ ≤ 6 * digitUnit working * |Real.artanh z.toReal| :=
          mul_le_mul_of_nonneg_left (abs_le_abs_artanh hlt) (by linarith)

end Decimal
end DeskCalc
