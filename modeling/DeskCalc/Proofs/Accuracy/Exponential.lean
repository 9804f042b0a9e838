import DeskCalc.Proofs.Accuracy.ExponentialSeries

/-
The error of an exponential.

Every number that is computed on the way stands for a power of e, and its error is told by its
logarithm: a rounding moves the logarithm by a unit of the last digit, and a squaring doubles it.
A digit is added for each squaring, so all of them together lose no more than one rounding.
-/
namespace DeskCalc

/-- Errors in sequence, where the second one counts twice. -/
theorem Within.trans_double {s t a b c : ℝ} (h : Within s a b) (h' : Within t b c) (hs : s ≤ 1) :
    Within (s + 2 * t) a c where
  nonneg := by linarith [h.nonneg, h'.nonneg]
  close := by
    have hfirst := mul_le_mul_of_nonneg_left h'.abs_le h.nonneg
    have hboth := mul_le_mul_of_nonneg_right hs (mul_nonneg h'.nonneg (abs_nonneg c))
    calc |a - c| ≤ |a - b| + |b - c| := abs_sub_le a b c
      _ ≤ s * |b| + t * |c| := add_le_add h.close h'.close
      _ ≤ (s + 2 * t) * |c| := by linarith

/-- The error of a power of e, from that of its exponent. -/
theorem abs_sub_exp_le {value a error : ℝ} (hvalue : 0 < value) (herror : error ≤ 1)
    (h : |Real.log value - a| ≤ error) : |value - Real.exp a| ≤ 2 * error * Real.exp a := by
  have hfactor : value - Real.exp a = (Real.exp (Real.log value - a) - 1) * Real.exp a := by
    rw [sub_mul, ← Real.exp_add, sub_add_cancel, Real.exp_log hvalue, one_mul]
  rw [hfactor, abs_mul, Real.abs_exp]
  refine mul_le_mul_of_nonneg_right ?_ (Real.exp_pos a).le
  linarith [Real.abs_exp_sub_one_le (h.trans herror)]

/-- The ten guard digits, but for one that a unit of the last digit takes. -/
theorem digitUnit_guarded (precision : ℕ) :
    1000000000 * digitUnit (precision + 10) = 10 ^ (-(precision : ℤ)) := by
  rw [digitUnit, show (1000000000 : ℝ) = 10 ^ (9 : ℤ) by norm_num, ← zpow_add₀ (by norm_num)]
  congr 1
  push_cast
  ring

namespace Decimal

variable {working : ℕ} {unit : ℝ} {x : Decimal}

theorem lt_iff_toReal {x y : Decimal} : x < y ↔ x.toReal < y.toReal := by
  rw [toReal, toReal, Rat.cast_lt, lt_iff]

theorem leadingExponent_lt_iff_toReal (hx : x.mantissa ≠ 0) {n : ℤ} :
    x.leadingExponent < n ↔ |x.toReal| < 10 ^ n := by
  rw [leadingExponent_lt_iff hx, toReal, ← Rat.cast_abs, ← cast_ten_zpow, Rat.cast_lt]

theorem abs_toReal (x : Decimal) : |x.toReal| = x.abs.toReal := by
  rw [toReal, toReal, toRat_abs, Rat.cast_abs]

/-! ## Halvings -/

theorem within_half (x : Decimal) : Within (digitUnit 100) (2 * (x / ofInt 2).toReal) x.toReal := by
  have hhalf := (within_div x (show (ofInt 2).mantissa ≠ 0 by decide)).mul_left 2
  rw [toReal_ofInt, Int.cast_ofNat, mul_div_cancel₀ x.toReal two_ne_zero] at hhalf
  exact hhalf

/-- Each halving takes off nearly a half, so there are few of them. -/
theorem halveToSmall_count_le (fuel : ℕ) {k : ℕ} (h : |x.toReal| < (199 / 100) ^ k / 100) :
    (halveToSmall fuel x).2 ≤ k := by
  have hhundredth : toReal ⟨1, 2⟩ = 1 / 100 := by norm_num [toReal, toRat]
  have hsmall : digitUnit 100 ≤ 1 / 199 := by norm_num [digitUnit]
  induction fuel generalizing x k with
  | zero => exact Nat.zero_le k
  | succ fuel ih =>
    rw [halveToSmall]
    split
    · next hlarge =>
      rw [le_iff_toReal, ← abs_toReal, hhundredth] at hlarge
      cases k with
      | zero =>
        rw [pow_zero] at h
        exact absurd hlarge (not_le.2 h)
      | succ k =>
        have hhalf := (within_half x).abs_le
        rw [abs_mul, abs_two] at hhalf
        have hslack := mul_le_mul_of_nonneg_right hsmall (abs_nonneg x.toReal)
        rw [pow_succ] at h
        exact Nat.succ_le_succ (ih (by linarith))
    · exact Nat.zero_le k

theorem halveToSmall_count (fuel : ℕ) (x : Decimal) : (halveToSmall fuel x).2 ≤ fuel := by
  induction fuel generalizing x with
  | zero => exact le_rfl
  | succ fuel ih =>
    rw [halveToSmall]
    split
    · exact Nat.succ_le_succ (ih _)
    · exact Nat.zero_le _

/-- The halvings lose one unit of the last digit of a quotient each. -/
theorem within_halveToSmall (fuel : ℕ) (hfuel : fuel ≤ 100) (x : Decimal) :
    Within (2 * (halveToSmall fuel x).2 * digitUnit 100)
      (2 ^ (halveToSmall fuel x).2 * (halveToSmall fuel x).1.toReal) x.toReal := by
  induction fuel generalizing x with
  | zero =>
    rw [halveToSmall]
    simpa using Within.refl le_rfl x.toReal
  | succ fuel ih =>
    rw [halveToSmall]
    split
    · have hcount : ((halveToSmall fuel (x / ofInt 2)).2 : ℝ) ≤ 100 := by
        exact_mod_cast (halveToSmall_count fuel (x / ofInt 2)).trans (by omega)
      have hrest := (ih (by omega) (x / ofInt 2)).mul_left 2
      have hunit : digitUnit 100 ≤ 1 / 200 := by norm_num [digitUnit]
      have hfew := mul_le_mul hcount hunit (digitUnit_pos 100).le (by norm_num)
      have hboth := hrest.trans_double (within_half x) (by linarith)
      rw [← mul_assoc, ← pow_succ'] at hboth
      dsimp only
      push_cast
      exact hboth.mono (by linarith)
    · simpa using Within.refl le_rfl x.toReal

/-! ## The series -/

/-- The sum of the series is as exact as its digits. -/
theorem abs_log_taylorTerms_sub_le (hworking : working ≠ 0)
    (hunit : digitUnit working + digitUnit 100 ≤ unit) (hfew : unit ≤ 1 / 100)
    (hx : |x.toReal| ≤ 1 / 100) (hlimit : working ≤ 9223372036854775808) :
    0 < (taylorTerms working x (working + guardDigits) one one 0).mantissa ∧
      |Real.log (taylorTerms working x (working + guardDigits) one one 0).toReal - x.toReal| ≤
        4 * unit := by
  have hsum := abs_taylorTerms_sub_le hworking hunit hfew hx hlimit (working + guardDigits) one
    one 0
  rw [toReal_one, one_mul, ← exp_eq_tail, abs_one, one_mul] at hsum
  generalize taylorTerms working x (working + guardDigits) one one 0 = sum at hsum ⊢
  have hpositive := digitUnit_pos 100
  have hpositive' := digitUnit_pos working
  have hended : (10 : ℝ) ^ (-(working : ℤ)) ≤ digitUnit working / 10 := by
    rw [digitUnit, sub_eq_add_neg, zpow_add₀ (by norm_num)]
    norm_num
  have hspent : (1 / 10 : ℝ) ^ (working + guardDigits) ≤ 10 ^ (-(working : ℤ)) := by
    rw [zpow_neg, zpow_natCast, ← inv_pow, ← one_div]
    exact pow_le_pow_of_le_one (by norm_num) (by norm_num) (Nat.le_add_right _ _)
  have hexact : 99 / 100 ≤ Real.exp x.toReal := by
    linarith [Real.add_one_le_exp x.toReal, neg_abs_le x.toReal]
  have hnear : Within (2 * unit) sum.toReal (Real.exp x.toReal) := by
    refine ⟨by linarith, ?_⟩
    have hlarge := mul_le_mul_of_nonneg_left hexact (show 0 ≤ 2 * unit by linarith)
    rw [Real.abs_exp]
    linarith
  have hlog := hnear.log (by linarith) (Real.exp_pos _)
  rw [Real.log_exp] at hlog
  exact ⟨toReal_pos.1 (hnear.pos (by linarith) (Real.exp_pos _)), by linarith⟩

/-! ## Squarings -/

theorem abs_log_withDigits_sub_le (hworking : working ≠ 0) (hfew : digitUnit working ≤ 1 / 2)
    (hx : 0 < x.mantissa) : 0 < (x.withDigits working).mantissa ∧
      |Real.log (x.withDigits working).toReal - Real.log x.toReal| ≤ 2 * digitUnit working :=
  ⟨mantissa_withDigits_pos hworking hx,
    (within_withDigits hworking x).log hfew (toReal_pos.2 hx)⟩

/-- What is lost doubles with each squaring. -/
theorem abs_log_squareTimes_sub_le (hworking : working ≠ 0) (hfew : digitUnit working ≤ 1 / 2)
    (count : ℕ) (hx : 0 < x.mantissa) :
    0 < (squareTimes working count x).mantissa ∧
      |Real.log (squareTimes working count x).toReal - 2 ^ count * Real.log x.toReal| ≤
        (2 ^ count - 1) * (2 * digitUnit working) := by
  induction count generalizing x with
  | zero => simpa [squareTimes_zero] using hx
  | succ count ih =>
    have hpos := toReal_pos.2 hx
    have hsquare : 0 < (x * x).mantissa := by
      rw [← toReal_pos, toReal_mul]
      exact mul_pos hpos hpos
    obtain ⟨hrounded, hlog⟩ := abs_log_withDigits_sub_le hworking hfew hsquare
    rw [toReal_mul, Real.log_mul hpos.ne' hpos.ne'] at hlog
    obtain ⟨hresult, hrest⟩ := ih hrounded
    rw [squareTimes_succ]
    refine ⟨hresult, ?_⟩
    generalize squareTimes working count ((x * x).withDigits working) = result at hrest ⊢
    generalize (x * x).withDigits working = square at hlog hrest
    have hscaled : |2 ^ count * Real.log square.toReal -
        2 ^ count * (Real.log x.toReal + Real.log x.toReal)| ≤
          2 ^ count * (2 * digitUnit working) := by
      rw [← mul_sub, abs_mul, abs_of_pos (show (0 : ℝ) < 2 ^ count by positivity)]
      exact mul_le_mul_of_nonneg_left hlog (by positivity)
    rw [pow_succ]
    obtain ⟨hlow, hhigh⟩ := abs_le.1 hscaled
    obtain ⟨hfrom, hto⟩ := abs_le.1 hrest
    exact abs_le.2 ⟨by linarith, by linarith⟩

/-! ## The exponential of a number in range -/

theorem leadingExponent_le_of_limit (hne : x.mantissa ≠ 0) (hle : |x.toReal| ≤ 23100) :
    x.leadingExponent ≤ 4 :=
  Int.lt_add_one_iff.1 ((leadingExponent_lt_iff_toReal hne).2 (hle.trans_lt (by norm_num)))

/-- In range, the exponential is worked out by the series and the squarings. -/
theorem exp?_of_le {precision count : ℕ} {small : Decimal} (hne : x.mantissa ≠ 0)
    (hle : |x.toReal| ≤ 23100) (hhalved : halveToSmall x.halvingBound x = (small, count))
    (hworking : precision + guardDigits + count = working) :
    x.exp? precision = some ((squareTimes working count
      (taylorTerms working small (working + guardDigits) one one 0)).withDigits working) := by
  have hlead := leadingExponent_le_of_limit hne hle
  have hplace : ¬ 5 < x.adjustedExponent := by
    rw [Context.adjustedExponent_eq hne, saturate]
    omega
  have hlimit : ¬ exponentialLimit < x.abs := by
    rw [lt_iff_toReal, ← abs_toReal, exponentialLimit, toReal_ofInt]
    push_cast
    exact not_lt.2 hle
  rw [exp?_eq, isZero_of_ne hne, decide_eq_false hplace, decide_eq_false hlimit, hhalved,
    ← hworking]
  rfl

/-- A small term ends a series. -/
theorem stopped_of_abs_lt {term : Decimal} {cutoff : ℤ} (hcutoff : -9223372036854775808 < cutoff)
    (h : |term.toReal| < 10 ^ cutoff) :
    (term.isZero || decide (term.adjustedExponent < cutoff)) = true := by
  by_cases hne : term.mantissa = 0
  · rw [isZero_of_eq hne, Bool.true_or]
  · have hplace := (leadingExponent_lt_iff_toReal hne).2 h
    rw [isZero_of_ne hne, Bool.false_or, decide_eq_true_eq, Context.adjustedExponent_eq hne,
      saturate]
    omega

/-- What is left of the guard digits: a digit was added for each squaring. -/
theorem guard_digits_suffice {precision : ℕ} (hprecision : precision ≤ 80) (count : ℕ) :
    2 ^ count * digitUnit (precision + 10 + count) ≤ digitUnit (precision + 10) ∧
      10000000000 * digitUnit 100 ≤ digitUnit (precision + 10) := by
  constructor
  · have hpow : (2 : ℝ) ^ count ≤ 10 ^ count := pow_le_pow_left₀ (by norm_num) (by norm_num) count
    rw [digitUnit_add, mul_comm, mul_assoc, inv_mul_eq_div]
    refine mul_le_of_le_one_right (digitUnit_pos _).le ?_
    exact (div_le_one (by positivity)).2 hpow
  · have hninety := digitUnit_mono (show precision + 10 ≤ 90 by omega)
    have hsplit : digitUnit 100 = digitUnit 90 * (10 ^ 10)⁻¹ := digitUnit_add 90 10
    linarith

/-- All that is lost on the way, for the logarithms `start`, `sum`, `power` and `result` of the
reduced number, of the sum of the series, of its power and of the result. -/
theorem abs_result_sub_le {count : ℕ} {last quotient whole a start sum power result : ℝ}
    (hcount : count ≤ 22) (hquotient : 0 ≤ quotient) (ha : |a| ≤ 23100)
    (hsquares : 2 ^ count * last ≤ whole) (hfew : 10000000000 * quotient ≤ whole)
    (hstart : |2 ^ count * start - a| ≤ 2 * count * quotient * |a|)
    (hsum : |sum - start| ≤ 4 * (last + quotient))
    (hpower : |power - 2 ^ count * sum| ≤ (2 ^ count - 1) * (2 * last))
    (hresult : |result - power| ≤ 2 * last) : |result - a| ≤ 7 * whole := by
  have hdoubled : (2 : ℝ) ^ count ≤ 2 ^ 22 := pow_le_pow_right₀ (by norm_num) hcount
  have hhalvings : |2 ^ count * start - a| ≤ 44 * quotient * 23100 := by
    have hsteps : (count : ℝ) ≤ 22 := by exact_mod_cast hcount
    refine hstart.trans (mul_le_mul ?_ ha (abs_nonneg a) (by positivity))
    exact mul_le_mul_of_nonneg_right (by linarith) hquotient
  have hseries : |2 ^ count * sum - 2 ^ count * start| ≤ 4 * whole + 2 ^ 22 * (4 * quotient) := by
    have hscaled := mul_le_mul_of_nonneg_left hsum (show (0 : ℝ) ≤ 2 ^ count by positivity)
    have hmore := mul_le_mul_of_nonneg_right hdoubled (show 0 ≤ 4 * quotient by linarith)
    rw [← mul_sub, abs_mul, abs_of_pos (show (0 : ℝ) < 2 ^ count by positivity)]
    linarith
  calc |result - a|
      = |result - power + (power - 2 ^ count * sum) + (2 ^ count * sum - 2 ^ count * start) +
          (2 ^ count * start - a)| := by ring_nf
    _ ≤ |result - power| + |power - 2 ^ count * sum| + |2 ^ count * sum - 2 ^ count * start| +
          |2 ^ count * start - a| :=
        (abs_add_le _ _).trans (add_le_add_left (abs_add_three _ _ _) _)
    _ ≤ 7 * whole := by linarith

/-- The exponential of a number in range.  Its error is that of a power of e. -/
theorem exists_exp?_log {precision : ℕ} (hprecision : precision ≤ 80)
    (hle : |x.toReal| ≤ 23100) :
    ∃ value, x.exp? precision = some value ∧ 0 < value.mantissa ∧
      |Real.log value.toReal - x.toReal| ≤ 7 * digitUnit (precision + 10) := by
  have hpositive := digitUnit_pos (precision + 10)
  by_cases hne : x.mantissa = 0
  · refine ⟨one, ?_, by decide, ?_⟩
    · rw [exp?_eq, isZero_of_eq hne, if_pos rfl]
    · rw [toReal_one, Real.log_one, toReal_eq_zero.2 hne, sub_zero, abs_zero]
      linarith
  · obtain ⟨⟨small, count⟩, hhalved⟩ : ∃ halved, halveToSmall x.halvingBound x = halved := ⟨_, rfl⟩
    have hcount := halveToSmall_count_le x.halvingBound (x := x) (k := 22)
      (hle.trans_lt (by norm_num))
    have hlead := leadingExponent_le_of_limit hne hle
    have hfuel : x.halvingBound ≤ 100 := by
      rw [halvingBound, Context.adjustedExponent_eq hne, saturate]
      omega
    have hhalves := (within_halveToSmall x.halvingBound hfuel x).close
    have hsmall := halveToSmall_lt x.halvingBound
      (abs_toRat_lt_halvings hne (by omega))
    rw [hhalved] at hcount hsmall hhalves
    dsimp only at hcount hsmall hhalves
    have hreduced : |small.toReal| ≤ 1 / 100 := by
      rw [toReal, ← Rat.cast_abs]
      exact (Rat.cast_le.2 hsmall.le).trans_eq (by norm_num)
    have hvalue := exp?_of_le hne hle hhalved (show precision + guardDigits + count = _ from rfl)
    obtain ⟨hguarded, hfew⟩ := guard_digits_suffice hprecision count
    have hguard : guardDigits = 10 := rfl
    have hworking : precision + guardDigits + count ≠ 0 := by omega
    have hunit : digitUnit (precision + guardDigits + count) ≤ 1 / 1000 := by
      have hten : digitUnit (precision + 10 + count) ≤ digitUnit 10 := digitUnit_mono (by omega)
      exact hten.trans (by norm_num [digitUnit])
    have hboth : digitUnit (precision + guardDigits + count) + digitUnit 100 ≤ 1 / 100 := by
      have hquotient : digitUnit 100 ≤ 1 / 1000 := by norm_num [digitUnit]
      linarith
    obtain ⟨hsum, hlog⟩ := abs_log_taylorTerms_sub_le hworking le_rfl hboth hreduced (by omega)
    obtain ⟨hpower, hsquares⟩ := abs_log_squareTimes_sub_le hworking (by linarith) count hsum
    obtain ⟨hresult, hrounded⟩ := abs_log_withDigits_sub_le hworking (by linarith) hpower
    exact ⟨_, hvalue, hresult, abs_result_sub_le hcount (digitUnit_pos _).le hle hguarded
      hfew hhalves hlog hsquares hrounded⟩

end Decimal
end DeskCalc
