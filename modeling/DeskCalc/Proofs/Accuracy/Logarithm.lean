import DeskCalc.Proofs.Accuracy.ArtanhSeries

/-
The error of a logarithm.

A root halves a logarithm, and its rounding moves the half by a unit of the last digit, so the
roots that pull a number near to one lose a digit for about three of them.  They are taken only
for a number whose logarithm is not small, and next to one nothing is lost.  The leading part of
a number and its power of ten never cancel: the logarithm of the leading part is at most two
thirds of that of ten.
-/
namespace DeskCalc
namespace Decimal

variable {m x : Decimal} {working : ℕ} {unit : ℝ}

/-! ## Roots -/

theorem nearOne_iff : m.nearOne = true ↔ 9 / 10 ≤ m.toReal ∧ m.toReal ≤ 11 / 10 := by
  have hlow : toReal ⟨9, 1⟩ = 9 / 10 := by norm_num [toReal, toRat]
  have hhigh : toReal ⟨11, 1⟩ = 11 / 10 := by norm_num [toReal, toRat]
  rw [nearOne, Bool.and_eq_true, decide_eq_true_eq, decide_eq_true_eq, le_iff_toReal,
    le_iff_toReal, hlow, hhigh, and_comm]

theorem nearOne_of_abs_log_le (hm : 0 < m.toReal) (h : |Real.log m.toReal| ≤ 1 / 11) :
    m.nearOne = true := by
  obtain ⟨hlow, hhigh⟩ := abs_le.1 h
  refine nearOne_iff.2 ⟨?_, ?_⟩
  · refine (Real.log_le_log_iff (by norm_num) hm).1 (le_trans ?_ hlow)
    have hnine := Real.log_le_sub_one_of_pos (show (0 : ℝ) < 9 / 10 by norm_num)
    linarith
  · refine (Real.log_le_log_iff hm (by norm_num)).1 (hhigh.trans ?_)
    have heleven := Real.one_sub_inv_le_log_of_pos (show (0 : ℝ) < 11 / 10 by norm_num)
    norm_num at heleven ⊢
    linarith

/-- A root that is brought to the working digits: twice its logarithm. -/
theorem abs_log_root_sub_le (hworking : Grain working unit) (hm : 0 < m.mantissa) :
    ∃ root, m.sqrt? = some root ∧ 0 < (root.withDigits working).mantissa ∧
      |2 * Real.log (root.withDigits working).toReal - Real.log m.toReal| ≤ 12 * unit := by
  obtain ⟨root, hroot, hnear⟩ := exists_sqrt?_within hm
  have hpos := toReal_pos.2 hm
  have hunit := hworking.small
  have hdigits := hworking.digits
  have hlast := hworking.quotient
  have hrounded : Within (3 * unit) (root.withDigits working).toReal √m.toReal :=
    ((within_withDigits hworking.ne_zero root).trans hnear (by linarith)).mono (by linarith)
  have hlog := hrounded.log (by linarith) (Real.sqrt_pos.2 hpos)
  rw [Real.log_sqrt hpos.le] at hlog
  refine ⟨root, hroot, toReal_pos.1 (hrounded.pos (by linarith) (Real.sqrt_pos.2 hpos)), ?_⟩
  obtain ⟨hlow, hhigh⟩ := abs_le.1 hlog
  exact abs_le.2 ⟨by linarith, by linarith⟩

theorem pullToOne_of_nearOne (h : m.nearOne = true) (fuel : ℕ) :
    pullToOne working fuel m = (m, 0) := by
  cases fuel with
  | zero => rfl
  | succ fuel => rw [pullToOne, if_pos h]

/-- A number is near one, and it comes from another one by so many roots, each of them off by at
most twelve units of the last digit. -/
structure PulledTo (unit : ℝ) (m near : Decimal) (roots : ℕ) : Prop where
  nearOne : near.nearOne = true
  log : |2 ^ roots * Real.log near.toReal - Real.log m.toReal| ≤ (2 ^ roots - 1) * (12 * unit)

/-- What is lost doubles with each root. -/
theorem PulledTo.root {rounded near : Decimal} {roots : ℕ}
    (h : PulledTo unit rounded near roots)
    (hlog : |2 * Real.log rounded.toReal - Real.log m.toReal| ≤ 12 * unit) :
    PulledTo unit m near (roots + 1) where
  nearOne := h.nearOne
  log := by
    obtain ⟨hlow, hhigh⟩ := abs_le.1 h.log
    obtain ⟨hfrom, hto⟩ := abs_le.1 hlog
    rw [pow_succ]
    exact abs_le.2 ⟨by linarith, by linarith⟩

/-- Roots are taken of a number whose logarithm is not small, so what they lose is a part of it. -/
theorem PulledTo.within {near : Decimal} {roots : ℕ} (h : PulledTo unit m near roots)
    (hm : 0 < m.mantissa) (hunit : 0 ≤ unit) (hroots : roots ≤ 9)
    (hstay : m.nearOne = true → roots = 0) :
    Within (100000 * unit) (2 ^ roots * Real.log near.toReal) (Real.log m.toReal) where
  nonneg := by linarith
  close := by
    refine h.log.trans ?_
    by_cases hnear : m.nearOne = true
    · rw [hstay hnear, pow_zero, sub_self, zero_mul]
      positivity
    · have hcount : (2 : ℝ) ^ roots ≤ 2 ^ 9 := pow_le_pow_right₀ (by norm_num) hroots
      have hlarge : 1 / 11 ≤ |Real.log m.toReal| := by
        by_contra hsmall
        exact hnear (nearOne_of_abs_log_le (toReal_pos.2 hm) (not_le.1 hsmall).le)
      linarith [mul_le_mul_of_nonneg_right hcount hunit, mul_le_mul_of_nonneg_left hlarge hunit]

/-- The roots end near one. -/
theorem pulledTo_pullToOne (hworking : Grain working unit) (fuel : ℕ) (hm : 0 < m.mantissa)
    (hsize : |Real.log m.toReal| ≤ 2 ^ fuel / 12 + 1 / 500) :
    PulledTo unit m (pullToOne working fuel m).1 (pullToOne working fuel m).2 := by
  -- The bound on the logarithm is halved with each root, but for the rounding.
  induction fuel generalizing m with
  | zero =>
    have hnear := nearOne_of_abs_log_le (toReal_pos.2 hm) (hsize.trans (by norm_num))
    exact ⟨hnear, by simp [pullToOne]⟩
  | succ fuel ih =>
    by_cases hnear : m.nearOne = true
    · rw [pullToOne_of_nearOne hnear]
      exact ⟨hnear, by simp⟩
    · obtain ⟨root, hroot, hpos, hlog⟩ := abs_log_root_sub_le hworking hm
      rw [pullToOne, if_neg hnear, hroot]
      dsimp only
      generalize root.withDigits working = rounded at hpos hlog
      have hunit := hworking.small
      have hhalved : |Real.log rounded.toReal| ≤ 2 ^ fuel / 12 + 1 / 500 := by
        rw [pow_succ] at hsize
        obtain ⟨hlow, hhigh⟩ := abs_le.1 hsize
        obtain ⟨hfrom, hto⟩ := abs_le.1 hlog
        exact abs_le.2 ⟨by linarith, by linarith⟩
      exact (ih hpos hhalved).root hlog

/-! ## The logarithm next to the point -/

/-- The argument of the series, and what the series stands for. -/
theorem within_artanh_ratio {near : Decimal} (hworking : Grain working unit)
    (hnear : near.nearOne = true) :
    |(((near - one) / (near + one)).withDigits working).toReal| ≤ 1 / 18 ∧
      Within (12 * unit)
        (2 * Real.artanh (((near - one) / (near + one)).withDigits working).toReal)
        (Real.log near.toReal) := by
  have hunit := hworking.small
  obtain ⟨hlow, hhigh⟩ := nearOne_iff.1 hnear
  have hpos : 0 < near.toReal := by linarith
  have hsum : 0 < near.toReal + 1 := by linarith
  have hdivisor := (mantissa_add_pos (toReal_pos.1 hpos) (show 0 < one.mantissa by decide)).ne'
  have hquotient := within_div_withDigits hworking (near - one) hdivisor
  rw [toReal_sub, toReal_add, toReal_one] at hquotient
  generalize ((near - one) / (near + one)).withDigits working = z at hquotient ⊢
  have hratio : |(near.toReal - 1) / (near.toReal + 1)| ≤ 1 / 19 := by
    rw [abs_div, abs_of_pos hsum, div_le_iff₀ hsum]
    exact abs_le.2 ⟨by linarith, by linarith⟩
  constructor
  · have hmost := mul_le_mul_of_nonneg_left hratio (show 0 ≤ 1 + 3 * unit by
      linarith [hworking.pos])
    linarith [hquotient.abs_le]
  · rw [← artanh_ratio hpos]
    exact ((hquotient.artanh (by linarith) (by linarith)).mul_left 2).mono (by linarith)

/-- The logarithm of a number next to the point, as exact as its digits up to the roots. -/
theorem within_lnReduced {d : ℕ} (hleast : 1 ≤ working) (hmost : working ≤ 90)
    (hd : working + 610 ≤ d) (hlimit : d ≤ 1125899906842624) (hm : 0 < m.mantissa)
    (hsized : Sized d (-1) 1 m) (hsize : |Real.log m.toReal| ≤ 9) :
    Within (200000 * digitUnit (working + 10)) (m.lnReduced working).toReal
      (Real.log m.toReal) := by
  have hguard : working + guardDigits = working + 10 := rfl
  have hample : Ample (working + 10) := ⟨by omega, by omega⟩
  have hfuel := rootBound_le hm.ne' hsized
  have hreach : |Real.log m.toReal| ≤ 2 ^ m.rootBound / 12 + 1 / 500 := by
    have hbound : (2 : ℝ) ^ 8 ≤ 2 ^ m.rootBound :=
      pow_le_pow_right₀ (by norm_num) (Nat.le_add_left _ _)
    linarith
  rw [lnReduced_eq, hguard]
  dsimp only
  generalize hprecise : working + 10 = precise at hample ⊢
  have hunit := hample.unit_le
  have hpositive := digitUnit_pos precise
  -- The roots, the argument of the series, and the series.
  obtain ⟨hpos, hplaced, hcount⟩ := pullToOne_sized hample.ne_zero
    (show precise + 201 ≤ d by omega) m.rootBound hm (le_refl 210)
    (hsized.mono le_rfl (by omega) (by omega))
  have hpulled := pulledTo_pullToOne hample.grain m.rootBound hm hreach
  have hroots := hpulled.within hm hpositive.le (hcount.trans hfuel) fun hnear => by
    rw [pullToOne_of_nearOne hnear]
  generalize pullToOne precise m.rootBound m = pulled at hpos hplaced hcount hpulled hroots ⊢
  obtain ⟨near, roots⟩ := pulled
  dsimp only at hpos hplaced hcount hpulled hroots ⊢
  obtain ⟨hsmall, hargument⟩ := within_artanh_ratio hample.grain hpulled.nearOne
  have hz := ratio_sized hpos (hplaced.mono le_rfl le_rfl (by omega)) (by omega)
    hample.ne_zero
  generalize ((near - one) / (near + one)).withDigits precise = z at hsmall hargument hz ⊢
  have hsum := within_atanh hample hz (by omega) hsmall
  have hdouble := (hsum.mul_left 2).trans hargument (by linarith)
  have hvalue : (z.atanh precise * ofInt (2 * 2 ^ roots)).toReal =
      2 ^ roots * (2 * (z.atanh precise).toReal) := by
    rw [toReal_mul, toReal_ofInt]
    push_cast
    ring
  rw [hvalue]
  exact ((hdouble.mul_left (2 ^ roots)).trans hroots (by linarith)).mono (by linarith)

/-! ## The leading part and the power of ten -/

theorem toReal_moved {scale exponent : ℤ} (h : scale - exponent = x.scale) :
    x.toReal = toReal ⟨x.mantissa, scale⟩ * 10 ^ exponent := by
  rw [toReal, toRat_moved h, Rat.cast_mul, cast_ten_zpow, toReal]

/-- With one digit in front of the point, a positive number is from one up to ten. -/
theorem leading_bounds (hx : 0 < x.mantissa) :
    1 ≤ toReal ⟨x.mantissa, x.digits - 1⟩ ∧ toReal ⟨x.mantissa, x.digits - 1⟩ ≤ 10 := by
  have hpos : 0 < toReal ⟨x.mantissa, x.digits - 1⟩ := toReal_pos.2 hx
  have hlead : leadingExponent ⟨x.mantissa, x.digits - 1⟩ = 0 := by
    show (x.digits : ℤ) - 1 - (x.digits - 1) = 0
    omega
  have hlow := pow_le_abs_toReal (x := ⟨x.mantissa, x.digits - 1⟩) hx.ne'
  have hhigh := abs_toReal_lt ⟨x.mantissa, x.digits - 1⟩
  rw [hlead, zpow_zero, abs_of_pos hpos] at hlow
  rw [hlead, zero_add, zpow_one, abs_of_pos hpos] at hhigh
  exact ⟨hlow, hhigh.le⟩

/-- A positive number is its leading part times a power of ten. -/
theorem toReal_split {d : ℕ} (hx : 0 < x.mantissa) (hd : d ≤ 4611686018427387904)
    (h : Sized d (-10000) 10000 x) :
    x.toReal = x.split.1.toReal * 10 ^ x.split.2 ∧
      3 / 10 ≤ x.split.1.toReal ∧ x.split.1.toReal < 3 := by
  have hlead : x.leadingExponent = x.digits - 1 - x.scale := rfl
  obtain ⟨hlow, hhigh⟩ := leading_bounds hx
  have hthree : ofInt 3 ≤ ⟨x.mantissa, x.digits - 1⟩ ↔
      3 ≤ toReal ⟨x.mantissa, x.digits - 1⟩ := by
    rw [le_iff_toReal, toReal_ofInt, Int.cast_ofNat]
  rw [split_eq hx hd h]
  split
  · next hlarge =>
    have htenth : toReal ⟨x.mantissa, x.digits - 1⟩ =
        toReal ⟨x.mantissa, x.digits⟩ * 10 ^ (1 : ℤ) := toReal_moved rfl
    rw [zpow_one] at htenth
    rw [hthree] at hlarge
    exact ⟨toReal_moved (by omega), by dsimp only; linarith, by dsimp only; linarith⟩
  · next hsmall =>
    rw [hthree, not_le] at hsmall
    exact ⟨toReal_moved (by omega), by dsimp only; linarith, hsmall⟩

/-- The logarithm of the leading part is at most two thirds of that of ten. -/
theorem abs_log_leading_le {a : ℝ} (hlow : 3 / 10 ≤ a) (hhigh : a ≤ 3) :
    3 * |Real.log a| ≤ 2 * Real.log 10 := by
  have ha : 0 < a := by linarith
  have hhundred : Real.log 100 = 2 * Real.log 10 := by
    rw [show (100 : ℝ) = 10 ^ 2 by norm_num, Real.log_pow]
    norm_num
  have habove : 3 * Real.log a ≤ Real.log 100 := by
    have hcube : a ^ 3 ≤ 100 := (pow_le_pow_left₀ ha.le hhigh 3).trans (by norm_num)
    have hlog := Real.log_le_log (pow_pos ha 3) hcube
    rw [Real.log_pow] at hlog
    exact_mod_cast hlog
  have hbelow : -(3 * Real.log a) ≤ Real.log 100 := by
    have hcube : (1 : ℝ) / 100 ≤ a ^ 3 :=
      le_trans (by norm_num) (pow_le_pow_left₀ (by norm_num) hlow 3)
    have hlog := Real.log_le_log (by norm_num) hcube
    rw [Real.log_pow, one_div, Real.log_inv] at hlog
    push_cast at hlog
    linarith
  rw [← hhundred]
  rcases abs_cases (Real.log a) with ⟨habs, -⟩ | ⟨habs, -⟩ <;> linarith

theorem log_ten_le : Real.log 10 ≤ 9 :=
  (Real.log_le_sub_one_of_pos (by norm_num)).trans (by norm_num)

/-- The leading part and the power of ten do not cancel. -/
theorem abs_log_add_le {a : ℝ} (hlow : 3 / 10 ≤ a) (hhigh : a ≤ 3) (k : ℤ) :
    |Real.log a| + |k * Real.log 10| ≤ 5 * |Real.log a + k * Real.log 10| := by
  have hleading := abs_log_leading_le hlow hhigh
  have hten : 0 < Real.log 10 := Real.log_pos (by norm_num)
  rcases eq_or_ne k 0 with rfl | hk
  · rw [Int.cast_zero, zero_mul, abs_zero, add_zero, add_zero]
    linarith [abs_nonneg (Real.log a)]
  · have hcount : (1 : ℝ) ≤ |(k : ℝ)| := by exact_mod_cast Int.one_le_abs hk
    have hpower : Real.log 10 ≤ |k * Real.log 10| := by
      rw [abs_mul, abs_of_pos hten]
      exact le_mul_of_one_le_left hten.le hcount
    have hapart := abs_sub_abs_le_abs_sub (k * Real.log 10) (-Real.log a)
    rw [abs_neg, sub_neg_eq_add, add_comm (k * Real.log 10)] at hapart
    linarith

/-! ## The logarithm of a number in range -/

/-- What the power of ten adds, also where it is left out. -/
theorem exists_shift_within {d : ℕ} (hleast : 1 ≤ working) (hmost : working ≤ 90)
    (hd : working + 610 ≤ d) (hlimit : d ≤ 1125899906842624) (result : Decimal) (exponent : ℤ) :
    ∃ shift : ℝ, Within (200000 * digitUnit (working + 10)) shift (exponent * Real.log 10) ∧
      (if exponent = 0 then result
        else result + lnReduced (ofInt 10) working * ofInt exponent).toReal =
          result.toReal + shift := by
  split
  · next hzero =>
    refine ⟨0, ?_, (add_zero _).symm⟩
    rw [hzero, Int.cast_zero, zero_mul]
    exact .refl (by linarith [digitUnit_pos (working + 10)]) 0
  · have hvalue : (ofInt 10).toReal = 10 := by
      rw [toReal_ofInt]
      norm_num
    have hten : Sized d (-1) 1 (ofInt 10) :=
      (show Sized 2 (-1) 1 (ofInt 10) from fun _ => by decide).mono (by omega) le_rfl le_rfl
    have hsize : |Real.log (ofInt 10).toReal| ≤ 9 := by
      rw [hvalue, abs_of_pos (Real.log_pos (by norm_num))]
      exact log_ten_le
    have hlog := within_lnReduced hleast hmost hd hlimit (by decide) hten hsize
    rw [hvalue] at hlog
    refine ⟨_, hlog.mul_left exponent, ?_⟩
    rw [toReal_add, toReal_mul, toReal_ofInt, mul_comm]

/-- The logarithm as exact as the digits it is worked out in. -/
theorem exists_ln?_within {d precision : ℕ} (hprecision : precision ≤ 80)
    (hx : 0 < x.mantissa) (hd : precision + 620 ≤ d) (hlimit : d ≤ 1125899906842624)
    (h : Sized d (-10000) 10000 x) :
    ∃ value, x.ln? precision = some value ∧
      Within (3 * digitUnit (precision + 10)) value.toReal (Real.log x.toReal) := by
  have hguard : precision + guardDigits = precision + 10 := rfl
  have hfew : d ≤ 4611686018427387904 := hlimit.trans (by norm_num)
  obtain ⟨hpos, hleading, hexponent⟩ := split_sized hx hfew h
  obtain ⟨hvalue, hlow, hhigh⟩ := toReal_split hx hfew h
  rw [ln?_eq, isPositive, decide_eq_true hx, if_pos rfl, hguard]
  generalize x.split = parts at hpos hleading hexponent hvalue hlow hhigh
  obtain ⟨leading, exponent⟩ := parts
  dsimp only at hpos hleading hexponent hvalue hlow hhigh ⊢
  refine ⟨_, rfl, ?_⟩
  have hleadingLog := within_lnReduced (show 1 ≤ precision + 10 by omega) (by omega)
    (by omega) hlimit hpos hleading (by linarith [abs_log_leading_le hlow hhigh.le, log_ten_le])
  generalize leading.lnReduced (precision + 10) = result at hleadingLog ⊢
  obtain ⟨shift, hshift, htotal⟩ := exists_shift_within (show 1 ≤ precision + 10 by omega)
    (by omega) (by omega) hlimit result exponent
  have hlog : Real.log x.toReal = Real.log leading.toReal + exponent * Real.log 10 := by
    rw [hvalue, Real.log_mul (by linarith) (zpow_pos (by norm_num) exponent).ne', Real.log_zpow]
  have hsum := hleadingLog.add hshift (abs_log_add_le hlow hhigh.le exponent)
  rw [← htotal, ← hlog] at hsum
  -- The guard digits make up for what the roots and the sum have lost.
  have hguarded : digitUnit (precision + 10 + 10) = digitUnit (precision + 10) / 10000000000 := by
    rw [digitUnit_add (precision + 10) 10, div_eq_mul_inv]
    norm_num
  have hunit : digitUnit (precision + 10) ≤ 1 :=
    zpow_le_one_of_nonpos₀ (by norm_num) (by omega)
  have hpositive := digitUnit_pos (precision + 10)
  rw [hguarded] at hsum
  refine ((within_withDigits (show precision + 10 ≠ 0 by omega) _).trans hsum ?_).mono ?_
  · linarith
  · linarith

end Decimal
end DeskCalc
