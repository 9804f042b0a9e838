import DeskCalc.Proofs.Decimal.Estimate
import DeskCalc.Decimal.Exponential
import DeskCalc.Proofs.Scale.Keeps

/-
The scales in a logarithm and in an exponential.

A series stops as soon as a term is small, so the leading digit of a term is never far behind
the point; where it stands in front of the point is moved a little by each term.  So the
scales that are added up stay far from the ends of 64 bits, even for an argument of very many
digits.
-/
namespace DeskCalc

namespace Decimal

open Checked Demand

variable {d d' : ℕ} {low low' high high' : ℤ} {x y : Decimal}

theorem keeps_product (hx : Sized d low high x) (hy : Sized d' low' high' y)
    (hlarge : high + high' ≤ 9223372036854775808)
    (hsmall : d + d' ≤ low + low' + 9223372036854775809) :
    (times x y).Keeps Adds (Sized (d + d') (low + low') (high + high' + 1)) :=
  keeps_times (hx.fits hy hlarge hsmall) (hx.mul hy)

/-- A term that does not end a series. -/
theorem leadingExponent_of_continued {term : Decimal} {cutoff : ℤ}
    (hcutoff : -9223372036854775808 < cutoff)
    (h : ¬ (term.isZero || decide (term.adjustedExponent < cutoff)) = true) :
    term.mantissa ≠ 0 ∧ cutoff ≤ term.leadingExponent := by
  have hne : term.mantissa ≠ 0 := by
    intro hzero
    exact h (by rw [isZero_of_eq hzero, Bool.true_or])
  have hlarge : ¬ term.adjustedExponent < cutoff := by
    intro hlt
    exact h (by rw [decide_eq_true hlt, Bool.or_true])
  rw [Context.adjustedExponent_eq hne, saturate] at hlarge
  exact ⟨hne, by omega⟩

theorem sized_ofInt {n : ℤ} {bound : ℕ} (h : n.natAbs ≤ bound) :
    Sized bound 0 bound (ofInt n) := by
  intro hne
  change n ≠ 0 at hne
  have hdigits : (ofInt n).digits ≤ n.natAbs :=
    digitCount_le (Nat.lt_pow_self (by norm_num)) (Int.natAbs_pos.2 hne)
  have hpos := (ofInt n).digits_pos
  have hlead : (ofInt n).leadingExponent = (ofInt n).digits - 1 - 0 := rfl
  rw [hlead]
  omega

/-! ## The logarithm -/

/-- The sum of the series.  A product never has its leading digit far behind the cutoff, and
each term moves it by `step` in front at most. -/
theorem keeps_atanhTermsM {working : ℕ} (hworking : working ≠ 0) {square : Decimal}
    {cutoff places step : ℤ} (hsquare : Sized d low high square)
    (hcutoff : -9223372036854775808 < cutoff) (hplaces : working - cutoff ≤ places)
    (hstep : high + 5 ≤ step) (hgrows : 1 ≤ step)
    (hsmall : working + d ≤ cutoff + low + 9223372036854775806)
    (fuel : ℕ) {power sum : Decimal} {n : ℕ} {top : ℤ}
    (htop : top + fuel * step + high ≤ 9223372036854775808)
    (hpower : Sized (working + 1) (cutoff - 2) top power) (hsum : Reach places top sum) :
    (atanhTermsM working square cutoff fuel power sum n).Keeps Adds
      (Reach (places + 15 * fuel) (top + fuel * step)) := by
  induction fuel generalizing power sum n top places with
  | zero => exact keeps_pure (hsum.mono (by omega) (by omega))
  | succ fuel ih =>
    have hfuel : ((fuel + 1 : ℕ) : ℤ) * step = fuel * step + step := by
      rw [Nat.cast_succ, add_mul, one_mul]
    have hrest : 0 ≤ (fuel : ℤ) * step := mul_nonneg (Int.natCast_nonneg _) (by omega)
    rw [hfuel] at htop ⊢
    rw [atanhTermsM]
    refine (keeps_product hpower hsquare (by omega) (by omega)).bind fun product hproduct => ?_
    have hpower' := hproduct.withDigits hworking
    generalize product.withDigits working = power' at hpower'
    have hdivisor : (ofInt (n + 2)).mantissa ≠ 0 := by
      show (n : ℤ) + 2 ≠ 0
      omega
    have hn : Sized (n + 2) 0 (n + 2 : ℕ) (ofInt (n + 2)) := sized_ofInt (by omega)
    have hterm := (hpower'.div hn hdivisor).withDigits hworking
    dsimp only
    split
    · exact keeps_pure (hsum.mono (by omega) (by omega))
    · next hcontinued =>
      obtain ⟨hne, hlead⟩ := leadingExponent_of_continued hcutoff hcontinued
      have hlast : Sized (working + 1) (cutoff - 2) (top + step) power' := by
        intro hp
        obtain ⟨hdigits, -, hto⟩ := hpower' hp
        obtain ⟨-, -, hnear⟩ := ((sized_self power').div hn hdivisor).withDigits hworking hne
        exact ⟨hdigits, by omega, by omega⟩
      have hadded : Reach places (top + step - 1)
          ((power' / ofInt (n + 2)).withDigits working) := by
        intro _
        obtain ⟨hdigits, -, hto⟩ := hterm hne
        have hscale := (show Sized (working + 1) cutoff (top + step) _ from
          fun _ => ⟨hdigits, hlead, by omega⟩).scale hne
        exact ⟨by omega, by omega⟩
      have htotal := (hsum.mono le_rfl (show top ≤ top + step - 1 by omega)).add hadded
      have hpadding : (zeroPadding : ℤ) = 15 := rfl
      refine (ih (by omega) (by omega) hlast (htotal.mono le_rfl (by omega))).mono
        fun value hvalue => ?_
      exact hvalue.mono (by omega) (by omega)

theorem keeps_atanhM {z : Decimal} {working : ℕ} (hworking : working ≠ 0)
    (hd : working + 600 ≤ d) (hlimit : d ≤ 1125899906842624)
    (hz : Sized (working + 1) (-(2 * d)) 2 z) :
    (z.atanhM working).Keeps Adds (Reach (19 * d) (12 * d)) := by
  rw [atanhM]
  split
  · exact keeps_pure fun hne => absurd rfl hne
  · next hzero =>
    have hne : z.mantissa ≠ 0 := fun h => hzero (isZero_of_eq h)
    obtain ⟨hdigits, hfrom, hto⟩ := hz hne
    obtain ⟨-, hscale⟩ := hz.scale hne
    have hguard : guardDigits = 10 := rfl
    have hcutoff : saturate (z.adjustedExponent - working) = z.leadingExponent - working := by
      rw [Context.adjustedExponent_eq hne, saturate, saturate]
      omega
    rw [hcutoff]
    refine (keeps_product hz hz (by omega) (by omega)).bind fun product hproduct => ?_
    have hsquare := hproduct.withDigits hworking
    have hpower : Sized (working + 1) (z.leadingExponent - working - 2) 2 z :=
      fun _ => ⟨hdigits, by omega, hto⟩
    have hsum : Reach (4 * d) 2 z := fun _ => ⟨by omega, hto⟩
    refine (keeps_atanhTermsM hworking hsquare (by omega) (by omega)
      (show _ ≤ (11 : ℤ) by omega) (by omega) (by omega) (working + guardDigits) (by omega) hpower
      hsum).mono fun value hvalue => ?_
    exact hvalue.mono (by omega) (by omega)

/-! ### Roots -/

theorem nearestRoot_bounds {n e : ℕ} (h : n / e ≠ 0) :
    1 ≤ nearestRoot n e ∧ nearestRoot n e ≤ n / e + 1 := by
  have hle := floorSqrt_sq_le (n / e)
  have hlt := lt_floorSqrt_succ_sq (n / e)
  rw [nearestRoot]
  generalize floorSqrt (n / e) = r at hle hlt
  have hr : r ≠ 0 := by
    rintro rfl
    omega
  have hsquare : r ≤ r * r := Nat.le_mul_of_pos_right r (Nat.pos_of_ne_zero hr)
  split <;> omega

theorem sqrt?_sized {m root : Decimal} {top : ℤ} (hm : 0 < m.mantissa) (htop : 210 ≤ top)
    (hsized : Sized d (-210) top m) (hd : 201 ≤ d) (h : m.sqrt? = some root) :
    0 < root.mantissa ∧ Sized d (-210) top root := by
  rw [sqrt?] at h
  split at h
  · obtain rfl := Option.some.inj h
    exact ⟨hm, hsized⟩
  · split at h
    · cases h
    · obtain ⟨hdigits, hfrom, hto⟩ := hsized hm.ne'
      obtain rfl := Option.some.inj h
      have hplaces : (rootDigits : ℤ) = 100 := rfl
      have hhalf := Int.emod_add_mul_ediv m.leadingExponent 2
      have hbit := Int.emod_two_eq m.leadingExponent
      have hlead : m.leadingExponent = m.digits - 1 - m.scale := rfl
      generalize hscale : (rootDigits : ℤ) - 1 - m.leadingExponent / 2 = scale
      -- The root is taken of a number of 199 or 200 digits.
      have hsize := digitCount_shift (Int.natAbs_ne_zero.2 hm.ne')
        (show 0 < (m.digits : ℤ) + (2 * scale - m.scale) by omega)
      change _ = (m.digits : ℤ) + _ at hsize
      generalize m.mantissa.natAbs * 10 ^ (2 * scale - m.scale).toNat = n at hsize
      generalize 10 ^ (-(2 * scale - m.scale)).toNat = e at hsize
      have hne : n / e ≠ 0 := by
        intro hzero
        rw [hzero, show digitCount 0 = 1 from rfl] at hsize
        omega
      obtain ⟨hlow, hhigh⟩ := nearestRoot_bounds hne
      have hroot := (digitCount_mono hhigh).trans (digitCount_succ_le _)
      have hpos := digitCount_pos (nearestRoot n e)
      refine ⟨Int.natCast_pos.2 hlow, fun _ => ?_⟩
      have hcount : digits ⟨nearestRoot n e, scale⟩ = digitCount (nearestRoot n e) := rfl
      rw [leadingExponent, hcount]
      dsimp only
      omega

/-- The roots that pull a number near to one. -/
theorem pullToOne_sized {working : ℕ} (hworking : working ≠ 0) (hd : working + 201 ≤ d)
    (fuel : ℕ) {m : Decimal} {top : ℤ} (hm : 0 < m.mantissa) (htop : 210 ≤ top)
    (h : Sized d (-210) top m) :
    0 < (pullToOne working fuel m).1.mantissa ∧
      Sized d (-210) (top + fuel) (pullToOne working fuel m).1 ∧
      (pullToOne working fuel m).2 ≤ fuel := by
  have hstay : Sized d (-210) (top + fuel) m := h.mono le_rfl le_rfl (by omega)
  induction fuel generalizing m top with
  | zero => exact ⟨hm, hstay, le_rfl⟩
  | succ fuel ih =>
    rw [pullToOne]
    split
    · exact ⟨hm, hstay, Nat.zero_le _⟩
    · split
      · exact ⟨hm, hstay, Nat.zero_le _⟩
      · next root hroot =>
        obtain ⟨hpos, hsized⟩ := sqrt?_sized hm htop h (by omega) hroot
        have hshort := (hsized.withDigits hworking).mono
          (show working + 1 ≤ d by omega) le_rfl le_rfl
        obtain ⟨hnear, hnext, hcount⟩ := ih (mantissa_withDigits_pos hworking hpos)
          (show 210 ≤ top + 1 by omega) hshort (hshort.mono le_rfl le_rfl (by omega))
        refine ⟨hnear, hnext.mono le_rfl le_rfl (by push_cast; omega), ?_⟩
        dsimp only
        omega

/-- The argument of the series is at most about one, as a difference does not lead the sum. -/
theorem ratio_sized {near : Decimal} (hnear : 0 < near.mantissa) (h : Sized d (-210) 219 near)
    (hd : 600 ≤ d) {count : ℕ} (hcount : count ≠ 0) :
    Sized (count + 1) (-(2 * d)) 2 (((near - one) / (near + one)).withDigits count) := by
  have hnear' : Reach (d + 209) 219 near := h.reach.mono (by omega) (by omega)
  have hone : Reach (d + 209) 219 one :=
    (show Reach 0 0 one from fun _ => by decide).mono (by omega) (by omega)
  have hpadding : (zeroPadding : ℤ) = 15 := rfl
  have hsum := (hnear'.add hone).sized
  have hdifference := (hnear'.sub hone hnear.ne' (by decide)).sized
  have hne := (mantissa_add_pos hnear (show 0 < one.mantissa by decide)).ne'
  obtain ⟨hdigits, -, hto⟩ := hsum hne
  have hbelow : Sized (near - one).digits (-(d + 209)) (near + one).leadingExponent (near - one) :=
    fun hdiff => ⟨le_rfl, (hdifference hdiff).2.1, leadingExponent_sub_le hnear (by decide) hdiff⟩
  exact ((hbelow.div (sized_self _) hne).withDigits hcount).mono le_rfl (by omega) (by omega)

/-- Nine roots are enough next to the point. -/
theorem rootBound_le {m : Decimal} (hm : m.mantissa ≠ 0) (h : Sized d (-1) 1 m) :
    m.rootBound ≤ 9 := by
  obtain ⟨-, hfrom, hto⟩ := h hm
  have hsmall : m.adjustedExponent.natAbs ≤ 1 := by
    rw [Context.adjustedExponent_eq hm, saturate]
    omega
  have hcases : m.adjustedExponent.natAbs = 0 ∨ m.adjustedExponent.natAbs = 1 := by omega
  rw [rootBound]
  rcases hcases with hzero | hone
  · rw [hzero]
    decide
  · rw [hone]
    decide

/-- The logarithm of a number next to the point. -/
theorem keeps_lnReducedM {m : Decimal} {working : ℕ} (hm : 0 < m.mantissa)
    (hd : working + 610 ≤ d) (hlimit : d ≤ 1125899906842624) (h : Sized d (-1) 1 m) :
    (m.lnReducedM working).Keeps Adds (Sized (40 * d) (-(20 * d)) (20 * d)) := by
  have hguard : working + guardDigits = working + 10 := rfl
  have hprecise : working + guardDigits ≠ 0 := by omega
  have hbound := rootBound_le hm.ne' h
  obtain ⟨hpos, hsized, hroots⟩ := pullToOne_sized (d := d) hprecise (by omega) m.rootBound hm
    (le_refl 210) (h.mono le_rfl (by omega) (by omega))
  rw [lnReducedM]
  dsimp only
  generalize working + guardDigits = precise at hguard hprecise hpos hsized hroots ⊢
  generalize pullToOne precise m.rootBound m = pulled at hpos hsized hroots ⊢
  obtain ⟨near, roots⟩ := pulled
  dsimp only at hpos hsized hroots ⊢
  have hz := ratio_sized hpos (hsized.mono le_rfl le_rfl (by omega)) (by omega) hprecise
  refine (keeps_atanhM hprecise (by omega) hlimit hz).bind fun series hseries => ?_
  have hshift : Sized 1024 0 1024 (ofInt (2 * 2 ^ roots)) := by
    refine sized_ofInt ?_
    have hpow : 2 ^ roots ≤ 2 ^ 9 := Nat.pow_le_pow_right (by norm_num) (by omega)
    rw [Int.natAbs_mul, Int.natAbs_pow]
    exact Nat.mul_le_mul_left 2 hpow
  refine (keeps_product hseries.sized hshift (by omega) (by omega)).mono fun value hvalue => ?_
  exact hvalue.mono (by omega) (by omega) (by omega)

/-- The leading part has one digit in front of the point, or none. -/
theorem split_eq (hx : 0 < x.mantissa) (hd : d ≤ 4611686018427387904)
    (h : Sized d (-10000) 10000 x) : x.split =
      if ofInt 3 ≤ ⟨x.mantissa, x.digits - 1⟩ then (⟨x.mantissa, x.digits⟩, x.leadingExponent + 1)
      else (⟨x.mantissa, x.digits - 1⟩, x.leadingExponent) := by
  obtain ⟨hdigits, hfrom, hto⟩ := h hx.ne'
  have hlead : x.leadingExponent = x.digits - 1 - x.scale := rfl
  have hpos := x.digits_pos
  have hexponent : x.adjustedExponent = x.leadingExponent := by
    rw [Context.adjustedExponent_eq hx.ne', saturate]
    omega
  have hscale : saturate (x.scale + x.leadingExponent) = x.digits - 1 := by
    rw [saturate]
    omega
  have hnext : saturate ((x.digits : ℤ) - 1 + 1) = x.digits := by
    rw [saturate]
    omega
  have hmore : saturate (x.leadingExponent + 1) = x.leadingExponent + 1 := by
    rw [saturate]
    omega
  rw [split, hexponent, hscale, hnext, hmore]

theorem split_sized (hx : 0 < x.mantissa) (hd : d ≤ 4611686018427387904)
    (h : Sized d (-10000) 10000 x) :
    0 < x.split.1.mantissa ∧ Sized d (-1) 1 x.split.1 ∧ x.split.2.natAbs ≤ 10001 := by
  obtain ⟨hdigits, hfrom, hto⟩ := h hx.ne'
  have hplaced : ∀ {scale : ℤ}, x.digits - 1 ≤ scale → scale ≤ x.digits →
      Sized d (-1) 1 ⟨x.mantissa, scale⟩ := by
    intro scale hlow hhigh _
    have hcount : digits ⟨x.mantissa, scale⟩ = x.digits := rfl
    rw [leadingExponent, hcount]
    dsimp only
    omega
  rw [split_eq hx hd h]
  split
  · exact ⟨hx, hplaced (by omega) le_rfl, by dsimp only; omega⟩
  · exact ⟨hx, hplaced le_rfl (by omega), by dsimp only; omega⟩

/-- The logarithm of a number in range. -/
theorem keeps_lnM? {precision : ℕ} (hd : precision + 620 ≤ d) (hlimit : d ≤ 1125899906842624)
    (h : Sized d (-10000) 10000 x) :
    (x.lnM? precision).Keeps Adds fun result => ∀ value, result = some value →
      Sized (precision + 11) (-(100 * d)) (100 * d) value := by
  have hguard : precision + guardDigits = precision + 10 := rfl
  rw [lnM?]
  split
  · next hpositive =>
    obtain ⟨hpos, hleading, hexponent⟩ := split_sized (of_decide_eq_true hpositive)
      (hlimit.trans (by norm_num)) h
    generalize x.split = parts at hpos hleading hexponent
    obtain ⟨leading, exponent⟩ := parts
    dsimp only at hpos hleading hexponent ⊢
    generalize precision + guardDigits = working at hguard ⊢
    refine (keeps_lnReducedM hpos (by omega) hlimit hleading).bind fun result hresult => ?_
    have hshort : ∀ {total : Decimal}, Reach (80 * d) (60 * d) total →
        (pure (some (total.withDigits working)) : Checked (Option Decimal)).Keeps Adds fun result =>
          ∀ value, result = some value →
            Sized (precision + 11) (-(100 * d)) (100 * d) value := by
      intro total htotal
      refine keeps_pure fun value hvalue => ?_
      obtain rfl := Option.some.inj hvalue
      exact (htotal.sized.withDigits (show working ≠ 0 by omega)).mono (by omega) (by omega)
        (by omega)
    have hreach : Reach (60 * d + 10000) (20 * d + 10002) result :=
      hresult.reach.mono (by omega) (by omega)
    split
    · exact keeps_pure hreach |>.bind fun _ h => hshort (h.mono (by omega) (by omega))
    · have hten : Sized 2 (-1) 1 (ofInt 10) := fun _ => by decide
      refine (keeps_lnReducedM (by decide) (by omega) hlimit
        (hten.mono (by omega) le_rfl le_rfl)).bind fun tens htens => ?_
      refine (keeps_product htens (sized_ofInt hexponent) (by omega) (by omega)).bind
        fun shift hshift => ?_
      have hpadding : (zeroPadding : ℤ) = 15 := rfl
      have htotal := hreach.add (hshift.reach.mono (by omega) (by omega))
      exact keeps_pure htotal |>.bind fun _ h => hshort (h.mono (by omega) (by omega))
  · exact keeps_pure fun value hvalue => by cases hvalue

/-! ## The exponential -/

/-- A term is at most a tenth of the one before it. -/
theorem abs_nextTerm_le {working : ℕ} (hworking : working ≠ 0) (hx : |x.toRat| < 1 / 100)
    (term : Decimal) (n : ℕ) :
    |((term * x / ofInt (n + 1)).withDigits working).toRat| ≤ |term.toRat| / 10 := by
  have hdivisor : (ofInt (n + 1)).mantissa ≠ 0 := by
    show (n : ℤ) + 1 ≠ 0
    omega
  have hone : (1 : ℚ) ≤ |(ofInt (n + 1)).toRat| := by
    rw [toRat_ofInt, ← Int.cast_abs]
    exact_mod_cast Int.one_le_abs (show (n : ℤ) + 1 ≠ 0 by omega)
  have hquotient : |(term * x).toRat| / |(ofInt (n + 1)).toRat| ≤ |term.toRat| * (1 / 100) := by
    refine (div_le_self (abs_nonneg _) hone).trans ?_
    rw [toRat_mul, abs_mul]
    exact mul_le_mul_of_nonneg_left hx.le (abs_nonneg _)
  have hdigits := abs_toRat_withDigits_le hworking (term * x / ofInt (n + 1))
  have hdivided := abs_toRat_div_le (term * x) hdivisor
  linarith [abs_nonneg term.toRat]

/-- What the terms to come add to the sum is less than a ninth of the last one. -/
theorem abs_taylorTerms_sub_one_le {working : ℕ} (hworking : working ≠ 0)
    (hx : |x.toRat| < 1 / 100) {slack : ℚ} (fuel : ℕ) {term sum : Decimal} {n : ℕ}
    (hslack : |sum.toRat - 1| + |term.toRat| / 9 ≤ slack) :
    |(taylorTerms working x fuel term sum n).toRat - 1| ≤ slack := by
  have hsum : ∀ {term : Decimal}, |sum.toRat - 1| + |term.toRat| / 9 ≤ slack →
      |sum.toRat - 1| ≤ slack := fun {term} h => by linarith [abs_nonneg term.toRat]
  induction fuel generalizing term sum n with
  | zero => exact hsum hslack
  | succ fuel ih =>
    have htenth := abs_nextTerm_le hworking hx term n
    rw [taylorTerms_succ]
    dsimp only
    generalize (term * x / ofInt (n + 1)).withDigits working = next at htenth
    split
    · exact hsum hslack
    · have hnext : |(sum + next).toRat - 1| + |next.toRat| / 9 ≤ slack := by
        rw [toRat_add, add_sub_right_comm]
        linarith [abs_add_le (sum.toRat - 1) next.toRat]
      exact ih hnext fun h => by linarith [abs_nonneg next.toRat]

/-- The whole series is next to one. -/
theorem abs_series_sub_one_le {working : ℕ} (hworking : working ≠ 0) (hx : |x.toRat| < 1 / 100)
    (fuel : ℕ) :
    |(taylorTerms working x fuel one one 0).toRat - 1| ≤ 1 / 9 := by
  refine abs_taylorTerms_sub_one_le hworking hx fuel ?_
  rw [toRat_one]
  norm_num

/-- The scales in the sum of the series. -/
theorem keeps_taylorTermsM {working : ℕ} (hworking : working ≠ 0)
    (hfew : working ≤ 1125899906842624) {places : ℤ} (hx : Sized d low (-3) x)
    (hplaces : 2 * working ≤ places) (hroom : 2 * working + d ≤ low + 9223372036854775808)
    (fuel : ℕ) {term sum : Decimal} {n : ℕ} {top : ℤ}
    (htop : top + fuel ≤ 9223372036854775808)
    (hterm : Sized (working + 1) (-working) top term) (hsum : Reach places top sum) :
    (taylorTermsM working x fuel term sum n).Keeps Adds
      (Reach (places + 15 * fuel) (top + fuel)) := by
  induction fuel generalizing term sum n top places with
  | zero => exact keeps_pure (hsum.mono (by omega) (by omega))
  | succ fuel ih =>
    rw [taylorTermsM]
    refine (keeps_product hterm hx (by omega) (by omega)).bind fun product hproduct => ?_
    have hdivisor : (ofInt (n + 1)).mantissa ≠ 0 := by
      show (n : ℤ) + 1 ≠ 0
      omega
    have hn : Sized (n + 1) 0 (n + 1 : ℕ) (ofInt (n + 1)) := sized_ofInt (by omega)
    have hnext := (hproduct.div hn hdivisor).withDigits hworking
    dsimp only
    generalize (product / ofInt (n + 1)).withDigits working = next at hnext
    split
    · exact keeps_pure (hsum.mono (by omega) (by omega))
    · next hcontinued =>
      obtain ⟨hne, hlead⟩ := leadingExponent_of_continued (by omega) hcontinued
      obtain ⟨hdigits, -, hto⟩ := hnext hne
      have hlast : Sized (working + 1) (-working) top next :=
        fun _ => ⟨hdigits, hlead, by omega⟩
      have htotal := hsum.add (hlast.reach.mono (show _ ≤ places by omega) le_rfl)
      have hpadding : (zeroPadding : ℤ) = 15 := rfl
      refine (ih (by omega) (by omega) (hlast.mono le_rfl le_rfl (by omega)) htotal).mono
        fun value hvalue => ?_
      exact hvalue.mono (by omega) (by omega)

theorem mantissa_square_nonneg (x : Decimal) : 0 ≤ (x * x).mantissa := by
  rw [← toRat_nonneg, toRat_mul]
  exact mul_self_nonneg _

theorem mantissa_squareTimes_nonneg {working : ℕ} (hworking : working ≠ 0) (count : ℕ)
    (hx : 0 ≤ x.mantissa) : 0 ≤ (squareTimes working count x).mantissa := by
  induction count generalizing x with
  | zero => exact hx
  | succ count ih =>
    exact ih (mantissa_withDigits_nonneg hworking (mantissa_square_nonneg x))

/-- Each squaring doubles the place of the leading digit. -/
theorem keeps_squareTimesM {working : ℕ} (hworking : working ≠ 0) (hd : working + 1 ≤ d)
    (count : ℕ) {span : ℤ} (hspan : 0 ≤ span)
    (hlimit : 2 * d + 2 ^ count * span ≤ 9223372036854775808)
    (h : Sized d (-span) (span - 2) x) :
    (squareTimesM working count x).Keeps Adds
      (Sized d (-(2 ^ count * span)) (2 ^ count * span - 2)) := by
  induction count generalizing x span with
  | zero => exact keeps_pure (by simpa using h)
  | succ count ih =>
    have hdouble : (2 : ℤ) ^ (count + 1) * span = 2 ^ count * (2 * span) := by
      rw [pow_succ, mul_assoc]
    have hlarge : 2 * span ≤ 2 ^ count * (2 * span) :=
      le_mul_of_one_le_left (by omega) (one_le_pow₀ (by norm_num))
    rw [hdouble] at hlimit ⊢
    rw [squareTimesM]
    refine (keeps_product h h (by omega) (by omega)).bind fun square hsquare => ?_
    exact ih (by omega) hlimit ((hsquare.withDigits hworking).mono hd (by omega) (by omega))

/-! ### Halvings -/

theorem halveToSmall_sized (fuel : ℕ) (h : Sized d low high x) :
    Sized (d + 102 * fuel) (low - fuel) (high + fuel) (halveToSmall fuel x).1 ∧
      (halveToSmall fuel x).2 ≤ fuel := by
  induction fuel generalizing x d low high with
  | zero => exact ⟨h.mono le_rfl (by omega) (by omega), le_rfl⟩
  | succ fuel ih =>
    rw [halveToSmall]
    split
    · have htwo : Sized 1 0 0 (ofInt 2) := fun _ => by decide
      obtain ⟨hsmall, hcount⟩ := ih (h.div htwo (by decide))
      exact ⟨hsmall.mono (by omega) (by push_cast; omega) (by push_cast; omega), by
        dsimp only
        omega⟩
    · exact ⟨h.mono (by omega) (by push_cast; omega) (by push_cast; omega), Nat.zero_le _⟩

theorem abs_lt_of_not_le (h : ¬ (⟨1, 2⟩ : Decimal) ≤ x.abs) : |x.toRat| < 1 / 100 := by
  rw [le_iff, toRat_abs, not_le] at h
  refine h.trans_eq ?_
  norm_num [toRat]

/-- Each halving takes off nearly a half. -/
theorem halveToSmall_lt (fuel : ℕ) (h : |x.toRat| < (20 / 11) ^ fuel / 100) :
    |(halveToSmall fuel x).1.toRat| < 1 / 100 := by
  induction fuel generalizing x with
  | zero => simpa [halveToSmall] using h
  | succ fuel ih =>
    rw [halveToSmall]
    split
    · have hhalf := abs_toRat_div_le x (show (ofInt 2).mantissa ≠ 0 by decide)
      rw [toRat_ofInt, Int.cast_ofNat, abs_two] at hhalf
      rw [pow_succ] at h
      exact ih (by linarith)
    · next hsmall => exact abs_lt_of_not_le hsmall

/-- Four halvings take off a digit. -/
theorem abs_toRat_lt_halvings (hx : x.mantissa ≠ 0) (h : x.leadingExponent ≤ 5) :
    |x.toRat| < (20 / 11) ^ x.halvingBound / 100 := by
  have hadjusted : x.leadingExponent ≤ x.adjustedExponent := by
    rw [Context.adjustedExponent_eq hx, saturate]
    omega
  rw [halvingBound]
  generalize hdigits : (x.adjustedExponent + 3).toNat = count
  have hten : (10 : ℚ) ^ count ≤ (20 / 11) ^ (4 * count + 1) := by
    calc (10 : ℚ) ^ count ≤ ((20 / 11) ^ 4) ^ count :=
          pow_le_pow_left₀ (by norm_num) (by norm_num) count
      _ = (20 / 11) ^ (4 * count) := (pow_mul _ _ _).symm
      _ ≤ (20 / 11) ^ (4 * count + 1) := pow_le_pow_right₀ (by norm_num) (Nat.le_succ _)
  calc |x.toRat| < 10 ^ (x.leadingExponent + 1) := lt_pow_leadingExponent x
    _ ≤ 10 ^ ((count : ℤ) + -2) := zpow_le_zpow_right₀ (by norm_num) (by omega)
    _ = 10 ^ count / 100 := by
        rw [ten_zpow_add, zpow_natCast, div_eq_mul_inv]
        norm_num
    _ ≤ (20 / 11) ^ (4 * count + 1) / 100 := by linarith

/-- A sum next to one has its leading digit next to the point. -/
theorem sized_of_near_one {places high : ℤ} (h : Reach places high x)
    (hnear : |x.toRat - 1| ≤ 1 / 9) (hd : places + 2 ≤ d) :
    Sized d (-3) (3 - 2) x ∧ 0 < x.mantissa := by
  obtain ⟨hlow, hhigh⟩ := abs_le.1 hnear
  have hpos : 0 < x.toRat := by linarith
  have hmantissa := toRat_pos.1 hpos
  have hfrom : -1 ≤ x.leadingExponent := by
    refine (le_leadingExponent_iff hmantissa.ne').2 ?_
    rw [abs_of_pos hpos, zpow_neg_one]
    linarith
  have hto : x.leadingExponent < 1 := by
    refine (leadingExponent_lt_iff hmantissa.ne').2 ?_
    rw [abs_of_pos hpos, zpow_one]
    linarith
  obtain ⟨hscale, -⟩ := h hmantissa.ne'
  have hlead : x.leadingExponent = x.digits - 1 - x.scale := rfl
  exact ⟨fun _ => ⟨by omega, by omega, by omega⟩, hmantissa⟩

theorem keeps_expM? {precision : ℕ} (hd : precision + 620 ≤ d) (hlimit : d ≤ 1125899906842624)
    (hlow : -2305843009213693952 ≤ low) (h : Sized d low high x) :
    (x.expM? precision).Keeps Adds fun result => ∀ value, result = some value →
      Sized (precision + 44) (-68719476736) 68719476736 value := by
  have hone : Sized 1 0 0 one := fun _ => by decide
  rw [expM?]
  split
  · refine keeps_pure fun value hvalue => ?_
    obtain rfl := Option.some.inj hvalue
    exact hone.mono (by omega) (by norm_num) (by norm_num)
  · next hzero =>
    have hne : x.mantissa ≠ 0 := fun hx => hzero (isZero_of_eq hx)
    split
    · refine keeps_pure fun value hvalue => ?_
      split at hvalue
      · cases hvalue
      · obtain rfl := Option.some.inj hvalue
        exact sized_of_zero rfl
    · next hlarge =>
      obtain ⟨hdigits, hfrom, -⟩ := h hne
      have hlead : x.leadingExponent ≤ 5 := by
        have hsmall : ¬ 5 < x.adjustedExponent := fun hlt => hlarge (by
          rw [decide_eq_true hlt, Bool.true_or])
        rw [Context.adjustedExponent_eq hne, saturate] at hsmall
        omega
      have hfuel : x.halvingBound ≤ 33 := by
        rw [halvingBound, Context.adjustedExponent_eq hne, saturate]
        omega
      obtain ⟨hsized, hcount⟩ := halveToSmall_sized x.halvingBound
        (show Sized d low 5 x from fun _ => ⟨hdigits, hfrom, hlead⟩)
      have hsmall := halveToSmall_lt x.halvingBound (abs_toRat_lt_halvings hne hlead)
      generalize halveToSmall x.halvingBound x = halved at hsized hcount hsmall
      obtain ⟨small, count⟩ := halved
      dsimp only at hsized hcount hsmall ⊢
      have hguard : guardDigits = 10 := rfl
      have hplaced : Sized (d + 102 * 33) (low - 33) (-3) small := by
        intro hsmallne
        obtain ⟨hmost, hleast, -⟩ := hsized hsmallne
        have hhundredth : |small.toRat| < 10 ^ (-2 : ℤ) := hsmall.trans_eq (by norm_num)
        have := (leadingExponent_lt_iff hsmallne).2 hhundredth
        exact ⟨by omega, by omega, by omega⟩
      generalize hdigits : precision + guardDigits + count = working
      have hworking : working ≠ 0 := by omega
      have hterm : Sized (working + 1) (-working) 0 one := hone.mono (by omega) (by omega) le_rfl
      have hstart : Reach (2 * working) 0 one := hone.reach.mono (by omega) le_rfl
      have hseries := keeps_taylorTermsM (n := 0) hworking (by omega) hplaced le_rfl (by omega)
        (working + guardDigits) (by omega) hterm hstart
      have hnear := abs_series_sub_one_le hworking hsmall (working + guardDigits)
      have hboth := hseries.and (P := fun sum : Decimal => |sum.toRat - 1| ≤ (1 / 9 : ℚ)) hnear
      refine hboth.bind fun sum hsum => ?_
      obtain ⟨hspan, -⟩ := sized_of_near_one (d := 17 * d) hsum.1 hsum.2 (by omega)
      have hcounted : (2 : ℤ) ^ count ≤ 2 ^ 33 := pow_le_pow_right₀ (by norm_num) (by omega)
      refine (keeps_squareTimesM hworking (by omega) count (by norm_num) (by omega) hspan).bind
        fun power hpower => keeps_pure fun value hvalue => ?_
      obtain rfl := Option.some.inj hvalue
      exact (hpower.withDigits hworking).mono (by omega) (by omega) (by omega)

theorem keeps_powfM? {base exponent : Decimal} {precision : ℕ} (hd : precision + 640 ≤ d)
    (hlimit : d ≤ 1125899906842624) (hbase : Sized d (-10000) 10000 base)
    (hexponent : Sized d (-10000) 10000 exponent) :
    (base.powfM? exponent precision).Keeps Adds fun result => ∀ value, result = some value →
      Sized (precision + 54) (-68719476736) 68719476736 value := by
  have hguard : guardDigits = 10 := rfl
  rw [powfM?]
  refine (keeps_lnM? (by omega) hlimit hbase).bind fun result hresult => ?_
  cases result with
  | none => exact keeps_pure fun value hvalue => by cases hvalue
  | some logarithm =>
    refine (keeps_product hexponent (hresult logarithm rfl) (by omega) (by omega)).bind
      fun product hproduct => ?_
    have hshort := hproduct.withDigits
      (show precision + guardDigits + guardDigits ≠ 0 by omega)
    exact (keeps_expM? (d := d) (by omega) hlimit (by omega)
      (hshort.mono (by omega) le_rfl le_rfl)).mono fun value hvalue power hpower =>
        (hvalue power hpower).mono (by omega) le_rfl le_rfl

/-! ### The sign of an exponential -/

/-- Without a halving the number is small. -/
theorem abs_lt_of_not_halved {fuel : ℕ} {small : Decimal}
    (h : halveToSmall (fuel + 1) x = (small, 0)) : |small.toRat| < 1 / 100 := by
  rw [halveToSmall] at h
  split at h
  · cases (Prod.mk.inj h).2
  · next hsmall =>
    obtain rfl := (Prod.mk.inj h).1
    exact abs_lt_of_not_le hsmall

/-- The exponential is not negative: it is a square, or else a sum next to one. -/
theorem mantissa_exp?_nonneg {precision : ℕ} {value : Decimal}
    (h : x.exp? precision = some value) : 0 ≤ value.mantissa := by
  rw [exp?_eq] at h
  split at h
  · obtain rfl := Option.some.inj h
    decide
  · split at h
    · split at h
      · cases h
      · obtain rfl := Option.some.inj h
        exact le_rfl
    · rw [halvingBound] at h
      generalize hhalved : halveToSmall _ x = halved at h
      obtain ⟨small, count⟩ := halved
      obtain rfl := Option.some.inj h
      have hworking : precision + guardDigits + count ≠ 0 := by
        have hguard : guardDigits = 10 := rfl
        omega
      generalize precision + guardDigits + count = working at hworking
      refine mantissa_withDigits_nonneg hworking ?_
      cases count with
      | zero =>
        have hnear := abs_series_sub_one_le hworking (abs_lt_of_not_halved hhalved)
          (working + guardDigits)
        have hpos : 0 ≤ (taylorTerms working small (working + guardDigits) one one 0).toRat := by
          linarith [(abs_le.1 hnear).1]
        exact toRat_nonneg.1 hpos
      | succ count =>
        rw [squareTimes_succ]
        exact mantissa_squareTimes_nonneg hworking count
          (mantissa_withDigits_nonneg hworking (mantissa_square_nonneg _))

theorem mantissa_powf?_nonneg {base exponent value : Decimal} {precision : ℕ}
    (h : base.powf? exponent precision = some value) : 0 ≤ value.mantissa := by
  rw [powf?_eq] at h
  obtain ⟨logarithm, -, h⟩ := Option.bind_eq_some_iff.1 h
  exact mantissa_exp?_nonneg h

end Decimal
end DeskCalc
