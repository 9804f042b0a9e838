import DeskCalc.Proofs.Accuracy.Exponential
import DeskCalc.Proofs.Accuracy.Logarithm
import DeskCalc.Proofs.Decimal.Loop

/-
The lengths of the loops in a logarithm and in an exponential.

The loops end on conditions about rounded numbers, so a rounding could keep a term from falling or
a root from coming nearer to one.  For each loop an invariant says how many rounds are left at
most, and a round that is not the last one leaves one less, its roundings included.  A series stops
at the term that is too small to be added, which is counted as one of its terms.  The place at
which a series stops is a number of 64 bits, and no end of them is near as long as the digits of
the number and those it is worked out in are 10^18 at most; a number of more digits takes hundreds
of petabytes.
-/
namespace DeskCalc
namespace Decimal

variable {x y m z square power small : Decimal} {working d left : ℕ} {cutoff : ℤ} {part : ℝ}
  {s t : Summation}

/-! ## Numbers that fall -/

/-- If each number behind it is at most so large a part of the one before it, so many of them
reach the cutoff at most. -/
structure Falling (cutoff : ℤ) (part : ℝ) (left : ℕ) (x : Decimal) : Prop where
  falls : |x.toReal| * part ^ (left + 1) < 10 ^ cutoff

theorem Falling.lt (h : Falling cutoff part 0 x) (hy : |y.toReal| ≤ |x.toReal| * part) :
    |y.toReal| < 10 ^ cutoff := by
  have hfalls := h.falls
  rw [zero_add, pow_one] at hfalls
  exact hy.trans_lt hfalls

/-- The next number leaves one less. -/
theorem Falling.next (h : Falling cutoff part (left + 1) x) (hpart : 0 ≤ part)
    (hy : |y.toReal| ≤ |x.toReal| * part) : Falling cutoff part left y where
  falls := by
    have hfalls := h.falls
    rw [pow_succ', ← mul_assoc] at hfalls
    exact (mul_le_mul_of_nonneg_right hy (pow_nonneg hpart _)).trans_lt hfalls

/-! ## The inverse hyperbolic tangent -/

/-- A power is at most a hundredth of the one before it, and its term is no larger. -/
theorem atanh_step_falls (hworking : 11 ≤ working) (hsquare : |square.toReal| ≤ 1 / 200)
    (power : Decimal) (n : ℕ) :
    |((power * square).withDigits working).toReal| ≤ |power.toReal| * (1 / 100) ∧
      |(((power * square).withDigits working / ofInt (n + 2)).withDigits working).toReal| ≤
        |((power * square).withDigits working).toReal| := by
  obtain ⟨hpower, hterm⟩ := within_atanh_step (grain_of_le hworking)
    (.refl (by norm_num) square.toReal) power n
  have hproduct : |power.toReal * square.toReal| ≤ |power.toReal| / 200 := by
    rw [abs_mul]
    linarith [mul_le_mul_of_nonneg_left hsquare (abs_nonneg power.toReal)]
  have hquotient : |power.toReal * (square.toReal / (n + 2))| ≤
      |power.toReal * square.toReal| / 2 := by
    rw [mul_div_assoc', abs_div, abs_of_pos (show (0 : ℝ) < n + 2 by positivity)]
    refine div_le_div_of_nonneg_left (abs_nonneg _) two_pos ?_
    linarith [(Nat.cast_nonneg n : (0 : ℝ) ≤ n)]
  have hbelow := hpower.le_abs
  have habove := hpower.abs_le
  have hsmaller := hterm.abs_le
  constructor <;> linarith [abs_nonneg (power.toReal * square.toReal)]

/-- The last round. -/
theorem atanhRound_eq_none (hworking : 11 ≤ working) (hsquare : |square.toReal| ≤ 1 / 200)
    (hcutoff : -9223372036854775808 < cutoff) (h : Falling cutoff (1 / 100) 0 s.last) :
    atanhRound working square cutoff s = none := by
  obtain ⟨hpower, hterm⟩ := atanh_step_falls hworking hsquare s.last s.n
  rw [atanhRound]
  exact if_pos (stopped_of_abs_lt hcutoff (hterm.trans_lt (h.lt hpower)))

/-- A round that goes on leaves one less. -/
theorem falling_of_atanhRound (hworking : 11 ≤ working) (hsquare : |square.toReal| ≤ 1 / 200)
    (h : Falling cutoff (1 / 100) (left + 1) s.last)
    (hround : atanhRound working square cutoff s = some t) :
    Falling cutoff (1 / 100) left t.last := by
  obtain ⟨hpower, -⟩ := atanh_step_falls hworking hsquare s.last s.n
  rw [atanhRound] at hround
  generalize (s.last * square).withDigits working = next at hpower hround
  split at hround
  · cases hround
  · obtain rfl := Option.some.inj hround
    exact h.next (by norm_num) hpower

/-- Two digits for each hundredth. -/
theorem pow_hundredth_le {count k : ℕ} (h : count ≤ 2 * k) :
    (1 / 100 : ℝ) ^ k ≤ 10 ^ (-(count : ℤ)) := by
  rw [zpow_neg, zpow_natCast, one_div, inv_pow, show (100 : ℝ) = 10 ^ 2 by norm_num, ← pow_mul]
  exact inv_anti₀ (by positivity) (pow_le_pow_right₀ (by norm_num) h)

/-- Two digits with each power take a number from its leading digit to the cutoff. -/
theorem falling_self (z : Decimal) (working : ℕ) :
    Falling (z.leadingExponent - working) (1 / 100) (working / 2) z := by
  have htwo := pow_hundredth_le (show working + 1 ≤ 2 * (working / 2 + 1) by omega)
  constructor
  calc |z.toReal| * (1 / 100) ^ (working / 2 + 1)
      < 10 ^ (z.leadingExponent + 1) * 10 ^ (-((working + 1 : ℕ) : ℤ)) :=
        mul_lt_mul (abs_toReal_lt z) htwo (by positivity) (by positivity)
    _ = 10 ^ (z.leadingExponent - working) := by
        rw [← zpow_add₀ (by norm_num)]
        congr 1
        push_cast
        omega

theorem abs_square_le (hworking : 11 ≤ working) (hsmall : |z.toReal| ≤ 1 / 18) :
    |((z * z).withDigits working).toReal| ≤ 1 / 200 := by
  have hgrain := grain_of_le hworking
  have hrounded := (within_withDigits hgrain.ne_zero (z * z)).abs_le
  rw [toReal_mul, abs_mul] at hrounded
  have hproduct := mul_self_le_mul_self (abs_nonneg z.toReal) hsmall
  have hunit := mul_le_mul_of_nonneg_right hgrain.digits (mul_self_nonneg |z.toReal|)
  linarith

/-- The series of the inverse hyperbolic tangent ends.  Besides the terms that are added there are
the argument, its first one, and the last one, which is too small. -/
def AtanhEnds (z : Decimal) (working : ℕ) : Prop :=
  z.isZero = true ∨ ∃ terms s, terms + 2 ≤ working / 2 + 2 ∧
    Rounds (atanhRound working ((z * z).withDigits working)
      (saturate (z.adjustedExponent - working))) ⟨z, z, 1⟩ terms s ∧
    z.atanh working = s.sum

theorem atanhEnds_of_small (hworking : 11 ≤ working) (hz : Sized (working + 1) (-(2 * d)) 2 z)
    (hsmall : |z.toReal| ≤ 1 / 18) (hd : working ≤ d) (hlimit : d ≤ 1000000000000001000) :
    AtanhEnds z working := by
  by_cases hne : z.mantissa = 0
  · exact .inl (isZero_of_eq hne)
  · right
    obtain ⟨-, hfrom, hto⟩ := hz hne
    have hcutoff : saturate (z.adjustedExponent - working) = z.leadingExponent - working := by
      rw [Context.adjustedExponent_eq hne, saturate, saturate]
      omega
    have hsquare := abs_square_le hworking hsmall
    obtain ⟨terms, s, hterms, hrounds⟩ := @exists_rounds _ _
      (fun left s => Falling (z.leadingExponent - working) (1 / 100) left s.last)
      (fun _ h => atanhRound_eq_none hworking hsquare (by omega) h)
      (fun _ _ _ h hround => falling_of_atanhRound hworking hsquare h hround) _ ⟨z, z, 1⟩
      (falling_self z working)
    have hzero : ¬ z.isZero = true := by
      rw [isZero_of_ne hne]
      exact Bool.false_ne_true
    refine ⟨terms, s, by omega, by rwa [hcutoff], ?_⟩
    rw [atanh_eq, if_neg hzero, hcutoff, atanhTerms_eq, runRounds_of_rounds hrounds (by omega)]

/-! ## Logarithms -/

/-- A positive number in range is its leading part, from 0.3 up to 3, times a power of ten. -/
theorem split_exact (hx : 0 < x.toRat) (hexponent : |x.adjustedExponent| ≤ 10000)
    (hdigits : x.digits ≤ 10 ^ 18) :
    x.split.1.toRat * 10 ^ x.split.2 = x.toRat ∧ 3 / 10 ≤ x.split.1.toRat ∧
      x.split.1.toRat < 3 := by
  obtain ⟨hvalue, hlow, hhigh⟩ := toReal_split (toRat_pos.1 hx) (hdigits.trans (by norm_num))
    (sized_of_adjustedExponent hexponent)
  rw [toReal] at hlow hhigh
  rw [toReal, toReal, ← cast_ten_zpow, ← Rat.cast_mul, Rat.cast_inj] at hvalue
  refine ⟨hvalue.symm, ?_, ?_⟩
  · rw [← Rat.cast_le (K := ℝ)]
    push_cast
    exact hlow
  · rw [← Rat.cast_lt (K := ℝ)]
    push_cast
    exact hhigh

theorem log_ten_le_five_halves : Real.log 10 ≤ 5 / 2 :=
  calc Real.log 10 ≤ Real.log ((9 / 8) ^ 20) := Real.log_le_log (by norm_num) (by norm_num)
    _ = 20 * Real.log (9 / 8) := by
        rw [Real.log_pow]
        norm_num
    _ ≤ 5 / 2 := by linarith [Real.log_le_sub_one_of_pos (show (0 : ℝ) < 9 / 8 by norm_num)]

/-- A number whose logarithm is taken next to the point: a leading part, or ten. -/
def Reduced (m : Decimal) : Prop :=
  3 / 10 ≤ m.toRat ∧ m.toRat < 3 ∨ m.toRat = 10

theorem Reduced.pos (h : Reduced m) : 0 < m.mantissa := by
  rw [← toRat_pos]
  rcases h with ⟨hlow, -⟩ | hten
  · linarith
  · rw [hten]
    norm_num

theorem Reduced.abs_log_le (h : Reduced m) : |Real.log m.toReal| ≤ 5 / 2 := by
  rcases h with ⟨hlow, hhigh⟩ | hten
  · rw [← Rat.cast_le (K := ℝ)] at hlow
    rw [← Rat.cast_lt (K := ℝ)] at hhigh
    push_cast at hlow hhigh
    have hleading := abs_log_leading_le (a := m.toReal) hlow hhigh.le
    linarith [log_ten_le_five_halves]
  · rw [toReal, hten, Rat.cast_ofNat, abs_of_pos (Real.log_pos (by norm_num))]
    exact log_ten_le_five_halves

theorem Reduced.sized (h : Reduced m) : Sized m.digits (-1) 1 m := by
  intro hne
  refine ⟨le_rfl, (le_leadingExponent_iff hne).2 ?_,
    Int.lt_add_one_iff.1 ((leadingExponent_lt_iff hne).2 ?_)⟩ <;>
  · rw [abs_of_pos (toRat_pos.2 h.pos)]
    rcases h with ⟨hlow, hhigh⟩ | hten
    · norm_num
      linarith
    · rw [hten]
      norm_num

/-- The logarithm of a number next to the point ends: few roots pull it near to one, the factor
that undoes them fits in 64 bits, and the series of what is left ends. -/
def LogarithmEnds (m : Decimal) (working : ℕ) : Prop :=
  ∃ roots near, roots ≤ 5 ∧ near.nearOne = true ∧
    Rounds (rootRound (working + guardDigits)) m roots near ∧ 2 * 2 ^ roots < 2 ^ 64 ∧
    AtanhEnds (((near - one) / (near + one)).withDigits (working + guardDigits))
      (working + guardDigits) ∧
    m.lnReduced working = atanh (((near - one) / (near + one)).withDigits (working + guardDigits))
      (working + guardDigits) * ofInt (2 * 2 ^ roots)

theorem exists_roots (hworking : 11 ≤ working) (hm : Reduced m) :
    ∃ roots near, roots ≤ 5 ∧ near.nearOne = true ∧ Rounds (rootRound working) m roots near := by
  have hpulled := pulledTo_pullToOne (grain_of_le hworking) 5 hm.pos
    (hm.abs_log_le.trans (by norm_num))
  rw [pullToOne_eq] at hpulled
  refine ⟨_, _, runRounds_count_le 5 m, hpulled.nearOne, rounds_runRounds ?_⟩
  rw [rootRound, if_pos hpulled.nearOne]

theorem logarithmEnds_of_reduced (hm : Reduced m) (hworking : 10 ≤ working)
    (hdigits : m.digits + working ≤ 10 ^ 18) : LogarithmEnds m working := by
  have hguard : working + guardDigits = working + 10 := rfl
  have hprecise : 11 ≤ working + guardDigits := by omega
  obtain ⟨roots, near, hroots, hnear, hrounds⟩ := exists_roots hprecise hm
  have hfuel : roots ≤ m.rootBound := hroots.trans (le_trans (by norm_num) (Nat.le_add_left _ _))
  have hpulled : pullToOne (working + guardDigits) m.rootBound m = (near, roots) := by
    rw [pullToOne_eq, runRounds_of_rounds hrounds hfuel]
  obtain ⟨hpos, hplaced, -⟩ := pullToOne_sized (d := m.digits + working + 610)
    (show working + guardDigits ≠ 0 by omega) (by omega) m.rootBound hm.pos (le_refl 210)
    (hm.sized.mono (by omega) (by omega) (by omega))
  rw [hpulled] at hpos hplaced
  have hbound := rootBound_le hm.pos.ne' hm.sized
  have hz := ratio_sized hpos (hplaced.mono le_rfl le_rfl (by omega)) (by omega)
    (show working + guardDigits ≠ 0 by omega)
  obtain ⟨hsmall, -⟩ := within_artanh_ratio (grain_of_le hprecise) hnear
  refine ⟨roots, near, hroots, hnear, hrounds, ?_, atanhEnds_of_small hprecise hz hsmall (by omega)
    (by omega), ?_⟩
  · calc 2 * 2 ^ roots ≤ 2 * 2 ^ 5 := Nat.mul_le_mul_left 2 (Nat.pow_le_pow_right two_pos hroots)
      _ < 2 ^ 64 := by norm_num
  · rw [lnReduced_eq]
    dsimp only
    rw [hpulled]

/-! ## Exponentials -/

/-- A term is hardly more than the exact one. -/
theorem taylor_step_le (hworking : 10 ≤ working) (term small : Decimal) (n : ℕ) :
    99 * ((n + 1) * |((term * small / ofInt (n + 1)).withDigits working).toReal|) ≤
      100 * (|term.toReal| * |small.toReal|) := by
  have hunit : digitUnit working + digitUnit 100 ≤ 1 / 1000 := by
    have hten : digitUnit working ≤ digitUnit 10 := digitUnit_mono hworking
    norm_num [digitUnit] at hten ⊢
    linarith
  have hcount : (0 : ℝ) < n + 1 := by positivity
  have hterm := (within_taylor_step (show working ≠ 0 by omega) hunit term small n).abs_le
  have hexact : (n + 1) * |term.toReal * (small.toReal / (n + 1))| =
      |term.toReal| * |small.toReal| := by
    rw [abs_mul, abs_div, abs_of_pos hcount, mul_left_comm, mul_div_cancel₀ _ hcount.ne']
  have hnonneg := mul_nonneg (abs_nonneg term.toReal) (abs_nonneg small.toReal)
  linarith [mul_le_mul_of_nonneg_left hterm hcount.le]

/-- A sum behind its first term that ends after so many more terms at most. -/
structure TaylorLeft (working left : ℕ) (s : Summation) : Prop where
  falling : Falling (-working) (1 / 198) left s.last
  begun : 1 ≤ s.n

/-- The count is at least two in the next term. -/
theorem TaylorLeft.next_le (hworking : 10 ≤ working) (hsmall : |small.toReal| ≤ 1 / 100)
    (h : TaylorLeft working left s) :
    |((s.last * small / ofInt (s.n + 1)).withDigits working).toReal| ≤
      |s.last.toReal| * (1 / 198) := by
  have hnext := taylor_step_le hworking s.last small s.n
  have hfactor := mul_le_mul_of_nonneg_left hsmall (abs_nonneg s.last.toReal)
  have hcount : (2 : ℝ) ≤ s.n + 1 := by exact_mod_cast Nat.succ_le_succ h.begun
  generalize (s.last * small / ofInt (s.n + 1)).withDigits working = next at hnext ⊢
  linarith [mul_le_mul_of_nonneg_right hcount (abs_nonneg next.toReal)]

/-- What a round that goes on adds. -/
theorem taylorRound_eq_some (hround : taylorRound working small s = some t) :
    t.last = (s.last * small / ofInt (s.n + 1)).withDigits working ∧ t.n = s.n + 1 := by
  rw [taylorRound] at hround
  split at hround
  · cases hround
  · obtain rfl := Option.some.inj hround
    exact ⟨rfl, rfl⟩

section Rounds

variable (hworking : 10 ≤ working) (hsmall : |small.toReal| ≤ 1 / 100)

include hworking hsmall

/-- The last round. -/
theorem TaylorLeft.last (hlimit : working ≤ 9223372036854775000) (h : TaylorLeft working 0 s) :
    taylorRound working small s = none := by
  rw [taylorRound]
  exact if_pos (stopped_of_abs_lt (by omega) (h.falling.lt (h.next_le hworking hsmall)))

/-- A round that goes on leaves one less. -/
theorem TaylorLeft.round (h : TaylorLeft working (left + 1) s)
    (hround : taylorRound working small s = some t) : TaylorLeft working left t := by
  obtain ⟨hlast, hn⟩ := taylorRound_eq_some hround
  have hnext := h.next_le hworking hsmall
  rw [← hlast] at hnext
  exact ⟨h.falling.next (by norm_num) hnext, by omega⟩

end Rounds

/-- So many terms are enough behind the first two. -/
theorem pow_taylor_lt (hworking : 10 ≤ working) :
    (1 / 99 : ℝ) * (1 / 198) ^ (working / 2 - 2 + 1) < 10 ^ (-(working : ℤ)) := by
  obtain ⟨k, hk⟩ : ∃ k, working / 2 - 2 + 1 = k + 4 := ⟨working / 2 - 5, by omega⟩
  rw [hk]
  calc (1 / 99 : ℝ) * (1 / 198) ^ (k + 4) ≤ (1 / 100) ^ k * (1 / 99 * (1 / 198) ^ 4) := by
        rw [pow_add, mul_left_comm]
        exact mul_le_mul_of_nonneg_right
          (pow_le_pow_left₀ (by norm_num) (by norm_num) k) (by norm_num)
    _ < (1 / 100) ^ k * (1 / 10 ^ 11) := mul_lt_mul_of_pos_left (by norm_num) (by positivity)
    _ = 10 ^ (-((2 * k + 11 : ℕ) : ℤ)) := by
        rw [zpow_neg, zpow_natCast, pow_add, pow_mul, one_div_pow, one_div_mul_one_div, one_div]
        norm_num
    _ ≤ 10 ^ (-(working : ℤ)) := zpow_le_zpow_right₀ (by norm_num) (by omega)

/-- The series of a small argument ends. -/
theorem exists_taylor_rounds (hworking : 10 ≤ working) (hsmall : |small.toReal| < 1 / 100)
    (hlimit : working ≤ 9223372036854775000) : ∃ terms s,
      terms + 2 ≤ working / 2 + 1 ∧ Rounds (taylorRound working small) ⟨one, one, 0⟩ terms s := by
  cases hfirst : taylorRound working small ⟨one, one, 0⟩ with
  | none => exact ⟨0, _, by omega, .done hfirst⟩
  | some t =>
    obtain ⟨hlast, hn⟩ := taylorRound_eq_some hfirst
    have hnext := taylor_step_le hworking one small 0
    dsimp only at hlast hn
    rw [← hlast, toReal_one, abs_one, Nat.cast_zero, zero_add, one_mul, one_mul] at hnext
    have hfew : |t.last.toReal| ≤ 1 / 99 := by linarith
    have hfalling : Falling (-working) (1 / 198) (working / 2 - 2) t.last :=
      ⟨(mul_le_mul_of_nonneg_right hfew (by positivity)).trans_lt (pow_taylor_lt hworking)⟩
    obtain ⟨terms, s, hterms, hrounds⟩ := exists_rounds
      (fun _ h => TaylorLeft.last hworking hsmall.le hlimit h)
      (fun _ _ _ h hround => TaylorLeft.round hworking hsmall.le h hround) _ _
      (TaylorLeft.mk hfalling (by omega))
    exact ⟨terms + 1, s, by omega, .again hfirst hrounds⟩

/-- The exponential ends: few halvings make its argument small, and the series of the small
argument ends.  Besides the terms that are added there are one, its first one, and the last one,
which is too small. -/
def ExponentialEnds (x : Decimal) (precision : ℕ) : Prop :=
  x.isZero = true ∨ ∃ halvings small terms s working, halvings ≤ 22 ∧
    Rounds halveRound x halvings small ∧ working = precision + guardDigits + halvings ∧
    terms + 2 ≤ working / 2 + 1 ∧
    Rounds (taylorRound working small) ⟨one, one, 0⟩ terms s ∧
    x.exp? precision = some ((squareTimes working halvings s.sum).withDigits working)

/-- Halvings that led below 0.01 have ended. -/
theorem rounds_halveToSmall {fuel : ℕ} (h : |(halveToSmall fuel x).1.toRat| < 1 / 100) :
    Rounds halveRound x (halveToSmall fuel x).2 (halveToSmall fuel x).1 := by
  rw [halveToSmall_eq] at h ⊢
  refine rounds_runRounds (if_neg ?_)
  rw [le_iff, toRat_abs, not_le]
  exact h.trans_eq (by norm_num [toRat])

/-- The halvings end. -/
theorem exists_halvings (hne : x.mantissa ≠ 0) (hle : |x.toReal| ≤ 23100) :
    ∃ halvings small, halvings ≤ 22 ∧ |small.toReal| < 1 / 100 ∧
      Rounds halveRound x halvings small ∧ halveToSmall x.halvingBound x = (small, halvings) := by
  have hlead := leadingExponent_le_of_limit hne hle
  have hfuel : x.halvingBound ≤ 33 := by
    rw [halvingBound, Context.adjustedExponent_eq hne, saturate]
    omega
  have hcount := halveToSmall_count_le x.halvingBound (k := 22) (hle.trans_lt (by norm_num))
  have hsmall := halveToSmall_lt x.halvingBound
    (abs_toRat_lt_halvings hne (by omega))
  have hrounds := rounds_halveToSmall hsmall
  generalize halveToSmall x.halvingBound x = halved at hcount hsmall hrounds ⊢
  obtain ⟨small, halvings⟩ := halved
  refine ⟨halvings, small, hcount, ?_, hrounds, rfl⟩
  rw [← Rat.cast_lt (K := ℝ)] at hsmall
  push_cast at hsmall
  exact hsmall

/-- The exponential of an argument in range ends. -/
theorem exponentialEnds_of_le {precision : ℕ} (hle : |x.toRat| ≤ 23100)
    (hprecision : precision ≤ 10 ^ 18) : ExponentialEnds x precision := by
  by_cases hne : x.mantissa = 0
  · exact .inl (isZero_of_eq hne)
  · right
    have hguard : guardDigits = 10 := rfl
    have hle' : |x.toReal| ≤ 23100 := by
      rw [toReal, ← Rat.cast_abs]
      exact_mod_cast hle
    obtain ⟨halvings, small, hhalvings, hsmall, hrounds, hhalved⟩ :=
      exists_halvings hne hle'
    obtain ⟨terms, s, hterms, hseries⟩ := exists_taylor_rounds
      (show 10 ≤ precision + guardDigits + halvings by omega) hsmall (by omega)
    refine ⟨halvings, small, terms, s, _, hhalvings, hrounds, rfl, hterms, hseries, ?_⟩
    rw [exp?_of_le hne hle' hhalved rfl, taylorTerms_eq, runRounds_of_rounds hseries (by omega)]

end Decimal

open Decimal

/-- The loops of the series end.  A positive number in range is its leading part times a power of
ten, at most five roots pull a leading part or ten near to one, and the series behind them has at
most two terms more than half the digits it is worked out in.  The exponential of an argument in
range, of either sign, halves it 22 times at most, and its series has at most one term more than
half the digits.  The digits that a number has and those that are worked out are at most 10^18,
where the place of the last one is far from the ends of its 64 bits. -/
theorem series_loops_end :
    (∀ x : Decimal, 0 < x.toRat → |x.adjustedExponent| ≤ 10000 → x.digits ≤ 10 ^ 18 →
      x.split.1.toRat * 10 ^ x.split.2 = x.toRat ∧ 3 / 10 ≤ x.split.1.toRat ∧
        x.split.1.toRat < 3) ∧
      (∀ (m : Decimal) (working : ℕ), m.Reduced → 10 ≤ working → m.digits + working ≤ 10 ^ 18 →
        m.LogarithmEnds working) ∧
      ∀ (x : Decimal) (precision : ℕ), |x.toRat| ≤ 23100 → precision ≤ 10 ^ 18 →
        x.ExponentialEnds precision :=
  ⟨fun _ hpos hexponent hdigits => split_exact hpos hexponent hdigits,
    fun _ _ hm hworking hdigits => logarithmEnds_of_reduced hm hworking hdigits,
    fun _ _ hle hprecision => exponentialEnds_of_le hle hprecision⟩

/-- The leading part of 400, which is 0.4, and ten, in the fewest digits; and the least argument of
the exponential. -/
theorem series_loops_end_for_four_hundred :
    (split ⟨400, 0⟩).1.toRat * 10 ^ (split ⟨400, 0⟩).2 = toRat ⟨400, 0⟩ ∧
      (split ⟨400, 0⟩).1.LogarithmEnds 10 ∧ (ofInt 10).LogarithmEnds 10 ∧
      (ofInt (-23100)).ExponentialEnds 60 := by
  obtain ⟨hsplit, hlogarithm, hexponential⟩ := series_loops_end
  obtain ⟨hvalue, hleading⟩ := hsplit ⟨400, 0⟩ (toRat_pos.2 (by decide)) (by decide) (by decide)
  exact ⟨hvalue, hlogarithm _ 10 (.inl hleading) (by decide) (by decide),
    hlogarithm _ 10 (.inr (toRat_ofInt 10)) (by decide) (by decide),
    hexponential _ 60 (by norm_num [toRat_ofInt]) (by decide)⟩

end DeskCalc
