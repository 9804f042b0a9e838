import DeskCalc.Decimal.Division
import DeskCalc.Proofs.Decimal.Settled

/-
How far an operation moves the digits of a number.

The number of digits and the place of the leading one decide the scale.  Each operation
changes them by little: a product adds them, a quotient subtracts the places, and a rounding
moves the leading digit by one place at most.
-/
namespace DeskCalc

/-! ## Counting digits -/

theorem lt_digitCount {n k : ℕ} (h : 10 ^ k ≤ n) : k < digitCount n :=
  (Nat.pow_lt_pow_iff_right (by norm_num)).1 (h.trans_lt (lt_pow_digitCount n))

theorem digitCount_mono {m n : ℕ} (h : m ≤ n) : digitCount m ≤ digitCount n :=
  digitCount_le (h.trans_lt (lt_pow_digitCount n)) (digitCount_pos n)

theorem digitCount_succ_le (n : ℕ) : digitCount (n + 1) ≤ digitCount n + 1 := by
  have hlt : n < 10 ^ digitCount n := lt_pow_digitCount n
  have hnext : 10 ^ digitCount n < 10 ^ (digitCount n + 1) :=
    Nat.pow_lt_pow_right (by norm_num) (Nat.lt_succ_self _)
  exact digitCount_le (by omega) (Nat.succ_pos _)

theorem digitCount_add_le (m n : ℕ) :
    digitCount (m + n) ≤ max (digitCount m) (digitCount n) + 1 := by
  have hm : m < 10 ^ max (digitCount m) (digitCount n) :=
    (lt_pow_digitCount m).trans_le (Nat.pow_le_pow_right (by norm_num) (le_max_left _ _))
  have hn : n < 10 ^ max (digitCount m) (digitCount n) :=
    (lt_pow_digitCount n).trans_le (Nat.pow_le_pow_right (by norm_num) (le_max_right _ _))
  refine digitCount_le ?_ (Nat.succ_pos _)
  rw [pow_succ]
  omega

theorem digitCount_mul_pow {n : ℕ} (hn : n ≠ 0) (k : ℕ) :
    digitCount (n * 10 ^ k) = digitCount n + k := by
  have hpos : 0 < 10 ^ k := pow_pos (by norm_num) k
  have hdigits := digitCount_pos n
  apply le_antisymm
  · refine digitCount_le ?_ (by omega)
    rw [pow_add]
    exact Nat.mul_lt_mul_of_pos_right (lt_pow_digitCount n) hpos
  · have hlow : 10 ^ (digitCount n - 1 + k) ≤ n * 10 ^ k := by
      rw [pow_add]
      exact Nat.mul_le_mul_right _ (pow_le_of_digitCount (Nat.pos_of_ne_zero hn))
    have := lt_digitCount hlow
    omega

theorem digitCount_div_pow {n k : ℕ} (h : k < digitCount n) :
    digitCount (n / 10 ^ k) = digitCount n - k := by
  have hpos : 0 < 10 ^ k := pow_pos (by norm_num) k
  by_cases hn : n = 0
  · subst hn
    have hone : digitCount 0 = 1 := rfl
    obtain rfl : k = 0 := by omega
    rfl
  · apply le_antisymm
    · refine digitCount_le ?_ (by omega)
      rw [Nat.div_lt_iff_lt_mul hpos, ← pow_add, Nat.sub_add_cancel h.le]
      exact lt_pow_digitCount n
    · have hlow : 10 ^ (digitCount n - 1 - k) ≤ n / 10 ^ k := by
        rw [Nat.le_div_iff_mul_le hpos, ← pow_add, Nat.sub_add_cancel (by omega)]
        exact pow_le_of_digitCount (Nat.pos_of_ne_zero hn)
      have := lt_digitCount hlow
      omega

/-- A shift by places adds as many digits, or takes them away. -/
theorem digitCount_shift {n : ℕ} (hn : n ≠ 0) {places : ℤ} (h : 0 < digitCount n + places) :
    (digitCount (n * 10 ^ places.toNat / 10 ^ (-places).toNat) : ℤ) = digitCount n + places := by
  by_cases hplaces : 0 ≤ places
  · rw [show (-places).toNat = 0 by omega, pow_zero, Nat.div_one, digitCount_mul_pow hn]
    omega
  · rw [show places.toNat = 0 by omega, pow_zero, mul_one, digitCount_div_pow (by omega)]
    omega

theorem digitCount_mul {m n : ℕ} (hm : m ≠ 0) (hn : n ≠ 0) :
    digitCount m + digitCount n ≤ digitCount (m * n) + 1 ∧
      digitCount (m * n) ≤ digitCount m + digitCount n := by
  have hdigits := digitCount_pos m
  have hdigits' := digitCount_pos n
  constructor
  · have hlow : 10 ^ (digitCount m - 1 + (digitCount n - 1)) ≤ m * n := by
      rw [pow_add]
      exact Nat.mul_le_mul (pow_le_of_digitCount (Nat.pos_of_ne_zero hm))
        (pow_le_of_digitCount (Nat.pos_of_ne_zero hn))
    have := lt_digitCount hlow
    omega
  · refine digitCount_le ?_ (by omega)
    rw [pow_add]
    exact Nat.mul_lt_mul'' (lt_pow_digitCount m) (lt_pow_digitCount n)

theorem digitCount_div {n d : ℕ} (hd : d ≠ 0) (h : d ≤ n) :
    digitCount n ≤ digitCount (n / d) + digitCount d ∧
      digitCount (n / d) + digitCount d ≤ digitCount n + 1 := by
  have hq : n / d ≠ 0 := (Nat.div_pos h (Nat.pos_of_ne_zero hd)).ne'
  have hbelow : n / d * d ≤ n := Nat.div_mul_le_self n d
  constructor
  · have habove : n < (n / d + 1) * d := by
      rw [mul_comm]
      exact Nat.lt_mul_div_succ n (Nat.pos_of_ne_zero hd)
    refine digitCount_le (habove.trans_le ?_) (by have := digitCount_pos d; omega)
    rw [pow_add]
    exact Nat.mul_le_mul (lt_pow_digitCount _) (lt_pow_digitCount d).le
  · exact (digitCount_mul hq hd).1.trans (Nat.succ_le_succ (digitCount_mono hbelow))

/-- A number of more digits than this cannot be written down. -/
def writableDigits : ℕ := 1000000000000000

namespace Decimal

/-- The number is zero, or it has at most so many digits, and the place of its leading digit
lies between two bounds. -/
def Sized (digits : ℕ) (low high : ℤ) (x : Decimal) : Prop :=
  x.mantissa ≠ 0 → x.digits ≤ digits ∧ low ≤ x.leadingExponent ∧ x.leadingExponent ≤ high

variable {x y : Decimal} {d d' : ℕ} {low low' high high' : ℤ}

theorem Sized.mono (h : Sized d low high x) (hd : d ≤ d') (hlow : low' ≤ low)
    (hhigh : high ≤ high') : Sized d' low' high' x := by
  intro hx
  obtain ⟨hdigits, hfrom, hto⟩ := h hx
  exact ⟨hdigits.trans hd, hlow.trans hfrom, hto.trans hhigh⟩

theorem sized_self (x : Decimal) : Sized x.digits x.leadingExponent x.leadingExponent x :=
  fun _ => ⟨le_rfl, le_rfl, le_rfl⟩

theorem sized_of_zero (hx : x.mantissa = 0) : Sized d low high x := fun hne => absurd hx hne

/-- The leading digit of a number in the magnitude range. -/
theorem sized_of_adjustedExponent (h : |x.adjustedExponent| ≤ Context.maxExponent) :
    Sized x.digits (-10000) 10000 x := by
  intro hx
  have hmax : Context.maxExponent = 10000 := rfl
  rw [Context.adjustedExponent_eq hx, hmax, abs_le, saturate] at h
  exact ⟨le_rfl, by omega, by omega⟩

/-- An admitted value of so many digits. -/
theorem sized_of_admits {context : Context} (h : context.Admits x.toRat)
    (hdigits : x.mantissa ≠ 0 → x.digits ≤ d) : Sized d (-10000) 10000 x := by
  intro hx
  have hmax : Context.maxExponent = 10000 := rfl
  rcases h with hzero | ⟨hlow, hhigh, -⟩
  · exact absurd (toRat_eq_zero.1 hzero) hx
  · have hfrom := (le_leadingExponent_iff hx).2 hlow
    have hto := (leadingExponent_lt_iff hx).2 hhigh
    exact ⟨hdigits hx, by omega, by omega⟩

theorem digits_pos (x : Decimal) : 0 < x.digits := digitCount_pos _

/-- The scale follows from the digits and the place of the leading one. -/
theorem Sized.scale (h : Sized d low high x) (hx : x.mantissa ≠ 0) :
    -high ≤ x.scale ∧ x.scale + low < d := by
  obtain ⟨hdigits, hfrom, hto⟩ := h hx
  have hpos := x.digits_pos
  rw [leadingExponent] at hfrom hto
  omega

/-! ## The same number -/

theorem digits_extend (hx : x.mantissa ≠ 0) (k : ℕ) : (x.extend k).digits = x.digits + k := by
  rw [digits, extend]
  dsimp only
  rw [Int.natAbs_mul, Int.natAbs_pow]
  exact digitCount_mul_pow (Int.natAbs_ne_zero.2 hx) k

theorem leadingExponent_extend (hx : x.mantissa ≠ 0) (k : ℕ) :
    (x.extend k).leadingExponent = x.leadingExponent := by
  have hscale : (x.extend k).scale = x.scale + k := rfl
  rw [leadingExponent, leadingExponent, digits_extend hx, hscale]
  omega

theorem mantissa_normalize_ne (hx : x.mantissa ≠ 0) : x.normalize.mantissa ≠ 0 := by
  intro hzero
  have hnumber := toRat_normalize x
  rw [toRat_eq_zero.2 hzero] at hnumber
  exact hx (toRat_eq_zero.1 hnumber.symm)

theorem Sized.normalize (h : Sized d low high x) : Sized d low high x.normalize := by
  by_cases hx : x.mantissa = 0
  · refine sized_of_zero ?_
    rw [Decimal.normalize, if_pos (isZero_of_eq hx)]
    rfl
  · intro hnormal
    have hsame := extend_normalize hx
    generalize trailingZeros x.mantissa.natAbs = k at hsame
    obtain ⟨hdigits, hfrom, hto⟩ := h hx
    rw [← hsame, digits_extend hnormal] at hdigits
    rw [← hsame, leadingExponent_extend hnormal] at hfrom hto
    exact ⟨by omega, hfrom, hto⟩

/-! ## Products -/

theorem mul_eq (x y : Decimal) : x * y =
    if x = one then y.normalize
    else if y = one then x.normalize
    else ⟨x.mantissa * y.mantissa, x.scale + y.scale⟩ := rfl

theorem mantissa_of_mul (h : (x * y).mantissa ≠ 0) : x.mantissa ≠ 0 ∧ y.mantissa ≠ 0 := by
  have hnormal : ∀ {z : Decimal}, z.normalize.mantissa ≠ 0 → z.mantissa ≠ 0 := by
    intro z hz hzero
    rw [Decimal.normalize, if_pos (isZero_of_eq hzero)] at hz
    exact hz rfl
  rw [mul_eq] at h
  split at h
  · next hone => exact ⟨by rw [hone]; decide, hnormal h⟩
  · split at h
    · next hone => exact ⟨hnormal h, by rw [hone]; decide⟩
    · exact mul_ne_zero_iff.1 h

/-- The scales of two factors add up to a scale. -/
theorem Sized.scalesFit (hx : Sized d low high x) (hy : Sized d' low' high' y)
    (hlarge : high + high' ≤ 9223372036854775808)
    (hsmall : d + d' ≤ low + low' + 9223372036854775809) (hxne : x.mantissa ≠ 0)
    (hyne : y.mantissa ≠ 0) : InRange (x.scale + y.scale) := by
  obtain ⟨hxlow, hxhigh⟩ := hx.scale hxne
  obtain ⟨hylow, hyhigh⟩ := hy.scale hyne
  constructor <;> omega

theorem Sized.mul (hx : Sized d low high x) (hy : Sized d' low' high' y) :
    Sized (d + d') (low + low') (high + high' + 1) (x * y) := by
  intro hne
  obtain ⟨hxne, hyne⟩ := mantissa_of_mul hne
  obtain ⟨hxdigits, hxlow, hxhigh⟩ := hx hxne
  obtain ⟨hydigits, hylow, hyhigh⟩ := hy hyne
  revert hne
  rw [mul_eq]
  have hone : one.leadingExponent = 0 := by decide
  split
  · next hx1 =>
    rw [hx1, hone] at hxlow hxhigh
    exact (hy.normalize).mono (by omega) (by omega) (by omega)
  · split
    · next hy1 =>
      rw [hy1, hone] at hylow hyhigh
      exact (hx.normalize).mono (by omega) (by omega) (by omega)
    · intro hne
      obtain ⟨hlow, hhigh⟩ :=
        digitCount_mul (Int.natAbs_ne_zero.2 hxne) (Int.natAbs_ne_zero.2 hyne)
      rw [leadingExponent] at *
      rw [digits]
      dsimp only
      rw [Int.natAbs_mul]
      rw [digits] at *
      omega

/-! ## Roundings -/

/-- Rounding off the last digits leaves the others, and perhaps a carry. -/
theorem digitCount_rounded {n m k : ℕ} (hk : k < digitCount n) (hlow : n / 10 ^ k ≤ m)
    (hhigh : m ≤ n / 10 ^ k + 1) :
    digitCount n ≤ digitCount m + k ∧ digitCount m + k ≤ digitCount n + 1 := by
  have hquotient := digitCount_div_pow hk
  have hfrom := digitCount_mono hlow
  have hto := (digitCount_mono hhigh).trans (digitCount_succ_le _)
  omega

/-- Digits that are rounded off move the leading digit by one place at most. -/
theorem Sized.rounded (h : Sized d low high x) (hx : x.mantissa ≠ 0) {count : ℕ}
    (hcount : count ≠ 0) (hmore : count < x.digits)
    (hy : y.scale = x.scale - (x.digits - count : ℕ))
    (hlow : x.mantissa.natAbs / 10 ^ (x.digits - count) ≤ y.mantissa.natAbs)
    (hhigh : y.mantissa.natAbs ≤ x.mantissa.natAbs / 10 ^ (x.digits - count) + 1) :
    Sized (count + 1) low (high + 1) y := by
  intro _
  obtain ⟨-, hfrom, hto⟩ := h hx
  have hsurplus : x.digits - count < digitCount x.mantissa.natAbs := by
    show x.digits - count < x.digits
    omega
  obtain ⟨hdigits, hdigits'⟩ := digitCount_rounded hsurplus hlow hhigh
  rw [leadingExponent] at hfrom hto ⊢
  change x.digits ≤ y.digits + _ at hdigits
  change y.digits + _ ≤ x.digits + 1 at hdigits'
  omega

theorem mantissa_ne_of_digits {count : ℕ} (hcount : count ≠ 0) (hmore : count < x.digits) :
    x.mantissa ≠ 0 := by
  intro hx
  have hone : x.digits = 1 := by
    rw [digits, hx]
    rfl
  omega

/-- A rounding to a number of digits cuts off the others, or goes one unit up. -/
theorem natAbs_withDigits {count : ℕ} (hmore : count < x.digits) :
    x.mantissa.natAbs / 10 ^ (x.digits - count) ≤ (x.withDigits count).mantissa.natAbs ∧
      (x.withDigits count).mantissa.natAbs ≤ x.mantissa.natAbs / 10 ^ (x.digits - count) + 1 := by
  have hkept : (x.mantissa.tdiv (10 ^ (x.digits - count))).natAbs =
      x.mantissa.natAbs / 10 ^ (x.digits - count) := by
    rw [Int.natAbs_tdiv, Int.natAbs_pow]
    rfl
  rw [Decimal.withDigits, if_pos hmore]
  dsimp only
  generalize hunit : (10 : ℤ) ^ (x.digits - count) = unit at hkept ⊢
  have hpos : 0 < unit := hunit ▸ pow_pos (by norm_num) _
  split
  · next hlost =>
    -- Only a positive number is rounded up.
    have hsign : 0 ≤ x.mantissa := by
      by_contra hneg
      have hrest := Int.tmod_nonneg unit (show 0 ≤ -x.mantissa by omega)
      rw [Int.neg_tmod] at hrest
      omega
    have hquotient := Int.tdiv_nonneg hsign hpos.le
    omega
  · omega

/-- A rounding to a number of digits may carry into one more. -/
theorem Sized.withDigits (h : Sized d low high x) {count : ℕ} (hcount : count ≠ 0) :
    Sized (count + 1) low (high + 1) (x.withDigits count) := by
  by_cases hmore : count < x.digits
  · obtain ⟨hlow, hhigh⟩ := natAbs_withDigits hmore
    refine h.rounded (mantissa_ne_of_digits hcount hmore) hcount hmore ?_ hlow hhigh
    rw [Decimal.withDigits, if_pos hmore]
  · rw [Decimal.withDigits, if_neg hmore]
    intro hne
    have hx : x.mantissa ≠ 0 := fun hx => hne (by rw [Decimal.extend, hx, zero_mul])
    obtain ⟨-, hfrom, hto⟩ := h hx
    rw [digits_extend hx, leadingExponent_extend hx]
    omega

theorem mantissa_withDigits_pos {count : ℕ} (hcount : count ≠ 0) (hx : 0 < x.mantissa) :
    0 < (x.withDigits count).mantissa := by
  by_cases hmore : count < x.digits
  · have hreach : (10 : ℤ) ^ (x.digits - count) ≤ x.mantissa := by
      have hlow : 10 ^ (x.digits - 1) ≤ x.mantissa.natAbs :=
        pow_le_of_digitCount (Int.natAbs_pos.2 hx.ne')
      have hpow : 10 ^ (x.digits - count) ≤ 10 ^ (x.digits - 1) :=
        Nat.pow_le_pow_right (by norm_num) (by omega)
      have hcast : ((10 ^ (x.digits - count) : ℕ) : ℤ) ≤ (x.mantissa.natAbs : ℤ) :=
        Int.ofNat_le.2 (hpow.trans hlow)
      rwa [Int.natAbs_of_nonneg hx.le, Nat.cast_pow] at hcast
    have hkept : 1 ≤ x.mantissa.tdiv (10 ^ (x.digits - count)) := by
      rw [Int.tdiv_eq_ediv_of_nonneg hx.le]
      exact Int.le_ediv_of_mul_le (pow_pos (by norm_num) _) (by rwa [one_mul])
    rw [Decimal.withDigits, if_pos hmore]
    dsimp only
    split <;> omega
  · rw [Decimal.withDigits, if_neg hmore]
    exact mul_pos hx (pow_pos (by norm_num) _)

theorem mantissa_withDigits_of_zero {count : ℕ} (hcount : count ≠ 0) (hx : x.mantissa = 0) :
    (x.withDigits count).mantissa = 0 := by
  rw [Decimal.withDigits, if_neg fun hmore => mantissa_ne_of_digits hcount hmore hx]
  dsimp only [Decimal.extend]
  rw [hx, zero_mul]

theorem mantissa_withDigits_nonneg {count : ℕ} (hcount : count ≠ 0) (hx : 0 ≤ x.mantissa) :
    0 ≤ (x.withDigits count).mantissa := by
  rcases hx.lt_or_eq with hpos | hzero
  · exact (mantissa_withDigits_pos hcount hpos).le
  · exact (mantissa_withDigits_of_zero hcount hzero.symm).ge

/-- The place to which a number in range is rounded is in range. -/
theorem Sized.place {count : ℕ} (h : Sized d low high x) (hcount : count ≠ 0)
    (hhigh : high ≤ 9223372036854775807) (hlow : count < d → count ≤ low + 9223372036854775808)
    (hmore : count < x.digits) : InRange (x.scale - (x.digits - count : ℕ)) := by
  obtain ⟨hdigits, hfrom, hto⟩ := h (mantissa_ne_of_digits hcount hmore)
  have hfew := hlow (hmore.trans_le hdigits)
  rw [leadingExponent] at hfrom hto
  constructor <;> omega

/-- From a scale of 64 bits the place moves up, at most to the leading digit. -/
theorem place_of_scale {count : ℕ} (hscale : InRange x.scale)
    (hhigh : x.leadingExponent ≤ 9223372036854775807) (_ : count < x.digits) :
    InRange (x.scale - (x.digits - count : ℕ)) := by
  obtain ⟨hlow, hhigh'⟩ := hscale
  rw [leadingExponent] at hhigh
  constructor <;> omega

theorem saturate_of_inRange {n : ℤ} (h : InRange n) : saturate n = n := by
  obtain ⟨hlow, hhigh⟩ := h
  rw [saturate]
  omega

/-- A rounding to the working precision may carry into one more digit, but never adds one. -/
theorem Sized.round {context : Context} (h : Sized d low high x)
    (hprecision : context.precision ≠ 0)
    (hplace : context.precision < x.digits →
      InRange (x.scale - (x.digits - context.precision : ℕ))) :
    Sized (min d (context.precision + 1)) low (high + 1) (context.round x).1 := by
  rw [Context.round]
  by_cases hfew : x.digits ≤ context.precision
  · rw [if_pos (by simp [hfew])]
    show Sized _ _ _ x
    intro hx
    obtain ⟨hdigits, hfrom, hto⟩ := h hx
    exact ⟨le_min hdigits (by omega), hfrom, by omega⟩
  · rw [if_neg (by simp [hprecision, hfew])]
    dsimp only
    have hmore := not_le.1 hfew
    have hx := mantissa_ne_of_digits hprecision hmore
    obtain ⟨hdigits, -, -⟩ := h hx
    have hkept : x.scale - (x.scale - ((x.digits - context.precision : ℕ) : ℤ)) =
        ((x.digits - context.precision : ℕ) : ℤ) := by omega
    have hlower : ¬ x.scale ≤ x.scale - ((x.digits - context.precision : ℕ) : ℤ) := by omega
    rw [saturate_of_inRange (hplace hmore)]
    refine Sized.mono (h.rounded hx hprecision hmore (scale_roundTo _ _ _) ?_ ?_)
      (le_min (by omega) le_rfl) le_rfl le_rfl
    all_goals
      rw [roundTo, isZero_of_ne hx, if_neg Bool.false_ne_true, if_neg hlower, hkept,
        Int.toNat_natCast]
      dsimp only
      rw [natAbs_withSign]
    · exact RoundingMode.le_quotient _ _ _ _
    · exact RoundingMode.quotient_le _ _ _ _

/-! ## Sums and differences -/

/-- The number is zero, or it has at most so many places and a leading digit that is not
too far in front. -/
def Reach (places high : ℤ) (x : Decimal) : Prop :=
  x.mantissa ≠ 0 → x.scale ≤ places ∧ x.leadingExponent ≤ high

theorem Sized.reach (h : Sized d low high x) : Reach (d - 1 - low) high x := by
  intro hx
  obtain ⟨-, hscale⟩ := h.scale hx
  exact ⟨by omega, (h hx).2.2⟩

variable {places : ℤ}

theorem Reach.mono {places' : ℤ} (h : Reach places high x) (hplaces : places ≤ places')
    (hhigh : high ≤ high') : Reach places' high' x :=
  fun hx => ⟨(h hx).1.trans hplaces, (h hx).2.trans hhigh⟩

/-- The leading digit cannot stand behind the last place. -/
theorem Reach.sized (h : Reach places high x) :
    Sized (high + 1 + places).toNat (-places) high x := by
  intro hx
  obtain ⟨hscale, hto⟩ := h hx
  have hpos := x.digits_pos
  rw [leadingExponent] at hto ⊢
  omega

/-- A sum or difference of aligned mantissas may carry into one more digit. -/
theorem Reach.aligned (hx : Reach places high x) (hy : Reach places high y)
    (hxne : x.mantissa ≠ 0) (hyne : y.mantissa ≠ 0) {m : ℤ}
    (hm : m.natAbs ≤ (x.mantissaAt (max x.scale y.scale)).natAbs +
      (y.mantissaAt (max x.scale y.scale)).natAbs) :
    Reach places (high + 1) ⟨m, max x.scale y.scale⟩ := by
  intro _
  obtain ⟨hxscale, hxhigh⟩ := hx hxne
  obtain ⟨hyscale, hyhigh⟩ := hy hyne
  have haligned : ∀ {z : Decimal}, z.mantissa ≠ 0 → z.scale ≤ max x.scale y.scale →
      z.leadingExponent ≤ high → (digitCount (z.mantissaAt (max x.scale y.scale)).natAbs : ℤ) ≤
        high + 1 + max x.scale y.scale := by
    intro z hz hscale hhigh
    rw [mantissaAt, Int.natAbs_mul, Int.natAbs_pow, show (10 : ℤ).natAbs = 10 from rfl,
      digitCount_mul_pow (Int.natAbs_ne_zero.2 hz)]
    rw [leadingExponent, digits] at hhigh
    push_cast
    omega
  have hxdigits := haligned hxne (le_max_left _ _) hxhigh
  have hydigits := haligned hyne (le_max_right _ _) hyhigh
  have hdigits := (digitCount_mono hm).trans (digitCount_add_le _ _)
  refine ⟨max_le hxscale hyscale, ?_⟩
  rw [leadingExponent, digits]
  dsimp only
  omega

theorem add_eq (x y : Decimal) : x + y =
    if y.isZero then x.extendTowards y.scale
    else if x.isZero then y.extendTowards x.scale
    else ⟨x.mantissaAt (max x.scale y.scale) + y.mantissaAt (max x.scale y.scale),
      max x.scale y.scale⟩ := rfl

theorem Reach.extendTowards (h : Reach places high x) (scale : ℤ) :
    Reach (places + zeroPadding) high (x.extendTowards scale) := by
  intro hne
  have hx : x.mantissa ≠ 0 := fun hx => hne (by
    rw [Decimal.extendTowards, Decimal.extend, hx, zero_mul])
  obtain ⟨hscale, hto⟩ := h hx
  rw [Decimal.extendTowards, leadingExponent_extend hx]
  refine ⟨?_, hto⟩
  rw [Decimal.extend]
  dsimp only
  omega

/-- A sum has the places of the longer summand, and fifteen more if one of them is zero. -/
theorem Reach.add (hx : Reach places high x) (hy : Reach places high y) :
    Reach (places + zeroPadding) (high + 1) (x + y) := by
  rw [add_eq]
  split
  · exact (hx.extendTowards _).mono le_rfl (by omega)
  · next hyne =>
    split
    · exact (hy.extendTowards _).mono le_rfl (by omega)
    · next hxne =>
      have hnonzero : ∀ {z : Decimal}, ¬ z.isZero = true → z.mantissa ≠ 0 :=
        fun hz h => hz (isZero_of_eq h)
      exact (hx.aligned hy (hnonzero hxne) (hnonzero hyne) (Int.natAbs_add_le _ _)).mono
        (by omega) le_rfl

theorem mantissa_add_pos (hx : 0 < x.mantissa) (hy : 0 < y.mantissa) : 0 < (x + y).mantissa := by
  rw [add_eq, isZero_of_ne hx.ne', isZero_of_ne hy.ne', if_neg Bool.false_ne_true,
    if_neg Bool.false_ne_true]
  have haligned : ∀ {z : Decimal} {scale : ℤ}, 0 < z.mantissa → 0 < z.mantissaAt scale :=
    fun hz => mul_pos hz (pow_pos (by norm_num) _)
  exact add_pos (haligned hx) (haligned hy)

theorem Reach.sub (hx : Reach places high x) (hy : Reach places high y) (hxne : x.mantissa ≠ 0)
    (hyne : y.mantissa ≠ 0) : Reach places (high + 1) (x - y) :=
  hx.aligned hy hxne hyne (Int.natAbs_sub_le _ _)

/-! ## Quotients -/

theorem zerosToReach_spec {n e : ℕ} (hn : n ≠ 0) :
    e ≤ n * 10 ^ zerosToReach n e ∧ zerosToReach n e ≤ digitCount e := by
  have hpos := digitCount_pos n
  have hpos' := digitCount_pos e
  rw [zerosToReach]
  by_cases h : e ≤ n * 10 ^ (digitCount e - digitCount n)
  · rw [if_pos h]
    exact ⟨h, Nat.sub_le _ _⟩
  · rw [if_neg h]
    refine ⟨?_, by omega⟩
    have hdigits := digitCount_mul_pow hn (digitCount e - digitCount n + 1)
    by_contra hlt
    have := digitCount_mono (not_le.1 hlt).le
    omega

/-- The digits of a quotient, and the places that were added for it. -/
theorem divideMagnitudes_spec {n e : ℕ} (hn : n ≠ 0) (he : e ≠ 0) :
    (divideMagnitudes n e).1 ≠ 0 ∧
      digitCount (divideMagnitudes n e).1 ≤ digitCount n + 102 ∧
      digitCount n + (divideMagnitudes n e).2 ≤
        digitCount (divideMagnitudes n e).1 + digitCount e ∧
      digitCount (divideMagnitudes n e).1 + digitCount e ≤
        digitCount n + (divideMagnitudes n e).2 + 2 := by
  obtain ⟨hreach, hlead⟩ := zerosToReach_spec (e := e) hn
  rw [divideMagnitudes]
  dsimp only
  generalize zerosToReach n e = lead at hreach hlead
  obtain ⟨hfirst, -⟩ := digitCount_div he hreach
  rw [digitCount_mul_pow hn] at hfirst
  generalize hmore : quotientDigits - digitCount (n * 10 ^ lead / e) = more
  have hhundred : quotientDigits = 100 := rfl
  have hlonger : n * 10 ^ lead ≤ n * 10 ^ (lead + more) :=
    Nat.mul_le_mul_left _ (Nat.pow_le_pow_right (by norm_num) (Nat.le_add_right _ _))
  have htotal := digitCount_div he (hreach.trans hlonger)
  rw [digitCount_mul_pow hn] at htotal
  have hquotient : n * 10 ^ (lead + more) / e ≠ 0 :=
    (Nat.div_pos (hreach.trans hlonger) (Nat.pos_of_ne_zero he)).ne'
  have hrest : ∀ q, n * 10 ^ (lead + more) / e ≤ q → q ≤ n * 10 ^ (lead + more) / e + 1 →
      q ≠ 0 ∧ digitCount q ≤ digitCount n + 102 ∧
      digitCount n + (lead + more) ≤ digitCount q + digitCount e ∧
      digitCount q + digitCount e ≤ digitCount n + (lead + more) + 2 := by
    intro q hfrom hto
    have hlow := digitCount_mono hfrom
    have hhigh := (digitCount_mono hto).trans (digitCount_succ_le _)
    exact ⟨fun hq => hquotient (Nat.le_zero.1 (hq ▸ hfrom)), by omega, by omega, by omega⟩
  split
  · -- The division comes out even: the zeros at the end go.
    obtain ⟨hne, hdigits, hlow, hhigh⟩ := hrest _ le_rfl (Nat.le_succ _)
    generalize n * 10 ^ (lead + more) / e = q at hne hdigits hlow hhigh hquotient
    have hsurplus : min more (trailingZeros q) ≤ trailingZeros q := min_le_right _ _
    have hmost : min more (trailingZeros q) ≤ more := min_le_left _ _
    generalize min more (trailingZeros q) = surplus at hsurplus hmost
    obtain ⟨k, rfl⟩ := (pow_dvd_pow 10 hsurplus).trans (pow_trailingZeros_dvd q)
    have hk : k ≠ 0 := fun hk => hne (by rw [hk, mul_zero])
    have hpos : 0 < 10 ^ surplus := pow_pos (by norm_num) _
    rw [mul_comm, digitCount_mul_pow hk] at hdigits hlow hhigh
    rw [Nat.mul_div_cancel_left _ hpos]
    dsimp only
    exact ⟨hk, by omega, by omega, by omega⟩
  · dsimp only
    split
    · exact hrest _ (Nat.le_succ _) le_rfl
    · exact hrest _ le_rfl (Nat.le_succ _)

theorem div_eq (x y : Decimal) : x / y =
    if x.isZero || y = one then x
    else if x.mantissa = y.mantissa then ⟨1, x.scale - y.scale⟩
    else ⟨withSign (x.isNegative != y.isNegative)
        (divideMagnitudes x.mantissa.natAbs y.mantissa.natAbs).1,
      x.scale - y.scale + (divideMagnitudes x.mantissa.natAbs y.mantissa.natAbs).2⟩ := rfl

theorem mantissa_div_ne (hx : x.mantissa ≠ 0) (hy : y.mantissa ≠ 0) : (x / y).mantissa ≠ 0 := by
  rw [div_eq]
  split
  · exact hx
  · split
    · exact one_ne_zero
    · rw [← Int.natAbs_ne_zero, natAbs_withSign]
      exact (divideMagnitudes_spec (Int.natAbs_ne_zero.2 hx) (Int.natAbs_ne_zero.2 hy)).1

/-- A quotient has its leading digit where the places of the operands say, or next to it. -/
theorem Sized.div (hx : Sized d low high x) (hy : Sized d' low' high' y)
    (hyne : y.mantissa ≠ 0) :
    Sized (d + 102) (low - high' - 1) (high - low' + 1) (x / y) := by
  obtain ⟨-, hylow, hyhigh⟩ := hy hyne
  rw [div_eq]
  by_cases hxzero : x.mantissa = 0
  · rw [if_pos (by simp [isZero_of_eq hxzero])]
    exact sized_of_zero hxzero
  · obtain ⟨hxdigits, hxlow, hxhigh⟩ := hx hxzero
    rw [isZero_of_ne hxzero, Bool.false_or]
    split
    · next hone =>
      have hlead : one.leadingExponent = 0 := by decide
      rw [decide_eq_true_eq] at hone
      rw [hone, hlead] at hylow hyhigh
      exact hx.mono (by omega) (by omega) (by omega)
    · intro _
      rw [leadingExponent] at hxlow hxhigh hylow hyhigh ⊢
      have hone : digits ⟨1, x.scale - y.scale⟩ = 1 := rfl
      split
      · next hsame =>
        have hdigits : x.digits = y.digits := by rw [digits, digits, hsame]
        rw [hone]
        dsimp only
        omega
      · obtain ⟨-, hdigits, hfrom, hto⟩ := divideMagnitudes_spec (Int.natAbs_ne_zero.2 hxzero)
          (Int.natAbs_ne_zero.2 hyne)
        generalize divideMagnitudes x.mantissa.natAbs y.mantissa.natAbs = result
          at hdigits hfrom hto
        obtain ⟨q, more⟩ := result
        have hquotient : digits ⟨withSign (x.isNegative != y.isNegative) q,
            x.scale - y.scale + more⟩ = digitCount q := by
          rw [digits, natAbs_withSign]
        rw [hquotient]
        change digitCount q ≤ x.digits + 102 at hdigits
        change x.digits + more ≤ digitCount q + y.digits at hfrom
        change digitCount q + y.digits ≤ x.digits + more + 2 at hto
        dsimp only
        omega

end Decimal
end DeskCalc
