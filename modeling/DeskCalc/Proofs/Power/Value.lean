import DeskCalc.Proofs.Decimal.Quotient
import DeskCalc.Proofs.Power.Squaring
import DeskCalc.Proofs.Scale.Power

/-
The number of a power.

The powers of a decimal are those of its number, multiplied and rounded in the same order
(`toRat_powerWith`, `toRat_exactPower`).  A rounding sees the number only if the place of the
last digit that it keeps is a scale.  That place is one if the power has no more digits than can
be written down, and also if the program has answered (`gives_powerWithM_fits`).
-/
namespace DeskCalc

namespace Arithmetic

open Decimal Checked Demand

variable {A : Demand → Prop} {context : Context} {x y : Decimal} {d : ℕ}

/-- The decimal has a property, and is a number with the same mark. -/
def Shows (P : Decimal → Prop) (power : Decimal × Bool) (number : ℚ × Bool) : Prop :=
  P power.1 ∧ (power.1.toRat, power.2) = number

theorem Shows.value {P : Decimal → Prop} {power : Decimal × Bool} {number : ℚ × Bool}
    (h : Shows P power number) : power.1.toRat = number.1 := congrArg Prod.fst h.2

theorem Shows.mark {P : Decimal → Prop} {power : Decimal × Bool} {number : ℚ × Bool}
    (h : Shows P power number) : power.2 = number.2 := congrArg Prod.snd h.2

/-- If each product of a level is the product of the numbers, all of them are. -/
theorem gives_squareAndMultiplyM {round : Decimal → Decimal × Bool} {round' : ℚ → ℚ × Bool}
    (P : ℕ → Decimal → Prop) {limit : ℕ}
    (hmono : ∀ {i j : ℕ} {x : Decimal}, i ≤ j → P i x → P j x)
    (hstep : ∀ {i : ℕ} {x y : Decimal}, i < limit → P i x → P i y →
      (times x y).Gives A fun product =>
        Shows (P (i + 1)) (round product) (round' (x.toRat * y.toRat)))
    (k : ℕ) {i n : ℕ} {result square : Decimal} (hlimit : i + k ≤ limit)
    (hresult : P i result) (hsquare : P i square) (lost : Bool) :
    (squareAndMultiplyM round k n result square lost).Gives A fun power =>
      Shows (P (i + k)) power (squareNumbers round' k n result.toRat square.toRat lost) := by
  induction k generalizing i n result square lost with
  | zero => exact gives_pure ⟨hresult, rfl⟩
  | succ k ih =>
    have hmultiplied : (multiplyIfOddM round n result square lost).Gives A fun power =>
        Shows (P (i + 1)) power (multiplyNumbers round' n result.toRat square.toRat lost) := by
      rw [multiplyIfOddM, multiplyNumbers]
      split
      · refine (hstep (by omega) hresult hsquare).bind fun product hproduct => gives_pure ?_
        exact ⟨hproduct.1, Prod.ext hproduct.value (congrArg (lost || ·) hproduct.mark)⟩
      · exact gives_pure ⟨hmono (Nat.le_succ i) hresult, rfl⟩
    rw [squareAndMultiplyM, squareNumbers_succ]
    refine hmultiplied.bind fun power hpower => ?_
    dsimp only
    split
    · exact gives_pure ⟨hmono (by omega) hpower.1, hpower.2⟩
    · refine (hstep (by omega) hsquare hsquare).bind fun product hproduct => ?_
      rw [show i + (k + 1) = i + 1 + k by omega, ← hpower.value, ← hpower.mark,
        ← hproduct.value, ← hproduct.mark]
      exact ih (by omega) hpower.1 hproduct.1 _

theorem gives_powerWithM {round : Decimal → Decimal × Bool} {round' : ℚ → ℚ × Bool}
    (P : ℕ → Decimal → Prop) {limit : ℕ}
    (hmono : ∀ {i j : ℕ} {x : Decimal}, i ≤ j → P i x → P j x)
    (hstep : ∀ {i : ℕ} {x y : Decimal}, i < limit → P i x → P i y →
      (times x y).Gives A fun product =>
        Shows (P (i + 1)) (round product) (round' (x.toRat * y.toRat)))
    {n : ℕ} (hlimit : n.log2 + 1 ≤ limit) (hone : P 0 one) (hx : P 0 x) :
    (powerWithM round x n).Gives A fun power =>
      Shows (P limit) power (numberPower round' x.toRat n) := by
  intro hdemands
  have hlevels : 0 + (n.log2 + 1) ≤ limit := (Nat.zero_add _).trans_le hlimit
  have hpower := gives_squareAndMultiplyM P hmono hstep (n.log2 + 1) (n := n) hlevels hone hx
    false hdemands
  rw [toRat_one] at hpower
  exact ⟨hmono hlevels hpower.1, hpower.2⟩

/-! ## Powers that are rounded -/

/-- The digits of a level are those of its power of two, or as many as the precision leaves. -/
def levelDigits (d precision i : ℕ) : ℕ := min (doubledDigits d i) (max d (precision + 1))

theorem monotone_levelDigits (d precision : ℕ) : Monotone (levelDigits d precision) :=
  fun _ _ hij => min_le_min_right _ (monotone_doubledDigits d hij)

theorem le_levelDigits_zero (d precision : ℕ) : d ≤ levelDigits d precision 0 := by
  rw [levelDigits, doubledDigits, pow_zero, one_mul]
  exact le_min le_rfl (le_max_left _ _)

/-- A product in which the place of the last digit that is kept is a scale. -/
theorem shows_round_level {span : ℤ} {i : ℕ} (hprecision : context.precision ≠ 0)
    (hx : Level (levelDigits d context.precision) span i x)
    (hy : Level (levelDigits d context.precision) span i y)
    (hplace : context.precision < (x * y).digits →
      InRange ((x * y).scale - ((x * y).digits - context.precision : ℕ))) :
    Shows (Level (levelDigits d context.precision) span (i + 1)) (context.round (x * y))
      (context.rounding.rounded context.precision (x.toRat * y.toRat)) := by
  refine ⟨((hx.mul hy).round hprecision hplace).mono ?_ le_rfl (by omega), ?_⟩
  · rw [levelDigits, levelDigits, doubledDigits_succ]
    omega
  · rw [← toRat_mul]
    exact Context.round_eq_rounded hprecision hplace

/-- The levels of squaring reach no further than twice the exponent. -/
theorem two_pow_levels_le (n : ℕ) : 2 ^ (n.log2 + 1) ≤ 2 * max n 1 := by
  rcases Nat.eq_zero_or_pos n with rfl | hpos
  · decide
  · have hlow := Nat.log2_self_le hpos.ne'
    rw [pow_succ]
    omega

section Rounded

variable {n : ℕ}

/-- The levels of an exponent that is squared, in a power of few digits or with few that are
kept. -/
theorem levels_of_room (hn : n ≤ maxIntegerExponent) (hwritable : d ≤ writableDigits)
    (hroom : context.precision ≤ 2 * writableDigits ∨ n * d ≤ writableDigits) :
    (2 : ℤ) ^ (n.log2 + 1) * 10002 ≤ 20004000000000 ∧
      levelDigits d context.precision (n.log2 + 1) ≤ 2 * writableDigits + 1 := by
  have hmost : maxIntegerExponent = 1000000000 := rfl
  have hlevels := two_pow_levels_le n
  constructor
  · have hcast : ((2 ^ (n.log2 + 1) : ℕ) : ℤ) ≤ ((2 * max n 1 : ℕ) : ℤ) := by exact_mod_cast hlevels
    push_cast at hcast
    omega
  · rw [levelDigits]
    rcases hroom with hfew | hshort
    · omega
    · refine (min_le_left _ _).trans ((Nat.mul_le_mul_right d hlevels).trans ?_)
      have hone : max n 1 * d ≤ writableDigits := by
        rcases le_total n 1 with hn | hn
        · rw [max_eq_right hn, one_mul]
          exact hwritable
        · rwa [max_eq_left hn]
      rw [mul_assoc]
      omega

variable (hx : Sized d (-10000) 10000 x) (hd : d ≠ 0) (hn : n ≤ maxIntegerExponent)

include hx hd

/-- The base and the one with which the squaring starts. -/
theorem level_zero (context : Context) : Level (levelDigits d context.precision) 10002 0 x ∧
    Level (levelDigits d context.precision) 10002 0 one := by
  have hfirst := le_levelDigits_zero d context.precision
  have hone : Sized 1 0 0 one := fun _ => by decide
  exact ⟨hx.mono hfirst (by norm_num) (by norm_num),
    hone.mono (by omega) (by norm_num) (by norm_num)⟩

include hn

/-- A power that the program answers is the power of the number. -/
theorem gives_powerWithM_fits (hprecision : context.precision ≠ 0) :
    (powerWithM context.round x n).Gives Fits fun power => (power.1.toRat, power.2) =
      numberPower (context.rounding.rounded context.precision) x.toRat n := by
  have hmost : maxIntegerExponent = 1000000000 := rfl
  have hplaced : ∀ {i : ℕ} {y z : Decimal}, i < 30 →
      Level (levelDigits d context.precision) 10002 i y →
      Level (levelDigits d context.precision) 10002 i z → (product y z).Fits →
      context.precision < (y * z).digits →
      InRange ((y * z).scale - ((y * z).digits - context.precision : ℕ)) := by
    intro i y z hi hy hz hfits hmore
    have hpow : (2 : ℤ) ^ (i + 1) ≤ 2 ^ 30 := pow_le_pow_right₀ (by norm_num) hi
    obtain ⟨-, -, hlead⟩ := hy.mul hz (mantissa_ne_of_digits hprecision hmore)
    exact place_of_scale hfits (by omega) hmore
  obtain ⟨hbase, hone⟩ := level_zero hx hd context
  intro hdemands
  exact (gives_powerWithM (A := Fits) (n := n)
    (Level (levelDigits d context.precision) 10002)
    (level_mono (monotone_levelDigits d context.precision) (by norm_num))
    (fun hi hy hz => gives_times fun hfits =>
      shows_round_level hprecision hy hz (hplaced hi hy hz hfits))
    (levels_le (by omega) (by norm_num)) hone hbase hdemands).2

variable (hwritable : d ≤ writableDigits)
  (hroom : context.precision ≤ 2 * writableDigits ∨ n * d ≤ writableDigits)

include hwritable hroom

omit hx hd in
/-- In such a power the last digits that are kept have a place among the scales. -/
theorem shows_round_of_room (hprecision : context.precision ≠ 0) {i : ℕ} (hi : i < n.log2 + 1)
    {y z : Decimal} (hy : Level (levelDigits d context.precision) 10002 i y)
    (hz : Level (levelDigits d context.precision) 10002 i z) :
    Shows (Level (levelDigits d context.precision) 10002 (i + 1)) (context.round (y * z))
      (context.rounding.rounded context.precision (y.toRat * z.toRat)) := by
  have hdigits : writableDigits = 1000000000000000 := rfl
  obtain ⟨hspan, hlast⟩ := levels_of_room hn hwritable hroom
  have hfew := monotone_levelDigits d context.precision hi.le
  have hpow : (2 : ℤ) ^ (i + 1) ≤ 2 ^ (n.log2 + 1) := pow_le_pow_right₀ (by norm_num) hi
  exact shows_round_level hprecision hy hz
    ((hy.mul hz).place hprecision (by omega) fun _ => by omega)

/-- A power of few digits, or with few that are kept, is the power of the number. -/
theorem toRat_powerWith (hprecision : context.precision ≠ 0) :
    ((powerWith context.round x n).1.toRat, (powerWith context.round x n).2) =
      numberPower (context.rounding.rounded context.precision) x.toRat n := by
  obtain ⟨hbase, hone⟩ := level_zero hx hd context
  exact (gives_powerWithM (A := fun _ => True) (n := n)
    (Level (levelDigits d context.precision) 10002)
    (level_mono (monotone_levelDigits d context.precision) (by norm_num))
    (fun hi hy hz => gives_times fun _ =>
      shows_round_of_room hn hwritable hroom hprecision hi hy hz)
    le_rfl hone hbase fun _ _ => trivial).2

/-- The program answers such a power of a number other than zero.  A rounding to at least two
digits does not make a zero of a product, so the scales of all factors add up. -/
theorem keeps_powerWithM_fits (hprecision : 2 ≤ context.precision) (hne : x.mantissa ≠ 0) :
    (powerWithM context.round x n).Keeps Fits fun power => power.1.mantissa ≠ 0 := by
  have hdigits : writableDigits = 1000000000000000 := rfl
  obtain ⟨hspan, hlast⟩ := levels_of_room hn hwritable hroom
  have hstep : ∀ {i : ℕ} {y z : Decimal}, i < n.log2 + 1 →
      Level (levelDigits d context.precision) 10002 i y ∧ y.mantissa ≠ 0 →
      Level (levelDigits d context.precision) 10002 i z ∧ z.mantissa ≠ 0 →
      (times y z).Keeps Fits fun product =>
        Level (levelDigits d context.precision) 10002 (i + 1) (context.round product).1 ∧
          (context.round product).1.mantissa ≠ 0 := by
    rintro i y z hi ⟨hy, hyne⟩ ⟨hz, hzne⟩
    have hfew := monotone_levelDigits d context.precision hi.le
    have hpow : (2 : ℤ) ^ i ≤ 2 ^ (n.log2 + 1) := pow_le_pow_right₀ (by norm_num) hi.le
    have hrounded := shows_round_of_room hn hwritable hroom (by omega) hi hy hz
    refine keeps_times (Sized.fits hy hz (by omega) (by omega) hyne hzne).2
      ⟨hrounded.1, fun hzero => ?_⟩
    have hproduct := mul_ne_zero (toRat_eq_zero.not.2 hyne) (toRat_eq_zero.not.2 hzne)
    exact context.rounding.toDigits_ne_zero hprecision hproduct
      (hrounded.value.symm.trans (toRat_eq_zero.2 hzero))
  obtain ⟨hbase, hone⟩ := level_zero hx hd context
  exact (keeps_powerWithM context.round
    (fun i x => Level (levelDigits d context.precision) 10002 i x ∧ x.mantissa ≠ 0) (n.log2 + 1)
    (fun hij h => ⟨level_mono (monotone_levelDigits d context.precision) (by norm_num) hij h.1, h.2⟩)
    hstep Nat.lt_log2_self (by omega) ⟨hone, by decide⟩ ⟨hbase, hne⟩).mono fun _ h => h.2

end Rounded

/-! ## Powers of zero -/

/-- The product of two zeros keeps their places. -/
theorem keeps_times_zeros (hx : x.mantissa = 0) (hy : y.mantissa = 0)
    (h : InRange (x.scale + y.scale)) :
    (times x y).Keeps Fits (· = ⟨0, x.scale + y.scale⟩) := by
  have hnotone : ∀ {z : Decimal}, z.mantissa = 0 → z ≠ one := by
    rintro z hz rfl
    cases hz
  have hproduct : x * y = ⟨0, x.scale + y.scale⟩ := by
    rw [mul_eq, if_neg (hnotone hx), if_neg (hnotone hy), hx, zero_mul]
  refine keeps_times ?_ hproduct
  show InRange (x * y).scale
  rwa [hproduct]

/-- With a one in front of it, a zero loses its places. -/
theorem keeps_one_times_zero (hy : y.mantissa = 0) : (times one y).Keeps Fits (· = zero) := by
  have hproduct : one * y = zero := by
    rw [mul_eq, if_pos rfl, Decimal.normalize, if_pos (isZero_of_eq hy)]
  refine keeps_times ?_ hproduct
  show InRange (one * y).scale
  rw [hproduct]
  decide

section Zero

variable {round : Decimal → Decimal × Bool}
  (hround : ∀ z : Decimal, z.mantissa = 0 → (round z).1 = z)

include hround

/-- What is multiplied in a level of a power of zero; `scale` is that of the next square. -/
theorem keeps_multiplyIfOddM_zero {n : ℕ} {scale : ℤ} {lost : Bool}
    (hx : x.mantissa = 0 ∨ x = one) (hy : y.mantissa = 0) (hscale : scale = y.scale + y.scale)
    (hscales : ∀ i : ℕ, i ≤ n → InRange (i * y.scale) ∧ InRange (x.scale + i * y.scale)) :
    (multiplyIfOddM round n x y lost).Keeps Fits fun power =>
      (power.1.mantissa = 0 ∨ power.1 = one) ∧
        ∀ i : ℕ, i ≤ n / 2 → InRange (i * scale) ∧ InRange (power.1.scale + i * scale) := by
  have hdouble : ∀ i : ℕ, (i : ℤ) * scale = ((2 * i : ℕ) : ℤ) * y.scale := by
    intro i
    rw [hscale]
    push_cast
    ring
  -- The multiples of the next square are the even ones of this square; the odd ones are those
  -- that the result has with it.
  simp only [hdouble]
  rw [multiplyIfOddM]
  split
  · next hodd =>
    rcases hx with hx | rfl
    · have hfirst : InRange (x.scale + y.scale) := by
        have hfirst := (hscales 1 (by omega)).2
        rwa [Nat.cast_one, one_mul] at hfirst
      refine (keeps_times_zeros hx hy hfirst).bind fun product hproduct => keeps_pure ?_
      rw [hproduct]
      dsimp only
      rw [hround _ rfl]
      refine ⟨.inl rfl, fun i hi => ⟨(hscales (2 * i) (by omega)).1, ?_⟩⟩
      have hsum : x.scale + y.scale + ((2 * i : ℕ) : ℤ) * y.scale =
          x.scale + ((2 * i + 1 : ℕ) : ℤ) * y.scale := by
        push_cast
        ring
      show InRange (x.scale + y.scale + ((2 * i : ℕ) : ℤ) * y.scale)
      rw [hsum]
      exact (hscales (2 * i + 1) (by omega)).2
    · refine (keeps_one_times_zero hy).bind fun product hproduct => keeps_pure ?_
      rw [hproduct]
      dsimp only
      rw [hround _ rfl]
      exact ⟨.inl rfl, fun i hi => hscales (2 * i) (by omega)⟩
  · exact keeps_pure ⟨hx, fun i hi => hscales (2 * i) (by omega)⟩

/-- The scales on the way to a power of zero are multiples of the first one. -/
theorem keeps_squareAndMultiplyM_zero (k : ℕ) {n : ℕ} {lost : Bool}
    (hx : x.mantissa = 0 ∨ x = one) (hy : y.mantissa = 0)
    (hscales : ∀ i : ℕ, i ≤ n → InRange (i * y.scale) ∧ InRange (x.scale + i * y.scale)) :
    (squareAndMultiplyM round k n x y lost).Keeps Fits fun _ => True := by
  induction k generalizing n x y lost with
  | zero => exact keeps_pure trivial
  | succ k ih =>
    rw [squareAndMultiplyM]
    refine (keeps_multiplyIfOddM_zero hround hx hy rfl hscales).bind fun power hpower => ?_
    dsimp only
    split
    · exact keeps_pure trivial
    · have hsquare : InRange (y.scale + y.scale) := by
        have hfirst := (hpower.2 1 (by omega)).1
        rwa [Nat.cast_one, one_mul] at hfirst
      refine (keeps_times_zeros hy hy hsquare).bind fun square hsquare => ?_
      rw [hsquare, hround _ rfl]
      exact ih hpower.1 rfl hpower.2

/-- The program answers a power of zero if its places have a scale. -/
theorem keeps_powerWithM_zero {n : ℕ} (hx : x.mantissa = 0) (hscale : InRange (n * x.scale)) :
    (powerWithM round x n).Keeps Fits fun _ => True := by
  have hbetween : ∀ i : ℕ, i ≤ n → InRange (i * x.scale) := by
    intro i hi
    have hcast : (i : ℤ) ≤ n := by exact_mod_cast hi
    obtain ⟨hlow, hhigh⟩ := hscale
    rcases le_total 0 x.scale with hpos | hneg
    · have hmost := mul_le_mul_of_nonneg_right hcast hpos
      have hleast := mul_nonneg (Int.natCast_nonneg i) hpos
      constructor <;> omega
    · have hmost := mul_le_mul_of_nonpos_right hcast hneg
      have hleast := mul_nonpos_of_nonneg_of_nonpos (Int.natCast_nonneg i) hneg
      constructor <;> omega
  refine keeps_squareAndMultiplyM_zero hround _ (.inr rfl) hx fun i hi => ⟨hbetween i hi, ?_⟩
  rw [show one.scale = 0 from rfl, zero_add]
  exact hbetween i hi

end Zero

/-! ## Powers that lose nothing -/

theorem squareAndMultiply_eq (round : Decimal → Decimal × Bool) (k n : ℕ)
    (result square : Decimal) (lost : Bool) :
    squareAndMultiply round k n result square lost =
      squareNumbers round k n result square lost := by
  induction k generalizing n result square lost with
  | zero => rfl
  | succ k ih =>
    rw [squareAndMultiply_succ, squareNumbers_succ, ← ih]
    rfl

/-- A power that has lost no digits is the power of the number. -/
theorem toRat_powerWith_of_kept {round : Decimal → Decimal × Bool} {n : ℕ}
    (hround : ∀ x, (round x).2 = false → (round x).1.toRat = x.toRat)
    (h : (powerWith round x n).2 = false) : (powerWith round x n).1.toRat = x.toRat ^ n := by
  have hsquared : powerWith round x n = squareNumbers round (n.log2 + 1) n one x false :=
    squareAndMultiply_eq ..
  rw [hsquared] at h ⊢
  rw [(squareNumbers_of_kept toRat_mul hround _ Nat.lt_log2_self h).2, toRat_one, one_mul]

theorem toRat_exactPower (x : Decimal) (n : ℕ) : (exactPower x n).toRat = x.toRat ^ n := by
  have hpower : Shows (fun _ => True) (powerWith (·, false) x n)
      (numberPower (·, false) x.toRat n) :=
    gives_powerWithM (A := fun _ => True) (fun _ _ => True) (fun _ _ => trivial)
      (fun _ _ _ => gives_times fun _ => ⟨trivial, congrArg (·, false) (toRat_mul _ _)⟩) le_rfl
      trivial trivial fun _ _ => trivial
  rw [exactPower_eq, hpower.value, numberPower_of_powers fun _ _ _ => rfl]

end Arithmetic
end DeskCalc
