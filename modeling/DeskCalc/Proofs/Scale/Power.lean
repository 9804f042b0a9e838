import DeskCalc.Proofs.Power.Exponent
import DeskCalc.Proofs.Scale.Series

/-
The scales in a power.

The squares of a power double the place of the leading digit each time, and thirty doublings
of a number in range stay far from the ends of 64 bits.  What is multiplied for an operator
is bounded like this for all operands in range (`keeps_evalM`).
-/
namespace DeskCalc

namespace Arithmetic

open Decimal Checked Demand

variable {A : Demand → Prop} {d : ℕ} {low high : ℤ} {x y : Decimal}

/-- What the products of a level hold goes on to the next one.  The levels are counted from
the base. -/
theorem keeps_squareAndMultiplyM {round : Decimal → Decimal × Bool} (P : ℕ → Decimal → Prop)
    {limit : ℕ} (hmono : ∀ {i j : ℕ} {x : Decimal}, i ≤ j → P i x → P j x)
    (hstep : ∀ {i : ℕ} {x y : Decimal}, i < limit → P i x → P i y →
      (times x y).Keeps A fun product => P (i + 1) (round product).1)
    (k : ℕ) {i n : ℕ} {result square : Decimal} {lost : Bool} (hlimit : i + k ≤ limit)
    (hresult : P i result) (hsquare : P i square) :
    (squareAndMultiplyM round k n result square lost).Keeps A fun power => P (i + k) power.1 := by
  induction k generalizing i n result square lost with
  | zero => exact keeps_pure hresult
  | succ k ih =>
    have hmultiplied : (multiplyIfOddM round n result square lost).Keeps A
        fun power => P (i + 1) power.1 := by
      rw [multiplyIfOddM]
      split
      · exact (hstep (by omega) hresult hsquare).bind fun product hproduct => keeps_pure hproduct
      · exact keeps_pure (hmono (Nat.le_succ i) hresult)
    rw [squareAndMultiplyM]
    refine hmultiplied.bind fun power hpower => ?_
    dsimp only
    split
    · exact keeps_pure (hmono (show i + 1 ≤ i + (k + 1) by omega) hpower)
    · refine (hstep (by omega) hsquare hsquare).bind fun product hproduct => ?_
      rw [show i + (k + 1) = i + 1 + k by omega]
      exact ih (by omega) hpower hproduct

/-- How many levels of squaring an exponent takes. -/
theorem levels_le {n limit : ℕ} (hn : n < 2 ^ limit) (hlimit : limit ≠ 0) :
    n.log2 + 1 ≤ limit := by
  rcases Nat.eq_zero_or_pos n with rfl | hpos
  · exact Nat.one_le_iff_ne_zero.2 hlimit
  · exact (Nat.log2_lt hpos.ne').2 hn

theorem keeps_powerWithM (round : Decimal → Decimal × Bool) (P : ℕ → Decimal → Prop)
    (limit : ℕ) (hmono : ∀ {i j : ℕ} {x : Decimal}, i ≤ j → P i x → P j x)
    (hstep : ∀ {i : ℕ} {x y : Decimal}, i < limit → P i x → P i y →
      (times x y).Keeps A fun product => P (i + 1) (round product).1)
    {n : ℕ} (hn : n < 2 ^ limit) (hlimit : limit ≠ 0) (hone : P 0 one) (hx : P 0 x) :
    (powerWithM round x n).Keeps A fun power => P limit power.1 := by
  have hlevels : 0 + (n.log2 + 1) ≤ limit := (Nat.zero_add _).trans_le (levels_le hn hlimit)
  exact (keeps_squareAndMultiplyM P hmono hstep (n.log2 + 1) hlevels hone hx).mono
    fun _ hpower => hmono hlevels hpower

/-- The place of the leading digit at a level of squaring. -/
def Level (digits : ℕ → ℕ) (span : ℤ) (i : ℕ) (x : Decimal) : Prop :=
  Sized (digits i) (-(2 ^ i * span)) (2 ^ i * span - 2) x

theorem level_mono {digits : ℕ → ℕ} (hdigits : Monotone digits) {span : ℤ} (hspan : 0 ≤ span)
    {i j : ℕ} (hij : i ≤ j) (h : Level digits span i x) : Level digits span j x := by
  have hpow : (2 : ℤ) ^ i * span ≤ 2 ^ j * span :=
    mul_le_mul_of_nonneg_right (pow_le_pow_right₀ (by norm_num) hij) hspan
  exact h.mono (hdigits hij) (by omega) (by omega)

/-- The products of one level are a level higher, before they are rounded. -/
theorem Level.mul {digits : ℕ → ℕ} {span : ℤ} {i : ℕ} (hx : Level digits span i x)
    (hy : Level digits span i y) :
    Sized (2 * digits i) (-(2 ^ (i + 1) * span)) (2 ^ (i + 1) * span - 3) (x * y) := by
  have hdouble : (2 : ℤ) ^ (i + 1) * span = 2 * (2 ^ i * span) := by
    rw [pow_succ, mul_comm _ 2, mul_assoc]
  exact (Sized.mul hx hy).mono (by omega) (by omega) (by omega)

theorem keeps_level {digits : ℕ → ℕ} {span : ℤ} {i limit : ℕ} (hdigits : Monotone digits)
    (hspan : 0 ≤ span) (hi : i < limit)
    (hlimit : 2 * digits limit + 2 ^ limit * span ≤ 9223372036854775808)
    (hx : Level digits span i x) (hy : Level digits span i y) :
    (times x y).Keeps Adds
      (Sized (2 * digits i) (-(2 ^ (i + 1) * span)) (2 ^ (i + 1) * span - 3)) := by
  have hdouble : (2 : ℤ) ^ (i + 1) * span = 2 * (2 ^ i * span) := by
    rw [pow_succ, mul_comm _ 2, mul_assoc]
  have hpow : (2 : ℤ) ^ (i + 1) * span ≤ 2 ^ limit * span :=
    mul_le_mul_of_nonneg_right (pow_le_pow_right₀ (by norm_num) hi) hspan
  have hmost := hdigits hi.le
  exact keeps_times (Sized.fits hx hy (by omega) (by omega)) (hx.mul hy)

/-! ## Exact powers -/

section Exact

variable {span : ℤ} {n : ℕ}

/-- Without a rounding the digits double from level to level. -/
def doubledDigits (d i : ℕ) : ℕ := 2 ^ i * d

theorem monotone_doubledDigits (d : ℕ) : Monotone (doubledDigits d) := fun _ _ hij =>
  Nat.mul_le_mul_right d (Nat.pow_le_pow_right (by norm_num) hij)

theorem doubledDigits_succ (d i : ℕ) : doubledDigits d (i + 1) = 2 * doubledDigits d i := by
  rw [doubledDigits, doubledDigits, pow_succ, mul_comm _ 2, mul_assoc]

theorem level_zero_of_sized (h : Sized d (-span) (span - 2) x) :
    Level (doubledDigits d) span 0 x := by
  rw [Level, doubledDigits, pow_zero, pow_zero, one_mul, one_mul]
  exact h

theorem level_zero_one (hd : d ≠ 0) (hspan : 2 ≤ span) : Level (doubledDigits d) span 0 one :=
  level_zero_of_sized ((show Sized 1 0 0 one from fun _ => by decide).mono (by omega) (by omega)
    (by omega))

/-- The seven levels of an exponent up to a hundred stay in range. -/
theorem keeps_exactLevel (hspan : 2 ≤ span)
    (hlimit : 256 * d + 128 * span ≤ 9223372036854775808) {i : ℕ} (hi : i < 7)
    (hx : Level (doubledDigits d) span i x) (hy : Level (doubledDigits d) span i y) :
    (times x y).Keeps Adds (Level (doubledDigits d) span (i + 1)) := by
  have hlast : 2 * doubledDigits d 7 + 2 ^ 7 * span ≤ 9223372036854775808 := by
    rw [doubledDigits]
    omega
  refine (keeps_level (monotone_doubledDigits d) (by omega) hi hlast hx hy).mono
    fun product hproduct => ?_
  exact hproduct.mono (doubledDigits_succ d i).ge le_rfl (by omega)

theorem keeps_exactPowerM (hn : n ≤ 100) (hd : d ≠ 0) (hspan : 2 ≤ span)
    (hlimit : 256 * d + 128 * span ≤ 9223372036854775808) (hx : Sized d (-span) (span - 2) x) :
    (exactPowerM x n).Keeps Adds (Sized (128 * d) (-(128 * span)) (128 * span)) := by
  refine (keeps_powerWithM (·, false) (Level (doubledDigits d) span) 7
    (level_mono (monotone_doubledDigits d) (by omega)) (keeps_exactLevel hspan hlimit) (by omega)
    (by norm_num) (level_zero_one hd hspan) (level_zero_of_sized hx)).bind
    fun power hpower => keeps_pure ?_
  exact hpower.mono (show 2 ^ 7 * d ≤ 128 * d by omega) (by omega) (by omega)

end Exact

/-! ## Operators -/

theorem keeps_quotientM : (quotientM x y).Keeps Adds (· = x / y) := by
  rw [quotientM]
  split
  · exact keeps_pure rfl
  · exact (keeps_held trivial trivial).bind fun _ (_ : True) =>
      (keeps_held trivial trivial).bind fun _ (_ : True) => keeps_pure rfl

theorem keeps_divideM {d' : ℕ} {low' high' : ℤ} (hx : Sized d low high x)
    (hy : Sized d' low' high' y) (hlarge : high - low' + high' + 1 ≤ 9223372036854775808)
    (hsmall : d + d' + high' + 102 ≤ low + low' + 9223372036854775808) (span : Span) :
    (divideM x y span).Keeps Adds fun _ => True := by
  rw [divideM]
  split
  · exact keeps_pure trivial
  · next hzero =>
    have hne : y.mantissa ≠ 0 := fun h => hzero (isZero_of_eq h)
    refine keeps_quotientM.bind fun quotient hquotient => ?_
    rw [hquotient]
    exact (keeps_product (hx.div hy hne) hy (by omega) (by omega)).bind
      fun product _ => keeps_pure trivial

variable (hd : 1000 ≤ d) (hlimit : d ≤ 1125899906842624)

include hd hlimit

theorem keeps_integerPowerM (hx : Sized d (-10000) 10000 x) {n : ℤ}
    (hn : n.natAbs ≤ Arithmetic.maxIntegerExponent) (span : Span) :
    (integerPowerM {} x n span).Keeps Adds fun _ => True := by
  have hmost : Arithmetic.maxIntegerExponent = 1000000000 := rfl
  have hsteady : Monotone fun _ : ℕ => d := monotone_const
  have hbase : Level (fun _ => d) 10002 0 x := hx.mono le_rfl (by omega) (by omega)
  have hone : Level (fun _ => d) 10002 0 one :=
    (show Sized 1 0 0 one from fun _ => by decide).mono (show 1 ≤ d by omega) (by omega) (by omega)
  have hprecision : (Context.widen {} Arithmetic.powerGuardDigits).precision = 40 := rfl
  have hstep : ∀ {i : ℕ} {y z : Decimal}, i < 30 → Level (fun _ => d) 10002 i y →
      Level (fun _ => d) 10002 i z → (times y z).Keeps Adds fun product =>
        Level (fun _ => d) 10002 (i + 1)
          ((Context.widen {} Arithmetic.powerGuardDigits).round product).1 := by
    intro i y z hi hy hz
    have hpow : (2 : ℤ) ^ (i + 1) ≤ 2 ^ 30 := pow_le_pow_right₀ (by norm_num) hi
    refine (keeps_level hsteady (by omega) hi (by omega) hy hz).mono fun product hproduct => ?_
    have hplace := hproduct.place (show 40 ≠ 0 by norm_num) (by omega) (fun _ => by omega)
    have hrounded := hproduct.round (by rw [hprecision]; norm_num) (hprecision ▸ hplace)
    rw [hprecision] at hrounded
    exact hrounded.mono ((min_le_right _ _).trans (show 40 + 1 ≤ d by omega)) le_rfl (by omega)
  rw [integerPowerM]
  split
  · exact keeps_pure trivial
  · refine (keeps_powerWithM _ (Level (fun _ => d) 10002) 30 (level_mono hsteady (by omega))
      hstep (by omega) (by omega) hone hbase).bind fun power hpower => ?_
    obtain ⟨value, lost⟩ := power
    have hvalue : Sized d (-10739565723648) 10739565723648 value :=
      hpower.mono le_rfl (by omega) (by omega)
    dsimp only
    split
    · split
      · exact keeps_pure trivial
      · split
        · exact keeps_pure trivial
        · have hone : Sized 1 0 0 one := fun _ => by decide
          exact (keeps_divideM hone hvalue (by omega) (by omega) span).bind
            fun _ _ => keeps_pure trivial
    · exact keeps_pure trivial

theorem keeps_exactRootM? {base exponent approximation : Decimal}
    (hbase : Sized d (-10000) 10000 base)
    (happroximation : Sized 100 (-68719476736) 68719476736 approximation) :
    (exactRootM? base exponent approximation 30).Keeps Adds fun _ => True := by
  rw [exactRootM?]
  cases hfraction : Arithmetic.smallFraction? exponent with
  | none => exact keeps_pure trivial
  | some fraction =>
    obtain ⟨p, q⟩ := fraction
    obtain ⟨-, -, hp, hq⟩ := Arithmetic.smallFraction?_eq_some_iff.1 hfraction
    have hcandidate : Sized 31 (-68719476739) (68719476739 - 2)
        (approximation.withDigits 30).normalize :=
      (happroximation.withDigits (show 30 ≠ 0 by norm_num)).normalize.mono le_rfl
        (by omega) (by omega)
    refine (keeps_exactPowerM hq (by omega) (by omega) (by omega) hcandidate).bind
      fun raised hraised => ?_
    refine (keeps_exactPowerM hp (by omega) (show 2 ≤ (10002 : ℤ) by omega) (by omega)
      (hbase.mono le_rfl (by omega) (by omega))).bind fun wanted hwanted => ?_
    split
    · exact (keeps_product hraised hwanted (by omega) (by omega)).bind
        fun product _ => keeps_pure trivial
    · exact keeps_pure trivial

theorem keeps_fractionalPowerM {base exponent : Decimal} (hbase : Sized d (-10000) 10000 base)
    (hexponent : Sized d (-10000) 10000 exponent) (span : Span) :
    (fractionalPowerM {} base exponent span).Keeps Adds fun _ => True := by
  rw [fractionalPowerM]
  split
  · exact keeps_pure trivial
  · split
    · exact keeps_pure trivial
    · refine (keeps_powfM? (show 30 + 640 ≤ d by omega) hlimit hbase hexponent).bind
        fun result hresult => ?_
      cases result with
      | none => exact keeps_pure trivial
      | some value =>
        have hvalue := (hresult value rfl).mono (show 30 + 54 ≤ 100 by norm_num) le_rfl le_rfl
        refine (keeps_exactRootM? hd hlimit hbase hvalue).bind fun root _ => ?_
        cases root <;> exact keeps_pure trivial

/-- Whatever is multiplied for an operator on two numbers in range, the scales of the factors
add up to a scale, unless a factor is zero. -/
theorem keeps_evalM (op : Arithmetic) (hx : Sized d (-10000) 10000 x)
    (hy : Sized d (-10000) 10000 y) (span : Span) :
    (op.evalM {} x y span).Keeps Adds fun _ => True := by
  cases op with
  | add | sub => exact keeps_pure trivial
  | mul =>
    exact (keeps_product hx hy (by omega) (by omega)).bind fun product _ => keeps_pure trivial
  | div => exact keeps_divideM hx hy (by omega) (by omega) span
  | pow =>
    show (powerM {} x y span).Keeps Adds fun _ => True
    rw [powerM]
    split
    · split
      · next hn => exact keeps_integerPowerM hd hlimit hx hn span
      · exact keeps_fractionalPowerM hd hlimit hx hy span
    · exact keeps_fractionalPowerM hd hlimit hx hy span

end Arithmetic
end DeskCalc
