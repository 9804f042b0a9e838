import DeskCalc.Arithmetic.Power
import DeskCalc.Proofs.Decimal.Significant
import Mathlib.Algebra.Order.Ring.Pow

/-
Repeated squaring of numbers.

The powers of a base are multiplied with a rounding after each product.  The steps are those of
`powerWith`, but the factors need not be decimals.  A power of a number is off by one factor of
the rounding for each unit of its exponent (`near_numberPower`): the square of a level carries
one rounding less than the power of two that it stands for.  If no product loses digits the
power is exact, and none does if all powers up to it are kept by the rounding.
-/
namespace DeskCalc
namespace Arithmetic

section Factors

variable {M : Type} [Mul M] {round : M → M × Bool} {n : ℕ} {result square : M} {lost : Bool}

/-- The result, multiplied by the square if the last binary digit of `n` is a one. -/
def multiplyNumbers (round : M → M × Bool) (n : ℕ) (result square : M) (lost : Bool) : M × Bool :=
  if n % 2 = 1 then ((round (result * square)).1, lost || (round (result * square)).2)
  else (result, lost)

/-- `squareAndMultiply` on factors that need not be decimals. -/
def squareNumbers (round : M → M × Bool) : ℕ → ℕ → M → M → Bool → M × Bool
  | 0, _, result, _, lost => (result, lost)
  | k + 1, n, result, square, lost =>
      let product := multiplyNumbers round n result square lost
      if n / 2 = 0 then product
      else
        squareNumbers round k (n / 2) product.1 (round (square * square)).1
          (product.2 || (round (square * square)).2)

theorem squareNumbers_succ (k : ℕ) : squareNumbers round (k + 1) n result square lost =
    if n / 2 = 0 then multiplyNumbers round n result square lost
    else
      squareNumbers round k (n / 2) (multiplyNumbers round n result square lost).1
        (round (square * square)).1
        ((multiplyNumbers round n result square lost).2 || (round (square * square)).2) := rfl

end Factors

/-- `powerWith` on numbers. -/
def numberPower (round : ℚ → ℚ × Bool) (base : ℚ) (n : ℕ) : ℚ × Bool :=
  squareNumbers round (n.log2 + 1) n 1 base false

variable {round : ℚ → ℚ × Bool} {k n : ℕ} {result square : ℚ} {lost : Bool}

theorem half_lt (h : n < 2 ^ (k + 1)) : n / 2 < 2 ^ k := by
  rw [pow_succ] at h
  omega

/-! ## How many roundings a power carries -/

/-- The number is another one up to so many factors that are off from 1 by `e` at most. -/
def Near (e : ℚ) (count : ℕ) (q r : ℚ) : Prop :=
  ∃ f, (1 - e) ^ count ≤ f ∧ f ≤ (1 + e) ^ count ∧ r = q * f

namespace Near

variable {e q q' r r' : ℚ} {i j : ℕ}

theorem refl (e q : ℚ) : Near e 0 q q := ⟨1, by simp, by simp, (mul_one q).symm⟩

theorem mul (he : 0 ≤ e) (he' : e ≤ 1) (h : Near e i q r) (h' : Near e j q' r') :
    Near e (i + j) (q * q') (r * r') := by
  obtain ⟨f, hlow, hhigh, rfl⟩ := h
  obtain ⟨f', hlow', hhigh', rfl⟩ := h'
  have hbase : 0 ≤ 1 - e := sub_nonneg.2 he'
  have hf : 0 ≤ f := (pow_nonneg hbase i).trans hlow
  have hf' : 0 ≤ f' := (pow_nonneg hbase j).trans hlow'
  refine ⟨f * f', ?_, ?_, mul_mul_mul_comm ..⟩
  · rw [pow_add]
    exact mul_le_mul hlow hlow' (pow_nonneg hbase j) hf
  · rw [pow_add]
    exact mul_le_mul hhigh hhigh' hf' (pow_nonneg (by linarith) i)

/-- A rounding is one factor more. -/
theorem rounded (he : 0 ≤ e) (he' : e ≤ 1) (h : Near e i q r) (hround : |r' - r| ≤ e * |r|) :
    Near e (i + 1) q r' := by
  have hone : Near e 1 r r' := by
    by_cases hr : r = 0
    · rw [hr, abs_zero, mul_zero, sub_zero, abs_nonpos_iff] at hround
      exact ⟨1, by simp [he], by simp [he], by rw [hr, hround, zero_mul]⟩
    · have hfactor : |r' / r - 1| ≤ e := by
        rw [div_sub_one hr, abs_div, div_le_iff₀ (abs_pos.2 hr)]
        exact hround
      obtain ⟨hlow, hhigh⟩ := abs_le.1 hfactor
      exact ⟨r' / r, by rw [pow_one]; linarith, by rw [pow_one]; linarith,
        (mul_div_cancel₀ r' hr).symm⟩
  obtain ⟨f, hlow, hhigh, rfl⟩ := hone
  have hstart : Near e 1 1 f := ⟨f, hlow, hhigh, (one_mul f).symm⟩
  have hboth := h.mul he he' hstart
  rwa [mul_one] at hboth

end Near

section Error

variable {e : ℚ}

/-- What is left to multiply brings one rounding for each unit of the exponent, if the square
counts for one of them more than it carries. -/
theorem near_squareNumbers (he : 0 ≤ e) (he' : e ≤ 1) (hround : ∀ q, |(round q).1 - q| ≤ e * |q|)
    (k : ℕ) {n : ℕ} (hn : n < 2 ^ k) {i j : ℕ} {q s result square : ℚ}
    (hresult : Near e i q result) (hsquare : Near e j s square) (lost : Bool) :
    Near e (i + n * (j + 1)) (q * s ^ n) (squareNumbers round k n result square lost).1 := by
  induction k generalizing n i j q s result square lost with
  | zero =>
    obtain rfl : n = 0 := by omega
    rw [zero_mul, pow_zero, mul_one]
    exact hresult
  | succ k ih =>
    have hproduct : Near e (i + n % 2 * (j + 1)) (q * s ^ (n % 2))
        (multiplyNumbers round n result square lost).1 := by
      rw [multiplyNumbers]
      rcases Nat.mod_two_eq_zero_or_one n with heven | hodd
      · rw [heven, if_neg zero_ne_one, zero_mul, pow_zero, mul_one]
        exact hresult
      · rw [hodd, if_pos rfl, one_mul, pow_one, ← add_assoc]
        exact (hresult.mul he he' hsquare).rounded he he' (hround _)
    have hsquared : Near e (2 * j + 1) (s * s) (round (square * square)).1 := by
      rw [two_mul]
      exact (hsquare.mul he he' hsquare).rounded he he' (hround _)
    have hbits : n = 2 * (n / 2) + n % 2 := by omega
    rw [squareNumbers_succ]
    by_cases hlast : n / 2 = 0
    · have hdigit : n % 2 = n := by omega
      rw [hdigit] at hproduct
      rw [if_pos hlast]
      exact hproduct
    · have hrest := ih (half_lt hn) hproduct hsquared
        ((multiplyNumbers round n result square lost).2 || (round (square * square)).2)
      rw [if_neg hlast]
      have hcount : i + n * (j + 1) = i + n % 2 * (j + 1) + n / 2 * (2 * j + 1 + 1) := by
        conv_lhs => rw [hbits]
        ring
      have hpower : q * s ^ n = q * s ^ (n % 2) * (s * s) ^ (n / 2) := by
        conv_lhs => rw [hbits]
        rw [pow_add, pow_mul, sq]
        ring
      rw [hcount, hpower]
      exact hrest

theorem near_numberPower (he : 0 ≤ e) (he' : e ≤ 1) (hround : ∀ q, |(round q).1 - q| ≤ e * |q|)
    (base : ℚ) (n : ℕ) : Near e n (base ^ n) (numberPower round base n).1 := by
  have h := near_squareNumbers he he' hround (n.log2 + 1) Nat.lt_log2_self
    (Near.refl e 1) (Near.refl e base) false
  rwa [zero_add, zero_add, mul_one, one_mul] at h

end Error

/-! ## Exact powers -/

section Exact

/-- If nothing is lost, the number of the power is the power of the number. -/
theorem squareNumbers_of_kept {M : Type} [Mul M] {round : M → M × Bool} {v : M → ℚ}
    (hmul : ∀ x y, v (x * y) = v x * v y)
    (hround : ∀ x, (round x).2 = false → v (round x).1 = v x) (k : ℕ)
    {n : ℕ} (hn : n < 2 ^ k) {result square : M} {lost : Bool}
    (h : (squareNumbers round k n result square lost).2 = false) :
    lost = false ∧
      v (squareNumbers round k n result square lost).1 = v result * v square ^ n := by
  induction k generalizing n result square lost with
  | zero =>
    obtain rfl : n = 0 := by omega
    rw [pow_zero, mul_one]
    exact ⟨h, rfl⟩
  | succ k ih =>
    have hproduct : (multiplyNumbers round n result square lost).2 = false →
        lost = false ∧
          v (multiplyNumbers round n result square lost).1 = v result * v square ^ (n % 2) := by
      rw [multiplyNumbers]
      rcases Nat.mod_two_eq_zero_or_one n with heven | hodd
      · rw [heven, if_neg zero_ne_one, pow_zero, mul_one]
        exact fun hlost => ⟨hlost, rfl⟩
      · rw [hodd, if_pos rfl, pow_one]
        intro hkept
        obtain ⟨hlost, hkept⟩ := Bool.or_eq_false_iff.1 hkept
        exact ⟨hlost, (hround _ hkept).trans (hmul _ _)⟩
    rw [squareNumbers_succ] at h ⊢
    by_cases hlast : n / 2 = 0
    · have hdigit : n % 2 = n := by omega
      rw [hdigit] at hproduct
      rw [if_pos hlast] at h ⊢
      exact hproduct h
    · rw [if_neg hlast] at h ⊢
      obtain ⟨hkept, hrest⟩ := ih (half_lt hn) h
      obtain ⟨hkept, hsquare⟩ := Bool.or_eq_false_iff.1 hkept
      obtain ⟨hlost, hresult⟩ := hproduct hkept
      have hbits : n = n % 2 + 2 * (n / 2) := by omega
      refine ⟨hlost, ?_⟩
      rw [hrest, hresult, hround _ hsquare, hmul]
      conv_rhs => rw [hbits]
      rw [pow_add, pow_mul, sq]
      ring

/-- The last product is the power, so the rounding keeps it if nothing is lost. -/
theorem kept_squareNumbers (hround : ∀ q, (round q).2 = false → (round q).1 = q) (k : ℕ)
    {n : ℕ} (hpos : n ≠ 0) (hn : n < 2 ^ k) {result square : ℚ} {lost : Bool}
    (h : (squareNumbers round k n result square lost).2 = false) :
    (round (squareNumbers round k n result square lost).1).2 = false := by
  induction k generalizing n result square lost with
  | zero => omega
  | succ k ih =>
    rw [squareNumbers_succ] at h ⊢
    by_cases hlast : n / 2 = 0
    · have hodd : n % 2 = 1 := by omega
      rw [if_pos hlast, multiplyNumbers, if_pos hodd] at h ⊢
      obtain ⟨-, hkept⟩ := Bool.or_eq_false_iff.1 h
      dsimp only
      rw [hround _ hkept]
      exact hkept
    · rw [if_neg hlast] at h ⊢
      exact ih hlast (half_lt hn) h

/-- Nothing is lost if the rounding keeps the powers up to the last one. -/
theorem squareNumbers_of_powers {base : ℚ} {most : ℕ}
    (hround : ∀ i, 1 ≤ i → i ≤ most → round (base ^ i) = (base ^ i, false)) (k : ℕ) {n : ℕ}
    (hn : n < 2 ^ k) {i j : ℕ} (hj : 1 ≤ j) (hmost : i + j * n ≤ most) (lost : Bool) :
    squareNumbers round k n (base ^ i) (base ^ j) lost = (base ^ (i + j * n), lost) := by
  induction k generalizing n i j lost with
  | zero =>
    obtain rfl : n = 0 := by omega
    rfl
  | succ k ih =>
    have hdigit : j * (n % 2) ≤ j * n := Nat.mul_le_mul_left j (Nat.mod_le n 2)
    have hproduct : multiplyNumbers round n (base ^ i) (base ^ j) lost =
        (base ^ (i + j * (n % 2)), lost) := by
      rw [multiplyNumbers]
      rcases Nat.mod_two_eq_zero_or_one n with heven | hodd
      · rw [heven, if_neg zero_ne_one, mul_zero, add_zero]
      · rw [hodd, mul_one] at hdigit
        rw [hodd, if_pos rfl, mul_one, ← pow_add, hround _ (by omega) (by omega), Bool.or_false]
    rw [squareNumbers_succ, hproduct]
    by_cases hlast : n / 2 = 0
    · have hbit : n % 2 = n := by omega
      rw [if_pos hlast, hbit]
    · have hhalf : j * 2 * (n / 2) + j * (n % 2) = j * n := by
        rw [mul_assoc, ← mul_add, Nat.div_add_mod]
      have hsquare : j * 2 ≤ j * 2 * (n / 2) :=
        Nat.le_mul_of_pos_right _ (Nat.pos_of_ne_zero hlast)
      rw [if_neg hlast, ← pow_add, ← mul_two, hround _ (by omega) (by omega), Bool.or_false,
        ih (half_lt hn) (by omega) (by omega)]
      congr 2
      omega

theorem numberPower_of_powers {base : ℚ}
    (hround : ∀ i, 1 ≤ i → i ≤ n → round (base ^ i) = (base ^ i, false)) :
    numberPower round base n = (base ^ n, false) := by
  have hpowers := squareNumbers_of_powers hround (n.log2 + 1) Nat.lt_log2_self
    (i := 0) (j := 1) le_rfl (by omega) false
  rwa [pow_zero, pow_one, zero_add, one_mul] at hpowers

theorem numberPower_of_kept (hround : ∀ q, (round q).2 = false → (round q).1 = q) {base : ℚ}
    (h : (numberPower round base n).2 = false) : (numberPower round base n).1 = base ^ n := by
  have hpower := (squareNumbers_of_kept (v := id) (fun _ _ => rfl) hround _ Nat.lt_log2_self h).2
  simpa only [id, one_mul, numberPower] using hpower

/-- A power loses nothing if its own digits and those of the lower powers are kept, and only
then. -/
theorem numberPower_kept_iff (hround : ∀ q, (round q).2 = false ↔ (round q).1 = q) {base : ℚ}
    (hpos : n ≠ 0)
    (hlower : (round (base ^ n)).1 = base ^ n →
      ∀ i, 1 ≤ i → i ≤ n → (round (base ^ i)).1 = base ^ i) :
    (numberPower round base n).2 = false ↔ (round (base ^ n)).1 = base ^ n := by
  have hkept := fun q => (hround q).1
  constructor
  · intro h
    have hpower := numberPower_of_kept hkept h
    rw [numberPower] at h hpower
    have hlast := kept_squareNumbers hkept _ hpos Nat.lt_log2_self h
    rw [hpower] at hlast
    exact hkept _ hlast
  · intro h
    have hround' : ∀ i, 1 ≤ i → i ≤ n → round (base ^ i) = (base ^ i, false) := by
      intro i hi hin
      have hsame := hlower h i hi hin
      exact Prod.ext hsame ((hround _).2 hsame)
    rw [numberPower_of_powers hround']

end Exact

/-! ## Powers of the opposite number -/

section Opposite

variable (hround : ∀ q, round (-q) = (-(round q).1, (round q).2))

include hround

theorem multiplyNumbers_neg_result :
    multiplyNumbers round n (-result) square lost =
      (-(multiplyNumbers round n result square lost).1,
        (multiplyNumbers round n result square lost).2) := by
  rw [multiplyNumbers, multiplyNumbers]
  split
  · rw [neg_mul, hround]
  · rfl

theorem squareNumbers_neg_result (k : ℕ) {n : ℕ} {result square : ℚ} {lost : Bool} :
    squareNumbers round k n (-result) square lost =
      (-(squareNumbers round k n result square lost).1,
        (squareNumbers round k n result square lost).2) := by
  induction k generalizing n result square lost with
  | zero => rfl
  | succ k ih =>
    rw [squareNumbers_succ, squareNumbers_succ, multiplyNumbers_neg_result hround]
    split
    · rfl
    · exact ih

/-- Only the first product sees the sign of the base; all squares are the same. -/
theorem numberPower_neg (base : ℚ) (n : ℕ) : numberPower round (-base) n =
    ((-1) ^ n * (numberPower round base n).1, (numberPower round base n).2) := by
  rw [numberPower, numberPower, squareNumbers_succ, squareNumbers_succ, neg_mul_neg]
  rcases Nat.mod_two_eq_zero_or_one n with heven | hodd
  · have hsign : (-1 : ℚ) ^ n = 1 := Even.neg_one_pow (Nat.even_iff.2 heven)
    simp only [multiplyNumbers, heven, if_neg (zero_ne_one : (0 : ℕ) ≠ 1), hsign, one_mul]
  · have hsign : (-1 : ℚ) ^ n = -1 := Odd.neg_one_pow (Nat.odd_iff.2 hodd)
    simp only [multiplyNumbers, hodd, if_true, one_mul, hround, hsign, neg_one_mul]
    split
    · rfl
    · exact squareNumbers_neg_result hround _

end Opposite

end Arithmetic
end DeskCalc
