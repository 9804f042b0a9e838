import DeskCalc.Decimal.Division

/-
Square roots of decimals, rounded half-even to a hundred digits.

`floorSqrt` is the integer root; `floorSqrt_sq_le` and `lt_floorSqrt_succ_sq`
pin it down.
-/
namespace DeskCalc

-- Powers are the ones of the core library, also where another instance is at hand.
attribute [local instance (high)] instPowNat

/-- The integer root of `n`, for `n` below 4^k. -/
def floorSqrtBelow : Nat → Nat → Nat
  | 0, _ => 0
  | k + 1, n =>
      let half := 2 * floorSqrtBelow k (n / 4)
      if (half + 1) * (half + 1) ≤ n then half + 1 else half

def floorSqrt (n : Nat) : Nat := floorSqrtBelow (n.log2 / 2 + 1) n

theorem floorSqrtBelow_spec {k n : Nat} (h : n < 4 ^ k) :
    floorSqrtBelow k n * floorSqrtBelow k n ≤ n ∧
      n < (floorSqrtBelow k n + 1) * (floorSqrtBelow k n + 1) := by
  induction k generalizing n with
  | zero =>
    have : n = 0 := by simpa using h
    simp [floorSqrtBelow, this]
  | succ k ih =>
    have hq : n / 4 < 4 ^ k := by rw [Nat.pow_succ] at h; omega
    obtain ⟨hl, hu⟩ := ih hq
    rw [floorSqrtBelow]
    generalize floorSqrtBelow k (n / 4) = r at hl hu
    have e₁ : 2 * r * (2 * r) = 4 * (r * r) := by
      rw [Nat.mul_mul_mul_comm]
    have e₂ : (2 * r + 1 + 1) * (2 * r + 1 + 1) = 4 * ((r + 1) * (r + 1)) := by
      rw [show 2 * r + 1 + 1 = 2 * (r + 1) by omega, Nat.mul_mul_mul_comm]
    split
    · next hle => exact ⟨hle, by omega⟩
    · next hle => exact ⟨by omega, by omega⟩

theorem lt_four_pow (n : Nat) : n < 4 ^ (n.log2 / 2 + 1) := by
  have h₁ : n < 2 ^ (n.log2 + 1) := Nat.lt_log2_self
  have h₂ : (4 : Nat) ^ (n.log2 / 2 + 1) = 2 ^ (2 * (n.log2 / 2 + 1)) := by
    rw [Nat.pow_mul]
  rw [h₂]
  exact Nat.lt_of_lt_of_le h₁ (Nat.pow_le_pow_right (by decide) (by omega))

theorem floorSqrt_sq_le (n : Nat) : floorSqrt n * floorSqrt n ≤ n :=
  (floorSqrtBelow_spec (lt_four_pow n)).1

theorem lt_floorSqrt_succ_sq (n : Nat) : n < (floorSqrt n + 1) * (floorSqrt n + 1) :=
  (floorSqrtBelow_spec (lt_four_pow n)).2

namespace Decimal

def rootDigits : Nat := 100

/-- The root of the fraction `n / d`, to the nearest integer, a tie going to the
even one. -/
def nearestRoot (n d : Nat) : Nat :=
  let r := floorSqrt (n / d)
  let half := (2 * r + 1) * (2 * r + 1) * d
  if half < 4 * n || (half == 4 * n && r % 2 == 1) then r + 1 else r

/-- The square root, `none` below zero.  Zero and one are their own roots. -/
def sqrt? (x : Decimal) : Option Decimal :=
  if x.isZero || x.same one then some x
  else if x.isNegative then none
  else
    let scale := (rootDigits : Int) - 1 - x.leadingExponent / 2
    let shift := 2 * scale - x.scale
    some ⟨nearestRoot (x.mantissa.natAbs * 10 ^ shift.toNat) (10 ^ (-shift).toNat), scale⟩

end Decimal
end DeskCalc
