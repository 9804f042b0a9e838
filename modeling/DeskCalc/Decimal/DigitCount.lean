/-
Counting decimal digits and trailing zeros by repeated halving of the exponent.

Both counts test the powers 10^(2^i) from large to small, so a number of d
digits needs about log d divisions.  `lt_pow_digitCount` and
`pow_le_of_digitCount` place a number between its two neighbouring powers of
ten.
-/
namespace DeskCalc

-- Powers are the ones of the core library, also where another instance is at hand.
attribute [local instance (high)] instPowNat

/-- How many of the digits of `n` stand above the lowest one, for `n` below
10^(2^i). -/
def digitsAbove : Nat → Nat → Nat
  | 0, _ => 0
  | i + 1, n =>
      if 10 ^ (2 ^ i : Nat) ≤ n then 2 ^ i + digitsAbove i (n / 10 ^ (2 ^ i : Nat))
      else digitsAbove i n

/-- Enough halvings to reach every digit and every trailing zero of `n`. -/
def halvings (n : Nat) : Nat := (n.log2 + 1).log2 + 1

/-- Zero has one digit. -/
def digitCount (n : Nat) : Nat := digitsAbove (halvings n) n + 1

/-- How often ten divides `n`, up to a bound of 2^i - 1. -/
def zerosBelow : Nat → Nat → Nat
  | 0, _ => 0
  | i + 1, n =>
      if n % 10 ^ (2 ^ i : Nat) = 0 then 2 ^ i + zerosBelow i (n / 10 ^ (2 ^ i : Nat))
      else zerosBelow i n

def trailingZeros (n : Nat) : Nat := zerosBelow (halvings n) n

theorem lt_pow_halvings (n : Nat) : n < 10 ^ (2 ^ halvings n : Nat) := by
  have h₁ : n < 2 ^ (n.log2 + 1) := Nat.lt_log2_self
  have h₂ : n.log2 + 1 < 2 ^ halvings n := Nat.lt_log2_self
  calc n < 2 ^ (n.log2 + 1) := h₁
    _ ≤ 2 ^ 2 ^ halvings n := Nat.pow_le_pow_right (by decide) (Nat.le_of_lt h₂)
    _ ≤ 10 ^ (2 ^ halvings n : Nat) := Nat.pow_le_pow_left (by decide) _

theorem lt_pow_digitsAbove {i n : Nat} (h : n < 10 ^ (2 ^ i : Nat)) :
    n < 10 ^ (digitsAbove i n + 1) := by
  induction i generalizing n with
  | zero => simpa [digitsAbove] using h
  | succ i ih =>
    rw [digitsAbove]
    split
    · have hp : 0 < 10 ^ (2 ^ i : Nat) := Nat.pow_pos (by decide)
      have hq : n / 10 ^ (2 ^ i : Nat) < 10 ^ (2 ^ i : Nat) := by
        rw [Nat.div_lt_iff_lt_mul hp, ← Nat.pow_add]
        rwa [Nat.pow_succ, Nat.mul_two] at h
      have := (Nat.div_lt_iff_lt_mul hp).1 (ih hq)
      rwa [← Nat.pow_add, Nat.add_comm, ← Nat.add_assoc] at this
    · exact ih (by omega)

theorem pow_digitsAbove_le {i n : Nat} (h : 0 < n) : 10 ^ digitsAbove i n ≤ n := by
  induction i generalizing n with
  | zero => exact h
  | succ i ih =>
    rw [digitsAbove]
    split
    · next hle =>
      have hp : 0 < 10 ^ (2 ^ i : Nat) := Nat.pow_pos (by decide)
      have hq : 0 < n / 10 ^ (2 ^ i : Nat) := Nat.div_pos hle hp
      rw [Nat.pow_add, Nat.mul_comm]
      exact (Nat.le_div_iff_mul_le hp).1 (ih hq)
    · exact ih h

theorem lt_pow_digitCount (n : Nat) : n < 10 ^ digitCount n :=
  lt_pow_digitsAbove (lt_pow_halvings n)

theorem pow_le_of_digitCount {n : Nat} (h : 0 < n) : 10 ^ (digitCount n - 1) ≤ n :=
  pow_digitsAbove_le h

theorem digitCount_pos (n : Nat) : 0 < digitCount n := Nat.succ_pos _

end DeskCalc
