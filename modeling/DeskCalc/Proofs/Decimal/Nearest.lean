import DeskCalc.Decimal.Rounding
import DeskCalc.Proofs.Decimal.Size
import Mathlib.Algebra.Order.Floor.Ring
import Mathlib.Data.Int.Log
import Mathlib.Data.Rat.Floor
import Mathlib.Tactic.Linarith
import Mathlib.Tactic.Ring

/-
Rounding as a function of numbers.

`nearby` is one of the two integers next to a number, for each of the seven modes, and
`toDigits` is the number in as many significant digits.  Both look at nothing but the order
of the number among the halves of the integers (`nearby_congr`), so numbers that lie between
the same halves are rounded alike in every mode.  `round_eq` says that a context rounds the
number of a decimal, whatever its representation.
-/
namespace DeskCalc

namespace RoundingMode

/-- The integer beside a number that the mode asks for.  Down is towards zero, up is away from
it; the others differ on halves only. -/
def nearby (mode : RoundingMode) (q : ℚ) : ℤ :=
  match mode with
  | floor => ⌊q⌋
  | ceiling => ⌈q⌉
  | down => if q < 0 then ⌈q⌉ else ⌊q⌋
  | up => if q < 0 then ⌊q⌋ else ⌈q⌉
  | halfUp => if q < 0 then ⌈q - 1 / 2⌉ else ⌊q + 1 / 2⌋
  | halfDown => if q < 0 then ⌊q + 1 / 2⌋ else ⌈q - 1 / 2⌉
  | halfEven =>
      if q < ⌊q⌋ + 1 / 2 then ⌊q⌋
      else if ⌊q⌋ + 1 / 2 < q then ⌊q⌋ + 1 else ⌊q⌋ + ⌊q⌋ % 2

variable {mode : RoundingMode} {q r b : ℚ}

theorem nearby_intCast (mode : RoundingMode) (k : ℤ) : mode.nearby k = k := by
  have hfloor : ⌊(k : ℚ) + 1 / 2⌋ = k := by
    rw [Int.floor_eq_iff]
    constructor <;> linarith
  have hceil : ⌈(k : ℚ) - 1 / 2⌉ = k := by
    rw [Int.ceil_eq_iff]
    constructor <;> linarith
  cases mode with
  | halfUp => simp only [nearby, hfloor, hceil, ite_self]
  | halfDown => simp only [nearby, hfloor, hceil, ite_self]
  | _ => simp [nearby]

/-! ## Halves -/

/-- The numbers lie alike among the halves of the integers. -/
def SameHalves (q r : ℚ) : Prop := ∀ b : ℚ, (∃ k : ℤ, 2 * b = k) → cmp q b = cmp r b

theorem SameHalves.lt_iff (h : SameHalves q r) (hb : ∃ k : ℤ, 2 * b = k) : q < b ↔ r < b :=
  lt_iff_lt_of_cmp_eq_cmp (h b hb)

theorem SameHalves.le_iff (h : SameHalves q r) (hb : ∃ k : ℤ, 2 * b = k) : q ≤ b ↔ r ≤ b :=
  le_iff_le_of_cmp_eq_cmp (h b hb)

theorem SameHalves.gt_iff (h : SameHalves q r) (hb : ∃ k : ℤ, 2 * b = k) : b < q ↔ b < r := by
  rw [← not_le, h.le_iff hb, not_le]

/-- Numbers that are closer to each other than the one is to any half lie alike. -/
theorem sameHalves_of_close {distance : ℚ} (hclose : |r - q| < distance)
    (hapart : ∀ b : ℚ, (∃ k : ℤ, 2 * b = k) → distance ≤ |q - b|) : SameHalves r q := by
  intro b hb
  have hfar := hapart b hb
  rcases lt_or_ge q b with hlt | hge
  · rw [abs_of_neg (sub_neg.2 hlt)] at hfar
    have hr : r < b := by linarith [le_abs_self (r - q)]
    rw [(cmp_eq_lt_iff r b).2 hr, (cmp_eq_lt_iff q b).2 hlt]
  · rw [abs_of_nonneg (sub_nonneg.2 hge)] at hfar
    have hr : b < r := by linarith [neg_abs_le (r - q)]
    have hq : b < q := by linarith [abs_nonneg (r - q)]
    rw [(cmp_eq_gt_iff r b).2 hr, (cmp_eq_gt_iff q b).2 hq]

theorem half_of_int (k : ℤ) : ∃ j : ℤ, 2 * (k : ℚ) = j := ⟨2 * k, by push_cast; ring⟩

theorem half_above (k : ℤ) : ∃ j : ℤ, 2 * ((k : ℚ) + 1 / 2) = j := ⟨2 * k + 1, by push_cast; ring⟩

theorem half_below (k : ℤ) : ∃ j : ℤ, 2 * ((k : ℚ) - 1 / 2) = j := ⟨2 * k - 1, by push_cast; ring⟩

theorem SameHalves.abs_lt_iff (h : SameHalves q r) (k : ℤ) : |q| < k ↔ |r| < k := by
  have hneg := half_of_int (-k)
  rw [Int.cast_neg] at hneg
  rw [abs_lt, abs_lt, h.gt_iff hneg, h.lt_iff (half_of_int k)]

theorem floor_congr (h : SameHalves q r) : ⌊q⌋ = ⌊r⌋ ∧ ⌊q + 1 / 2⌋ = ⌊r + 1 / 2⌋ := by
  constructor
  · refine eq_of_forall_gt_iff fun k => ?_
    rw [Int.floor_lt, Int.floor_lt, h.lt_iff (half_of_int k)]
  · refine eq_of_forall_gt_iff fun k => ?_
    rw [Int.floor_lt, Int.floor_lt, ← lt_sub_iff_add_lt, ← lt_sub_iff_add_lt,
      h.lt_iff (half_below k)]

theorem ceil_congr (h : SameHalves q r) : ⌈q⌉ = ⌈r⌉ ∧ ⌈q - 1 / 2⌉ = ⌈r - 1 / 2⌉ := by
  constructor
  · refine eq_of_forall_ge_iff fun k => ?_
    rw [Int.ceil_le, Int.ceil_le, h.le_iff (half_of_int k)]
  · refine eq_of_forall_ge_iff fun k => ?_
    rw [Int.ceil_le, Int.ceil_le, sub_le_iff_le_add, sub_le_iff_le_add, h.le_iff (half_above k)]

/-- Every mode compares with halves only. -/
theorem nearby_congr (h : SameHalves q r) (mode : RoundingMode) :
    mode.nearby q = mode.nearby r := by
  obtain ⟨hfloor, hfloor'⟩ := floor_congr h
  obtain ⟨hceil, hceil'⟩ := ceil_congr h
  have hneg : q < 0 ↔ r < 0 := h.lt_iff ⟨0, by simp⟩
  have hbelow := h.lt_iff (half_above ⌊r⌋)
  have habove := h.gt_iff (half_above ⌊r⌋)
  cases mode <;> simp only [nearby, hfloor, hfloor', hceil, hceil', hneg, hbelow, habove]

/-! ## Magnitudes and signs -/

/-- The mode that does to a number what this one does to its opposite. -/
def mirror : RoundingMode → RoundingMode
  | ceiling => floor
  | floor => ceiling
  | mode => mode

theorem quotient_mirror (mode : RoundingMode) (n unit : ℕ) :
    mode.quotient true n unit = mode.mirror.quotient false n unit := by
  cases mode <;> rfl

theorem nearby_neg (mode : RoundingMode) (q : ℚ) : mode.nearby (-q) = -mode.mirror.nearby q := by
  by_cases hinteger : q = ⌊q⌋
  · rw [hinteger, ← Int.cast_neg, nearby_intCast, nearby_intCast]
  · have hlow : (⌊q⌋ : ℚ) < q := lt_of_le_of_ne (Int.floor_le q) (Ne.symm hinteger)
    have hhigh := Int.lt_floor_add_one q
    have hfloor : ⌊-q⌋ = -(⌊q⌋ + 1) := by
      rw [Int.floor_eq_iff]
      push_cast
      constructor <;> linarith
    have hup : -q + 1 / 2 = -(q - 1 / 2) := by ring
    have hdown : -q - 1 / 2 = -(q + 1 / 2) := by ring
    have hsign : -q < 0 ↔ ¬ q < 0 := by
      have hne : q ≠ 0 := by
        rintro rfl
        simp at hinteger
      rw [neg_lt_zero, not_lt]
      exact ⟨le_of_lt, fun hle => lt_of_le_of_ne hle (Ne.symm hne)⟩
    cases mode with
    | halfEven =>
      simp only [nearby, mirror, hfloor]
      push_cast
      split_ifs <;> first | omega | (exfalso; linarith)
    | floor => exact Int.floor_neg
    | ceiling => exact Int.ceil_neg
    | _ =>
      simp only [nearby, mirror, hup, hdown, Int.floor_neg, Int.ceil_neg, hsign]
      split_ifs <;> rfl

section Fraction

variable {k : ℤ} {f : ℚ}

theorem floor_add_fraction (h0 : 0 ≤ f) (h1 : f < 1) :
    ⌊(k : ℚ) + f⌋ = k ∧ ⌊(k : ℚ) + f + 1 / 2⌋ = if f < 1 / 2 then k else k + 1 := by
  constructor
  · rw [Int.floor_eq_iff]
    constructor <;> linarith
  · by_cases h : f < 1 / 2
    · rw [if_pos h, Int.floor_eq_iff]
      constructor <;> linarith
    · rw [if_neg h, Int.floor_eq_iff]
      push_cast
      constructor <;> linarith

theorem ceil_add_fraction (h0 : 0 ≤ f) (h1 : f < 1) :
    ⌈(k : ℚ) + f⌉ = (if f = 0 then k else k + 1) ∧
      ⌈(k : ℚ) + f - 1 / 2⌉ = if f ≤ 1 / 2 then k else k + 1 := by
  constructor
  · by_cases h : f = 0
    · rw [if_pos h, h, add_zero, Int.ceil_intCast]
    · have hpos : 0 < f := lt_of_le_of_ne h0 (Ne.symm h)
      rw [if_neg h, Int.ceil_eq_iff]
      push_cast
      constructor <;> linarith
  · by_cases h : f ≤ 1 / 2
    · rw [if_pos h, Int.ceil_eq_iff]
      constructor <;> linarith
    · rw [if_neg h, Int.ceil_eq_iff]
      push_cast
      constructor <;> linarith

/-- A division leaves a fraction of the divisor. -/
theorem cast_div_eq (n : ℕ) {unit : ℕ} (hunit : 0 < unit) :
    (n : ℚ) / unit = ((n / unit : ℕ) : ℚ) + ((n % unit : ℕ) : ℚ) / unit ∧
      0 ≤ ((n % unit : ℕ) : ℚ) / unit ∧ ((n % unit : ℕ) : ℚ) / unit < 1 := by
  have hpos : (0 : ℚ) < unit := by exact_mod_cast hunit
  refine ⟨?_, div_nonneg (Nat.cast_nonneg _) hpos.le, ?_⟩
  · rw [div_eq_iff hpos.ne', add_mul, div_mul_cancel₀ _ hpos.ne', mul_comm]
    exact_mod_cast (Nat.div_add_mod n unit).symm
  · rw [div_lt_one hpos]
    exact_mod_cast Nat.mod_lt n hunit

theorem rest_compare (lost : ℕ) {unit : ℕ} (hunit : 0 < unit) :
    ((lost : ℚ) / unit = 0 ↔ lost = 0) ∧ ((lost : ℚ) / unit < 1 / 2 ↔ 2 * lost < unit) ∧
      ((lost : ℚ) / unit ≤ 1 / 2 ↔ 2 * lost ≤ unit) := by
  have hpos : (0 : ℚ) < unit := by exact_mod_cast hunit
  refine ⟨?_, ?_, ?_⟩
  · rw [div_eq_zero_iff, or_iff_left hpos.ne', Nat.cast_eq_zero]
  · rw [div_lt_div_iff₀ hpos two_pos, one_mul, mul_comm]
    exact_mod_cast Iff.rfl
  · rw [div_le_div_iff₀ hpos two_pos, one_mul, mul_comm]
    exact_mod_cast Iff.rfl

end Fraction

/-- A magnitude in whole units is the integer beside it that the mode asks for. -/
theorem quotient_eq_nearby (mode : RoundingMode) (n : ℕ) {unit : ℕ} (hunit : 0 < unit) :
    (mode.quotient false n unit : ℤ) = mode.nearby (n / unit) := by
  obtain ⟨hsplit, hnonneg, hone⟩ := cast_div_eq n hunit
  rw [quotient, hsplit, ← Int.cast_natCast (n / unit)]
  generalize n / unit = k
  generalize n % unit = lost at hnonneg hone ⊢
  obtain ⟨hzero, hbelow, hupto⟩ := rest_compare lost hunit
  obtain ⟨hfloor, hfloor'⟩ := floor_add_fraction (k := (k : ℤ)) hnonneg hone
  obtain ⟨hceil, hceil'⟩ := ceil_add_fraction (k := (k : ℤ)) hnonneg hone
  have hsign : ¬ ((k : ℤ) : ℚ) + (lost : ℚ) / unit < 0 :=
    not_lt.2 (add_nonneg (by exact_mod_cast Nat.zero_le k) hnonneg)
  cases mode with
  | halfEven =>
    have hunder : ((k : ℤ) : ℚ) + (lost : ℚ) / unit < ((k : ℤ) : ℚ) + 1 / 2 ↔ 2 * lost < unit := by
      rw [add_lt_add_iff_left, hbelow]
    have hover : ((k : ℤ) : ℚ) + 1 / 2 < ((k : ℤ) : ℚ) + (lost : ℚ) / unit ↔ unit < 2 * lost := by
      rw [add_lt_add_iff_left, ← not_le, hupto, not_le]
    simp only [nearby, away, hfloor, hunder, hover, Bool.if_false_left, Bool.and_eq_true,
      Bool.not_eq_true', decide_eq_false_iff_not, Bool.or_eq_true, decide_eq_true_eq, beq_iff_eq]
    split_ifs <;> omega
  | down | floor =>
    simp only [nearby, away, hfloor, if_neg hsign, Bool.false_eq_true, if_false, ite_self]
  | _ =>
    simp only [nearby, away, hfloor', hceil, hceil', if_neg hsign, hzero, hbelow, hupto,
      Bool.if_false_left, Bool.and_eq_true, Bool.not_eq_true', decide_eq_false_iff_not,
      decide_eq_true_eq, Bool.not_false, Bool.and_true]
    split_ifs <;> omega

theorem withSign_quotient (mode : RoundingMode) (m : ℤ) {unit : ℕ} (hunit : 0 < unit) :
    Decimal.withSign (decide (m < 0)) (mode.quotient (decide (m < 0)) m.natAbs unit) =
      mode.nearby (m / unit) := by
  by_cases hneg : m < 0
  · have hm : (m : ℚ) = -(m.natAbs : ℚ) := by
      rw [Nat.cast_natAbs, abs_of_neg hneg, Int.cast_neg, neg_neg]
    rw [decide_eq_true hneg, quotient_mirror, hm, neg_div, nearby_neg,
      ← quotient_eq_nearby mode.mirror m.natAbs hunit]
    rfl
  · have hm : (m : ℚ) = (m.natAbs : ℚ) := by
      rw [Nat.cast_natAbs, abs_of_nonneg (not_lt.1 hneg)]
    rw [decide_eq_false hneg, hm, ← quotient_eq_nearby mode m.natAbs hunit]
    rfl

/-! ## Significant digits -/

/-- The power of ten by which a number is multiplied to bring this many digits in front of
the point. -/
def shift (count : ℕ) (q : ℚ) : ℤ := count - 1 - Int.log 10 |q|

/-- The number rounded to so many significant digits. -/
def toDigits (mode : RoundingMode) (count : ℕ) (q : ℚ) : ℚ :=
  mode.nearby (q * 10 ^ shift count q) * 10 ^ (-shift count q)

theorem toDigits_of_int {mode : RoundingMode} {count : ℕ} {q : ℚ} {k : ℤ}
    (h : q * 10 ^ shift count q = k) : mode.toDigits count q = q := by
  rw [toDigits, h, nearby_intCast, ← h, mul_assoc, ← Decimal.ten_zpow_add, add_neg_cancel,
    zpow_zero, mul_one]

theorem int_of_toDigits {mode : RoundingMode} {count : ℕ} {q : ℚ} (h : mode.toDigits count q = q) :
    ∃ k : ℤ, q * 10 ^ shift count q = k := by
  refine ⟨mode.nearby (q * 10 ^ shift count q), ?_⟩
  refine (congrArg (· * (10 : ℚ) ^ shift count q) h.symm).trans ?_
  rw [toDigits, mul_assoc, ← Decimal.ten_zpow_add, neg_add_cancel, zpow_zero, mul_one]

end RoundingMode

theorem log_ten_eq {q : ℚ} {n : ℤ} (hlow : 10 ^ n ≤ q) (hhigh : q < 10 ^ (n + 1)) :
    Int.log 10 q = n := by
  have hq : 0 < q := lt_of_lt_of_le (Decimal.ten_zpow_pos n) hlow
  apply le_antisymm
  · have h := (Int.lt_zpow_iff_log_lt (by norm_num : 1 < 10) hq).1 (by exact_mod_cast hhigh)
    omega
  · exact (Int.zpow_le_iff_le_log (by norm_num : 1 < 10) hq).1 (by exact_mod_cast hlow)

namespace RoundingMode

/-- With its digits in front of the point a number is that long. -/
theorem shifted_bounds {count : ℕ} {q : ℚ} (hcount : 1 ≤ count) (hq : q ≠ 0) :
    ((10 ^ (count - 1) : ℤ) : ℚ) ≤ |q * 10 ^ shift count q| ∧
      |q * 10 ^ shift count q| < ((10 ^ count : ℤ) : ℚ) := by
  have hlow := Int.zpow_log_le_self (by norm_num : 1 < 10) (abs_pos.2 hq)
  have hhigh := Int.lt_zpow_succ_log_self (by norm_num : 1 < 10) |q|
  have hpos := Decimal.ten_zpow_pos (shift count q)
  push_cast at hlow hhigh ⊢
  rw [abs_mul, abs_of_pos hpos]
  constructor
  · have hpow : (10 : ℚ) ^ (count - 1) = 10 ^ Int.log 10 |q| * 10 ^ shift count q := by
      rw [← Decimal.ten_zpow_add, shift, ← zpow_natCast]
      congr 1
      omega
    rw [hpow]
    exact mul_le_mul_of_nonneg_right hlow hpos.le
  · have hpow : (10 : ℚ) ^ count = 10 ^ (Int.log 10 |q| + 1) * 10 ^ shift count q := by
      rw [← Decimal.ten_zpow_add, shift, ← zpow_natCast]
      congr 1
      omega
    rw [hpow]
    exact mul_lt_mul_of_pos_right hhigh hpos

/-- Numbers that lie alike among the halves of the last digit kept are rounded alike. -/
theorem toDigits_congr {count : ℕ} {q r : ℚ} (hcount : 1 ≤ count) (hq : q ≠ 0)
    (h : SameHalves (r * 10 ^ shift count q) (q * 10 ^ shift count q)) (mode : RoundingMode) :
    mode.toDigits count r = mode.toDigits count q := by
  obtain ⟨hlow, hhigh⟩ := shifted_bounds hcount hq
  rw [← not_lt, ← h.abs_lt_iff, not_lt] at hlow
  rw [← h.abs_lt_iff] at hhigh
  have hshift : shift count r = shift count q := by
    have hlog : Int.log 10 |r| = count - 1 - shift count q := by
      have hpos := Decimal.ten_zpow_pos (shift count q)
      push_cast at hlow hhigh
      rw [abs_mul, abs_of_pos hpos, ← div_le_iff₀ hpos] at hlow
      rw [abs_mul, abs_of_pos hpos, ← lt_div_iff₀ hpos] at hhigh
      refine log_ten_eq (le_of_eq_of_le ?_ hlow) (lt_of_lt_of_eq hhigh ?_)
      · rw [← zpow_natCast, ← zpow_sub₀ (by norm_num)]
        congr 1
        omega
      · rw [← zpow_natCast, ← zpow_sub₀ (by norm_num)]
        congr 1
        omega
    rw [shift, hlog]
    omega
  rw [toDigits, hshift, nearby_congr h, toDigits]

end RoundingMode

namespace Decimal

variable {x : Decimal}

/-- The place of the leading digit is the logarithm of the number. -/
theorem leadingExponent_eq_log (hx : x.mantissa ≠ 0) : x.leadingExponent = Int.log 10 |x.toRat| :=
  (log_ten_eq (pow_leadingExponent_le hx) (lt_pow_leadingExponent x)).symm

theorem shift_eq (hx : x.mantissa ≠ 0) (count : ℕ) :
    RoundingMode.shift count x.toRat = count - x.digits + x.scale := by
  rw [RoundingMode.shift, ← leadingExponent_eq_log hx, leadingExponent]
  omega

theorem toRat_mul_shift (hx : x.mantissa ≠ 0) (count : ℕ) :
    x.toRat * 10 ^ RoundingMode.shift count x.toRat =
      x.mantissa * 10 ^ ((count : ℤ) - x.digits) := by
  rw [shift_eq hx, toRat, mul_assoc, ← ten_zpow_add]
  congr 2
  omega

/-- A number that has no more digits than asked for is not changed. -/
theorem toDigits_of_few (mode : RoundingMode) {count : ℕ} (hfew : x.digits ≤ count) :
    mode.toDigits count x.toRat = x.toRat := by
  by_cases hx : x.mantissa = 0
  · have hzero : x.toRat * 10 ^ RoundingMode.shift count x.toRat = (0 : ℤ) := by
      rw [toRat_eq_zero.2 hx, zero_mul, Int.cast_zero]
    exact RoundingMode.toDigits_of_int hzero
  · have hint : x.toRat * 10 ^ RoundingMode.shift count x.toRat =
        ((x.mantissa * 10 ^ (count - x.digits) : ℤ) : ℚ) := by
      rw [toRat_mul_shift hx, ← Nat.cast_sub hfew, zpow_natCast]
      push_cast
      rfl
    exact RoundingMode.toDigits_of_int hint

/-- To take off the surplus digits is to round the number to the others. -/
theorem toRat_roundTo {count : ℕ} (hcount : count ≠ 0) (hmore : count < x.digits)
    (mode : RoundingMode) :
    (x.roundTo (x.scale - (x.digits - count : ℕ)) mode).toRat = mode.toDigits count x.toRat := by
  have hx : x.mantissa ≠ 0 := by
    intro hx
    have hone : x.digits = 1 := by
      rw [digits, hx]
      rfl
    omega
  have hlower : ¬ x.scale ≤ x.scale - ((x.digits - count : ℕ) : ℤ) := by omega
  have hunit : (x.scale - (x.scale - ((x.digits - count : ℕ) : ℤ))).toNat = x.digits - count := by
    omega
  have hpower : (10 : ℚ) ^ ((count : ℤ) - x.digits) = ((10 ^ (x.digits - count) : ℕ) : ℚ)⁻¹ := by
    rw [Nat.cast_pow, ← zpow_natCast, ← zpow_neg]
    congr 1
    omega
  rw [roundTo, isZero_of_ne hx, if_neg Bool.false_ne_true, if_neg hlower, hunit, toRat,
    RoundingMode.toDigits, toRat_mul_shift hx, shift_eq hx, isNegative]
  dsimp only
  rw [RoundingMode.withSign_quotient _ _ (pow_pos (by norm_num) _), hpower, ← div_eq_mul_inv]
  congr 2
  omega

end Decimal

namespace Context

open Decimal

variable {context : Context} {x : Decimal}

/-- A context rounds the number of a decimal, and notices whether that changes it. -/
theorem round_eq (hprecision : context.precision ≠ 0)
    (hplace : context.precision < x.digits →
      InRange (x.scale - (x.digits - context.precision : ℕ))) :
    (context.round x).1.toRat = context.rounding.toDigits context.precision x.toRat ∧
      ((context.round x).2 = true ↔
        context.rounding.toDigits context.precision x.toRat ≠ x.toRat) := by
  rw [round]
  by_cases hfew : x.digits ≤ context.precision
  · rw [if_pos (by simp [hfew]), toDigits_of_few _ hfew]
    simp
  · have hmore := not_le.1 hfew
    have hsaturate : saturate (x.scale - (x.digits - context.precision : ℕ)) =
        x.scale - (x.digits - context.precision : ℕ) := by
      obtain ⟨hlow, hhigh⟩ := hplace hmore
      rw [saturate]
      omega
    rw [if_neg (by simp [hprecision, hfew])]
    dsimp only
    rw [hsaturate, toRat_roundTo hprecision hmore]
    refine ⟨rfl, ?_⟩
    rw [Bool.not_eq_true', ← Bool.not_eq_true, same_iff, toRat_roundTo hprecision hmore]

end Context
end DeskCalc
