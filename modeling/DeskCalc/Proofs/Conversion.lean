import DeskCalc.Proofs.Decimal.Canonical
import DeskCalc.Proofs.Power.Exponent

/-
Conversions of decimals.

The place of the leading digit, the integer that a decimal is, and the power of ten that it is
are read off its digits and its scale.  They are facts of the number: decimals of one number, with
any zeros at the end, are converted alike.
-/
namespace DeskCalc
namespace Decimal

variable {x y : Decimal} {k e : ℤ}

/-! ## The leading digit -/

/-- Digit count and scale that are clear of the ends of 64 bits place the leading digit in them. -/
theorem adjustedExponent_of_clear (hx : x.mantissa ≠ 0)
    (hclear : InRange (x.digits - 1 - x.scale)) : x.adjustedExponent = x.leadingExponent := by
  rw [Context.adjustedExponent_eq hx]
  exact saturate_of_inRange hclear

theorem mantissa_ne_of_power (h : x.toRat = 10 ^ k) : x.mantissa ≠ 0 := by
  rw [Ne, ← toRat_eq_zero, h]
  exact ten_zpow_ne_zero k

theorem leadingExponent_of_power (h : x.toRat = 10 ^ k) : x.leadingExponent = k := by
  have hx := mantissa_ne_of_power h
  have habs : |x.toRat| = 10 ^ k := by rw [h, abs_of_pos (ten_zpow_pos k)]
  refine le_antisymm (Int.lt_add_one_iff.1 ((leadingExponent_lt_iff hx).2 ?_))
    ((le_leadingExponent_iff hx).2 habs.ge)
  rw [habs]
  exact zpow_lt_zpow_right₀ (by norm_num) (lt_add_one k)

/-! ## Powers of ten -/

theorem trailingZeros_pow (j : ℕ) : trailingZeros (10 ^ j) = j := by
  have hne : 10 ^ j ≠ 0 := pow_ne_zero j (by norm_num)
  refine le_antisymm ((Nat.pow_dvd_pow_iff_le_right (by norm_num)).1 (pow_trailingZeros_dvd _)) ?_
  by_contra hfew
  exact not_pow_succ_trailingZeros_dvd hne (pow_dvd_pow 10 (not_le.1 hfew))

/-- A power of ten is written as a one with zeros behind it. -/
theorem mantissa_of_power (h : x.toRat = 10 ^ k) : ∃ j : ℕ, x.mantissa = 10 ^ j := by
  have hmantissa : (x.mantissa : ℚ) = 10 ^ (k + x.scale) := by
    rw [ten_zpow_add, ← h, toRat, mul_assoc, ← ten_zpow_add, neg_add_cancel, zpow_zero, mul_one]
  have hone : (1 : ℚ) ≤ 10 ^ (k + x.scale) := by
    rw [← hmantissa]
    have hpos : 0 < x.mantissa := toRat_pos.1 (h ▸ ten_zpow_pos k)
    exact_mod_cast hpos
  have hplaces : 0 ≤ k + x.scale := by
    by_contra hneg
    exact absurd hone (not_le.2 (zpow_lt_one_of_neg₀ (by norm_num) (not_le.1 hneg)))
  obtain ⟨j, hj⟩ := Int.eq_ofNat_of_zero_le hplaces
  rw [hj, zpow_natCast] at hmantissa
  exact ⟨j, by exact_mod_cast hmantissa⟩

theorem mantissa_eq_pow_iff :
    x.mantissa = 10 ^ trailingZeros x.mantissa.natAbs ↔ ∃ k : ℤ, x.toRat = 10 ^ k := by
  constructor
  · intro h
    refine ⟨trailingZeros x.mantissa.natAbs + -x.scale, ?_⟩
    rw [ten_zpow_add, zpow_natCast, toRat]
    congr 1
    exact_mod_cast h
  · rintro ⟨k, hk⟩
    obtain ⟨j, hj⟩ := mantissa_of_power hk
    rw [hj, Int.natAbs_pow, show (10 : ℤ).natAbs = 10 from rfl, trailingZeros_pow]

theorem powerOfTen?_eq_some_iff :
    x.powerOfTen? = some e ↔ (∃ k : ℤ, x.toRat = 10 ^ k) ∧ x.adjustedExponent = e := by
  rw [powerOfTen?, ← mantissa_eq_pow_iff]
  split
  · next h => rw [Option.some_inj, and_iff_right h]
  · next h => exact iff_of_false (Option.some_ne_none _).symm fun hp => h hp.1

/-- A power of ten is recognised, with its exponent. -/
theorem powerOfTen?_eq_some_iff_of_clear (hclear : InRange (x.digits - 1 - x.scale)) :
    x.powerOfTen? = some k ↔ x.toRat = 10 ^ k := by
  have hexponent : ∀ {k : ℤ}, x.toRat = 10 ^ k → x.adjustedExponent = k := fun h => by
    rw [adjustedExponent_of_clear (mantissa_ne_of_power h) hclear, leadingExponent_of_power h]
  rw [powerOfTen?_eq_some_iff]
  constructor
  · rintro ⟨⟨n, hn⟩, hk⟩
    rw [hn, ← hk, hexponent hn]
  · exact fun h => ⟨⟨k, h⟩, hexponent h⟩

/-! ## Decimals of one number -/

theorem isIntegral_congr (h : x.toRat = y.toRat) : x.isIntegral = y.isIntegral := by
  rw [Bool.eq_iff_iff, isIntegral_iff, isIntegral_iff, h]

theorem toInt?_congr (h : x.toRat = y.toRat) : x.toInt? = y.toInt? :=
  Option.ext fun n => by rw [toInt?_eq_some_iff, toInt?_eq_some_iff, h]

theorem toInt64?_congr (h : x.toRat = y.toRat) : x.toInt64? = y.toInt64? :=
  Option.ext fun n => by rw [toInt64?_eq_some_iff, toInt64?_eq_some_iff, h]

theorem powerOfTen?_congr (h : x.toRat = y.toRat) : x.powerOfTen? = y.powerOfTen? :=
  Option.ext fun e => by
    rw [powerOfTen?_eq_some_iff, powerOfTen?_eq_some_iff, h, adjustedExponent_congr h]

/-- The conversions answer for the number: the place of its leading digit, whether it is an
integer and which one, also in 64 bits, and which power of ten it is. -/
theorem conversions_decide_number (x : Decimal)
    (hclear : InRange (x.digits - 1 - x.scale)) :
    (x.toRat ≠ 0 → (10 : ℚ) ^ x.adjustedExponent ≤ |x.toRat| ∧
      |x.toRat| < 10 ^ (x.adjustedExponent + 1)) ∧
    (x.isIntegral = true ↔ ∃ n : ℤ, x.toRat = n) ∧
    (∀ n : ℤ, x.toInt? = some n ↔ x.toRat = n) ∧
    (∀ n : ℤ, x.toInt64? = some n ↔ x.toRat = n ∧ -2 ^ 63 ≤ n ∧ n < 2 ^ 63) ∧
    (∀ k : ℤ, x.powerOfTen? = some k ↔ x.toRat = 10 ^ k) ∧
    ∀ y : Decimal, y.toRat = x.toRat → y.adjustedExponent = x.adjustedExponent ∧
      y.isIntegral = x.isIntegral ∧ y.toInt? = x.toInt? ∧ y.toInt64? = x.toInt64? ∧
      y.powerOfTen? = x.powerOfTen? := by
  refine ⟨fun hx => ?_, isIntegral_iff, fun _ => toInt?_eq_some_iff, fun n => ?_,
    fun _ => powerOfTen?_eq_some_iff_of_clear hclear, fun y h => ⟨adjustedExponent_congr h,
      isIntegral_congr h, toInt?_congr h, toInt64?_congr h, powerOfTen?_congr h⟩⟩
  · have hmantissa := mt toRat_eq_zero.2 hx
    rw [adjustedExponent_of_clear hmantissa hclear]
    exact ⟨pow_leadingExponent_le hmantissa, lt_pow_leadingExponent x⟩
  · rw [toInt64?_eq_some_iff, InRange]
    refine and_congr_right fun _ => ?_
    omega

/-- The least integer of 64 bits, with zeros behind the point: its leading digit, itself, and the
same answers for it without the zeros. -/
theorem conversions_decide_number_least :
    InRange (digits ⟨-9223372036854775808000, 3⟩ - 1 - 3) ∧
      adjustedExponent ⟨-9223372036854775808000, 3⟩ = 18 ∧
      toInt64? ⟨-9223372036854775808000, 3⟩ = some (-2 ^ 63) ∧
      powerOfTen? ⟨-9223372036854775808000, 3⟩ = none ∧
      toInt64? ⟨-9223372036854775808, 0⟩ = toInt64? ⟨-9223372036854775808000, 3⟩ := by
  have hclear : InRange (digits ⟨-9223372036854775808000, 3⟩ - 1 - 3) := by
    rw [InRange]
    decide +kernel
  have hvalue : toRat ⟨-9223372036854775808000, 3⟩ = (-2 ^ 63 : ℤ) := by
    norm_num [toRat]
  obtain ⟨-, -, -, h64, -, hequal⟩ :=
    conversions_decide_number ⟨-9223372036854775808000, 3⟩ hclear
  refine ⟨hclear, by decide +kernel, (h64 _).2 ⟨hvalue, by norm_num, by norm_num⟩,
    by decide +kernel, (hequal ⟨-9223372036854775808, 0⟩ ?_).2.2.2.1⟩
  rw [hvalue]
  norm_num [toRat]

end Decimal
end DeskCalc
