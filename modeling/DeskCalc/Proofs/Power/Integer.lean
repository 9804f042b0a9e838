import DeskCalc.Proofs.Decimal.Ratio
import DeskCalc.Proofs.Power.Value

/-
Integer powers as operations on numbers.

`integerPowerOf` is the power of a number with an integer exponent, as the squaring with its
guard digits and the reciprocal of a hundred digits compute it.  `number_integerPower` says that
the power of a decimal is that of its number, with the same mark or the same error, whatever its
representation.
-/
namespace DeskCalc

/-- The mark of a value that is exact unless something was lost. -/
def Precision.ofLost (lost : Bool) : Precision := if lost then .inexact else .exact

theorem Precision.ofLost_eq_exact {lost : Bool} :
    Precision.ofLost lost = .exact ↔ lost = false := by
  cases lost <;> decide

/-- The number of an outcome, with its mark. -/
def Outcome.number (outcome : Outcome) : ℚ × Precision := (outcome.value.toRat, outcome.precision)

theorem Outcome.number_approximate (value : Decimal) (lost : Bool) :
    (approximate value lost).number = (value.toRat, .ofLost lost) := rfl

/-- Two results agree up to a function of the numbers: either both are values, with the same
mark, or both are errors of the same kind. -/
def Alike (f : ℚ → ℚ) : Except EvalError Outcome → Except EvalError Outcome → Prop
  | .ok outcome, .ok outcome' =>
      outcome'.value.toRat = f outcome.value.toRat ∧ outcome'.precision = outcome.precision
  | .error error, .error error' => error'.ctorIdx = error.ctorIdx
  | _, _ => False

theorem Alike.refl (result : Except EvalError Outcome) : Alike id result result := by
  cases result
  · rfl
  · exact ⟨rfl, rfl⟩

theorem Alike.symm {result result' : Except EvalError Outcome} (h : Alike id result result') :
    Alike id result' result := by
  cases result <;> cases result'
  · exact Eq.symm h
  · cases h
  · cases h
  · exact ⟨h.1.symm, h.2.symm⟩

theorem Alike.of_number {f : ℚ → ℚ} {result result' : Except EvalError Outcome}
    (h : result'.map Outcome.number = (result.map Outcome.number).map (Prod.map f id)) :
    Alike f result result' := by
  cases result with
  | error error =>
    cases result' with
    | error error' => exact congrArg EvalError.ctorIdx (Except.error.inj h)
    | ok outcome' => cases h
  | ok outcome =>
    cases result' with
    | error error' => cases h
    | ok outcome' => exact Prod.ext_iff.1 (Except.ok.inj h)

namespace Arithmetic

open Decimal

variable {context : Context} {x : Decimal} {n : ℤ} {span : Span}

/-- The context in which the products of a power are rounded. -/
def guarded (context : Context) : Context := context.widen powerGuardDigits

theorem precision_guarded (context : Context) :
    (guarded context).precision = context.precision + 10 := rfl

/-- A power of a number with the guard digits of the context. -/
def guardedPower (context : Context) (q : ℚ) (n : ℕ) : ℚ × Bool :=
  numberPower (context.rounding.rounded (context.precision + 10)) q n

/-- The power of a number with an integer exponent. -/
def integerPowerOf (context : Context) (q : ℚ) (n : ℤ) (span : Span) :
    Except EvalError (ℚ × Precision) :=
  if n < 0 ∧ q = 0 then .error (.divisionByZero span)
  else
    let (power, lost) := guardedPower context q n.natAbs
    if n < 0 then
      if 10 ^ (Context.maxExponent + 1) ≤ |power| then .ok (0, .inexact)
      else if |power| < 10 ^ (-Context.maxExponent) then .error (.domain .resultOutOfRange span)
      else
        let (reciprocal, dropped) := RoundingMode.halfUp.rounded 100 (1 / power)
        .ok (reciprocal, .ofLost (lost || dropped))
    else .ok (power, .ofLost lost)

theorem integerPowerOf_natCast (context : Context) (q : ℚ) (n : ℕ) (span : Span) :
    integerPowerOf context q n span =
      .ok ((guardedPower context q n).1, .ofLost (guardedPower context q n).2) := by
  have hsign : ¬ (n : ℤ) < 0 := by omega
  rw [integerPowerOf, if_neg fun h => hsign h.1, Int.natAbs_natCast]
  generalize guardedPower context q n = power
  obtain ⟨power, lost⟩ := power
  dsimp only
  rw [if_neg hsign]

/-- How far one rounding of a power moves a number at most, as a part of it. -/
def powerError (context : Context) : ℚ := 10 ^ (-((context.precision : ℤ) + 9))

theorem powerError_pos (context : Context) : 0 < powerError context := ten_zpow_pos _

theorem powerError_lt_one (context : Context) : powerError context < 1 := by
  rw [powerError, zpow_neg]
  exact inv_lt_one_of_one_lt₀ (one_lt_zpow₀ (by norm_num) (by omega))

theorem near_guardedPower (context : Context) (q : ℚ) (n : ℕ) :
    Near (powerError context) n (q ^ n) (guardedPower context q n).1 := by
  refine near_numberPower (powerError_pos context).le (powerError_lt_one context).le
    (fun r => ?_) q n
  have herror := context.rounding.abs_toDigits_sub_le
    (show 1 ≤ context.precision + 10 by omega) r
  have hexponent : 1 - ((context.precision + 10 : ℕ) : ℤ) = -((context.precision : ℤ) + 9) := by
    push_cast
    omega
  rw [hexponent] at herror
  exact herror

/-- A power of a number other than zero is not rounded to zero. -/
theorem guardedPower_ne_zero {q : ℚ} (hq : q ≠ 0) (n : ℕ) : (guardedPower context q n).1 ≠ 0 := by
  obtain ⟨f, hlow, -, hpower⟩ := near_guardedPower context q n
  have hbase : 0 < 1 - powerError context := sub_pos.2 (powerError_lt_one context)
  rw [hpower]
  exact mul_ne_zero (pow_ne_zero n hq) ((pow_pos hbase n).trans_le hlow).ne'

/-- The reciprocal of a number in a hundred digits, marked if that changes it. -/
theorem number_divide_one (hne : x.mantissa ≠ 0) (span : Span) :
    ∃ outcome, divide .one x span = .ok outcome ∧
      outcome.value.toRat = (RoundingMode.halfUp.rounded 100 (1 / x.toRat)).1 ∧
      (outcome.precision == .inexact) = (RoundingMode.halfUp.rounded 100 (1 / x.toRat)).2 := by
  have hshort : one.mantissa.natAbs < 10 ^ 100 * x.mantissa.natAbs :=
    lt_of_lt_of_le (show one.mantissa.natAbs < 10 ^ 100 by decide)
      (Nat.le_mul_of_pos_right _ (Int.natAbs_pos.2 hne))
  have hquotient := toRat_div hshort
  have hback := same_div_mul_iff (x := one) fun hzero => hne (toRat_eq_zero.1 hzero)
  rw [toRat_one] at hquotient hback
  refine ⟨.approximate (one / x) (!((one / x) * x).same one), ?_, hquotient, ?_⟩
  · rw [divide_eq, isZero_of_ne hne, if_neg Bool.false_ne_true]
  · rw [hquotient] at hback
    rw [RoundingMode.rounded, Outcome.approximate]
    by_cases hexact : RoundingMode.halfUp.toDigits 100 (1 / x.toRat) = 1 / x.toRat
    · rw [hback.2 hexact, decide_eq_false (not_not.2 hexact)]
      rfl
    · rw [Bool.eq_false_of_not_eq_true (hback.not.2 hexact), decide_eq_true hexact]
      rfl

/-- If the squaring gives the power of the number, so does what is computed from it. -/
theorem number_integerPower_of_power
    (hpower : ((powerWith (guarded context).round x n.natAbs).1.toRat,
      (powerWith (guarded context).round x n.natAbs).2) = guardedPower context x.toRat n.natAbs)
    (span : Span) :
    (integerPower context x n span).map Outcome.number =
      integerPowerOf context x.toRat n span := by
  rw [integerPower_eq, integerPowerOf, ← guarded]
  by_cases hdivide : n < 0 ∧ x.toRat = 0
  · have hzero : (decide (n < 0) && x.isZero) = true := by
      rw [decide_eq_true hdivide.1, isZero_iff.2 hdivide.2]
      rfl
    rw [if_pos hzero, if_pos hdivide]
    rfl
  · have hnonzero : ¬ (decide (n < 0) && x.isZero) = true := by
      rw [Bool.and_eq_true, decide_eq_true_iff, isZero_iff]
      exact hdivide
    rw [if_neg hnonzero, if_neg hdivide]
    have hne : n < 0 → (guardedPower context x.toRat n.natAbs).1 ≠ 0 := fun hneg =>
      guardedPower_ne_zero (fun hzero => hdivide ⟨hneg, hzero⟩) _
    rw [← hpower] at hne ⊢
    generalize powerWith (guarded context).round x n.natAbs = power at hne ⊢
    obtain ⟨power, lost⟩ := power
    dsimp only at hne ⊢
    by_cases hneg : n < 0
    · have hmantissa : power.mantissa ≠ 0 := fun hzero => hne hneg (toRat_eq_zero.2 hzero)
      obtain ⟨reciprocal, hreciprocal, hvalue, hmark⟩ :=
        number_divide_one hmantissa span
      rw [if_pos hneg, if_pos hneg]
      simp only [Context.maxExponent_lt_iff hmantissa, Context.lt_neg_maxExponent_iff hmantissa]
      by_cases hlarge : 10 ^ (Context.maxExponent + 1) ≤ |power.toRat|
      · rw [if_pos hlarge, if_pos hlarge]
        exact congrArg Except.ok (Prod.ext toRat_zero rfl)
      · rw [if_neg hlarge, if_neg hlarge]
        by_cases hsmall : |power.toRat| < 10 ^ (-Context.maxExponent)
        · rw [if_pos hsmall, if_pos hsmall]
          rfl
        · rw [if_neg hsmall, if_neg hsmall, hreciprocal]
          refine congrArg Except.ok ?_
          rw [Outcome.number_approximate, hvalue, hmark]
    · rw [if_neg hneg, if_neg hneg]
      rfl

/-- A natural power is the result of the squaring. -/
theorem integerPowerM_natCast (context : Context) (x : Decimal) (n : ℕ) (span : Span) :
    integerPowerM context x n span =
      powerWithM (guarded context).round x n >>= fun power =>
        pure (.ok (.approximate power.1 power.2)) := by
  have hsign : ¬ (n : ℤ) < 0 := by omega
  rw [integerPowerM, if_neg (by simp), Int.natAbs_natCast]
  refine congrArg (powerWithM (guarded context).round x n >>= ·) (funext fun power => ?_)
  exact if_neg hsign

section Natural

variable {n : ℕ} (hexponent : |x.adjustedExponent| ≤ Context.maxExponent)
  (hn : n ≤ maxIntegerExponent)

include hexponent hn

/-- A natural power that the program answers is the power of the number. -/
theorem gives_integerPowerM (span : Span) :
    (integerPowerM context x n span).Gives Demand.Fits fun result =>
      ∃ outcome, result = .ok outcome ∧ outcome.number =
        ((guardedPower context x.toRat n).1, .ofLost (guardedPower context x.toRat n).2) := by
  have hguarded := precision_guarded context
  have hpower := gives_powerWithM_fits (sized_of_adjustedExponent hexponent) x.digits_pos.ne' hn
    (show (guarded context).precision ≠ 0 by omega)
  rw [integerPowerM_natCast]
  refine hpower.bind fun power hnumber => Checked.gives_pure ⟨_, rfl, ?_⟩
  change (power.1.toRat, power.2) = guardedPower context x.toRat n at hnumber
  rw [← hnumber]
  rfl

/-- The program answers the power of a number in range; the power of a zero needs a scale. -/
theorem integerPowerM_answers (hdigits : x.digits ≤ writableDigits)
    (hroom : context.precision ≤ writableDigits ∨ n * x.digits ≤ writableDigits)
    (hzero : x.toRat = 0 → InRange (n * x.scale)) (span : Span) :
    (integerPowerM context x n span).run? = some (integerPower context x n span) := by
  have hmax : writableDigits = 1000000000000000 := rfl
  have hguarded := precision_guarded context
  have hpower : (powerWithM (guarded context).round x n).Keeps Demand.Fits fun _ => True := by
    by_cases hx : x.mantissa = 0
    · refine keeps_powerWithM_zero (fun z hz => ?_) hx (hzero (toRat_eq_zero.2 hx))
      have hfew : z.digits ≤ (guarded context).precision := by
        rw [digits, hz, show digitCount (Int.natAbs 0) = 1 from rfl]
        omega
      rw [Context.round, if_pos (by simp [hfew])]
    · have hroom' : (guarded context).precision ≤ 2 * writableDigits ∨
          n * x.digits ≤ writableDigits := hroom.imp_left fun hfew => by omega
      exact (keeps_powerWithM_fits (sized_of_adjustedExponent hexponent) x.digits_pos.ne' hn
        hdigits hroom' (by omega) hx).mono fun _ _ => trivial
  have hkeeps : (integerPowerM context x n span).Keeps Demand.Fits fun _ => True := by
    rw [integerPowerM_natCast]
    exact hpower.bind fun power _ => Checked.keeps_pure trivial
  exact hkeeps.run?

end Natural

/-- A power with an integer exponent is the power of the number. -/
theorem number_integerPower (hprecision : 1 ≤ context.precision)
    (hexponent : |x.adjustedExponent| ≤ Context.maxExponent)
    (hn : n.natAbs ≤ maxIntegerExponent) (hdigits : x.digits ≤ writableDigits)
    (hroom : context.precision ≤ writableDigits ∨ n.natAbs * x.digits ≤ writableDigits)
    (span : Span) :
    (integerPower context x n span).map Outcome.number =
      integerPowerOf context x.toRat n span := by
  have hmax : writableDigits = 1000000000000000 := rfl
  have hguarded := precision_guarded context
  have hroom' : (guarded context).precision ≤ 2 * writableDigits ∨
      n.natAbs * x.digits ≤ writableDigits := hroom.imp_left fun hfew => by omega
  exact number_integerPower_of_power (toRat_powerWith (sized_of_adjustedExponent hexponent)
    x.digits_pos.ne' hn hdigits hroom' (by omega)) span

end Arithmetic
end DeskCalc
