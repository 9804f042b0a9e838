import DeskCalc.Proofs.Power.Integer
import DeskCalc.Proofs.Power.Logarithm
import DeskCalc.Proofs.Power.Root

/-
Powers of equal numbers.

A power depends on its base and exponent as numbers, however they are written, in all but one
respect: an exact root is looked for only if the exponent is written with few digits.  With zeros
behind it the exponent of an exact root gives the same error or a value as well, but the value is
marked as inexact.
-/
namespace DeskCalc

open Decimal

namespace Arithmetic

variable {context : Context} {base base' exponent exponent' : Decimal} {span : Span}

/-- The base is in range, and it can be written down in 10^15 digits.  So can a power that is
computed by squaring, or the precision is no larger. -/
structure Feasible (context : Context) (base exponent : Decimal) : Prop where
  base_range : |base.adjustedExponent| ≤ Context.maxExponent
  base_digits : base.digits ≤ writableDigits
  room : ∀ n : ℤ, exponent.toRat = n → n.natAbs ≤ maxIntegerExponent →
    context.precision ≤ writableDigits ∨ n.natAbs * base.digits ≤ writableDigits

theorem Feasible.sized (h : Feasible context base exponent) :
    Sized writableDigits (-10000) 10000 base :=
  (sized_of_adjustedExponent h.base_range).mono h.base_digits le_rfl le_rfl

/-- The exponents of equal numbers are small fractions if both or neither are written with few
digits. -/
theorem smallFraction?_congr (h : exponent.toRat = exponent'.toRat)
    (hbrief : Brief exponent ↔ Brief exponent') :
    smallFraction? exponent = smallFraction? exponent' := by
  refine Option.ext fun fraction => ?_
  obtain ⟨p, q⟩ := fraction
  rw [smallFraction?_eq_some_iff, smallFraction?_eq_some_iff, hbrief, h]

theorem exactRoot?_of_not_brief {approximation : Decimal} {precision : ℕ}
    (h : ¬ Brief exponent) : exactRoot? base exponent approximation precision = none := by
  rw [exactRoot?_eq, smallFraction?_of_not_brief h]
  rfl

/-- The test of a root by multiplication gives the same for equal numbers. -/
theorem exactRoot?_congr (hbase : base.toRat = base'.toRat)
    (hfraction : smallFraction? exponent = smallFraction? exponent') (approximation : Decimal)
    (precision : ℕ) :
    exactRoot? base exponent approximation precision =
      exactRoot? base' exponent' approximation precision := by
  refine Option.ext fun root => ?_
  rw [exactRoot?_eq_some_iff, exactRoot?_eq_some_iff, hfraction, hbase]

/-- What is not found to be an exact root is marked as inexact. -/
theorem fractionalPower_of_not_brief (hbase : 0 < base.toRat) (h : ¬ Brief exponent) :
    fractionalPower context base exponent span =
      (base.powf? exponent context.precision).elim
        (.error (.domain (.powerOutOfRange base exponent) span)) fun value =>
          .ok (.approximate value true) := by
  rw [fractionalPower_of_pos hbase]
  cases base.powf? exponent context.precision with
  | none => rfl
  | some value =>
    dsimp only [Option.elim]
    rw [exactRoot?_of_not_brief h]

variable (hbase : base.toRat = base'.toRat) (hexponent : exponent.toRat = exponent'.toRat)
  (hleft : Feasible context base exponent) (hright : Feasible context base' exponent')

include hbase hexponent hleft hright

theorem integerPower_alike (hprecision : 1 ≤ context.precision) {n : ℤ}
    (hn : exponent.toRat = n) (hsmall : n.natAbs ≤ maxIntegerExponent) (span : Span) :
    Alike id (integerPower context base n span) (integerPower context base' n span) := by
  refine .of_number ?_
  rw [number_integerPower hprecision hleft.base_range hsmall hleft.base_digits
      (hleft.room n hn hsmall),
    number_integerPower hprecision hright.base_range hsmall hright.base_digits
      (hright.room n (hexponent ▸ hn) hsmall), hbase]
  cases integerPowerOf context base'.toRat n span <;> rfl

theorem powf?_of_feasible :
    base.powf? exponent context.precision = base'.powf? exponent' context.precision :=
  powf?_congr hbase hexponent (show writableDigits ≤ 1125899906842624 by decide) hleft.sized
    hright.sized

/-- Through the logarithm, equal numbers have the same power if a root is looked for in both
cases or in neither. -/
theorem fractionalPower_alike
    (hbrief : 0 < base.toRat → (Brief exponent ↔ Brief exponent')) :
    Alike id (fractionalPower context base exponent span)
      (fractionalPower context base' exponent' span) := by
  rcases lt_trichotomy base.toRat 0 with hneg | hzero | hpos
  · rw [fractionalPower_of_neg hneg, fractionalPower_of_neg (hbase ▸ hneg)]
    rfl
  · have hpositive : exponent.isPositive = exponent'.isPositive := by
      rw [isPositive, isPositive, decide_eq_decide, mantissa_pos_congr hexponent]
    rw [fractionalPower_of_zero hzero, fractionalPower_of_zero (hbase ▸ hzero), hpositive]
    exact .refl _
  · rw [fractionalPower_of_pos hpos, fractionalPower_of_pos (hbase ▸ hpos),
      ← powf?_of_feasible hbase hexponent hleft hright]
    cases base.powf? exponent context.precision with
    | none => rfl
    | some value =>
      have hroot := exactRoot?_congr hbase (smallFraction?_congr hexponent (hbrief hpos)) value
        context.precision
      dsimp only [Option.elim]
      rw [hroot]
      exact .refl _

/-- If the one exponent is written with few digits and the other is not, the powers differ just
if the root is found to be exact. -/
theorem fractionalPower_alike_iff (hpos : 0 < base.toRat) (hlong : ¬ Brief exponent')
    (span : Span) :
    (Alike id (fractionalPower context base exponent span)
        (fractionalPower context base' exponent' span) ↔
      ¬ ∃ outcome, fractionalPower context base exponent span = .ok outcome ∧
        outcome.precision = .exact) ∧
    ((∃ outcome, fractionalPower context base exponent span = .ok outcome ∧
        outcome.precision = .exact) →
      ∃ outcome, fractionalPower context base' exponent' span = .ok outcome ∧
        outcome.precision = .inexact) := by
  rw [fractionalPower_of_pos hpos, fractionalPower_of_not_brief (hbase ▸ hpos) hlong,
    ← powf?_of_feasible hbase hexponent hleft hright]
  cases base.powf? exponent context.precision with
  | none =>
    refine ⟨iff_of_true rfl ?_, ?_⟩
    · rintro ⟨outcome, houtcome, -⟩
      cases houtcome
    · rintro ⟨outcome, houtcome, -⟩
      cases houtcome
  | some value =>
    dsimp only [Option.elim]
    refine ⟨?_, fun _ => ⟨_, rfl, rfl⟩⟩
    cases exactRoot? base exponent value context.precision with
    | none =>
      refine iff_of_true (.refl _) ?_
      rintro ⟨outcome, houtcome, hexact⟩
      obtain rfl := Except.ok.inj houtcome
      cases hexact
    | some root =>
      refine iff_of_false (fun halike => ?_) fun hnone => hnone ⟨_, rfl, rfl⟩
      have hmark : Precision.inexact = Precision.exact := halike.2
      cases hmark

omit hbase hexponent hleft hright in
/-- An exact root has a small exponent. -/
theorem ne_intCast_of_exact (hlarge : ∀ n : ℤ, exponent.toRat = n → maxIntegerExponent < n.natAbs)
    (hpos : 0 < base.toRat) {outcome : Outcome}
    (h : fractionalPower context base exponent span = .ok outcome)
    (hexact : outcome.precision = .exact) (n : ℤ) : exponent.toRat ≠ n := by
  intro hn
  obtain ⟨value, -, hroot⟩ := exists_root_of_exact hpos h hexact
  obtain ⟨⟨p, q⟩, hfraction⟩ := exists_fraction_of_exactRoot? hroot
  obtain ⟨-, ⟨hnum, -⟩, hsmall, -⟩ := smallFraction?_eq_some_iff.1 hfraction
  have hmost : maxIntegerExponent = 1000000000 := rfl
  have hterm : maxRootTerm = 100 := rfl
  have hbeyond := hlarge n hn
  rw [hn, Rat.num_intCast] at hnum
  omega

end Arithmetic

open Arithmetic

/-- The power is an exact root, but it is found for the one exponent only: the other one is
written with too many digits. -/
def RootMissed (context : Context) (base exponent exponent' : Decimal) (span : Span) : Prop :=
  (Brief exponent ∧ ¬ Brief exponent') ∧ (∀ n : ℤ, exponent.toRat ≠ n) ∧ base.toRat ≠ 0 ∧
    ∃ outcome, power context base exponent span = .ok outcome ∧ outcome.precision = .exact

/-- A root of a number that is not positive is not missed. -/
theorem RootMissed.pos {context : Context} {base exponent exponent' : Decimal} {span : Span}
    (h : RootMissed context base exponent exponent' span) : 0 < base.toRat := by
  obtain ⟨-, hfraction, hbase, outcome, hpower, -⟩ := h
  rw [power_of_fraction fun n hn => absurd hn (hfraction n)] at hpower
  by_contra hnot
  rw [fractionalPower_of_neg (lt_of_le_of_ne (not_lt.1 hnot) hbase)] at hpower
  cases hpower

/-- A root is missed just if it is found for the exponent with few digits. -/
theorem rootMissed_iff {context : Context} {base exponent exponent' : Decimal} {span : Span}
    (hlarge : ∀ n : ℤ, exponent.toRat = n → maxIntegerExponent < n.natAbs)
    (hpos : 0 < base.toRat) (hbrief : Brief exponent ∧ ¬ Brief exponent') :
    RootMissed context base exponent exponent' span ↔
      ∃ outcome, fractionalPower context base exponent span = .ok outcome ∧
        outcome.precision = .exact := by
  rw [RootMissed, power_of_fraction hlarge]
  refine ⟨fun h => h.2.2.2, fun h => ?_⟩
  obtain ⟨outcome, hpower, hexact⟩ := h
  exact ⟨hbrief, ne_intCast_of_exact hlarge hpos hpower hexact, hpos.ne', outcome, hpower, hexact⟩

/-- Equal numbers have the same power, with the same mark, or the same kind of error, unless an
exact root is missed for one of the exponents.  Then there is a power as well, but it is marked
as inexact. -/
theorem power_of_equal_numbers (context : Context) (base base' exponent exponent' : Decimal)
    (span : Span) (hprecision : 1 ≤ context.precision) (hbase : base.toRat = base'.toRat)
    (hexponent : exponent.toRat = exponent'.toRat) (hleft : Feasible context base exponent)
    (hright : Feasible context base' exponent') :
    (Alike id (power context base exponent span) (power context base' exponent' span) ↔
      ¬ RootMissed context base exponent exponent' span ∧
        ¬ RootMissed context base' exponent' exponent span) ∧
    (RootMissed context base exponent exponent' span →
      ∃ outcome, power context base' exponent' span = .ok outcome ∧
        outcome.precision = .inexact) := by
  rcases integer_or_fraction exponent with ⟨n, hn, hsmall⟩ | hlarge
  · have hn' : exponent'.toRat = n := hexponent ▸ hn
    have halike := integerPower_alike hbase hexponent hleft hright hprecision hn hsmall span
    rw [power_of_integer hn hsmall, power_of_integer hn' hsmall]
    exact ⟨iff_of_true halike ⟨fun h => h.2.1 n hn, fun h => h.2.1 n hn'⟩,
      fun h => absurd hn (h.2.1 n)⟩
  · have hlarge' : ∀ n : ℤ, exponent'.toRat = n → maxIntegerExponent < n.natAbs :=
      hexponent ▸ hlarge
    rw [power_of_fraction hlarge, power_of_fraction hlarge']
    by_cases hbrief : 0 < base.toRat → (Brief exponent ↔ Brief exponent')
    · have hneither : ¬ RootMissed context base exponent exponent' span :=
        fun h => h.1.2 ((hbrief h.pos).1 h.1.1)
      have hneither' : ¬ RootMissed context base' exponent' exponent span :=
        fun h => h.1.2 ((hbrief (hbase ▸ h.pos)).2 h.1.1)
      exact ⟨iff_of_true (fractionalPower_alike hbase hexponent hleft hright hbrief)
        ⟨hneither, hneither'⟩, fun h => absurd h hneither⟩
    · obtain ⟨hpos, hdiffer⟩ := Classical.not_imp.1 hbrief
      by_cases hshort : Brief exponent
      · have hpair : Brief exponent ∧ ¬ Brief exponent' :=
          ⟨hshort, fun h => hdiffer (iff_of_true hshort h)⟩
        obtain ⟨hiff, hmissed⟩ := fractionalPower_alike_iff hbase hexponent hleft hright hpos
          hpair.2 span
        rw [rootMissed_iff hlarge hpos hpair]
        exact ⟨hiff.trans (and_iff_left fun h => h.1.2 hshort).symm, hmissed⟩
      · have hpair : Brief exponent' ∧ ¬ Brief exponent :=
          ⟨by_contra fun h => hdiffer (iff_of_false hshort h), hshort⟩
        obtain ⟨hiff, -⟩ := fractionalPower_alike_iff hbase.symm hexponent.symm hright hleft
          (hbase ▸ hpos) hpair.2 span
        rw [rootMissed_iff hlarge' (hbase ▸ hpos) hpair]
        exact ⟨⟨fun h => ⟨fun hmissed => hshort hmissed.1.1, hiff.1 h.symm⟩,
          fun h => (hiff.2 h.2).symm⟩, fun h => absurd h.1.1 hshort⟩

/-- A root of 25, with zeros at the end of base and exponent. -/
theorem power_of_equal_numbers_root :
    (Alike id (power {} ⟨25, 0⟩ ⟨5, 1⟩ {}) (power {} ⟨2500, 2⟩ ⟨500, 3⟩ {}) ↔
      ¬ RootMissed {} ⟨25, 0⟩ ⟨5, 1⟩ ⟨500, 3⟩ {} ∧ ¬ RootMissed {} ⟨2500, 2⟩ ⟨500, 3⟩ ⟨5, 1⟩ {}) ∧
    (RootMissed {} ⟨25, 0⟩ ⟨5, 1⟩ ⟨500, 3⟩ {} →
      ∃ outcome, power {} ⟨2500, 2⟩ ⟨500, 3⟩ {} = .ok outcome ∧ outcome.precision = .inexact) :=
  power_of_equal_numbers {} ⟨25, 0⟩ ⟨2500, 2⟩ ⟨5, 1⟩ ⟨500, 3⟩ {} (by decide)
    (same_iff.1 (by decide +kernel)) (same_iff.1 (by decide +kernel))
    ⟨by decide, by decide, fun _ _ _ => Or.inl (by decide)⟩
    ⟨by decide, by decide, fun _ _ _ => Or.inl (by decide)⟩

/-- With twenty places, one half is not taken for the exponent of a square root. -/
theorem square_root_missed :
    toRat ⟨5, 1⟩ = toRat ⟨50000000000000000000, 20⟩ ∧
      power {} ⟨25, 0⟩ ⟨5, 1⟩ {} = .ok (.exact ⟨5, 0⟩) ∧
      ¬ Alike id (power {} ⟨25, 0⟩ ⟨5, 1⟩ {})
        (power {} ⟨25, 0⟩ ⟨50000000000000000000, 20⟩ {}) := by
  have hexact : power {} ⟨25, 0⟩ ⟨5, 1⟩ {} = .ok (.exact ⟨5, 0⟩) := by decide +kernel
  have hinexact : (power {} ⟨25, 0⟩ ⟨50000000000000000000, 20⟩ {}).map Outcome.precision =
      .ok .inexact := by decide +kernel
  refine ⟨same_iff.1 (by decide +kernel), hexact, ?_⟩
  rw [hexact]
  cases hpower : power {} ⟨25, 0⟩ ⟨50000000000000000000, 20⟩ {} with
  | error error => exact id
  | ok outcome =>
    intro halike
    rw [hpower] at hinexact
    have hmark : Precision.exact = Precision.inexact :=
      halike.2.symm.trans (Except.ok.inj hinexact)
    cases hmark

end DeskCalc
