import DeskCalc.Context
import DeskCalc.Proofs.Decimal.Rescale

/-
What a context does to the number of a value.

The range check and the snapping are tests on the number, not on its representation
(`confine_eq`, `snapped_eq`), so a value that has passed them passes them again in any
representation.  A settled value has at most one digit more than the precision asks for, or
no fraction.
-/
namespace DeskCalc
namespace Context

open Decimal

variable {context : Context} {x y : Decimal}

theorem adjustedExponent_eq (hx : x.mantissa ≠ 0) :
    x.adjustedExponent = saturate x.leadingExponent := by
  rw [adjustedExponent, isZero_of_ne hx, if_neg Bool.false_ne_true]

theorem adjustedExponent_of_zero (hx : x.mantissa = 0) : x.adjustedExponent = 0 := by
  rw [adjustedExponent, if_pos (isZero_of_eq hx)]

theorem toRat_epsilon : epsilon.toRat = 10 ^ (-29 : ℤ) := by
  simp [toRat, epsilon]

theorem adjustedExponent_epsilon : epsilon.adjustedExponent = -29 := by
  decide

theorem epsilon_lt (hx : x.mantissa ≠ 0) (hlead : -29 < x.leadingExponent) :
    epsilon.toRat < |x.toRat| := by
  have hnext : (10 : ℚ) ^ (-29 : ℤ) < 10 ^ (-28 : ℤ) :=
    zpow_lt_zpow_right₀ (by norm_num) (by decide)
  rw [toRat_epsilon]
  exact hnext.trans_le ((le_leadingExponent_iff hx).1 (by omega))

/-! ## The tests on the number -/

theorem maxExponent_lt_iff (hx : x.mantissa ≠ 0) :
    maxExponent < x.adjustedExponent ↔ 10 ^ (maxExponent + 1) ≤ |x.toRat| := by
  have hmax : maxExponent = 10000 := rfl
  rw [← le_leadingExponent_iff hx, adjustedExponent_eq hx, saturate]
  omega

theorem lt_neg_maxExponent_iff (hx : x.mantissa ≠ 0) :
    x.adjustedExponent < -maxExponent ↔ |x.toRat| < 10 ^ (-maxExponent) := by
  have hmax : maxExponent = 10000 := rfl
  rw [← leadingExponent_lt_iff hx, adjustedExponent_eq hx, saturate]
  omega

theorem confine_eq (hx : x.mantissa ≠ 0) :
    confine x =
      if 10 ^ (maxExponent + 1) ≤ |x.toRat| then none
      else if |x.toRat| < 10 ^ (-maxExponent) then some .zero else some x := by
  rw [confine]
  simp only [maxExponent_lt_iff hx, lt_neg_maxExponent_iff hx]

theorem snapped_eq (hx : x.mantissa ≠ 0) (hsnap : context.snap = true) :
    context.snapped x = if |x.toRat| ≤ epsilon.toRat then .zero else x := by
  have hadjusted := adjustedExponent_eq hx
  rw [saturate] at hadjusted
  rw [snapped, hsnap, adjustedExponent_epsilon]
  rcases lt_trichotomy x.leadingExponent (-29) with hlead | hlead | hlead
  · have hsmall : |x.toRat| ≤ epsilon.toRat := by
      rw [toRat_epsilon]
      exact ((leadingExponent_lt_iff hx).1 hlead).le
    rw [if_pos hsmall, if_pos (show x.adjustedExponent < -29 by omega)]
    rfl
  · have hle : x.abs ≤ epsilon ↔ |x.toRat| ≤ epsilon.toRat := by
      rw [le_iff, toRat_abs]
    have hequal : x.adjustedExponent = -29 := by omega
    simp [hequal, hle]
  · have hlarge := epsilon_lt hx hlead
    have habove : ¬ x.adjustedExponent < -29 := by omega
    have hother : x.adjustedExponent ≠ -29 := by omega
    rw [if_neg (not_le.2 hlarge)]
    simp [habove, hother]

theorem confine_of_zero (hx : x.mantissa = 0) : confine x = some x := by
  rw [confine, adjustedExponent_of_zero hx, maxExponent]
  rfl

theorem snapped_of_not_snap (hsnap : ¬ context.snap = true) : context.snapped x = x := by
  rw [snapped, Bool.eq_false_of_not_eq_true hsnap]
  rfl

theorem snapped_of_zero (hx : x.mantissa = 0) : context.snapped x = x := by
  rw [snapped, adjustedExponent_of_zero hx, adjustedExponent_epsilon]
  cases context.snap <;> rfl

/-- The number is in range, and not one that is replaced by zero. -/
def Admits (context : Context) (q : ℚ) : Prop :=
  q = 0 ∨ 10 ^ (-maxExponent) ≤ |q| ∧ |q| < 10 ^ (maxExponent + 1) ∧
    (context.snap = true → epsilon.toRat < |q|)

theorem admits_zero : context.Admits 0 := Or.inl rfl

/-- An admitted number is left alone in every representation. -/
theorem Admits.kept (h : context.Admits x.toRat) :
    confine x = some x ∧ context.snapped x = x := by
  by_cases hx : x.mantissa = 0
  · exact ⟨confine_of_zero hx, snapped_of_zero hx⟩
  · rcases h with hzero | ⟨hlow, hhigh, hsnap⟩
    · exact absurd (toRat_eq_zero.1 hzero) hx
    · constructor
      · rw [confine_eq hx, if_neg (not_le.2 hhigh), if_neg (not_lt.2 hlow)]
      · by_cases hsnapping : context.snap = true
        · rw [snapped_eq hx hsnapping, if_neg (not_le.2 (hsnap hsnapping))]
        · exact snapped_of_not_snap hsnapping

/-- What passes both tests is admitted, and it is the value itself or zero. -/
theorem admits_of_confine (context : Context) (h : confine x = some y) :
    context.Admits (context.snapped y).toRat ∧
      (context.snapped y = x ∨ context.snapped y = .zero) := by
  by_cases hx : x.mantissa = 0
  · obtain rfl : x = y := Option.some.inj ((confine_of_zero hx).symm.trans h)
    rw [snapped_of_zero hx]
    exact ⟨Or.inl (toRat_eq_zero.2 hx), Or.inl rfl⟩
  · rw [confine_eq hx] at h
    split_ifs at h with hhigh hlow
    · obtain rfl := Option.some.inj h
      rw [snapped_of_zero (show zero.mantissa = 0 from rfl), toRat_zero]
      exact ⟨admits_zero, Or.inr rfl⟩
    · obtain rfl := Option.some.inj h
      by_cases hsnap : context.snap = true
      · rw [snapped_eq hx hsnap]
        by_cases hsmall : |x.toRat| ≤ epsilon.toRat
        · rw [if_pos hsmall, toRat_zero]
          exact ⟨admits_zero, Or.inr rfl⟩
        · rw [if_neg hsmall]
          exact ⟨Or.inr ⟨not_lt.1 hlow, not_le.1 hhigh, fun _ => not_le.1 hsmall⟩, Or.inl rfl⟩
      · rw [snapped_of_not_snap hsnap]
        exact ⟨Or.inr ⟨not_lt.1 hlow, not_le.1 hhigh, fun h => absurd h hsnap⟩, Or.inl rfl⟩

/-! ## Rounding -/

/-- No more digits than a rounding leaves, or no fraction. -/
def Short (context : Context) (x : Decimal) : Prop :=
  x.digits ≤ context.precision + 1 ∨ x.scale ≤ 0

theorem short_zero : context.Short .zero := Or.inr (Int.le_refl 0)

theorem short_round (hprecision : context.precision ≠ 0) (x : Decimal) :
    context.Short (context.round x).1 := by
  rw [round]
  by_cases hfew : x.digits ≤ context.precision
  · rw [if_pos (by simp [hfew])]
    exact Or.inl (Nat.le_succ_of_le hfew)
  · rw [if_neg (by simp [hprecision, hfew])]
    show context.Short (x.roundTo _ _)
    generalize hscale : saturate (x.scale - ((x.digits - context.precision : ℕ) : ℤ)) = scale
    rw [saturate] at hscale
    by_cases hlow : x.scale - ((x.digits - context.precision : ℕ) : ℤ) < -9223372036854775808
    · -- The rounding position is held at the lower end of its range, far above the point.
      right
      rw [scale_roundTo]
      omega
    · left
      exact digits_roundTo_le (by omega) (by omega)

/-- A settled value is admitted and short. -/
theorem settled_of_settle {lost : Bool} (hprecision : context.precision ≠ 0)
    (h : context.settle x = some (y, lost)) : context.Admits y.toRat ∧ context.Short y := by
  have hshort := short_round hprecision x
  rw [settle] at h
  generalize context.round x = rounded at h hshort
  obtain ⟨value, hconfine, hvalue⟩ := Option.map_eq_some_iff.1 h
  obtain ⟨rfl, -⟩ := Prod.mk.inj hvalue
  obtain ⟨hadmits, hkept | hzero⟩ := admits_of_confine context hconfine
  · rw [hkept] at hadmits ⊢
    exact ⟨hadmits, hshort⟩
  · rw [hzero] at hadmits ⊢
    exact ⟨hadmits, short_zero⟩

end Context
end DeskCalc
