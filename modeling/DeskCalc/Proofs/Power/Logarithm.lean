import DeskCalc.Proofs.Decimal.Canonical

/-
The logarithm and the exponential of a number.

Before a series starts, its argument has been brought to a fixed number of digits, and so it is
one decimal for all decimals of one number.  From there on everything is the same: a power
through the logarithm is one decimal, whatever base and exponent are written like
(`powf?_congr`).
-/
namespace DeskCalc
namespace Decimal

variable {x y : Decimal} {working : ℕ}

/-- What is the same for all zeros does not depend on how a shortened number was written. -/
theorem congr_withDigits {α : Type} {f : Decimal → α} {a : α}
    (hzero : ∀ z : Decimal, z.mantissa = 0 → f z = a) (hworking : working ≠ 0)
    (h : x.toRat = y.toRat) : f (x.withDigits working) = f (y.withDigits working) := by
  by_cases hx : x.mantissa = 0
  · rw [hzero _ (mantissa_withDigits_of_zero hworking hx),
      hzero _ (mantissa_withDigits_of_zero hworking ((mantissa_eq_zero_congr h).1 hx))]
  · rw [withDigits_congr h hx]

/-! ## The logarithm -/

/-- The first root brings decimals of one number together; without one, they are the result. -/
theorem pullToOne_congr (h : x.toRat = y.toRat) (hx : 0 < x.mantissa) (working fuel : ℕ) :
    pullToOne working fuel x = pullToOne working fuel y ∨
      pullToOne working fuel x = (x, 0) ∧ pullToOne working fuel y = (y, 0) := by
  have hy := (mantissa_pos_congr h).1 hx
  cases fuel with
  | zero => exact Or.inr ⟨rfl, rfl⟩
  | succ fuel =>
    have hnear : x.nearOne = y.nearOne := by
      simp only [nearOne, le_iff, h]
    rw [pullToOne, pullToOne, hnear]
    split
    · exact Or.inr ⟨rfl, rfl⟩
    · left
      have hroot : (if x.toRat = 1 then x else x.longRoot).withDigits working =
          (if x.toRat = 1 then y else y.longRoot).withDigits working := by
        split
        · exact withDigits_congr h hx.ne' working
        · rw [congr_of_extend (fun _ k hz => longRoot_extend hz k) h hx.ne']
      rw [sqrt?_eq hx, sqrt?_eq hy, ← h, ← apply_ite, ← apply_ite]
      dsimp only
      rw [hroot]

/-- The argument of the series is a quotient of less than a hundred digits in front of its
point, and so it depends on the number alone. -/
theorem toRat_ratio_congr (h : x.toRat = y.toRat) (hx : 0 < x.mantissa) :
    ((x - one) / (x + one)).toRat = ((y - one) / (y + one)).toRat := by
  have hratio : ∀ {z : Decimal}, 0 < z.mantissa → ((z - one) / (z + one)).toRat =
      RoundingMode.halfUp.toDigits 100 ((z.toRat - one.toRat) / (z.toRat + one.toRat)) := by
    intro z hz
    have hone : 0 < one.mantissa := by decide
    have hsum : (z + one).mantissa.natAbs ≠ 0 :=
      Int.natAbs_ne_zero.2 (mantissa_add_pos hz hone).ne'
    have hbelow : (z - one).mantissa.natAbs ≤ (z + one).mantissa.natAbs := by
      have haligned : 0 < z.mantissaAt (max z.scale one.scale) :=
        mul_pos hz (pow_pos (by norm_num) _)
      have haligned' : 0 < one.mantissaAt (max z.scale one.scale) :=
        mul_pos hone (pow_pos (by norm_num) _)
      rw [sub_eq, add_eq, isZero_of_ne hz.ne', isZero_of_ne hone.ne', if_neg Bool.false_ne_true,
        if_neg Bool.false_ne_true]
      dsimp only
      omega
    rw [toRat_div (by omega), toRat_sub, toRat_add]
  rw [hratio hx, hratio ((mantissa_pos_congr h).1 hx), h]

theorem lnReduced_congr (h : x.toRat = y.toRat) (hx : 0 < x.mantissa) :
    x.lnReduced working = y.lnReduced working := by
  have hprecise : working + guardDigits ≠ 0 := by
    have hguard : guardDigits = 10 := rfl
    omega
  have hbound : x.rootBound = y.rootBound := by rw [rootBound, rootBound, adjustedExponent_congr h]
  rw [lnReduced_eq, lnReduced_eq, hbound]
  dsimp only
  rcases pullToOne_congr h hx (working + guardDigits) y.rootBound with hsame | hstay
  · rw [hsame]
  · rw [hstay.1, hstay.2]
    have hzero : ∀ z : Decimal, z.mantissa = 0 → atanh z (working + guardDigits) = zero := by
      intro z hz
      rw [atanh_eq, isZero_of_eq hz, if_pos rfl]
    rw [congr_withDigits hzero hprecise (toRat_ratio_congr h hx)]

variable {d : ℕ} {precision : ℕ}

theorem split_congr (h : x.toRat = y.toRat) (hpos : 0 < x.mantissa) (hd : d ≤ 1125899906842624)
    (hx : Sized d (-10000) 10000 x) (hy : Sized d (-10000) 10000 y) :
    x.split.1.toRat = y.split.1.toRat ∧ x.split.2 = y.split.2 := by
  have hpos' := (mantissa_pos_congr h).1 hpos
  have hlead := leadingExponent_congr h hpos.ne'
  have hxlead : x.leadingExponent = x.digits - 1 - x.scale := rfl
  have hylead : y.leadingExponent = y.digits - 1 - y.scale := rfl
  -- The leading part is the number, moved to the place of its leading digit.
  have hmoved : ∀ {scale scale' : ℤ} (exponent : ℤ), scale - exponent = x.scale →
      scale' - exponent = y.scale → toRat ⟨x.mantissa, scale⟩ = toRat ⟨y.mantissa, scale'⟩ := by
    intro scale scale' exponent hscale hscale'
    refine mul_right_cancel₀ (ten_zpow_ne_zero exponent) ?_
    rw [← toRat_moved hscale, ← toRat_moved hscale', h]
  have hleading : toRat ⟨x.mantissa, x.digits - 1⟩ = toRat ⟨y.mantissa, y.digits - 1⟩ :=
    hmoved x.leadingExponent (by omega) (by omega)
  have hnext : toRat ⟨x.mantissa, x.digits⟩ = toRat ⟨y.mantissa, y.digits⟩ :=
    hmoved (x.leadingExponent + 1) (by omega) (by omega)
  have hlimit : d ≤ 4611686018427387904 := hd.trans (by norm_num)
  rw [split_eq hpos hlimit hx, split_eq hpos' hlimit hy]
  simp only [le_iff, hleading]
  split
  · exact ⟨hnext, congrArg (· + 1) hlead⟩
  · exact ⟨hleading, hlead⟩

theorem ln?_congr (h : x.toRat = y.toRat) (hd : d ≤ 1125899906842624)
    (hx : Sized d (-10000) 10000 x) (hy : Sized d (-10000) 10000 y) :
    x.ln? precision = y.ln? precision := by
  have hpositive : x.isPositive = y.isPositive := by
    rw [isPositive, isPositive, decide_eq_decide, mantissa_pos_congr h]
  rw [ln?_eq, ln?_eq, hpositive]
  split
  · next hpos =>
    rw [← hpositive] at hpos
    have hmantissa : 0 < x.mantissa := of_decide_eq_true hpos
    obtain ⟨hleading, hexponent⟩ := split_congr h hmantissa hd hx hy
    have hsplit := (split_sized hmantissa (hd.trans (by norm_num)) hx).1
    generalize x.split = left at hleading hexponent hsplit
    generalize y.split = right at hleading hexponent
    obtain ⟨leading, exponent⟩ := left
    obtain ⟨leading', exponent'⟩ := right
    dsimp only at hleading hexponent hsplit ⊢
    rw [lnReduced_congr hleading hsplit, hexponent]
  · rfl

/-! ## The exponential -/

/-- A power through the logarithm is one decimal for all decimals of base and exponent. -/
theorem powf?_congr {base base' exponent exponent' : Decimal} (hbase : base.toRat = base'.toRat)
    (hexponent : exponent.toRat = exponent'.toRat) (hd : d ≤ 1125899906842624)
    (hx : Sized d (-10000) 10000 base) (hx' : Sized d (-10000) 10000 base') :
    base.powf? exponent precision = base'.powf? exponent' precision := by
  have hguard : guardDigits = 10 := rfl
  rw [powf?_eq, powf?_eq]
  dsimp only
  rw [← ln?_congr hbase hd hx hx']
  cases hlogarithm : base.ln? (precision + guardDigits) with
  | none => rfl
  | some logarithm =>
    have hproduct : (exponent * logarithm).toRat = (exponent' * logarithm).toRat := by
      rw [toRat_mul, toRat_mul, hexponent]
    have hzero : ∀ z : Decimal, z.mantissa = 0 → exp? z (precision + guardDigits) = some one := by
      intro z hz
      rw [exp?_eq, isZero_of_eq hz, if_pos rfl]
    exact congr_withDigits hzero (by omega) hproduct

end Decimal
end DeskCalc
