import DeskCalc.Proofs.Decimal.Canonical
import DeskCalc.Proofs.Decimal.Whole

/-
What is shown of a number.

A sum, or the largest of several arguments, comes in a representation that depends on the order of
the arguments.  Settled and finalized it does not: an exact result is written without trailing
zeros, and one that lost digits was rounded to a place that its number decides about.
-/
namespace DeskCalc
namespace Decimal

variable {x y : Decimal} {n : ℤ}

/-- A sum has no more places than one of its summands. -/
theorem scale_add_le (hx : x.scale ≤ n) (hy : y.scale ≤ n) : (x + y).scale ≤ n := by
  rw [add_eq]
  split
  · rw [extendTowards, extend]
    dsimp only
    omega
  · split
    · rw [extendTowards, extend]
      dsimp only
      omega
    · exact max_le hx hy

theorem eq_of_scale (h : x.toRat = y.toRat) (hscale : x.scale = y.scale) : x = y := by
  have hextended := extend_eq_of_toRat h hscale.le
  rw [hscale, sub_self, Int.toNat_zero, extend] at hextended
  simpa using hextended

/-- Without zeros at its end a number is written in one way. -/
theorem normalize_congr (h : x.toRat = y.toRat) : x.normalize = y.normalize := by
  have hlonger : ∀ {x y : Decimal}, x.toRat = y.toRat → y.mantissa ≠ 0 →
      x.normalize.scale ≤ y.normalize.scale → y.normalize.scale ≤ x.normalize.scale := by
    intro x y h hy hscale
    have hsame : x.normalize.toRat = y.normalize.toRat := by
      rw [toRat_normalize, toRat_normalize, h]
    have hextended := extend_eq_of_toRat hsame hscale
    by_contra hlt
    obtain ⟨k, hk⟩ : ∃ k, (y.normalize.scale - x.normalize.scale).toNat = k + 1 :=
      ⟨(y.normalize.scale - x.normalize.scale).toNat - 1, by omega⟩
    refine not_ten_dvd_normalize hy ?_
    rw [← hextended, hk, extend, Int.natAbs_mul, Int.natAbs_pow, pow_succ, ← mul_assoc]
    exact Nat.dvd_mul_left _ _
  by_cases hx : x.mantissa = 0
  · rw [normalize, normalize, if_pos (isZero_of_eq hx),
      if_pos (isZero_of_eq ((mantissa_eq_zero_congr h).1 hx))]
  · have hy : y.mantissa ≠ 0 := (mantissa_eq_zero_congr h).not.1 hx
    refine eq_of_scale (by rw [toRat_normalize, toRat_normalize, h]) ?_
    rcases le_total x.normalize.scale y.normalize.scale with hle | hle
    · exact le_antisymm hle (hlonger h hy hle)
    · exact le_antisymm (hlonger h.symm hx hle) hle

end Decimal

namespace Context

open Decimal

variable {context : Context} {x y : Decimal}

/-- What a context shows of a value, if the value is in range. -/
def shown? (context : Context) (x : Decimal) : Option Decimal :=
  (context.settle x).map fun settled => context.finalize settled.1 settled.2

theorem scale_round_le {n : ℤ} (hn : 0 ≤ n) (hx : x.scale ≤ n) : (context.round x).1.scale ≤ n := by
  rw [round]
  split
  · exact hx
  · dsimp only
    rw [scale_roundTo, saturate]
    omega

theorem scale_settle_le {n : ℤ} (hn : 0 ≤ n) {lost : Bool} (hx : x.scale ≤ n)
    (h : context.settle x = some (y, lost)) : y.scale ≤ n := by
  rcases eq_round_or_zero h with rfl | rfl
  · exact scale_round_le hn hx
  · exact hn

/-- A number that would be rounded at a place below 64 bits is out of range. -/
theorem settled?_toDigits_of_far {q : ℚ} (hprecision : 1 ≤ context.precision)
    (hfar : RoundingMode.shift context.precision q < -9223372036854775808) :
    context.settled? (context.rounding.toDigits context.precision q) = none := by
  have hunit := RoundingMode.unit_le_abs hprecision (show RoundingMode.shift _ q < 0 by omega)
  rw [settled?_eq_none_iff]
  refine le_trans (zpow_le_zpow_right₀ (by norm_num) ?_)
    (RoundingMode.le_abs_toPlaces context.rounding hunit)
  have hmax : maxExponent = 10000 := rfl
  omega

theorem settled?_of_admits {q : ℚ} (h : context.Admits q) : context.settled? q = some q := by
  rcases h with rfl | ⟨hlow, hhigh, hsnap⟩
  · exact settled?_zero context
  · rw [settled?, if_neg (not_le.2 hhigh), if_neg (not_lt.2 hlow), if_neg]
    rintro ⟨hsnapping, hsmall⟩
    have hlarge := hsnap hsnapping
    rw [toRat_epsilon] at hlarge
    exact absurd hsmall (not_le.2 hlarge)

/-- A value with a scale in range is rounded once, and settling notices whether that changes its
number. -/
theorem settle_once (hprecision : 1 ≤ context.precision) (hscale : x.scale ≤ maxScale) :
    (context.settle x).map (fun settled => settled.1.toRat) =
        context.settled? (context.rounding.toDigits context.precision x.toRat) ∧
      ∀ y lost, context.settle x = some (y, lost) →
        (lost = true ↔ context.rounding.toDigits context.precision x.toRat ≠ x.toRat) := by
  by_cases hfar : context.precision < x.digits ∧
      RoundingMode.shift context.precision x.toRat < -9223372036854775808
  · obtain ⟨hmore, hfar⟩ := hfar
    have hnone := settled?_of_far hprecision hmore hfar
    rw [← toRat_settle] at hnone
    rw [hnone, settled?_toDigits_of_far hprecision hfar]
    refine ⟨rfl, ?_⟩
    intro y lost h
    rw [h] at hnone
    cases hnone
  · obtain ⟨hround, hlost⟩ := round_eq (by omega) fun hmore : context.precision < x.digits => by
      have hplace := place_eq_shift hprecision hmore
      rw [maxScale] at hscale
      constructor <;> omega
    rw [toRat_settle, hround]
    refine ⟨rfl, ?_⟩
    intro y lost h
    rw [lost_settle h, hlost]

/-- Settling keeps a number that is in range and has few enough digits. -/
theorem settle_kept (hprecision : 1 ≤ context.precision) (hscale : x.scale ≤ maxScale)
    (hdigits : InDigits context.precision x.toRat) (hadmits : context.Admits x.toRat) :
    ∃ y, context.settle x = some (y, false) ∧ y.toRat = x.toRat ∧ y.scale ≤ maxScale := by
  have hkept : context.rounding.toDigits context.precision x.toRat = x.toRat :=
    (RoundingMode.toDigits_eq_iff _ hprecision).2 hdigits
  obtain ⟨hvalue, hlost⟩ := settle_once hprecision hscale
  rw [hkept] at hvalue hlost
  rw [settled?_of_admits hadmits] at hvalue
  obtain ⟨⟨y, lost⟩, hsettle, hy⟩ := Option.map_eq_some_iff.1 hvalue
  obtain rfl : lost = false := Bool.eq_false_of_not_eq_true fun h => (hlost y lost hsettle).1 h rfl
  exact ⟨y, hsettle, hy, scale_settle_le (by decide) hscale hsettle⟩

/-- A value that loses digits is rounded at a place that its number decides about. -/
theorem round_congr (hprecision : 1 ≤ context.precision) (h : x.toRat = y.toRat)
    (hx : context.precision < x.digits) (hy : context.precision < y.digits) :
    context.round x = context.round y := by
  have hplace := place_eq_shift hprecision hx
  rw [h, ← place_eq_shift hprecision hy] at hplace
  have hrounded : ∀ z : Decimal, context.precision < z.digits → context.round z =
      (z.roundTo (saturate (z.scale - (z.digits - context.precision : ℕ))) context.rounding,
        !(z.roundTo (saturate (z.scale - (z.digits - context.precision : ℕ)))
          context.rounding).same z) := by
    intro z hz
    rw [round, if_neg (by simp; omega)]
  rw [hrounded x hx, hrounded y hy, hplace]
  generalize saturate (y.scale - (y.digits - context.precision : ℕ)) = place
  have hsame : x.roundTo place context.rounding = y.roundTo place context.rounding := by
    refine eq_of_scale ?_ (by rw [scale_roundTo, scale_roundTo])
    rw [toRat_roundTo_eq, toRat_roundTo_eq, h]
  have hlost : (y.roundTo place context.rounding).same x =
      (y.roundTo place context.rounding).same y := by
    rw [Bool.eq_iff_iff, same_iff, same_iff, h]
  rw [hsame, hlost]

theorem finalize_exact_congr (h : x.toRat = y.toRat) :
    context.finalize x false = context.finalize y false := by
  rw [finalize, finalize, normalize_congr h]
  rfl

/-- What is shown depends on the number alone. -/
theorem shown?_congr (hprecision : 1 ≤ context.precision) (h : x.toRat = y.toRat)
    (hx : x.scale ≤ maxScale) (hy : y.scale ≤ maxScale) :
    context.shown? x = context.shown? y := by
  by_cases hkept : context.rounding.toDigits context.precision x.toRat = x.toRat
  · obtain ⟨hvalue, hlost⟩ := settle_once hprecision hx
    obtain ⟨hvalue', hlost'⟩ := settle_once hprecision hy
    rw [← h, ← hvalue] at hvalue'
    rw [← h] at hlost'
    rw [shown?, shown?]
    cases hsettle : context.settle x with
    | none =>
      rw [hsettle] at hvalue'
      rw [Option.map_eq_none_iff.1 hvalue']
    | some settled =>
      obtain ⟨value, lost⟩ := settled
      rw [hsettle] at hvalue'
      obtain ⟨⟨value', lost''⟩, hsettle', hsame⟩ := Option.map_eq_some_iff.1 hvalue'
      have hexact : lost = false :=
        Bool.eq_false_of_not_eq_true fun hloses => (hlost value lost hsettle).1 hloses hkept
      have hexact' : lost'' = false :=
        Bool.eq_false_of_not_eq_true fun hloses => (hlost' value' lost'' hsettle').1 hloses hkept
      rw [hsettle', Option.map_some, Option.map_some, hexact, hexact',
        finalize_exact_congr hsame]
  · have hmore : ∀ {z : Decimal}, x.toRat = z.toRat → context.precision < z.digits := by
      intro z hz
      by_contra hfew
      rw [hz, toDigits_of_few _ (not_lt.1 hfew)] at hkept
      exact hkept rfl
    rw [shown?, settle, round_congr hprecision h (hmore rfl) (hmore h)]
    rfl

end Context
end DeskCalc
