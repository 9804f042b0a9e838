import DeskCalc.Proofs.Decimal.Finalized
import DeskCalc.Proofs.Magnitude.Values
import DeskCalc.Proofs.Scale.Power

/-
The scales in a whole run.

If all values of a chain are in range, the scales of the factors add up in its next step, on an
operator and in a call alike, and a settled value is in range again; so they add up in all steps
of a run.
-/
namespace DeskCalc

open Decimal Checked Demand

variable {d : ℕ} {x : Decimal}

/-- A settled value has few digits, or it has no fraction and is below 10^10001. -/
theorem Context.sized_settle {y : Decimal} {lost : Bool} (hd : 10001 ≤ d)
    (h : Context.settle {} x = some (y, lost)) : Sized d (-10000) 10000 y := by
  obtain ⟨hadmits, hshort⟩ := Context.settled_of_settle (by decide) h
  refine sized_of_admits hadmits fun hy => ?_
  have hmax : Context.maxExponent = 10000 := rfl
  have hlead := (hadmits.leadingExponent hy).2
  rcases hshort with hfew | hwhole
  · exact hfew.trans (show 30 + 1 ≤ d by omega)
  · rw [leadingExponent] at hlead
    omega

/-- The values that are checked are those of the arguments. -/
theorem Builtin.value_of_mem_checkArguments {builtin : Builtin} {span : Span} {position : ℕ}
    {arguments : List Number} {values : List Decimal}
    (h : builtin.checkArguments span position arguments = .ok values) (hx : x ∈ values) :
    ∃ number ∈ arguments, number.value = some x := by
  induction arguments generalizing position values with
  | nil =>
    obtain rfl := Except.ok.inj h
    cases hx
  | cons number rest ih =>
    obtain ⟨value, hvalue, h⟩ := bind_eq_ok h
    obtain ⟨others, hothers, h⟩ := bind_eq_ok h
    obtain rfl := Except.ok.inj h
    rcases List.mem_cons.1 hx with rfl | hx
    · refine ⟨number, List.mem_cons_self, ?_⟩
      unfold checkArgument at hvalue
      split at hvalue
      · cases hvalue
      · next y hy =>
        dsimp only at hvalue
        split at hvalue
        · cases hvalue
        · rwa [← Except.ok.inj hvalue]
    · obtain ⟨other, hother, hvalue⟩ := ih hothers hx
      exact ⟨other, List.mem_cons_of_mem _ hother, hvalue⟩

variable (hd : 10001 ≤ d) (hlimit : d ≤ 1125899906842624)
include hd hlimit

/-! ## Calls -/

namespace Builtin

/-- The root is squared with half the places of its argument. -/
theorem keeps_evalSqrtM (hx : Sized d (-10000) 10000 x) (span : Span) :
    (evalSqrtM x span).Keeps Adds fun _ => True := by
  rw [evalSqrtM]
  cases hroot : x.sqrt? with
  | none => exact keeps_pure trivial
  | some root =>
    have hplaces : (held (x.scale.toNat + 1)).Keeps Adds (· = (x.scale.toNat : ℤ) + 1) :=
      keeps_held trivial rfl
    refine hplaces.bind fun places hplaces => ?_
    dsimp only
    have hscale := scale_roundTo root (places / 2) .halfEven
    have hzero : x.mantissa = 0 → (root.roundTo (places / 2) .halfEven).mantissa = 0 := by
      intro hx
      rw [sqrt?, isZero_of_eq hx, Bool.true_or, if_pos rfl] at hroot
      rw [← Option.some.inj hroot, roundTo, isZero_of_eq hx, if_pos rfl]
    generalize root.roundTo (places / 2) .halfEven = candidate at hscale hzero
    suffices hsquare : (times candidate candidate).Keeps Adds fun _ => True from
      hsquare.bind fun _ _ => keeps_pure trivial
    refine keeps_times (fun hne _ => ?_) trivial
    obtain ⟨-, hsmall⟩ := hx.scale fun hx => hne (hzero hx)
    have hsum : InRange (candidate.scale + candidate.scale) := by constructor <;> omega
    refine ⟨hsum, ?_⟩
    show InRange (candidate * candidate).scale
    rw [mul_eq]
    split
    · next hone =>
      rw [hone]
      decide
    · exact hsum

theorem keeps_evalLogM (hx : Sized d (-10000) 10000 x) (span : Span) :
    (evalLogM {} x span).Keeps Adds fun _ => True := by
  have hten : Sized d (-10000) 10000 (ofInt 10) :=
    (show Sized 2 (-1) 1 (ofInt 10) from fun _ => by decide).mono (by omega) (by norm_num)
      (by norm_num)
  have hlog : (x.log10M? 30).Keeps Adds fun _ => True := by
    rw [log10M?]
    split
    · split
      · exact keeps_pure trivial
      · exact (keeps_lnM? (show 30 + 10 + 620 ≤ d by omega) hlimit hx).bind fun _ _ =>
          (keeps_lnM? (show 30 + 10 + 620 ≤ d by omega) hlimit hten).bind fun _ _ =>
            keeps_pure trivial
    · exact keeps_pure trivial
  exact hlog.bind fun _ _ => keeps_pure trivial

theorem keeps_applyM (builtin : Builtin) {values : List Decimal}
    (hvalues : ∀ x ∈ values, Sized d (-10000) 10000 x) (span : Span) :
    (builtin.applyM {} values span).Keeps Adds fun _ => True := by
  unfold applyM
  split
  case h_5 x => exact keeps_evalSqrtM hd hlimit (hvalues x List.mem_cons_self) span
  case h_6 x =>
    exact (keeps_lnM? (show 30 + 620 ≤ d by omega) hlimit (hvalues x List.mem_cons_self)).bind
      fun _ _ => keeps_pure trivial
  case h_7 x => exact keeps_evalLogM hd hlimit (hvalues x List.mem_cons_self) span
  case h_8 x =>
    exact (keeps_expM? (show 30 + 620 ≤ d by omega) hlimit (by norm_num)
      (hvalues x List.mem_cons_self)).bind fun _ _ => keeps_pure trivial
  all_goals exact keeps_pure trivial

/-- A call computes from the values of its arguments. -/
theorem keeps_callM (builtin : Builtin) {arguments : List Number}
    (harguments : ∀ number ∈ arguments, number.Holds (Sized d (-10000) 10000)) (span : Span) :
    (builtin.callM {} arguments span).Keeps Adds fun _ => True := by
  unfold callM
  split
  · exact keeps_pure trivial
  · split
    · exact keeps_pure trivial
    · next values hcheck =>
      refine keeps_applyM hd hlimit builtin (fun x hx => ?_) span
      obtain ⟨number, hnumber, hvalue⟩ := value_of_mem_checkArguments hcheck hx
      exact harguments number hnumber x hvalue

end Builtin

/-! ## Steps -/

namespace Chain

variable {inexact : Bool} {left : Number} {link : Link} {rest links : List Link} {chain : Chain}

theorem keeps_computeM (op : Arithmetic) (hleft : left.Holds (Sized d (-10000) 10000))
    (hright : link.right.Holds (Sized d (-10000) 10000)) :
    (computeM {} op left link).Keeps Adds fun _ => True := by
  unfold computeM
  split
  · next x y hx hy =>
    exact Arithmetic.keeps_evalM (by omega) hlimit op (hleft x hx) (hright y hy) _
  · exact keeps_pure trivial

theorem keeps_applyLinkM (h : Row.Holds (Sized d (-10000) 10000) ⟨left, link :: rest⟩) :
    (applyLinkM {} inexact left link rest).Keeps Adds fun _ => True := by
  obtain ⟨hleft, hrest⟩ := holds_cons.1 h
  have hright := (List.forall_mem_cons.1 hrest).1
  unfold applyLinkM
  split
  iterate 3 exact keeps_pure trivial
  · refine (Builtin.keeps_callM hd hlimit _ (fun number hnumber => ?_) _).bind
      fun _ _ => keeps_pure trivial
    rcases List.mem_cons.1 (List.mem_of_mem_filter hnumber) with rfl | hmem
    · exact hright
    · obtain ⟨other, hother, rfl⟩ := List.mem_map.1 hmem
      exact hrest _ (List.mem_cons_of_mem _
        (List.mem_map_of_mem (List.takeWhile_prefix _ |>.subset hother)))
  · exact (keeps_computeM hd hlimit _ hleft hright).bind fun _ _ => keeps_pure trivial

theorem keeps_reduceAtM {i : ℕ} (h : Row.Holds (Sized d (-10000) 10000) ⟨left, links⟩) :
    (reduceAtM {} inexact i left links).Keeps Adds fun _ => True := by
  induction i generalizing left links with
  | zero =>
    cases links with
    | nil => exact keeps_pure trivial
    | cons link rest => exact keeps_applyLinkM hd hlimit h
  | succ i ih =>
    cases links with
    | nil => exact keeps_pure trivial
    | cons link rest => exact (ih (holds_cons.1 h).2).bind fun _ _ => keeps_pure trivial

/-- The scales of a step add up, and a row that it leaves is in range again. -/
theorem keeps_stepM (h : chain.toRow.Holds (Sized d (-10000) 10000)) :
    (chain.stepM {}).Keeps Adds fun result => ∀ after, result = .reduced after →
      after.toRow.Holds (Sized d (-10000) 10000) where
  value := fun _ hstep => holds_step (fun _ _ _ => Context.sized_settle hd) h hstep
  demands := by
    have hkeeps : (chain.stepM {}).Keeps Adds fun _ => True := by
      unfold stepM
      split
      · exact keeps_pure trivial
      · exact (keeps_reduceAtM hd hlimit h).bind fun _ _ => keeps_pure trivial
    exact hkeeps.demands

theorem keeps_runM (fuel : ℕ) (h : chain.toRow.Holds (Sized d (-10000) 10000)) :
    (chain.runM {} fuel).Keeps Adds fun _ => True := by
  induction fuel generalizing chain with
  | zero => exact keeps_pure trivial
  | succ fuel ih =>
    rw [runM]
    refine (keeps_stepM hd hlimit h).bind fun result hresult => ?_
    cases result with
    | reduced after => exact ih (hresult after rfl)
    | exhausted | failed => exact keeps_pure trivial

end Chain
end DeskCalc
