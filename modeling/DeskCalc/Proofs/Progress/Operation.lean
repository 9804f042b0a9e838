import DeskCalc.Chain.Reduce
import DeskCalc.Proofs.Tree.Syntax

/-
Operations on values fail for many reasons, but not for want of an operand.

So a chain can miss an operand only where an operator meets a placeholder.
-/
namespace DeskCalc

/-- The error of an operator that has no value on one of its sides. -/
def EvalError.IsMissing : EvalError → Prop
  | .missingOperand _ _ => True
  | _ => False

/-! ## Operations on values -/

/-- A computation that may fail, but not for want of an operand. -/
structure Supplied {α : Type} (result : Except EvalError α) : Prop where
  not_missing : ∀ error, result = .error error → ¬ error.IsMissing

section Supplied

variable {α β : Type}

theorem supplied_ok (a : α) : Supplied (.ok a : Except EvalError α) := by
  refine ⟨fun error h => ?_⟩
  cases h

theorem supplied_error {error : EvalError} (h : ¬ error.IsMissing) :
    Supplied (.error error : Except EvalError α) := by
  refine ⟨fun error' heq => ?_⟩
  exact Except.error.inj heq ▸ h

theorem Supplied.bind {result : Except EvalError α} {f : α → Except EvalError β}
    (h : Supplied result) (hf : ∀ a, result = .ok a → Supplied (f a)) :
    Supplied (result.bind f) := by
  refine ⟨fun error herror => ?_⟩
  rcases bind_eq_error herror with herror | ⟨a, ha, herror⟩
  · exact h.not_missing error herror
  · exact (hf a ha).not_missing error herror

end Supplied

namespace Arithmetic

theorem supplied_divide (x y : Decimal) (span : Span) : Supplied (divide x y span) := by
  rw [divide_eq]
  split
  · exact supplied_error id
  · exact supplied_ok _

theorem supplied_integerPower (context : Context) (base : Decimal) (exponent : Int)
    (span : Span) : Supplied (integerPower context base exponent span) := by
  rw [integerPower_eq]
  split
  · exact supplied_error id
  · dsimp only
    split
    · split
      · exact supplied_ok _
      · split
        · exact supplied_error id
        · exact (supplied_divide ..).bind fun _ _ => supplied_ok _
    · exact supplied_ok _

theorem supplied_fractionalPower (context : Context) (base exponent : Decimal) (span : Span) :
    Supplied (fractionalPower context base exponent span) := by
  rw [fractionalPower_eq]
  split
  · exact supplied_error id
  · split
    · split
      · exact supplied_ok _
      · exact supplied_error id
    · split
      · exact supplied_error id
      · split
        · exact supplied_ok _
        · exact supplied_ok _

theorem supplied_eval (context : Context) (op : Arithmetic) (x y : Decimal) (span : Span) :
    Supplied (op.eval context x y span) := by
  cases op with
  | pow =>
    show Supplied (power context x y span)
    rw [power_eq]
    split
    · split
      · exact supplied_integerPower ..
      · exact supplied_fractionalPower ..
    · exact supplied_fractionalPower ..
  | div => exact supplied_divide x y span
  | _ => exact supplied_ok _

end Arithmetic

namespace Builtin

theorem supplied_series (builtin : Builtin) (x : Decimal) (defined exact : Bool)
    (value : Option Decimal) (span : Span) :
    Supplied (evalSeries builtin x defined exact value span) := by
  unfold evalSeries
  split
  · exact supplied_error id
  · split
    · exact supplied_error id
    · exact supplied_ok _

theorem supplied_radix (radix : Nat) (mark : Text) (x : Decimal) (span : Span) :
    Supplied (evalRadix radix mark x span) := by
  unfold evalRadix
  split
  · exact supplied_error id
  · exact supplied_ok _

theorem supplied_apply (context : Context) (builtin : Builtin) (args : List Decimal)
    (span : Span) : Supplied (builtin.apply context args span) := by
  rw [apply_eq]
  split
  · unfold evalSum
    split
    · exact supplied_error id
    · exact supplied_ok _
  · unfold evalMax
    split
    · exact supplied_error id
    · exact supplied_ok _
  · unfold evalMin
    split
    · exact supplied_error id
    · exact supplied_ok _
  · exact supplied_ok _
  · rw [evalSqrt_eq]
    split
    · exact supplied_error id
    · exact supplied_ok _
  · rw [evalLn_eq]
    exact supplied_series ..
  · rw [evalLog_eq]
    exact supplied_series ..
  · rw [evalExp_eq]
    exact supplied_series ..
  · unfold evalRound
    split
    · exact supplied_error id
    · exact supplied_ok _
  · exact supplied_radix ..
  · exact supplied_radix ..
  · exact supplied_error id

theorem supplied_checkArguments (builtin : Builtin) (span : Span) {arguments : List Number}
    (h : ∀ number ∈ arguments, number.isPlaceholder = false) (position : Nat) :
    Supplied (builtin.checkArguments span position arguments) := by
  induction arguments generalizing position with
  | nil => exact supplied_ok _
  | cons number rest ih =>
    obtain ⟨hnumber, hrest⟩ := List.forall_mem_cons.1 h
    have hone : Supplied (builtin.checkArgument position number span) := by
      unfold checkArgument
      split
      · next hnone => simp [Number.isPlaceholder, hnone] at hnumber
      · dsimp only
        split
        · exact supplied_error id
        · exact supplied_ok _
    exact hone.bind fun _ _ => (ih hrest _).bind fun _ _ => supplied_ok _

/-- A call of values does not miss an operand, however many there are. -/
theorem supplied_call (context : Context) (builtin : Builtin) {arguments : List Number}
    (h : ∀ number ∈ arguments, number.isPlaceholder = false) (span : Span) :
    Supplied (builtin.call context arguments span) := by
  rw [call_eq]
  split
  · exact supplied_error id
  · exact (supplied_checkArguments builtin span h 0).bind fun _ _ => supplied_apply ..

end Builtin

namespace Chain

theorem supplied_settle (context : Context) (inexact : Bool) (outcome : Outcome)
    (words : List Word) : Supplied (settle context inexact outcome words) := by
  unfold settle
  split
  · exact supplied_error id
  · exact supplied_ok _

theorem isSome_settle {context : Context} {inexact mark : Bool} {outcome : Outcome}
    {words : List Word} {number : Number}
    (h : settle context inexact outcome words = .ok (number, mark)) :
    number.value.isSome = true := by
  unfold settle at h
  split at h
  · cases h
  · obtain ⟨rfl, -⟩ := Prod.mk.inj (Except.ok.inj h)
    rfl

end Chain
end DeskCalc
