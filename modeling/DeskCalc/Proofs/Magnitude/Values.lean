import DeskCalc.Proofs.Operands

/-
The values in a chain.

Steps pass values on and drop them.  So what holds of the values of all words and of every
settled value holds of all values in every state of the chain.
-/
namespace DeskCalc

/-- What the number holds, if it is not a placeholder, has the property. -/
def Number.Holds (P : Decimal → Prop) (number : Number) : Prop :=
  ∀ x, number.value = some x → P x

def Row.Holds (P : Decimal → Prop) (row : Row) : Prop := ∀ number ∈ row.operands, number.Holds P

namespace Chain

variable {P : Decimal → Prop} {context : Context} {register : Option Register}

theorem holds_placeholder : Number.placeholder.Holds P := fun _ hvalue => by cases hvalue

theorem holds_operand {word : Word} {x : Decimal} (h : P x) : (operand word x).Holds P := by
  intro y hy
  obtain rfl := Option.some.inj hy
  exact h

/-- The values of a chain are those of its words. -/
theorem holds_ofWords {words : List Word} {chain : Chain}
    (hvalues : ∀ word ∈ words, ∀ values, wordValues context register word = .ok values →
      ∀ x ∈ values, P x)
    (hchain : ofWords words register context = .ok chain) : chain.toRow.Holds P :=
  all_ofWords holds_placeholder
    (fun word hword values hread x hx => holds_operand (hvalues word hword values hread x hx))
    hchain

section Steps

variable {left : Number} {link : Link} {rest : List Link} {chain after : Chain}

theorem holds_cons : Row.Holds P ⟨left, link :: rest⟩ ↔
    left.Holds P ∧ Row.Holds P ⟨link.right, rest⟩ := List.forall_mem_cons

variable (hsettled : ∀ x y lost, context.settle x = some (y, lost) → P y)
include hsettled

theorem holds_settle {outcome : Outcome} {words : List Word} {inexact mark : Bool}
    {number : Number} (h : settle context inexact outcome words = .ok (number, mark)) :
    number.Holds P := by
  obtain ⟨y, lost, hsettle, rfl⟩ := settle_eq_ok h
  intro x hx
  obtain rfl := Option.some.inj hx
  exact hsettled _ _ _ hsettle

/-- The words of a number do not matter to its value, and every outcome is settled. -/
theorem keeps_holds : Keeps context (Number.Holds P) where
  placeholder := holds_placeholder
  reworded := fun _ h => h
  called := fun _ hsettle => holds_settle hsettled hsettle
  computed := fun _ hsettle => holds_settle hsettled hsettle

/-- A step brings in settled values only. -/
theorem holds_step (h : chain.toRow.Holds P) (hstep : chain.step context = .reduced after) :
    after.toRow.Holds P := (keeps_holds hsettled).step h hstep

theorem Leads.holds (h : Leads context chain after) (hchain : chain.toRow.Holds P) :
    after.toRow.Holds P := (keeps_holds hsettled).leads hchain h

end Steps
end Chain
end DeskCalc
