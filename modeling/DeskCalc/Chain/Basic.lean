import DeskCalc.Operator
import DeskCalc.Number

/-
Chains: operands with weighted operators between them.

A chain holds a first operand and links of an operator with the operand on its
right, so operands and operators alternate by construction.  Parentheses and
calls are operators too; in front of a `(` or a function name, and behind a `)`,
stands a placeholder.
-/
namespace DeskCalc

structure Link where
  operator : Operator
  right : Number
  deriving DecidableEq, Repr

/-- Operands and operators in turn, the outer ones being operands. -/
structure Row where
  first : Number
  links : List Link
  deriving DecidableEq, Repr

/-- A row with the mark that a step has lost digits. -/
structure Chain extends Row where
  inexact : Bool := false
  deriving DecidableEq, Repr

namespace Row

def operators (row : Row) : List Operator := row.links.map Link.operator

def operands (row : Row) : List Number := row.first :: row.links.map Link.right

def weights (row : Row) : List Int := row.operators.map Operator.weight

theorem length_operands (row : Row) : row.operands.length = row.operators.length + 1 := by
  simp [operands, operators]

/-- The row with an operand and an operator put in front. -/
def attach (left : Number) (operator : Operator) (row : Row) : Row :=
  ⟨left, ⟨operator, row.first⟩ :: row.links⟩

/-- The words of operands and operators from left to right. -/
def words (row : Row) : List Word :=
  row.first.words ++ row.links.flatMap fun link => link.operator.words ++ link.right.words

end Row

namespace Chain

/-- The position and value of the first greatest weight. -/
def firstGreatest : List Int → Option (Nat × Int)
  | [] => none
  | w :: rest =>
      match firstGreatest rest with
      | some (i, best) => if w < best then some (i + 1, best) else some (0, w)
      | none => some (0, w)

/-- The position of the operator to apply next: the first one of the greatest
weight. -/
def next? (chain : Chain) : Option Nat := (firstGreatest chain.weights).map Prod.fst

theorem firstGreatest_bound {weights : List Int} {i : Nat} {best : Int}
    (h : firstGreatest weights = some (i, best)) :
    weights[i]? = some best ∧ ∀ w ∈ weights, w ≤ best := by
  induction weights generalizing i best with
  | nil => simp [firstGreatest] at h
  | cons w rest ih =>
    rw [firstGreatest] at h
    match hrest : firstGreatest rest with
    | none =>
      rw [hrest] at h
      simp only [Option.some.injEq, Prod.mk.injEq] at h
      obtain ⟨rfl, rfl⟩ := h
      have : rest = [] := by
        cases rest with
        | nil => rfl
        | cons v rest =>
          rw [firstGreatest] at hrest
          split at hrest
          · split at hrest <;> simp at hrest
          · simp at hrest
      simp [this]
    | some (j, b) =>
      rw [hrest] at h
      obtain ⟨hj, hall⟩ := ih hrest
      simp only at h
      split at h
      · next hlt =>
        simp only [Option.some.injEq, Prod.mk.injEq] at h
        obtain ⟨rfl, rfl⟩ := h
        refine ⟨by simpa using hj, ?_⟩
        intro v hv
        rcases List.mem_cons.1 hv with rfl | hv
        · exact Int.le_of_lt hlt
        · exact hall v hv
      · next hlt =>
        simp only [Option.some.injEq, Prod.mk.injEq] at h
        obtain ⟨rfl, rfl⟩ := h
        refine ⟨rfl, ?_⟩
        intro v hv
        rcases List.mem_cons.1 hv with rfl | hv
        · exact Int.le_refl _
        · exact Int.le_trans (hall v hv) (Int.not_lt.1 hlt)

end Chain
end DeskCalc
