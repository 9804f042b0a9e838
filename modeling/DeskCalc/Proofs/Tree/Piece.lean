import DeskCalc.Chain.Reduce
import DeskCalc.Proofs.Tree.Loss
import DeskCalc.Proofs.Tree.Row

/-
Partly evaluated trees and the weights of their rows.

Reduction replaces nodes of a tree by values.  A parenthesis takes two steps: its `(` is
applied first, and a value with the `)` behind it is left.  In the row of a graded tree
no operator weighs less than the rank of the tree allows, which is what makes the
greatest weight stand at a node whose operands are values.
-/
namespace DeskCalc

/-- A value, or one that still has a `)` behind it. -/
inductive Piece where
  | value (quantity : Quantity)
  | closing (quantity : Quantity) (word : Word)

namespace Piece

/-- What the piece comes to. -/
def quantity : Piece → Quantity
  | value quantity => quantity
  | closing quantity word => { quantity with words := quantity.words ++ [word] }

def row (base : Int) : Piece → Row
  | value quantity => ⟨quantity.number, []⟩
  | closing quantity word => ⟨quantity.number, [Row.closingLink base word]⟩

end Piece

mutual

theorem Tree.map_quantity_value (tree : Tree Quantity) :
    (tree.map Piece.value).map Piece.quantity = tree := by
  match tree with
  | .leaf _ => rfl
  | .binary op sign left right =>
    rw [Tree.map, Tree.map, left.map_quantity_value, right.map_quantity_value]
  | .group opening inner closing => rw [Tree.map, Tree.map, inner.map_quantity_value]
  | .call builtin name opening arguments closing =>
    rw [Tree.map, Tree.map, arguments.map_quantity_value]

theorem Arguments.map_quantity_value (arguments : Arguments Quantity) :
    (arguments.map Piece.value).map Piece.quantity = arguments := by
  match arguments with
  | .last only => rw [Arguments.map, Arguments.map, only.map_quantity_value]
  | .more first comma rest =>
    rw [Arguments.map, Arguments.map, first.map_quantity_value, rest.map_quantity_value]

end

theorem Row.mem_links_enclose {base : Int} {opening closing : Word} {inner : Row} {link : Link}
    (h : link ∈ (inner.enclose base opening closing).links) :
    link.operator.weight = base + OperatorKind.groupWeight ∨ link ∈ inner.links := by
  simp only [Row.enclose, List.mem_cons, List.mem_append, List.not_mem_nil, or_false] at h
  rcases h with rfl | h | rfl
  · exact Or.inl (Int.add_comm _ _)
  · exact Or.inr h
  · exact Or.inl (Int.zero_add _)

mutual

theorem Tree.le_weight (tree : Tree Piece) (h : tree.Graded) (base : Int) {link : Link}
    (hlink : link ∈ (tree.row Piece.row base).links) :
    base + 10 * (tree.rank : Int) ≤ link.operator.weight := by
  match tree with
  | .leaf (.value _) => exact absurd hlink List.not_mem_nil
  | .leaf (.closing _ _) =>
    obtain rfl := List.mem_singleton.1 hlink
    show base + 10 * 4 ≤ 0 + (base + 100)
    omega
  | .binary op sign left right =>
    obtain ⟨hleft, hright, hgraded, hgraded'⟩ := h
    show base + 10 * (op.rank : Int) ≤ _
    rcases mem_middle.1 hlink with rfl | hmem
    · show _ ≤ op.weight + base
      rw [op.weight_eq]
      omega
    · rcases List.mem_append.1 hmem with hmem | hmem
      · have := left.le_weight hgraded base hmem
        omega
      · have := right.le_weight hgraded' base hmem
        omega
  | .group opening inner closing =>
    show base + 10 * 4 ≤ _
    have hlift : OperatorKind.groupWeight = 100 := rfl
    rcases Row.mem_links_enclose hlink with hweight | hmem
    · omega
    · have := inner.le_weight h _ hmem
      omega
  | .call builtin name opening arguments closing =>
    show base + 10 * 4 ≤ _
    have hlift : OperatorKind.groupWeight = 100 := rfl
    rcases List.mem_cons.1 hlink with rfl | hlink
    · show _ ≤ OperatorKind.groupWeight + base
      omega
    · rcases Row.mem_links_enclose hlink with hweight | hmem
      · omega
      · have := arguments.le_weight h _ hmem
        omega

theorem Arguments.le_weight (arguments : Arguments Piece) (h : arguments.Graded) (base : Int)
    {link : Link} (hlink : link ∈ (arguments.row Piece.row base).links) :
    base ≤ link.operator.weight := by
  match arguments with
  | .last only =>
    have := only.le_weight h base hlink
    omega
  | .more first comma rest =>
    rcases mem_middle.1 hlink with rfl | hmem
    · exact Int.le_of_eq (Int.zero_add base).symm
    · rcases List.mem_append.1 hmem with hmem | hmem
      · have := first.le_weight h.1 base hmem
        omega
      · exact rest.le_weight h.2 base hmem

end

/-- A tree that leaves no operator is a value. -/
theorem Tree.eq_value {tree : Tree Piece} {base : Int}
    (h : (tree.row Piece.row base).links = []) : ∃ quantity, tree = .leaf (.value quantity) := by
  match tree with
  | .leaf (.value quantity) => exact ⟨quantity, rfl⟩
  | .leaf (.closing _ _) => cases h
  | .binary op sign left right => exact absurd h (by simp [Tree.row, Row.join])
  | .group opening inner closing => cases h
  | .call builtin name opening arguments closing => cases h

/-- Inside a base every operator of a tree weighs more than the base. -/
theorem Tree.eq_value_of_le {tree : Tree Piece} (h : tree.Graded) {base : Int}
    (hle : ∀ link ∈ (tree.row Piece.row base).links, link.operator.weight ≤ base) :
    ∃ quantity, tree = .leaf (.value quantity) := by
  have hnil : (tree.row Piece.row base).links = [] := by
    rw [List.eq_nil_iff_forall_not_mem]
    intro link hlink
    have hlow := tree.le_weight h base hlink
    have hhigh := hle link hlink
    have hpos := tree.rank_pos
    omega
  exact Tree.eq_value hnil

/-! ## Events among the links -/

theorem Event.mem_ofResult {weight : Int} {result : Except EvalError (Quantity × Effect)}
    {event : Event} (h : event ∈ Event.ofResult weight result) : event.weight = weight := by
  cases result with
  | error _ => exact absurd h List.not_mem_nil
  | ok result => exact congrArg Event.weight (List.mem_singleton.1 h)

mutual

/-- What holds of the weights in a row holds of the weights of the events. -/
theorem Tree.events_weight (P : Int → Prop) (context : Context) (tree : Tree Piece) (base : Int)
    (h : ∀ link ∈ (tree.row Piece.row base).links, P link.operator.weight) :
    ∀ event ∈ (tree.map Piece.quantity).events context base, P event.weight := by
  intro event hevent
  match tree with
  | .leaf _ => exact absurd hevent List.not_mem_nil
  | .binary op sign left right =>
    rcases List.mem_append.1 hevent with hleft | hevent
    · exact left.events_weight P context base
        (fun link hlink => h link (List.mem_append_left _ hlink)) event hleft
    · rcases List.mem_append.1 hevent with hown | hright
      · rw [Event.mem_ofResult hown]
        exact h _ List.mem_append_cons_self
      · exact right.events_weight P context base (fun link hlink =>
          h link (List.mem_append_right _ (List.mem_cons_of_mem _ hlink))) event hright
  | .group opening inner closing =>
    exact inner.events_weight P context _ (fun link hlink =>
      h link (List.mem_cons_of_mem _ (List.mem_append_left _ hlink))) event hevent
  | .call builtin name opening arguments closing =>
    rcases List.mem_append.1 hevent with hown | hinner
    · rw [Event.mem_ofResult hown]
      exact h _ List.mem_cons_self
    · exact arguments.events_weight P context _ (fun link hlink => h link (List.mem_cons_of_mem _
        (List.mem_cons_of_mem _ (List.mem_append_left _ hlink)))) event hinner

theorem Arguments.events_weight (P : Int → Prop) (context : Context)
    (arguments : Arguments Piece) (base : Int)
    (h : ∀ link ∈ (arguments.row Piece.row base).links, P link.operator.weight) :
    ∀ event ∈ (arguments.map Piece.quantity).events context base, P event.weight := by
  intro event hevent
  match arguments with
  | .last only => exact only.events_weight P context base h event hevent
  | .more first comma rest =>
    rcases List.mem_append.1 hevent with hfirst | hrest
    · exact first.events_weight P context base
        (fun link hlink => h link (List.mem_append_left _ hlink)) event hfirst
    · exact rest.events_weight P context base (fun link hlink =>
        h link (List.mem_append_right _ (List.mem_cons_of_mem _ hlink))) event hrest

end

end DeskCalc
