import DeskCalc.Proofs.Tree.Reduce

/-
A step on the row of a tree is a step of the tree.

The cases follow the node at which the operator stands: `steps_tree` finds it by
splitting the row, and the lemmas before it apply the operator of a node or carry a step
of one part over to the whole.
-/
namespace DeskCalc
namespace Chain

variable {context : Context} {base weight : Int} {inexact : Bool} {suffix : List Link}

/-! ## Steps of a part -/

section Parts

variable {op : Arithmetic} {sign name opening closing comma : Word} {builtin : Builtin}
  {left right inner only first : Tree Piece} {arguments rest : Arguments Piece}
  {reduction : Reduction}

theorem Steps.of_left (hgraded : (Tree.binary op sign left right).Graded)
    (hop : op.weight + base ≤ weight)
    (hright : ∀ link ∈ (right.row Piece.row base).links, link.operator.weight ≤ weight)
    (h : Steps context base weight inexact
      (⟨.lifted (.arithmetic op) base sign, (right.row Piece.row base).first⟩ ::
        ((right.row Piece.row base).links ++ suffix)) left reduction) :
    Steps context base weight inexact suffix (.binary op sign left right) reduction := by
  obtain ⟨hrank, hrank', -, hgraded'⟩ := hgraded
  cases h with
  | advances left' effect graded rank advance =>
    rw [Row.append_cons]
    exact .advances (.binary op sign left' right) effect
      ⟨Nat.le_trans hrank rank, hrank', graded, hgraded'⟩ (Nat.le_refl _) (advance.left hop hright)
  | raises h => exact .raises (Or.inl h)

theorem Steps.of_right (hgraded : (Tree.binary op sign left right).Graded)
    (hop : op.weight + base < weight)
    (hleft : ∀ link ∈ (left.row Piece.row base).links, link.operator.weight < weight)
    (h : Steps context base weight inexact suffix right reduction) :
    Steps context base weight inexact suffix (.binary op sign left right)
      (reduction.mapRow ((left.row Piece.row base).join (.lifted (.arithmetic op) base sign))) := by
  obtain ⟨hrank, hrank', hgraded', -⟩ := hgraded
  cases h with
  | advances right' effect graded rank advance =>
    rw [Reduction.mapRow, Row.join_append]
    exact .advances (.binary op sign left right') effect
      ⟨hrank, Nat.lt_of_lt_of_le hrank' rank, hgraded', graded⟩ (Nat.le_refl _)
      (advance.right hop hleft)
  | raises h => exact .raises (Or.inr (Or.inl h))

theorem Steps.of_inner
    (h : Steps context (base + OperatorKind.groupWeight) weight inexact
      (Row.closingLink base closing :: suffix) inner reduction) :
    Steps context base weight inexact suffix (.group opening inner closing)
      (reduction.mapRow (Row.attach .placeholder (.lifted .openParen base opening))) := by
  cases h with
  | advances inner' effect graded rank advance =>
    rw [Reduction.mapRow, Row.attach_closing]
    exact .advances (.group opening inner' closing) effect graded (Nat.le_refl _) advance.group
  | raises h => exact .raises h

theorem Steps.of_arguments (hname : OperatorKind.groupWeight + base < weight)
    (h : StepsArguments context (base + OperatorKind.groupWeight) weight inexact
      (Row.closingLink base closing :: suffix) arguments reduction) :
    Steps context base weight inexact suffix (.call builtin name opening arguments closing)
      ((reduction.mapRow (Row.attach .placeholder (.lifted .openParen base opening))).mapRow
        (Row.attach .placeholder (.lifted (.call builtin) base name))) := by
  cases h with
  | advances arguments' effect graded advance =>
    rw [Reduction.mapRow, Reduction.mapRow, Row.attach_closing, Row.attach_append]
    exact .advances (.call builtin name opening arguments' closing) effect graded (Nat.le_refl _)
      (advance.call hname)
  | raises h => exact .raises (Or.inl h)

theorem StepsArguments.of_only (h : Steps context base weight inexact suffix only reduction) :
    StepsArguments context base weight inexact suffix (.last only) reduction := by
  cases h with
  | advances only' effect graded rank advance =>
    exact .advances (.last only') effect graded advance.last
  | raises h => exact .raises h

theorem StepsArguments.of_first (hrest : rest.Graded)
    (hle : ∀ link ∈ (rest.row Piece.row base).links, link.operator.weight ≤ weight)
    (h : Steps context base weight inexact
      (⟨.lifted .comma base comma, (rest.row Piece.row base).first⟩ ::
        ((rest.row Piece.row base).links ++ suffix)) first reduction) :
    StepsArguments context base weight inexact suffix (.more first comma rest) reduction := by
  cases h with
  | advances first' effect graded rank advance =>
    rw [Row.append_cons]
    exact .advances (.more first' comma rest) effect ⟨graded, hrest⟩ (advance.first hle)
  | raises h => exact .raises (Or.inl h)

theorem StepsArguments.of_rest (hfirst : first.Graded)
    (hlt : ∀ link ∈ (first.row Piece.row base).links, link.operator.weight < weight)
    (h : StepsArguments context base weight inexact suffix rest reduction) :
    StepsArguments context base weight inexact suffix (.more first comma rest)
      (reduction.mapRow ((first.row Piece.row base).join (.lifted .comma base comma))) := by
  cases h with
  | advances rest' effect graded advance =>
    rw [Reduction.mapRow, Row.join_append]
    exact .advances (.more first comma rest') effect ⟨hfirst, graded⟩ (advance.rest hlt)
  | raises h => exact .raises (Or.inr h)

end Parts

/-! ## Steps of a node on values -/

theorem steps_closing (quantity : Quantity) (word : Word) :
    Steps context base weight inexact suffix (.leaf (.closing quantity word))
      (applyLink context inexact quantity.number (Row.closingLink base word) suffix) := by
  have hnumber : passThrough quantity.number (.lifted .closeParen
      (base + OperatorKind.groupWeight) word) quantity.number .placeholder =
        (Piece.closing quantity word).quantity.number := by
    simp [passThrough, Quantity.number, Piece.quantity, Number.placeholder]
  rw [applyLink_eq, Row.closingLink, Operator.kind_lifted]
  show Steps context base weight inexact suffix _ (.done ⟨passThrough _ _ _ _, suffix⟩ inexact)
  rw [hnumber]
  exact .advances (.leaf (.value (Piece.closing quantity word).quantity)) none trivial
    (Nat.le_refl _) ⟨rfl, fun _ => id, rfl⟩

theorem steps_opening (opening closing : Word) (quantity : Quantity) :
    Steps context base weight inexact suffix (.group opening (.leaf (.value quantity)) closing)
      (applyLink context inexact .placeholder ⟨.lifted .openParen base opening, quantity.number⟩
        (Row.closingLink base closing :: suffix)) := by
  have hnumber : passThrough .placeholder (.lifted .openParen base opening) quantity.number
      quantity.number = { quantity with words := opening :: quantity.words }.number := by
    simp [passThrough, Quantity.number, Number.placeholder]
  show Steps context base weight inexact suffix _ (.done ⟨passThrough _ _ _ _, _⟩ inexact)
  rw [hnumber]
  exact .advances (.leaf (.closing { quantity with words := opening :: quantity.words } closing))
    none trivial (Nat.le_refl _) ⟨rfl, fun _ => id, rfl⟩

theorem steps_operation (op : Arithmetic) (sign : Word) (x y : Quantity) :
    Steps context base (op.weight + base) inexact suffix
      (.binary op sign (.leaf (.value x)) (.leaf (.value y)))
      (applyArithmetic context inexact op x.number ⟨.lifted (.arithmetic op) base sign, y.number⟩
        suffix) := by
  obtain ⟨mark, hreduced⟩ := applyArithmetic_eq inexact op base sign x y suffix
  rw [hreduced]
  cases hresult : operate context op sign x y with
  | error error => exact .raises (Or.inr (Or.inr ⟨x, y, rfl, rfl, hresult⟩))
  | ok result =>
    obtain ⟨quantity, effect⟩ := result
    have hoperated : operated context op sign (.ok x) (.ok y) = .ok (quantity, effect) := hresult
    refine .advances (.leaf (.value quantity)) (some effect) trivial
      (Nat.le_of_lt op.rank_lt_four) ⟨?_, fun _ => False.elim, ?_⟩
    · simp only [Tree.meaning, Tree.map, Tree.eval, Piece.quantity, hoperated]
      rfl
    · simp only [Tree.meaning, Tree.map, Tree.eval, Tree.events, Piece.quantity, hoperated]
      exact Happens.alone

theorem steps_call (builtin : Builtin) (name opening closing : Word) (arguments : Arguments Piece)
    (hgraded : arguments.Graded)
    (hle : ∀ link ∈ (arguments.row Piece.row (base + OperatorKind.groupWeight)).links,
      link.operator.weight ≤ base + OperatorKind.groupWeight)
    (hsuffix : Clear (base + OperatorKind.groupWeight) suffix) :
    Steps context base (OperatorKind.groupWeight + base) inexact suffix
      (.call builtin name opening arguments closing)
      (applyCall context inexact builtin .placeholder
        ⟨.lifted (.call builtin) base name, .placeholder⟩
        (((arguments.row Piece.row (base + OperatorKind.groupWeight)).enclose base opening
          closing).links ++ suffix)) := by
  obtain ⟨spread, hvalue, hevents, hready⟩ :=
    Arguments.ready context arguments hgraded _ hle
  have hvalue : (arguments.map Piece.quantity).eval context = .ok spread := hvalue
  obtain ⟨mark, hreduced⟩ := applyCall_eq hready builtin name opening closing .placeholder hsuffix
  rw [hreduced]
  cases hresult : invoke context builtin name opening spread closing with
  | error error => exact .raises (Or.inr ⟨spread, hvalue, hresult⟩)
  | ok result =>
    obtain ⟨quantity, effect⟩ := result
    have hinvoked : invoked context builtin name opening (.ok spread) closing =
        .ok (quantity, effect) := hresult
    refine .advances (.leaf (.value quantity)) (some effect) trivial
      (Nat.le_refl _) ⟨?_, fun _ => False.elim, ?_⟩
    · simp only [Tree.meaning, Tree.map, Tree.eval, hvalue, hinvoked]
      rfl
    · have hevents : (arguments.map Piece.quantity).events context
          (base + OperatorKind.groupWeight) = [] := hevents
      simp only [Tree.meaning, Tree.map, Tree.events, hvalue, hinvoked, hevents]
      exact Happens.alone

/-! ## The step -/

theorem clear_cons {link : Link} {more : List Link} (h : belongsTo weight link = false) :
    Clear weight (link :: more) := by
  intro other hother
  obtain rfl := Option.some.inj hother
  exact h

theorem clear_of_weight {link : Link} {more : List Link} (h : link.operator.weight ≠ weight) :
    Clear weight (link :: more) :=
  clear_cons (by simp [belongsTo, h])

/-- No call inside parentheses takes their `)` in. -/
theorem clear_closing {closing : Word} :
    Clear (base + OperatorKind.groupWeight + OperatorKind.groupWeight)
      (Row.closingLink base closing :: suffix) := by
  refine clear_of_weight ?_
  show 0 + (base + 100) ≠ base + 100 + 100
  omega

/-- The first operator to apply between two trees has values on both sides. -/
theorem eq_values {op : Arithmetic} {sign : Word} {left right : Tree Piece}
    (hgraded : (Tree.binary op sign left right).Graded)
    (hleft : ∀ link ∈ (left.row Piece.row base).links, link.operator.weight < op.weight + base)
    (hright : ∀ link ∈ (right.row Piece.row base).links, link.operator.weight ≤ op.weight + base) :
    ∃ x y, left = .leaf (.value x) ∧ right = .leaf (.value y) := by
  obtain ⟨hrank, hrank', hgraded, hgraded'⟩ := hgraded
  have hweight := op.weight_eq
  obtain ⟨x, hx⟩ := Tree.eq_value (List.eq_nil_iff_forall_not_mem.2 fun link hlink => by
    have hlow := left.le_weight hgraded base hlink
    have hhigh := hleft link hlink
    omega)
  obtain ⟨y, hy⟩ := Tree.eq_value (List.eq_nil_iff_forall_not_mem.2 fun link hlink => by
    have hlow := right.le_weight hgraded' base hlink
    have hhigh := hright link hlink
    omega)
  exact ⟨x, y, hx, hy⟩

mutual

/-- A step on the row of a graded tree, with something behind it that no call of the tree
takes in, is a step of the tree. -/
theorem steps_tree (tree : Tree Piece) (hgraded : tree.Graded) (base : Int)
    {before after suffix : List Link} {link : Link}
    (hlinks : before ++ link :: after = (tree.row Piece.row base).links)
    (hbefore : ∀ other ∈ before, other.operator.weight < link.operator.weight)
    (hafter : ∀ other ∈ after, other.operator.weight ≤ link.operator.weight)
    (hsuffix : Clear (base + OperatorKind.groupWeight) suffix) :
    Steps context base link.operator.weight inexact suffix tree
      (reduceAt context inexact before.length (tree.row Piece.row base).first
        ((tree.row Piece.row base).links ++ suffix)) := by
  match tree with
  | .leaf (.value _) => exact absurd hlinks (by simp [Tree.row, Piece.row])
  | .leaf (.closing quantity word) =>
    obtain ⟨rfl, rfl, rfl⟩ : before = [] ∧ link = Row.closingLink base word ∧ after = [] := by
      cases before with
      | nil => exact ⟨rfl, List.cons.inj hlinks⟩
      | cons _ before => exact absurd (List.cons.inj hlinks).2 (by simp)
    exact steps_closing quantity word
  | .binary op sign left right =>
    rcases split_append hlinks with ⟨mid, hleft, rfl⟩ | ⟨mid, rfl, hright⟩
    · have hclear : Clear (base + OperatorKind.groupWeight)
          (⟨.lifted (.arithmetic op) base sign, (right.row Piece.row base).first⟩ ::
            ((right.row Piece.row base).links ++ suffix)) := clear_cons rfl
      have hstep := steps_tree left hgraded.2.2.1 base hleft.symm hbefore
        (fun other hother => hafter other (List.mem_append_left _ hother)) hclear
      refine .of_left hgraded (hafter _ List.mem_append_cons_self) (fun other hother =>
        hafter other (List.mem_append_right _ (List.mem_cons_of_mem _ hother))) ?_
      show Steps _ _ _ _ _ _ (reduceAt _ _ _ _ ((_ ++ _ :: _) ++ suffix))
      rwa [List.append_assoc, List.cons_append]
    · cases mid with
      | nil =>
        obtain ⟨rfl, rfl⟩ := List.cons.inj hright
        rw [List.append_nil] at hbefore
        obtain ⟨x, y, rfl, rfl⟩ := eq_values hgraded hbefore hafter
        exact steps_operation op sign x y
      | cons other mid =>
        obtain ⟨rfl, hmore⟩ := List.cons.inj hright
        have hstep := steps_tree right hgraded.2.2.2 base hmore.symm
          (fun other hother => hbefore other (List.mem_append_right _
            (List.mem_cons_of_mem _ hother))) hafter hsuffix
        show Steps _ _ _ _ _ _ (reduceAt _ _ _ _ ((_ ++ _ :: _) ++ suffix))
        rw [List.append_assoc, List.cons_append, reduceAt_join]
        exact .of_right hgraded (hbefore _ List.mem_append_cons_self)
          (fun other hother => hbefore other (List.mem_append_left _ hother)) hstep
  | .group opening inner closing =>
    have hgraded : inner.Graded := hgraded
    rcases enclose_split hlinks with ⟨rfl, rfl, rfl⟩ | ⟨more, mid, rfl, hinner, rfl⟩ |
      ⟨other, hother, hsame⟩
    · -- Every operator inside would come before the parenthesis.
      have hle : ∀ link ∈ (inner.row Piece.row (base + OperatorKind.groupWeight)).links,
          link.operator.weight ≤ base + OperatorKind.groupWeight := by
        intro link hlink
        rw [Int.add_comm]
        exact hafter link (List.mem_append_left _ hlink)
      obtain ⟨quantity, rfl⟩ := Tree.eq_value_of_le hgraded hle
      exact steps_opening opening closing quantity
    · have hclear : Clear (base + OperatorKind.groupWeight + OperatorKind.groupWeight)
          (Row.closingLink base closing :: suffix) := clear_closing
      have hstep := steps_tree inner hgraded _ hinner.symm
        (fun other hother => hbefore other (List.mem_cons_of_mem _ hother))
        (fun other hother => hafter other (List.mem_append_left _ hother)) hclear
      show Steps _ _ _ _ _ _ (reduceAt _ _ (more.length + 1) _ (_ :: ((_ ++ [_]) ++ suffix)))
      rw [List.append_assoc, reduceAt_succ]
      exact .of_inner hstep
    · exact absurd (hbefore other hother) (by omega)
  | .call builtin name opening arguments closing =>
    have hname : (Operator.lifted (.call builtin) base name).weight =
        OperatorKind.groupWeight + base := rfl
    cases before with
    | nil =>
      obtain ⟨rfl, rfl⟩ := List.cons.inj hlinks
      refine steps_call builtin name opening closing arguments hgraded ?_ hsuffix
      intro link hlink
      rw [Int.add_comm]
      exact hafter link (List.mem_cons_of_mem _ (List.mem_append_left _ hlink))
    | cons other before =>
      obtain ⟨rfl, henclosed⟩ := List.cons.inj hlinks
      have hlower := hbefore _ List.mem_cons_self
      have hbefore := fun other hother => hbefore other (List.mem_cons_of_mem _ hother)
      rcases enclose_split henclosed with ⟨rfl, rfl, rfl⟩ | ⟨more, mid, rfl, hinner, rfl⟩ |
        ⟨other, hother, hsame⟩
      · exact absurd hlower (Int.lt_irrefl _)
      · have hclear : Clear (base + OperatorKind.groupWeight + OperatorKind.groupWeight)
            (Row.closingLink base closing :: suffix) := clear_closing
        have hstep := steps_arguments arguments hgraded _ hinner.symm
          (fun other hother => hbefore other (List.mem_cons_of_mem _ hother))
          (fun other hother => hafter other (List.mem_append_left _ hother))
          (Int.add_comm _ base ▸ hlower) hclear
        show Steps _ _ _ _ _ _ (reduceAt _ _ (more.length + 1 + 1) _ (_ :: _ :: ((_ ++ [_]) ++ suffix)))
        rw [List.append_assoc, reduceAt_succ, reduceAt_succ]
        exact .of_arguments hlower hstep
      · exact absurd (hbefore other hother) (by omega)

theorem steps_arguments (arguments : Arguments Piece) (hgraded : arguments.Graded) (base : Int)
    {before after suffix : List Link} {link : Link}
    (hlinks : before ++ link :: after = (arguments.row Piece.row base).links)
    (hbefore : ∀ other ∈ before, other.operator.weight < link.operator.weight)
    (hafter : ∀ other ∈ after, other.operator.weight ≤ link.operator.weight)
    (hweight : base < link.operator.weight)
    (hsuffix : Clear (base + OperatorKind.groupWeight) suffix) :
    StepsArguments context base link.operator.weight inexact suffix arguments
      (reduceAt context inexact before.length (arguments.row Piece.row base).first
        ((arguments.row Piece.row base).links ++ suffix)) := by
  match arguments with
  | .last only => exact .of_only (steps_tree only hgraded base hlinks hbefore hafter hsuffix)
  | .more first comma rest =>
    rcases split_append hlinks with ⟨mid, hfirst, rfl⟩ | ⟨mid, rfl, hrest⟩
    · have hclear : Clear (base + OperatorKind.groupWeight)
          (⟨.lifted .comma base comma, (rest.row Piece.row base).first⟩ ::
            ((rest.row Piece.row base).links ++ suffix)) := by
        refine clear_of_weight ?_
        show 0 + base ≠ base + 100
        omega
      have hstep := steps_tree first hgraded.1 base hfirst.symm hbefore
        (fun other hother => hafter other (List.mem_append_left _ hother)) hclear
      refine .of_first hgraded.2 (fun other hother =>
        hafter other (List.mem_append_right _ (List.mem_cons_of_mem _ hother))) ?_
      show Steps _ _ _ _ _ _ (reduceAt _ _ _ _ ((_ ++ _ :: _) ++ suffix))
      rwa [List.append_assoc, List.cons_append]
    · cases mid with
      | nil =>
        obtain ⟨rfl, rfl⟩ := List.cons.inj hrest
        exact absurd hweight (by simp [OperatorKind.weight])
      | cons other mid =>
        obtain ⟨rfl, hmore⟩ := List.cons.inj hrest
        have hstep := steps_arguments rest hgraded.2 base hmore.symm
          (fun other hother => hbefore other (List.mem_append_right _
            (List.mem_cons_of_mem _ hother))) hafter hweight hsuffix
        show StepsArguments _ _ _ _ _ _ (reduceAt _ _ _ _ ((_ ++ _ :: _) ++ suffix))
        rw [List.append_assoc, List.cons_append, reduceAt_join]
        exact .of_rest hgraded.1
          (fun other hother => hbefore other (List.mem_append_left _ hother)) hstep

end

end Chain
end DeskCalc
