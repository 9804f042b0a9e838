import DeskCalc.Proofs.Tree.Step

/-
Reducing the row of a tree until no operator is left.

`run_ofTree` says how this ends: with the value of the tree as the only operand and the
mark of lost digits as the events leave it, or with an error that a node of the tree
raises on the values of its operands.
-/
namespace DeskCalc
namespace Chain

theorem firstGreatest_eq_none {weights : List Int} (h : firstGreatest weights = none) :
    weights = [] := by
  cases weights with
  | nil => rfl
  | cons w rest =>
    rw [firstGreatest] at h
    split at h
    · split at h <;> cases h
    · cases h

/-- Everything before the first greatest weight is smaller. -/
theorem firstGreatest_split {weights : List Int} {i : Nat} {best : Int}
    (h : firstGreatest weights = some (i, best)) :
    ∃ before after, weights = before ++ best :: after ∧ before.length = i ∧
      (∀ w ∈ before, w < best) ∧ ∀ w ∈ after, w ≤ best := by
  induction weights generalizing i best with
  | nil => cases h
  | cons w rest ih =>
    rw [firstGreatest] at h
    cases hrest : firstGreatest rest with
    | none =>
      rw [hrest] at h
      obtain ⟨rfl, rfl⟩ := Prod.mk.inj (Option.some.inj h)
      obtain rfl := firstGreatest_eq_none hrest
      exact ⟨[], [], rfl, rfl, by simp, by simp⟩
    | some found =>
      obtain ⟨j, greatest⟩ := found
      obtain ⟨before, after, rfl, rfl, hbefore, hafter⟩ := ih hrest
      simp only [hrest] at h
      by_cases hlt : w < greatest
      · rw [if_pos hlt] at h
        obtain ⟨rfl, rfl⟩ := Prod.mk.inj (Option.some.inj h)
        refine ⟨w :: before, after, rfl, rfl, fun v hv => ?_, hafter⟩
        rcases List.mem_cons.1 hv with rfl | hv
        · exact hlt
        · exact hbefore v hv
      · rw [if_neg hlt] at h
        obtain ⟨rfl, rfl⟩ := Prod.mk.inj (Option.some.inj h)
        refine ⟨[], _, rfl, rfl, by simp, fun v hv => ?_⟩
        rcases mem_middle.1 hv with rfl | hv
        · omega
        · rcases List.mem_append.1 hv with hv | hv
          · have := hbefore v hv
            omega
          · have := hafter v hv
            omega

theorem next?_eq_none {chain : Chain} (h : chain.next? = none) : chain.links = [] := by
  have hweights := firstGreatest_eq_none (Option.map_eq_none_iff.1 h)
  simpa [Row.weights, Row.operators] using hweights

/-- The next operator to apply is the first one of the greatest weight. -/
theorem next?_eq_some {chain : Chain} {i : Nat} (h : chain.next? = some i) :
    ∃ before link after, before ++ link :: after = chain.links ∧ before.length = i ∧
      (∀ other ∈ before, other.operator.weight < link.operator.weight) ∧
        ∀ other ∈ after, other.operator.weight ≤ link.operator.weight := by
  obtain ⟨⟨j, best⟩, hgreatest, rfl⟩ := Option.map_eq_some_iff.1 h
  obtain ⟨before, after, hsplit, rfl, hbefore, hafter⟩ := firstGreatest_split hgreatest
  rw [Row.weights, Row.operators, List.map_map] at hsplit
  obtain ⟨before', rest, hlinks, rfl, hrest⟩ := List.map_eq_append_iff.1 hsplit
  obtain ⟨link, after', rfl, rfl, rfl⟩ := List.map_eq_cons_iff.1 hrest
  refine ⟨before', link, after', hlinks.symm, (List.length_map _).symm, fun other hother => ?_,
    fun other hother => ?_⟩
  · exact hbefore _ (List.mem_map_of_mem hother)
  · exact hafter _ (List.mem_map_of_mem hother)

/-- The chain of the row of a tree. -/
def ofTree (tree : Tree Piece) (inexact : Bool) : Chain := { tree.row Piece.row 0 with inexact }

variable {context : Context}

/-- What a step makes of the chain of a tree. -/
inductive StepsTo (context : Context) (tree : Tree Piece) (inexact : Bool) : Step → Prop where
  | exhausted (quantity : Quantity) (h : tree = .leaf (.value quantity)) :
      StepsTo context tree inexact .exhausted
  | reduced (weight : Int) (effect : Option Effect) (tree' : Tree Piece) (graded : tree'.Graded)
      (advance : Advance weight effect (tree.meaning context 0) (tree'.meaning context 0)) :
      StepsTo context tree inexact (.reduced (ofTree tree' (changed effect inexact)))
  | failed (error : EvalError) (chain : Chain) (h : (tree.meaning context 0).raises error) :
      StepsTo context tree inexact (.failed error chain)

theorem step_ofTree (tree : Tree Piece) (hgraded : tree.Graded) (inexact : Bool) :
    StepsTo context tree inexact ((ofTree tree inexact).step context) := by
  rw [step_eq]
  cases hnext : (ofTree tree inexact).next? with
  | none =>
    obtain ⟨quantity, rfl⟩ := Tree.eq_value (next?_eq_none hnext)
    exact .exhausted quantity rfl
  | some i =>
    obtain ⟨before, link, after, hlinks, rfl, hbefore, hafter⟩ := next?_eq_some hnext
    have hclear : Clear (0 + OperatorKind.groupWeight) [] := fun _ hnone => by cases hnone
    have hsteps : Steps context 0 link.operator.weight inexact [] tree _ :=
      steps_tree tree hgraded 0 hlinks hbefore hafter hclear
    rw [List.append_nil] at hsteps
    change Steps context 0 link.operator.weight inexact [] tree (reduceAt context
      (ofTree tree inexact).inexact before.length (ofTree tree inexact).first
      (ofTree tree inexact).links) at hsteps
    dsimp only
    generalize reduceAt context (ofTree tree inexact).inexact before.length
      (ofTree tree inexact).first (ofTree tree inexact).links = reduction at hsteps ⊢
    cases hsteps with
    | advances tree' effect graded rank advance =>
      rw [Row.append, List.append_nil]
      exact .reduced _ effect tree' graded advance
    | raises h => exact .failed _ _ h

/-- How the reduction of what has this meaning may end. -/
inductive Ends (meaning : Meaning Quantity) (inexact : Bool) : Except EvalError Chain → Prop where
  | exhausted (quantity : Quantity) (mark : Bool) (value : meaning.value = .ok quantity)
      (marked : mark = true ↔ Marked inexact meaning.events) :
      Ends meaning inexact (.ok { first := quantity.number, links := [], inexact := mark })
  | failed (error : EvalError) (h : meaning.raises error) : Ends meaning inexact (.error error)

theorem Ends.of_advance {weight : Int} {effect : Option Effect} {before after : Meaning Quantity}
    {inexact : Bool} {result : Except EvalError Chain} (h : Advance weight effect before after)
    (hends : Ends after (changed effect inexact) result) : Ends before inexact result := by
  cases hends with
  | exhausted quantity mark value marked =>
    exact .exhausted quantity mark (h.value ▸ value) (marked.trans h.events.marked.symm)
  | failed error hraises => exact .failed error (h.raises error hraises)

theorem ends_value (quantity : Quantity) (inexact : Bool) :
    Ends (Tree.meaning context 0 (.leaf (.value quantity))) inexact
      (.ok (ofTree (.leaf (.value quantity)) inexact)) :=
  .exhausted quantity inexact rfl marked_nil.symm

/-- As many steps as there are operators exhaust the chain of a tree. -/
theorem run_ofTree (fuel : Nat) (tree : Tree Piece) (hgraded : tree.Graded) (inexact : Bool)
    (hfuel : (ofTree tree inexact).links.length ≤ fuel) :
    Ends (tree.meaning context 0) inexact ((ofTree tree inexact).run context fuel) := by
  induction fuel generalizing tree inexact with
  | zero =>
    obtain ⟨quantity, rfl⟩ := Tree.eq_value (List.length_eq_zero_iff.1 (Nat.le_zero.1 hfuel))
    exact ends_value quantity inexact
  | succ fuel ih =>
    have hstep : StepsTo context tree inexact _ := step_ofTree tree hgraded inexact
    have hlength : ∀ after, (ofTree tree inexact).step context = .reduced after →
        after.links.length < (ofTree tree inexact).links.length := fun _ => length_step
    rw [run_succ]
    generalize (ofTree tree inexact).step context = result at hstep hlength
    cases hstep with
    | exhausted quantity h =>
      obtain rfl := h
      exact ends_value quantity inexact
    | reduced weight effect tree' graded advance =>
      have hshorter := hlength _ rfl
      exact .of_advance advance (ih tree' graded _ (by omega))
    | failed error chain h => exact .failed error h

end Chain
end DeskCalc
