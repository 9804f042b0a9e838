import DeskCalc.Proofs.Location.Part
import DeskCalc.Proofs.Progress.Step

/-
The words of a row while it is reduced.

Every value knows the words that it comes from, and so does every operator but the commas
between the values of a register range.  A step keeps this, it brings in no words and does
not change their order, and if it fails, its error points at some of them.
-/
namespace DeskCalc

/-- Values and operators have words. -/
structure Row.Worded (row : Row) : Prop where
  operands : ∀ number ∈ row.operands, number.value.isSome = true → number.words ≠ []
  operators : ∀ operator ∈ row.operators, operator.kind ≠ .comma → operator.words ≠ []

theorem Row.words_cons (left : Number) (link : Link) (rest : List Link) :
    Row.words ⟨left, link :: rest⟩ =
      left.words ++ link.operator.words ++ Row.words ⟨link.right, rest⟩ := by
  simp [Row.words]

namespace Chain

/-- What is left has its words from these, and an error points at some of them. -/
def Reduction.Within (words : List Word) : Reduction → Prop
  | .done row _ => row.Worded ∧ row.words.Sublist words
  | .failed error _ _ => Word.Marked words error.span

section Steps

variable {context : Context} {inexact : Bool} {left number : Number} {link : Link}
  {rest links : List Link} {words more : List Word}

theorem worded_cons : Row.Worded ⟨left, link :: rest⟩ ↔
    (left.value.isSome = true → left.words ≠ []) ∧
      (link.operator.kind ≠ .comma → link.operator.words ≠ []) ∧
        Row.Worded ⟨link.right, rest⟩ := by
  constructor
  · rintro ⟨hoperands, hoperators⟩
    obtain ⟨hleft, hoperands⟩ := List.forall_mem_cons.1 hoperands
    obtain ⟨hlink, hoperators⟩ := List.forall_mem_cons.1 hoperators
    exact ⟨hleft, hlink, hoperands, hoperators⟩
  · rintro ⟨hleft, hlink, hoperands, hoperators⟩
    exact ⟨List.forall_mem_cons.2 ⟨hleft, hoperands⟩, List.forall_mem_cons.2 ⟨hlink, hoperators⟩⟩

/-- Another operand may take the place of the first one. -/
theorem worded_replace (h : Row.Worded ⟨left, links⟩)
    (hnumber : number.value.isSome = true → number.words ≠ []) : Row.Worded ⟨number, links⟩ :=
  ⟨List.forall_mem_cons.2 ⟨hnumber, (List.forall_mem_cons.1 h.operands).2⟩, h.operators⟩

theorem worded_drop (h : Row.Worded ⟨left, links⟩)
    (hnumber : number.value.isSome = true → number.words ≠ []) (count : Nat) :
    Row.Worded ⟨number, links.drop count⟩ := by
  have hdrop : (links.drop count).Sublist links := List.drop_sublist _ _
  refine ⟨List.forall_mem_cons.2 ⟨hnumber, fun other hother => ?_⟩, fun operator hoperator => ?_⟩
  · exact h.operands other (List.mem_cons_of_mem _ ((hdrop.map _).subset hother))
  · exact h.operators operator ((hdrop.map _).subset hoperator)

theorem words_settle {outcome : Outcome} {mark : Bool}
    (h : settle context inexact outcome words = .ok (number, mark)) : number.words = words := by
  unfold settle at h
  split at h
  · cases h
  · obtain ⟨rfl, -⟩ := Prod.mk.inj (Except.ok.inj h)
    rfl

theorem span_settle {outcome : Outcome} {error : EvalError}
    (h : settle context inexact outcome words = .error error) : error.span = Word.spanOf words := by
  unfold settle at h
  split at h
  · obtain rfl := Except.error.inj h
    rfl
  · cases h

/-- The result of an operation has the words that the operation was applied to. -/
theorem within_conclude {outcome : Except EvalError Outcome} (hwords : words ≠ [])
    (hsublist : (words ++ rest.flatMap fun link => link.operator.words ++ link.right.words).Sublist
      more)
    (herror : ∀ error, outcome = .error error → Word.Marked words error.span)
    (hrest : ∀ number : Number, number.words ≠ [] → Row.Worded ⟨number, rest⟩) :
    (conclude context inexact outcome words left rest).Within more := by
  unfold conclude
  split
  · next result mark hok =>
    obtain ⟨_, -, hsettle⟩ := bind_eq_ok hok
    have hresult := words_settle hsettle
    refine ⟨hrest result (hresult ▸ hwords), ?_⟩
    rw [Row.words, hresult]
    exact hsublist
  · next error hfailed =>
    refine Word.Marked.mono ?_ ((List.sublist_append_left _ _).trans hsublist)
    rcases bind_eq_error hfailed with h | ⟨_, -, h⟩
    · exact herror error h
    · rw [span_settle h]
      exact Word.marked_spanOf hwords

theorem within_passThrough {kept : Number} (h : Row.Worded ⟨left, link :: rest⟩)
    (hkind : link.operator.kind ≠ .comma) :
    Reduction.Within (Row.words ⟨left, link :: rest⟩)
      (.done ⟨passThrough left link.operator kept link.right, rest⟩ inexact) := by
  obtain ⟨-, hlink, hbehind⟩ := worded_cons.1 h
  unfold passThrough
  split
  · refine ⟨worded_replace hbehind fun _ => by simp [hlink hkind], ?_⟩
    simp [Row.words]
  · refine ⟨worded_replace hbehind fun hvalue => (by cases hvalue), ?_⟩
    rw [Row.words_cons]
    exact (List.sublist_append_right _ _).trans (List.sublist_append_right _ _)

/-- A call takes its delimiters and arguments along, and nothing else. -/
theorem within_applyCall (builtin : Builtin) (h : Row.Worded ⟨left, link :: rest⟩)
    (hkind : link.operator.kind ≠ .comma) :
    (applyCall context inexact builtin left link rest).Within
      (Row.words ⟨left, link :: rest⟩) := by
  obtain ⟨-, hlink, hbehind⟩ := worded_cons.1 h
  have htaken : (rest.takeWhile (belongsTo link.operator.weight)).Sublist rest :=
    (List.takeWhile_prefix _).sublist
  have hsplit : rest.takeWhile (belongsTo link.operator.weight) ++
      rest.drop (rest.takeWhile (belongsTo link.operator.weight)).length = rest :=
    List.prefix_iff_eq_append.1 (List.takeWhile_prefix _)
  rw [applyCall_eq_conclude]
  dsimp only
  generalize rest.takeWhile (belongsTo link.operator.weight) = inner at htaken hsplit
  refine within_conclude (by simp [hlink hkind]) ?_ (fun error herror => ?_) fun number hnumber =>
    worded_drop hbehind (fun _ => hnumber) _
  · rw [Row.words_cons, Row.words]
    conv_rhs => rw [← hsplit]
    simp
  · refine Builtin.marked_call (fun number hnumber => ?_) ?_ (by simp [hlink hkind]) herror
    · obtain ⟨hmem, hvalue⟩ := List.mem_filter.1 hnumber
      refine hbehind.operands number ?_ (by simpa [Number.isPlaceholder] using hvalue)
      rcases List.mem_cons.1 hmem with rfl | hmem
      · exact List.mem_cons_self
      · exact List.mem_cons_of_mem _ ((htaken.map _).subset hmem)
    · refine ((List.filter_sublist (p := fun n : Number => !n.isPlaceholder)).flatMap _).trans ?_
      rw [List.flatMap_cons, List.flatMap_map, List.append_assoc]
      refine (List.Sublist.append_left ?_ _).trans (List.sublist_append_right _ _)
      exact List.Sublist.flatMap_right _ fun _ _ => List.sublist_append_right _ _

/-- An operation on two values is blamed on its words, or on the operand on its right. -/
theorem within_applyArithmetic (op : Arithmetic) (h : Row.Worded ⟨left, link :: rest⟩)
    (hkind : link.operator.kind ≠ .comma) :
    (applyArithmetic context inexact op left link rest).Within
      (Row.words ⟨left, link :: rest⟩) := by
  obtain ⟨-, hlink, hbehind⟩ := worded_cons.1 h
  have hright := (List.forall_mem_cons.1 hbehind.operands).1
  rw [applyArithmetic_eq_conclude]
  refine within_conclude (by simp [hlink hkind]) ?_ (fun error herror => ?_) fun number hnumber =>
    worded_replace hbehind fun _ => hnumber
  · simp [Row.words]
  · rw [compute_eq] at herror
    split at herror
    · next x y _ hy =>
      rw [(Arithmetic.blames_eval context op x y).span_eq herror]
      refine (Number.marked_span? (hright ?_) _).mono (List.sublist_append_right _ _)
      rw [hy, Option.isSome_some]
    · obtain rfl := Except.error.inj herror
      rw [EvalError.span, Operator.span?, Word.spanOf?_of_ne_nil (hlink hkind), Option.getD_some]
      refine (Word.marked_spanOf (hlink hkind)).mono ?_
      exact (List.sublist_append_right _ _).trans (List.sublist_append_left _ _)

theorem within_applyLink (h : Row.Worded ⟨left, link :: rest⟩) :
    (applyLink context inexact left link rest).Within (Row.words ⟨left, link :: rest⟩) := by
  obtain ⟨hleft, hlink, hbehind⟩ := worded_cons.1 h
  rw [applyLink_eq]
  split
  · refine ⟨worded_replace hbehind hleft, ?_⟩
    rw [Row.words_cons, Row.words, Row.words, List.append_assoc]
    exact List.Sublist.append_left
      ((List.sublist_append_right _ _).trans (List.sublist_append_right _ _)) _
  · next hkind => exact within_passThrough h (by simp [hkind])
  · next hkind => exact within_passThrough h (by simp [hkind])
  · next builtin hkind => exact within_applyCall builtin h (by simp [hkind])
  · next op hkind => exact within_applyArithmetic op h (by simp [hkind])

/-- The operators in front of the applied one keep their words. -/
theorem within_reduceAt (h : Row.Worded ⟨left, links⟩) (i : Nat) :
    (reduceAt context inexact i left links).Within (Row.words ⟨left, links⟩) := by
  induction i generalizing left links with
  | zero =>
    cases links with
    | nil => exact ⟨h, List.Sublist.refl _⟩
    | cons link rest => exact within_applyLink h
  | succ i ih =>
    cases links with
    | nil => exact ⟨h, List.Sublist.refl _⟩
    | cons link rest =>
      obtain ⟨hleft, hlink, hbehind⟩ := worded_cons.1 h
      have hwithin := ih hbehind
      rw [reduceAt_succ, Row.words_cons]
      generalize reduceAt context inexact i link.right rest = reduction at hwithin
      cases reduction with
      | done row mark =>
        refine ⟨worded_cons.2 ⟨hleft, hlink, hwithin.1⟩, ?_⟩
        rw [Row.attach, Row.words_cons]
        exact List.Sublist.append_left hwithin.2 _
      | failed error row mark =>
        exact Word.Marked.mono hwithin (List.sublist_append_right _ _)

end Steps

/-! ## Runs -/

section Runs

variable {context : Context} {chain after : Chain} {error : EvalError}

theorem within_step (h : chain.toRow.Worded) :
    (∀ after, chain.step context = .reduced after →
      after.toRow.Worded ∧ after.words.Sublist chain.words) ∧
    ∀ error left, chain.step context = .failed error left → Word.Marked chain.words error.span := by
  rw [step_eq]
  split
  · exact ⟨fun _ hstep => (by cases hstep), fun _ _ hstep => by cases hstep⟩
  · next i _ =>
    have hwithin : Reduction.Within chain.words
        (reduceAt context chain.inexact i chain.first chain.links) := within_reduceAt h i
    generalize reduceAt context chain.inexact i chain.first chain.links = reduction at hwithin ⊢
    cases reduction with
    | done row mark =>
      refine ⟨fun after hstep => ?_, fun _ _ hstep => by cases hstep⟩
      cases hstep
      exact hwithin
    | failed cause row mark =>
      refine ⟨fun _ hstep => (by cases hstep), fun error left hstep => ?_⟩
      cases hstep
      exact hwithin

theorem Leads.worded (h : Leads context chain after) (hchain : chain.toRow.Worded) :
    after.toRow.Worded ∧ after.words.Sublist chain.words := by
  induction h with
  | refl => exact ⟨hchain, List.Sublist.refl _⟩
  | tail _ hstep ih =>
    obtain ⟨hworded, hsublist⟩ := (within_step ih.1).1 _ hstep
    exact ⟨hworded, hsublist.trans ih.2⟩

/-- The errors of an evaluation point at words of the chain. -/
theorem marked_evaluate (h : chain.toRow.Worded) (haligned : Aligned none chain.first chain.links)
    (herror : chain.evaluate context = .error error) : Word.Marked chain.words error.span := by
  obtain ⟨hok, hfails⟩ := Leads.of_run context (Nat.le_refl chain.links.length)
  rw [evaluate_eq] at herror
  rcases bind_eq_error herror with herror | ⟨final, hfinal, herror⟩
  · obtain ⟨after, left, hleads, hstep⟩ := hfails error herror
    obtain ⟨hworded, hsublist⟩ := hleads.worded h
    exact ((within_step hworded).2 error left hstep).mono hsublist
  · obtain ⟨hleads, hstep⟩ := hok final hfinal
    obtain ⟨-, value, -, hresult⟩ := result_of_exhausted (hleads.aligned haligned) hstep
    rw [hresult] at herror
    cases herror

end Runs
end Chain
end DeskCalc
