import DeskCalc.Proofs.Calculation
import DeskCalc.Proofs.Progress.Step

/-
The operands in a chain.

An operand is in a chain because a word was read as it, or because an operation was settled
to it: steps pass operands on with other words, and drop them, and do nothing else.  So what
holds of the operands of all words and of all settled outcomes, whatever words they have,
holds of all operands in every state of the chain.
-/
namespace DeskCalc

def Row.All (Q : Number → Prop) (row : Row) : Prop := ∀ number ∈ row.operands, Q number

namespace Chain

variable {Q : Number → Prop} {context : Context} {register : Option Register}

/-- A property of numbers that steps cannot break. -/
structure Keeps (context : Context) (Q : Number → Prop) : Prop where
  placeholder : Q .placeholder
  reworded : ∀ {number : Number} (words : List Word), Q number → Q { number with words }
  called : ∀ {builtin : Builtin} {arguments : List Number} {span : Span} {outcome : Outcome}
    {words : List Word} {inexact mark : Bool} {number : Number},
    builtin.call context arguments span = .ok outcome →
    settle context inexact outcome words = .ok (number, mark) → Q number
  computed : ∀ {op : Arithmetic} {x y : Decimal} {span : Span} {outcome : Outcome}
    {words : List Word} {inexact mark : Bool} {number : Number},
    op.eval context x y span = .ok outcome →
    settle context inexact outcome words = .ok (number, mark) → Q number

/-- A settled outcome keeps its display. -/
theorem settle_eq_ok {outcome : Outcome} {words : List Word} {inexact mark : Bool}
    {number : Number} (h : settle context inexact outcome words = .ok (number, mark)) :
    ∃ y lost, context.settle outcome.value = some (y, lost) ∧
      number = { value := some y, words, display := outcome.display } := by
  unfold settle at h
  split at h
  · cases h
  · next y lost hsettle => exact ⟨y, lost, hsettle, (Prod.mk.inj (Except.ok.inj h)).1.symm⟩

/-! ## Building -/

/-- All operands that have been put down have the property. -/
structure Assembly.All (Q : Number → Prop) (assembly : Assembly) : Prop where
  pairs : ∀ pair ∈ assembly.pairs, Q pair.1
  last : ∀ number, assembly.last = some number → Q number

section Build

variable {assembly after : Assembly} {word : Word} {words : List Word}

theorem Assembly.All.pushOperand (h : assembly.All Q) {number : Number} (hnumber : Q number) :
    (assembly.pushOperand number).All Q := by
  refine ⟨h.pairs, fun other hother => ?_⟩
  obtain rfl := Option.some.inj hother
  exact hnumber

theorem Assembly.All.pushOperator (h : assembly.All Q) (hplaceholder : Q .placeholder)
    (kind : OperatorKind) (words : List Word) : (assembly.pushOperator kind words).All Q := by
  refine ⟨List.forall_mem_append.2 ⟨h.pairs, List.forall_mem_singleton.2 ?_⟩,
    fun _ hlast => by cases hlast⟩
  cases hlast : assembly.last with
  | none => exact hplaceholder
  | some number => exact h.last number hlast

theorem Assembly.All.pushList (h : assembly.All Q) (hplaceholder : Q .placeholder)
    {numbers : List Number} (hnumbers : ∀ number ∈ numbers, Q number) :
    (assembly.pushList numbers).All Q := by
  induction numbers generalizing assembly with
  | nil => exact h
  | cons number rest ih =>
    obtain ⟨hnumber, hrest⟩ := List.forall_mem_cons.1 hnumbers
    cases rest with
    | nil => exact h.pushOperand hnumber
    | cons second rest =>
      exact ih ((h.pushOperand hnumber).pushOperator hplaceholder .comma []) hrest

/-- A word that is taken in brings in the operands that it is read as. -/
theorem all_take (h : assembly.All Q) (hplaceholder : Q .placeholder)
    (hvalues : ∀ values, wordValues context register word = .ok values →
      ∀ x ∈ values, Q (operand word x))
    (htake : take context register assembly word = .ok after) : after.All Q := by
  unfold take at htake
  split at htake
  · unfold place at htake
    split at htake
    · obtain rfl := Except.ok.inj htake
      have hpushed := h.pushOperator hplaceholder .openParen [word]
      exact ⟨hpushed.pairs, hpushed.last⟩
    · dsimp only at htake
      split at htake
      · cases htake
      · obtain rfl := Except.ok.inj htake
        have hpushed := (h.pushOperator hplaceholder .closeParen [word]).pushOperand hplaceholder
        exact ⟨hpushed.pairs, hpushed.last⟩
    · split at htake
      · cases htake
      · obtain rfl := Except.ok.inj htake
        exact h.pushOperator hplaceholder _ _
    · split at htake
      · cases htake
      · obtain rfl := Except.ok.inj htake
        exact h.pushOperator hplaceholder _ _
    · obtain rfl := Except.ok.inj htake
      exact h.pushOperator hplaceholder _ _
    iterate 3
      · obtain ⟨values, hread, rfl⟩ := map_eq_ok htake
        refine h.pushList hplaceholder fun number hnumber => ?_
        obtain ⟨x, hx, rfl⟩ := List.mem_map.1 hnumber
        exact hvalues values (inEvaluation_eq_ok hread) x hx
    iterate 2
      · obtain rfl := Except.ok.inj htake
        exact h
  · cases htake

theorem all_toRow {pairs : List (Number × Operator)} {last : Number}
    (hpairs : ∀ pair ∈ pairs, Q pair.1) (hlast : Q last) : (Assembly.toRow pairs last).All Q := by
  induction pairs with
  | nil => exact List.forall_mem_singleton.2 hlast
  | cons pair pairs ih =>
    obtain ⟨hpair, hpairs⟩ := List.forall_mem_cons.1 hpairs
    exact List.forall_mem_cons.2 ⟨hpair, ih hpairs⟩

/-- The operands of a chain are those of its words. -/
theorem all_ofWords {chain : Chain} (hplaceholder : Q .placeholder)
    (hvalues : ∀ word ∈ words, ∀ values, wordValues context register word = .ok values →
      ∀ x ∈ values, Q (operand word x))
    (hchain : ofWords words register context = .ok chain) : chain.toRow.All Q := by
  obtain ⟨assembly, hwords, hfinish⟩ := bind_eq_ok hchain
  have hempty : Assembly.All Q {} := ⟨by simp, fun _ hlast => by cases hlast⟩
  have hall := foldlM_keeps hempty
    (fun word hword _ _ h htake => all_take h hplaceholder (hvalues word hword) htake) hwords
  unfold finish at hfinish
  split at hfinish
  · cases hfinish
  · split at hfinish
    · cases hfinish
    · next last hlast =>
      obtain rfl := Except.ok.inj hfinish
      exact all_toRow hall.pairs (hall.last last hlast)

end Build

/-! ## Steps -/

/-- A row that is left has operands with the property only. -/
def Reduction.All (Q : Number → Prop) : Reduction → Prop
  | .done row _ => row.All Q
  | .failed _ _ _ => True

section Steps

variable {inexact : Bool} {left number : Number} {link : Link} {rest links : List Link}
  {chain after : Chain}

theorem all_cons : Row.All Q ⟨left, link :: rest⟩ ↔ Q left ∧ Row.All Q ⟨link.right, rest⟩ :=
  List.forall_mem_cons

theorem all_replace (h : Row.All Q ⟨left, links⟩) (hnumber : Q number) :
    Row.All Q ⟨number, links⟩ :=
  List.forall_mem_cons.2 ⟨hnumber, (List.forall_mem_cons.1 h).2⟩

theorem all_drop (h : Row.All Q ⟨left, links⟩) (hnumber : Q number) (count : Nat) :
    Row.All Q ⟨number, links.drop count⟩ := by
  refine List.forall_mem_cons.2 ⟨hnumber, fun other hother => ?_⟩
  have hdrop : (links.drop count).Sublist links := List.drop_sublist _ _
  exact h other (List.mem_cons_of_mem _ ((hdrop.map _).subset hother))

theorem all_conclude {outcome : Except EvalError Outcome} {words : List Word}
    (hrest : ∀ result mark settled, outcome = .ok result →
      settle context inexact result words = .ok (settled, mark) → Row.All Q ⟨settled, rest⟩) :
    (conclude context inexact outcome words left rest).All Q := by
  unfold conclude
  split
  · next settled mark hok =>
    obtain ⟨result, houtcome, hsettle⟩ := bind_eq_ok hok
    exact hrest result mark settled houtcome hsettle
  · trivial

variable (hkeeps : Keeps context Q)
include hkeeps

theorem Keeps.passThrough {kept right : Number} {operator : Operator} (h : Q kept) :
    Q (passThrough left operator kept right) := by
  unfold Chain.passThrough
  split
  · next value hvalue =>
    rw [← hvalue]
    exact hkeeps.reworded _ h
  · exact hkeeps.placeholder

theorem Keeps.applyArithmetic {op : Arithmetic} (h : Row.All Q ⟨link.right, rest⟩) :
    (Chain.applyArithmetic context inexact op left link rest).All Q := by
  rw [applyArithmetic_eq_conclude]
  refine all_conclude fun result mark settled houtcome hsettle => all_replace h ?_
  rw [compute_eq] at houtcome
  split at houtcome
  · exact hkeeps.computed houtcome hsettle
  · cases houtcome

theorem Keeps.applyLink (h : Row.All Q ⟨left, link :: rest⟩) :
    (applyLink context inexact left link rest).All Q := by
  obtain ⟨hleft, hright⟩ := all_cons.1 h
  rw [Chain.applyLink_eq]
  split
  · exact all_replace hright hleft
  · exact all_replace hright (hkeeps.passThrough (List.forall_mem_cons.1 hright).1)
  · exact all_replace hright (hkeeps.passThrough hleft)
  · rw [applyCall_eq_conclude]
    exact all_conclude fun _ _ _ houtcome hsettle =>
      all_drop hright (hkeeps.called houtcome hsettle) _
  · exact hkeeps.applyArithmetic hright

theorem Keeps.reduceAt (h : Row.All Q ⟨left, links⟩) (i : Nat) :
    (reduceAt context inexact i left links).All Q := by
  induction i generalizing left links with
  | zero =>
    cases links with
    | nil => exact h
    | cons link rest => exact hkeeps.applyLink h
  | succ i ih =>
    cases links with
    | nil => exact h
    | cons link rest =>
      obtain ⟨hleft, hright⟩ := all_cons.1 h
      have hreduced := ih hright
      rw [reduceAt_succ]
      generalize Chain.reduceAt context inexact i link.right rest = reduction at hreduced
      cases reduction with
      | done row mark => exact all_cons.2 ⟨hleft, hreduced⟩
      | failed error row mark => trivial

/-- A step brings in settled outcomes only. -/
theorem Keeps.step (h : chain.toRow.All Q) (hstep : chain.step context = .reduced after) :
    after.toRow.All Q := by
  rw [step_eq] at hstep
  split at hstep
  · cases hstep
  · next i _ =>
    have hreduced : (Chain.reduceAt context chain.inexact i chain.first chain.links).All Q :=
      hkeeps.reduceAt h i
    generalize Chain.reduceAt context chain.inexact i chain.first chain.links = reduction
      at hstep hreduced
    cases reduction with
    | done row mark =>
      cases hstep
      exact hreduced
    | failed error row mark => cases hstep

theorem Keeps.leads (hchain : chain.toRow.All Q) (h : Leads context chain after) :
    after.toRow.All Q := by
  induction h with
  | refl => exact hchain
  | tail _ hstep ih => exact hkeeps.step ih hstep

end Steps
end Chain

/-- A result is the first operand of a chain without operators that the chain of the words
leads to, with its value finalized. -/
theorem Calculator.evaluate_eq_ok {calculator : Calculator} {source : Text}
    {register : Option Register} {number : Number}
    (h : (calculator.evaluate source register).1 = .ok number) :
    ∃ words chain final computed, (parse source {}).1 = .ok words ∧
      Chain.ofWords words register calculator.context = .ok chain ∧
      Chain.Leads calculator.context chain final ∧ final.first.value = some computed ∧
      number = { final.first with
        value := some (calculator.context.finalize computed final.inexact) } := by
  cases hparse : (parse source {}).1 with
  | error error =>
    rw [evaluate_of_parse_error hparse] at h
    cases h
  | ok words =>
    rw [evaluate_of_parse hparse, evaluateWords_eq] at h
    obtain ⟨chain, hchain, h⟩ := bind_eq_ok h
    have hevaluate := Chain.inEvaluation_eq_ok h
    rw [Chain.evaluate_eq] at hevaluate
    obtain ⟨final, hrun, hresult⟩ := bind_eq_ok hevaluate
    have hleads := ((Chain.Leads.of_run calculator.context le_rfl).1 final hrun).1
    unfold Chain.result at hresult
    split at hresult
    · next computed _ hvalue =>
      exact ⟨words, chain, final, computed, rfl, hchain, hleads, hvalue,
        (Except.ok.inj hresult).symm⟩
    · cases hresult

end DeskCalc
