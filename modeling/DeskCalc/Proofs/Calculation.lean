import DeskCalc.Calculator
import DeskCalc.Proofs.Evaluation

/-
What a calculation comes down to.

A calculation reads its source and evaluates the words.  `calculate_eq_ok` takes a result
apart: it is the value of the expression tree, finalized, and it counts as inexact only if
some operation was performed.  A single literal is its own value.
-/
namespace DeskCalc

/-- Evaluating an accepted source evaluates its words. -/
theorem evaluate_of_parse {source : Text} {words : List Word}
    (h : (parse source {}).1 = .ok words) (calculator : Calculator) (register : Option Register) :
    (calculator.evaluate source register).1 =
      Calculator.evaluateWords calculator.context words register := by
  have hparse : (parse source .empty).1 = .ok words := h
  rw [Calculator.evaluate_eq, Calculator.run_eq]
  generalize parse source .empty = outcome at hparse
  obtain ⟨_, _⟩ := outcome
  subst hparse
  dsimp only
  cases Calculator.evaluateWords calculator.context words register <;> rfl

theorem evaluate_of_parse_error {source : Text} {error : ParseError}
    (h : (parse source {}).1 = .error error) (calculator : Calculator)
    (register : Option Register) :
    (calculator.evaluate source register).1 = .error (.parsing error) := by
  have hparse : (parse source .empty).1 = .error error := h
  rw [Calculator.evaluate_eq, Calculator.run_eq]
  generalize parse source .empty = outcome at hparse
  obtain ⟨_, _⟩ := outcome
  subst hparse
  rfl

namespace Chain

variable {context : Context} {words : List Word}

theorem take_range {assembly after : Assembly} {word : Word} (hkind : word.kind = .registerRange) :
    take context none assembly word ≠ .ok after := by
  intro h
  unfold take at h
  split at h
  · simp only [place, hkind, wordValues, rangeValues, requireRegister] at h
    cases h
  · cases h

/-- Without a register there are no ranges. -/
theorem no_range_ofWords {chain : Chain} (h : ofWords words none context = .ok chain) :
    ∀ word ∈ words, word.kind ≠ .registerRange := by
  obtain ⟨assembly, hwords, -⟩ := bind_eq_ok h
  clear h
  generalize ({} : Assembly) = start at hwords
  induction words generalizing start with
  | nil => simp
  | cons word words ih =>
    rw [List.foldlM_cons] at hwords
    obtain ⟨next, hnext, hrest⟩ := bind_eq_ok hwords
    exact List.forall_mem_cons.2 ⟨fun hkind => take_range hkind hnext, ih next hrest⟩

end Chain

open Chain

/-- A result is the finalized value of the tree of its source. -/
theorem calculate_eq_ok {source : Text} {v : Decimal} (h : calculate source = .ok v) :
    ∃ (tree : Tree Word) (operands : Tree Quantity) (quantity : Quantity) (inexact : Bool),
      tree.traverse (Quantity.read {} none) = .ok operands ∧
      operands.eval {} = .ok quantity ∧
      (inexact = true → operands.events {} 0 ≠ []) ∧
      v = Context.finalize {} quantity.value inexact := by
  rw [calculate_eq] at h
  obtain ⟨number, hnumber, hv⟩ := bind_eq_ok h
  cases hparse : (parse source {}).1 with
  | error error =>
    rw [evaluate_of_parse_error hparse] at hnumber
    cases hnumber
  | ok words =>
    rw [evaluate_of_parse hparse, Calculator.evaluateWords_eq] at hnumber
    obtain ⟨chain, hchain, hevaluate⟩ := bind_eq_ok hnumber
    have hnumber := inEvaluation_eq_ok hevaluate
    rw [evaluate_eq] at hnumber
    obtain ⟨tree, hwrites⟩ := (Grammar.parse_eq_ok_iff.1 hparse).writes
    obtain ⟨operands, hread, hends⟩ :=
      Chain.ends_ofWords hwrites (Chain.no_range_ofWords hchain) hchain (Nat.le_refl _)
    obtain ⟨final, hrun, hresult⟩ := bind_eq_ok hnumber
    rw [hrun] at hends
    cases hends with
    | exhausted quantity mark heval hmarked =>
      refine ⟨tree, operands, quantity, mark, hread, heval, fun hmark hevents => ?_, ?_⟩
      · dsimp only at hmarked
        rw [hevents, marked_nil] at hmarked
        exact Bool.false_ne_true (hmarked.1 hmark)
      · obtain rfl := Except.ok.inj hresult
        exact (Except.ok.inj hv).symm

/-- A single literal is its own value. -/
theorem calculate_literal {source : Text} {word : Word} {x : Decimal}
    (hparse : (parse source {}).1 = .ok [word]) (hkind : word.kind = .number)
    (hvalue : Chain.literalValue {} word = .ok x) :
    calculate source = .ok (Context.finalize {} x false) := by
  have hvalues : wordValues {} none word = .ok [x] := by
    rw [wordValues, hkind]
    show (literalValue {} word).map _ = _
    rw [hvalue]
    rfl
  have htake : Chain.take {} none {} word = .ok { last := some (operand word x) } := by
    rw [take_operand rfl (by rw [hkind]; rfl), hvalues]
    rfl
  have hchain : ofWords [word] none {} = .ok { first := operand word x, links := [] } := by
    rw [ofWords, List.foldlM_cons, htake]
    rfl
  have hwords : Calculator.evaluateWords {} [word] none =
      .ok { operand word x with value := some (Context.finalize {} x false) } := by
    rw [Calculator.evaluateWords_eq, hchain]
    rfl
  rw [calculate_eq, evaluate_of_parse hparse, hwords]
  rfl

end DeskCalc
