import DeskCalc.Calculator
import DeskCalc.Proofs.Evaluation

/-
When a result counts as inexact.

Losing digits is what the data decides: `Tree.exposed` looks for a loss that is not inside
the arguments of a rounding.  What the chain keeps is a single mark, which every rounding
clears, whatever it rounds.  So a loss counts only if no rounding comes after it in the
order of the weights: `inexact_iff_survives`.
-/
namespace DeskCalc

/-- The operation succeeds and digits are lost. -/
def loses : Except EvalError (Quantity × Effect) → Bool
  | .ok (_, effect) => effect.loses
  | .error _ => false

mutual

/-- Some operation outside the arguments of a rounding loses digits. -/
def Tree.exposed (context : Context) : Tree Quantity → Bool
  | .leaf _ => false
  | .binary op sign left right =>
      left.exposed context || right.exposed context ||
        loses (operated context op sign (left.eval context) (right.eval context))
  | .group _ inner _ => inner.exposed context
  | .call builtin name opening arguments closing =>
      (builtin != .round && arguments.exposed context) ||
        loses (invoked context builtin name opening (arguments.eval context) closing)

def Arguments.exposed (context : Context) : Arguments Quantity → Bool
  | .last only => only.exposed context
  | .more first _ rest => first.exposed context || rest.exposed context

end

/-! ## Surviving losses are exposed -/

theorem Survives.of_append {events more : List Event} (h : Survives (events ++ more)) :
    Survives events ∨ Survives more := by
  obtain ⟨before, event, after, hsplit, hloses, hbefore, hafter⟩ := h
  rcases split_append hsplit.symm with ⟨mid, rfl, rfl⟩ | ⟨mid, rfl, rfl⟩
  · exact Or.inl ⟨before, event, mid, rfl, hloses, hbefore,
      fun other hother => hafter other (List.mem_append_left _ hother)⟩
  · exact Or.inr ⟨mid, event, after, rfl, hloses,
      fun other hother => hbefore other (List.mem_append_right _ hother), hafter⟩

theorem Survives.loses {weight : Int} {result : Except EvalError (Quantity × Effect)}
    (h : Survives (Event.ofResult weight result)) : loses result = true := by
  cases result with
  | error _ => exact absurd h not_survives_nil
  | ok result =>
    obtain ⟨before, event, after, hsplit, hloses, -⟩ := h
    have hmem : event ∈ Event.ofResult weight (.ok result) :=
      hsplit ▸ List.mem_append_cons_self
    obtain rfl := List.mem_singleton.1 hmem
    exact hloses

/-- Losses of a greater weight do not survive a rounding in front of them. -/
theorem Survives.of_settled {event : Event} {events : List Event}
    (h : Survives ([event] ++ events)) (hsettles : event.effect.settles = true)
    (hweight : ∀ other ∈ events, event.weight < other.weight) : event.effect.loses = true := by
  obtain ⟨before, loss, after, hsplit, hloses, hbefore, -⟩ := h
  rcases split_append hsplit.symm with ⟨mid, hevent, -⟩ | ⟨mid, rfl, rfl⟩
  · obtain rfl : loss = event := List.mem_singleton.1 (hevent ▸ List.mem_append_cons_self)
    exact hloses
  · have hle := hbefore event (List.mem_append_left _ List.mem_cons_self) hsettles
    have hlt := hweight loss List.mem_append_cons_self
    omega

mutual

theorem Tree.lt_weight (context : Context) (tree : Tree Quantity) (base : Int) {event : Event}
    (h : event ∈ tree.events context base) : base < event.weight := by
  match tree with
  | .leaf _ => exact absurd h List.not_mem_nil
  | .binary op sign left right =>
    rcases List.mem_append.1 h with hleft | h
    · exact left.lt_weight context base hleft
    · rcases List.mem_append.1 h with hown | hright
      · have hrank := op.rank_pos
        have hop := op.weight_eq
        rw [Event.mem_ofResult hown]
        omega
      · exact right.lt_weight context base hright
  | .group opening inner closing =>
    have hlift : OperatorKind.groupWeight = 100 := rfl
    have := inner.lt_weight context _ h
    omega
  | .call builtin name opening arguments closing =>
    have hlift : OperatorKind.groupWeight = 100 := rfl
    rcases List.mem_append.1 h with hown | hinner
    · rw [Event.mem_ofResult hown]
      omega
    · have := arguments.lt_weight context _ hinner
      omega

theorem Arguments.lt_weight (context : Context) (arguments : Arguments Quantity) (base : Int)
    {event : Event} (h : event ∈ arguments.events context base) : base < event.weight := by
  match arguments with
  | .last only => exact only.lt_weight context base h
  | .more first comma rest =>
    rcases List.mem_append.1 h with hfirst | hrest
    · exact first.lt_weight context base hfirst
    · exact rest.lt_weight context base hrest

end

variable {context : Context}

theorem Builtin.precision_round {arguments : List Number} {span : Span} {outcome : Outcome}
    (h : Builtin.call context .round arguments span = .ok outcome) :
    outcome.precision = .settled := by
  rw [Builtin.call_eq] at h
  split at h
  · cases h
  · obtain ⟨values, -, h⟩ := bind_eq_ok h
    match values, h with
    | [x, places], h =>
      simp only [Builtin.apply, Builtin.applyM, Checked.value_pure, Builtin.evalRound] at h
      split at h
      · cases h
      · obtain rfl := Except.ok.inj h
        rfl
    | [], h => cases h
    | [_], h => cases h
    | _ :: _ :: _ :: _, h => cases h

/-- Every rounding on request settles. -/
theorem invoke_round {name opening closing : Word} {arguments : Spread} {quantity : Quantity}
    {effect : Effect}
    (h : invoke context .round name opening arguments closing = .ok (quantity, effect)) :
    effect.settles = true := by
  obtain ⟨outcome, hcall, hsettled⟩ := bind_eq_ok h
  have hprecision := Builtin.precision_round hcall
  rw [Outcome.settled] at hsettled
  split at hsettled
  · cases hsettled
  · obtain ⟨-, rfl⟩ := Prod.mk.inj (Except.ok.inj hsettled)
    simp [hprecision]

mutual

theorem Tree.exposed_of_survives {tree : Tree Quantity} {quantity : Quantity} {base : Int}
    (hvalue : tree.eval context = .ok quantity) (h : Survives (tree.events context base)) :
    tree.exposed context = true := by
  match tree with
  | .leaf _ => exact absurd h not_survives_nil
  | .binary op sign left right =>
    obtain ⟨result, hresult, -⟩ := map_eq_ok hvalue
    obtain ⟨x, y, hx, hy, -⟩ := operated_eq_ok hresult
    rw [Tree.exposed, Bool.or_eq_true, Bool.or_eq_true]
    rcases h.of_append with hleft | h
    · exact Or.inl (Or.inl (Tree.exposed_of_survives hx hleft))
    · rcases h.of_append with hown | hright
      · exact Or.inr hown.loses
      · exact Or.inl (Or.inr (Tree.exposed_of_survives hy hright))
  | .group opening inner closing =>
    obtain ⟨x, hx, -⟩ := map_eq_ok hvalue
    show inner.exposed context = true
    exact Tree.exposed_of_survives hx h
  | .call builtin name opening arguments closing =>
    obtain ⟨⟨result, effect⟩, hresult, -⟩ := map_eq_ok hvalue
    obtain ⟨spread, hspread, hinvoke⟩ := invoked_eq_ok hresult
    rw [Tree.exposed, Bool.or_eq_true, Bool.and_eq_true, bne_iff_ne]
    by_cases hround : builtin = .round
    · obtain rfl := hround
      rw [Tree.events, hresult] at h
      rw [hresult]
      refine Or.inr (h.of_settled (invoke_round hinvoke) fun other hother => ?_)
      have := arguments.lt_weight context _ hother
      show OperatorKind.groupWeight + base < _
      omega
    · rcases h.of_append with hown | hinner
      · exact Or.inr hown.loses
      · exact Or.inl ⟨hround, Arguments.exposed_of_survives hspread hinner⟩

theorem Arguments.exposed_of_survives {arguments : Arguments Quantity} {spread : Spread}
    {base : Int} (hvalue : arguments.eval context = .ok spread)
    (h : Survives (arguments.events context base)) : arguments.exposed context = true := by
  match arguments with
  | .last only =>
    obtain ⟨x, hx, -⟩ := map_eq_ok hvalue
    exact Tree.exposed_of_survives hx h
  | .more first comma rest =>
    obtain ⟨x, hx, hvalue⟩ := bind_eq_ok hvalue
    obtain ⟨spread, hspread, -⟩ := bind_eq_ok hvalue
    rw [Arguments.exposed, Bool.or_eq_true]
    rcases h.of_append with hfirst | hrest
    · exact Or.inl (Tree.exposed_of_survives hx hfirst)
    · exact Or.inr (Arguments.exposed_of_survives hspread hrest)

end

/-! ## The mark of an evaluated chain -/

namespace Chain

theorem evaluate_eq_ok {chain : Chain} {number : Number}
    (h : chain.evaluate context = .ok number) :
    ∃ final value, chain.run context chain.links.length = .ok final ∧
      final.first.value = some value ∧
        number.value = some (context.finalize value final.inexact) := by
  rw [evaluate_eq] at h
  obtain ⟨final, hrun, hresult⟩ := bind_eq_ok h
  rw [result] at hresult
  split at hresult
  · next value _ hvalue =>
    obtain rfl := Except.ok.inj hresult
    exact ⟨final, value, hrun, hvalue, rfl⟩
  · cases hresult

end Chain

/-- A result is finalized as inexact if and only if a loss survives.  Such a loss is
exposed, but an exposed loss need not survive. -/
theorem inexact_iff_survives (source : Text) (log : Log) (words : List Word)
    (register : Option Register) (context : Context) (chain : Chain) (number : Number)
    (hparse : (parse source log).1 = .ok words)
    (hranges : ∀ word ∈ words, word.kind ≠ .registerRange)
    (hchain : Chain.ofWords words register context = .ok chain)
    (hnumber : chain.evaluate context = .ok number) :
    (∃ tree : Tree Word, tree.Writes words) ∧
      ∀ tree : Tree Word, tree.Writes words →
        ∃ operands quantity final,
          tree.traverse (Quantity.read context register) = .ok operands ∧
          operands.eval context = .ok quantity ∧
          chain.run context chain.links.length = .ok final ∧
          number.value = some (context.finalize quantity.value final.inexact) ∧
          (final.inexact = true ↔ Survives (operands.events context 0)) ∧
          (final.inexact = true → operands.exposed context = true) ∧
          ((final.inexact = true ↔ operands.exposed context = true) ↔
            (operands.exposed context = true → Survives (operands.events context 0))) := by
  refine ⟨(Grammar.parse_eq_ok_iff.1 hparse).writes, fun tree hwrites => ?_⟩
  obtain ⟨operands, hread, hends⟩ := Chain.ends_ofWords hwrites hranges hchain (Nat.le_refl _)
  obtain ⟨final, value, hrun, hvalue, hresult⟩ := Chain.evaluate_eq_ok hnumber
  rw [hrun] at hends
  cases hends with
  | exhausted quantity mark heval hmarked =>
    have hsurvives : mark = true ↔ Survives (operands.events context 0) := by
      rw [hmarked, Marked]
      simp
    have hexposed : mark = true → operands.exposed context = true :=
      fun hmark => Tree.exposed_of_survives heval (hsurvives.1 hmark)
    obtain rfl : quantity.value = value := Option.some.inj hvalue
    refine ⟨operands, quantity, _, hread, heval, hrun, hresult, hsurvives, hexposed, ?_⟩
    rw [← hsurvives]
    exact ⟨fun h => h.2, fun h => ⟨hexposed, h⟩⟩

/-- The tree of `(1/3)+round(0,0)`. -/
def clearedTree : Tree Word :=
  .binary .add (.plain ['+'] .operator 5)
    (.group (.plain ['('] .leftParen 0)
      (.binary .div (.plain ['/'] .operator 2) (.leaf (.plain ['1'] .number 1))
        (.leaf (.plain ['3'] .number 3)))
      (.plain [')'] .rightParen 4))
    (.call .round (.plain "round".toList .functionName 6) (.plain ['('] .leftParen 11)
      (.more (.leaf (.plain ['0'] .number 12)) (.plain [','] .comma 13)
        (.last (.leaf (.plain ['0'] .number 14))))
      (.plain [')'] .rightParen 15))

theorem inexact_iff_survives_cleared :
    ∃ chain number, (parse "(1/3)+round(0,0)".toList {}).1 = .ok clearedTree.words ∧
      (∀ word ∈ clearedTree.words, word.kind ≠ .registerRange) ∧
      Chain.ofWords clearedTree.words none {} = .ok chain ∧ chain.evaluate {} = .ok number ∧
      (∃ tree : Tree Word, tree.Writes clearedTree.words) ∧
        ∀ tree : Tree Word, tree.Writes clearedTree.words →
          ∃ operands quantity final,
            tree.traverse (Quantity.read {} none) = .ok operands ∧
            operands.eval {} = .ok quantity ∧
            chain.run {} chain.links.length = .ok final ∧
            number.value = some (Context.finalize {} quantity.value final.inexact) ∧
            (final.inexact = true ↔ Survives (operands.events {} 0)) ∧
            (final.inexact = true → operands.exposed {} = true) ∧
            ((final.inexact = true ↔ operands.exposed {} = true) ↔
              (operands.exposed {} = true → Survives (operands.events {} 0))) := by
  have hparse : (parse "(1/3)+round(0,0)".toList {}).1 = .ok clearedTree.words := by
    decide +kernel
  have hranges : ∀ word ∈ clearedTree.words, word.kind ≠ .registerRange := by decide
  have hok : ((Chain.ofWords clearedTree.words none {}).bind fun chain =>
      Chain.inEvaluation (chain.evaluate {})).isOk = true := by decide +kernel
  cases hchain : Chain.ofWords clearedTree.words none {} with
  | error error =>
    rw [hchain] at hok
    cases hok
  | ok chain =>
    rw [hchain] at hok
    cases hnumber : chain.evaluate {} with
    | error error =>
      rw [Except.bind, hnumber] at hok
      cases hok
    | ok number =>
      exact ⟨chain, number, hparse, hranges, rfl, hnumber, inexact_iff_survives _ {}
        clearedTree.words none {} chain number hparse hranges hchain hnumber⟩

/-- A rounding clears the loss of an operand that it has nothing to do with, and without
the parentheses it does not. -/
theorem exposed_loss_cleared :
    (parse "(1/3)+round(0,0)".toList {}).1 = .ok clearedTree.words ∧
      clearedTree.Writes clearedTree.words ∧
      (clearedTree.traverse (Quantity.read {} none)).map (Tree.exposed {}) = .ok true ∧
      ((Chain.ofWords clearedTree.words none {}).bind fun chain =>
        Chain.inEvaluation (chain.run {} chain.links.length)).map Chain.inexact = .ok false ∧
      calculate "(1/3)+round(0,0)".toList = .ok ⟨333333333333333333333333333333, 30⟩ ∧
      calculate "1/3+round(0,0)".toList = .ok ⟨3333333333, 10⟩ := by
  refine ⟨by decide +kernel, ⟨?_, ?_, rfl⟩, by decide +kernel, by decide +kernel,
    by decide +kernel, by decide +kernel⟩
  · simp only [clearedTree, Tree.Spelled, Arguments.Spelled, Word.IsOperand]
    decide
  · simp only [clearedTree, Tree.Graded, Arguments.Graded]
    decide

end DeskCalc
