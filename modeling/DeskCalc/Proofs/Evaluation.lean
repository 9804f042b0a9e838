import DeskCalc.Proofs.Reading.Acceptance
import DeskCalc.Proofs.Tree.Growth
import DeskCalc.Proofs.Tree.Run

/-
The chain of an accepted source computes its expression tree.

The words of a sentence are the writing of a graded tree.  The chain built from them is
the row of the tree with its leaves read, and reducing it ends as the tree evaluates.
Register ranges stand for several operands and are left out here.
-/
namespace DeskCalc

/-- The word stands for one value. -/
def Word.IsSingle (word : Word) : Prop := word.kind = .number ∨ word.kind = .register

namespace Chain

variable {context : Context} {register : Option Register} {words : List Word} {tree : Tree Word}
  {chain : Chain}

theorem takes_quantities : TakesLeaves context register Word.IsSingle
    (Quantity.read context register) (fun _ quantity => ⟨quantity.number, []⟩) := by
  intro word assembly hword hlast
  have hvalues : wordValues context register word =
      (Quantity.read context register word).map fun quantity => [quantity.value] := by
    rcases hword with hkind | hkind
    · simp only [wordValues, Quantity.read, hkind]
      cases literalValue context word <;> rfl
    · simp only [wordValues, Quantity.read, hkind]
      cases registerValue register word <;> rfl
  rw [take_operand hlast (by rcases hword with hkind | hkind <;> rw [hkind] <;> rfl), hvalues]
  cases hread : Quantity.read context register word with
  | error _ => rfl
  | ok quantity =>
    obtain ⟨value, -, rfl⟩ := map_eq_ok hread
    exact congrArg Except.ok (Assembly.pushList_cons assembly (operand word value) [])

theorem inEvaluation_eq_ok {α : Type} {result : Except EvalError α} {a : α}
    (h : inEvaluation result = .ok a) : result = .ok a := by
  cases result with
  | ok b => exact congrArg Except.ok (Except.ok.inj h)
  | error _ => cases h

/-- The chain of the words of a tree is built as its leaves are read. -/
theorem ofWords_quantities (tree : Tree Word) (hsingle : tree.Spelled Word.IsSingle) :
    ofWords tree.words register context =
      (inEvaluation (tree.traverse (Quantity.read context register))).map fun operands =>
        ofTree (operands.map Piece.value) false := by
  rw [ofWords_tree takes_quantities tree hsingle]
  simp only [ofTree, Tree.row_map]
  rfl

/-- The chain of words without register ranges is that of their tree. -/
theorem eq_ofTree (hwrites : tree.Writes words)
    (hranges : ∀ word ∈ words, word.kind ≠ .registerRange)
    (hchain : ofWords words register context = .ok chain) :
    ∃ operands, tree.traverse (Quantity.read context register) = .ok operands ∧
      operands.Graded ∧ chain = ofTree (operands.map Piece.value) false := by
  obtain ⟨hspelled, hgraded, rfl⟩ := hwrites
  have hsingle : tree.Spelled Word.IsSingle := by
    refine Tree.Spelled.imp tree (fun word hword hoperand => ?_) hspelled
    have hrange := hranges word hword
    revert hoperand hrange
    rw [Word.IsOperand, Word.IsSingle]
    cases word.kind <;> simp [WordKind.isOperand]
  rw [ofWords_quantities tree hsingle] at hchain
  obtain ⟨operands, hoperands, rfl⟩ := map_eq_ok hchain
  have hread := inEvaluation_eq_ok hoperands
  exact ⟨operands, hread, Tree.graded_traverse hread hgraded, rfl⟩

/-- What the operands of a tree come to. -/
theorem meaning_value (operands : Tree Quantity) :
    (operands.map Piece.value).meaning context 0 =
      ⟨operands.eval context, fun error => operands.Raises context error,
        operands.events context 0⟩ := by
  rw [Tree.meaning, operands.map_quantity_value]

/-- The chain of a tree whose leaves can be read, and how its reduction ends. -/
theorem ends_of_read {operands : Tree Quantity} (hsingle : tree.Spelled Word.IsSingle)
    (hgraded : tree.Graded)
    (hread : tree.traverse (Quantity.read context register) = .ok operands) :
    ∃ chain, ofWords tree.words register context = .ok chain ∧
      Ends ⟨operands.eval context, fun error => operands.Raises context error,
        operands.events context 0⟩ false (chain.run context chain.links.length) := by
  refine ⟨ofTree (operands.map Piece.value) false, ?_, ?_⟩
  · rw [ofWords_quantities tree hsingle, hread]
    rfl
  · rw [← meaning_value]
    exact run_ofTree _ _ (operands.graded_map Piece.value (Tree.graded_traverse hread hgraded))
      false le_rfl

theorem ends_ofWords (hwrites : tree.Writes words)
    (hranges : ∀ word ∈ words, word.kind ≠ .registerRange)
    (hchain : ofWords words register context = .ok chain) {fuel : Nat}
    (hfuel : chain.links.length ≤ fuel) :
    ∃ operands, tree.traverse (Quantity.read context register) = .ok operands ∧
      Ends ⟨operands.eval context, fun error => operands.Raises context error,
        operands.events context 0⟩ false (chain.run context fuel) := by
  obtain ⟨operands, hread, hgraded, rfl⟩ := eq_ofTree hwrites hranges hchain
  refine ⟨operands, hread, ?_⟩
  rw [← meaning_value]
  exact run_ofTree fuel _ (operands.graded_map Piece.value hgraded) false hfuel

/-- Reducing the chain until no operator is left gives the value of the tree of its
operands, and fails as a node of the tree fails. -/
structure Computes (context : Context) (chain : Chain) (operands : Tree Quantity) (fuel : Nat) :
    Prop where
  value : ∀ quantity, operands.eval context = .ok quantity →
    ∃ final, chain.run context fuel = .ok final ∧ final.links = [] ∧
      final.first.value = some quantity.value ∧ final.first.display = quantity.display
  fails : (∃ error, chain.run context fuel = .error error) ↔ ∃ error, operands.Raises context error
  raises : ∀ error, chain.run context fuel = .error error → operands.Raises context error

theorem Ends.computes {operands : Tree Quantity} {fuel : Nat} {inexact : Bool}
    {events : List Event}
    (h : Ends ⟨operands.eval context, fun error => operands.Raises context error, events⟩ inexact
      (chain.run context fuel)) : chain.Computes context operands fuel := by
  generalize hrun : chain.run context fuel = result at h
  cases h with
  | exhausted quantity mark value marked =>
    refine ⟨fun other hother => ?_, ?_, fun error herror => ?_⟩
    · obtain rfl : quantity = other := Except.ok.inj (value.symm.trans hother)
      exact ⟨_, hrun, rfl, rfl, rfl⟩
    · constructor
      · rintro ⟨error, herror⟩
        rw [hrun] at herror
        cases herror
      · rintro ⟨error, hraises⟩
        exact absurd hraises (Tree.not_raises value error)
    · rw [hrun] at herror
      cases herror
  | failed error hraises =>
    refine ⟨fun quantity hvalue => ?_, ?_, fun other hother => ?_⟩
    · exact absurd hraises (Tree.not_raises hvalue error)
    · exact ⟨fun _ => ⟨error, hraises⟩, fun _ => ⟨error, hrun⟩⟩
    · obtain rfl : error = other := Except.error.inj (hrun.symm.trans hother)
      exact hraises

end Chain

/-- Reducing a chain by weights computes the expression tree of its source. -/
theorem reduction_computes_tree (source : Text) (log : Log) (words : List Word)
    (register : Option Register) (context : Context) (chain : Chain)
    (hparse : (parse source log).1 = .ok words)
    (hranges : ∀ word ∈ words, word.kind ≠ .registerRange)
    (hchain : Chain.ofWords words register context = .ok chain) :
    (∃ tree : Tree Word, tree.Writes words) ∧
      ∀ tree : Tree Word, tree.Writes words →
        ∃ operands, tree.traverse (Quantity.read context register) = .ok operands ∧
          ∀ fuel, chain.links.length ≤ fuel → chain.Computes context operands fuel := by
  refine ⟨(Grammar.parse_eq_ok_iff.1 hparse).writes, fun tree hwrites => ?_⟩
  obtain ⟨operands, hread, -⟩ := Chain.ends_ofWords hwrites hranges hchain (Nat.le_refl _)
  refine ⟨operands, hread, fun fuel hfuel => ?_⟩
  obtain ⟨operands', hread', hends⟩ := Chain.ends_ofWords hwrites hranges hchain hfuel
  obtain rfl : operands = operands' := Except.ok.inj (hread.symm.trans hread')
  exact hends.computes

/-- The words of `(2-1)^sum(3,@a)`. -/
def groupedWords : List Word :=
  [.plain ['('] .leftParen 0, .plain ['2'] .number 1, .plain ['-'] .operator 2,
    .plain ['1'] .number 3, .plain [')'] .rightParen 4, .plain ['^'] .operator 5,
    .plain "sum".toList .functionName 6, .plain ['('] .leftParen 9, .plain ['3'] .number 10,
    .plain [','] .comma 11, .plain "@a".toList .register 12, .plain [')'] .rightParen 14]

/-- A register whose first slot holds 4. -/
def filledRegister : Register := (Register.Queue.empty.write (.ofDecimal ⟨4, 0⟩)).1.reader

theorem reduction_computes_group_and_call :
    ∃ chain, (parse "(2-1)^sum(3,@a)".toList {}).1 = .ok groupedWords ∧
      (∀ word ∈ groupedWords, word.kind ≠ .registerRange) ∧
        Chain.ofWords groupedWords (some filledRegister) {} = .ok chain ∧
          (∃ tree : Tree Word, tree.Writes groupedWords) ∧
            ∀ tree : Tree Word, tree.Writes groupedWords →
              ∃ operands, tree.traverse (Quantity.read {} (some filledRegister)) = .ok operands ∧
                ∀ fuel, chain.links.length ≤ fuel → chain.Computes {} operands fuel := by
  have hparse : (parse "(2-1)^sum(3,@a)".toList {}).1 = .ok groupedWords := by decide +kernel
  have hranges : ∀ word ∈ groupedWords, word.kind ≠ .registerRange := by decide
  have hok : (Chain.ofWords groupedWords (some filledRegister) {}).isOk = true := by
    decide +kernel
  cases hchain : Chain.ofWords groupedWords (some filledRegister) {} with
  | error error =>
    rw [hchain] at hok
    cases hok
  | ok chain =>
    exact ⟨chain, hparse, hranges, rfl, reduction_computes_tree _ {} groupedWords
      (some filledRegister) {} chain hparse hranges hchain⟩

end DeskCalc
