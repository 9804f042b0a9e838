import DeskCalc.Diagnostic.Basic
import DeskCalc.Proofs.Reading.Acceptance
import DeskCalc.Proofs.Tree.Growth
import DeskCalc.Proofs.Tree.Row

/-
Accepted words are well-formed.

Operands and operators alternate in them, parentheses pair up, and building a chain fails
only where a word cannot be read as a value.  Here a register range may stand for several
values; a queue never gives an empty one.
-/
namespace DeskCalc

/-- Operands and operators alternate, seen from what is due; a function name and a `(`
leave an operand due, a `)` completes one. -/
def alternates : Turn → List Word → Bool
  | .operand, [] => false
  | .operator, [] => true
  | .operand, word :: rest =>
      (word.kind.isOperand && alternates .operator rest) ||
        (word.kind.isOpening && alternates .operand rest)
  | .operator, word :: rest =>
      (word.kind == .rightParen && alternates .operator rest) ||
        ((word.kind == .operator || word.kind == .comma) && alternates .operand rest)

/-- Every `)` closes a `(`, and with the open ones before all are closed at the end. -/
def balanced : Nat → List Word → Bool
  | depth, [] => depth == 0
  | depth, word :: rest =>
      if word.kind = .leftParen then balanced (depth + 1) rest
      else if word.kind = .rightParen then decide (0 < depth) && balanced (depth - 1) rest
      else balanced depth rest

/-- The errors of words that cannot be read as values. -/
def EvalError.IsReading : EvalError → Prop
  | .malformedLiteral _ _ => True
  | .domain .numberOutOfRange _ => True
  | .unknownRegister _ _ => True
  | .register _ _ => True
  | _ => False

/-! ## The writing of a tree -/

section Words

variable {word : Word} {rest : List Word}

theorem alternates_operand (h : word.IsOperand) :
    alternates .operand (word :: rest) = alternates .operator rest := by
  have hoperand : word.kind.isOperand = true := h
  have hopening : word.kind.isOpening = false := by
    revert hoperand
    cases word.kind <;> decide
  rw [alternates, hoperand, hopening, Bool.true_and, Bool.false_and, Bool.or_false]

theorem alternates_opening (h : word.kind = .leftParen ∨ word.kind = .functionName) :
    alternates .operand (word :: rest) = alternates .operand rest := by
  rcases h with h | h <;> simp [alternates, h, WordKind.isOperand, WordKind.isOpening]

theorem alternates_closing (h : word.kind = .rightParen) :
    alternates .operator (word :: rest) = alternates .operator rest := by
  simp [alternates, h]

theorem alternates_infix (h : word.kind = .operator ∨ word.kind = .comma) :
    alternates .operator (word :: rest) = alternates .operand rest := by
  rcases h with h | h <;> simp [alternates, h]

theorem balanced_opening (h : word.kind = .leftParen) (depth : Nat) :
    balanced depth (word :: rest) = balanced (depth + 1) rest := by
  rw [balanced, if_pos h]

theorem balanced_closing (h : word.kind = .rightParen) (depth : Nat) :
    balanced (depth + 1) (word :: rest) = balanced depth rest := by
  simp [balanced, h]

theorem balanced_other (h : word.kind ≠ .leftParen) (h' : word.kind ≠ .rightParen) (depth : Nat) :
    balanced depth (word :: rest) = balanced depth rest := by
  rw [balanced, if_neg h, if_neg h']

theorem balanced_operand (h : word.IsOperand) (depth : Nat) :
    balanced depth (word :: rest) = balanced depth rest := by
  have hoperand : word.kind.isOperand = true := h
  refine balanced_other (fun hkind => ?_) (fun hkind => ?_) depth
  · rw [hkind] at hoperand
    cases hoperand
  · rw [hkind] at hoperand
    cases hoperand

end Words

mutual

theorem Tree.alternates_words (tree : Tree Word) (h : tree.Spelled Word.IsOperand)
    (rest : List Word) : alternates .operand (tree.words ++ rest) = alternates .operator rest := by
  match tree with
  | .leaf word => exact alternates_operand h
  | .binary op sign left right =>
    obtain ⟨hsign, hleft, hright⟩ := h
    rw [Tree.words, List.append_assoc, left.alternates_words hleft, List.cons_append,
      alternates_infix (Or.inl hsign.1), right.alternates_words hright]
  | .group opening inner closing =>
    obtain ⟨hopening, hclosing, hinner⟩ := h
    rw [Tree.words, List.cons_append, List.append_assoc, alternates_opening (Or.inl hopening),
      inner.alternates_words hinner, List.singleton_append, alternates_closing hclosing]
  | .call builtin name opening arguments closing =>
    obtain ⟨hname, hopening, hclosing, harguments⟩ := h
    rw [Tree.words, List.cons_append, List.cons_append, List.append_assoc,
      alternates_opening (Or.inr hname.1), alternates_opening (Or.inl hopening),
      arguments.alternates_words harguments, List.singleton_append, alternates_closing hclosing]

theorem Arguments.alternates_words (arguments : Arguments Word)
    (h : arguments.Spelled Word.IsOperand) (rest : List Word) :
    alternates .operand (arguments.words ++ rest) = alternates .operator rest := by
  match arguments with
  | .last only => exact only.alternates_words h rest
  | .more first comma others =>
    obtain ⟨hcomma, hfirst, hothers⟩ := h
    rw [Arguments.words, List.append_assoc, first.alternates_words hfirst, List.cons_append,
      alternates_infix (Or.inr hcomma), others.alternates_words hothers]

end

mutual

theorem Tree.balanced_words (tree : Tree Word) (h : tree.Spelled Word.IsOperand) (depth : Nat)
    (rest : List Word) : balanced depth (tree.words ++ rest) = balanced depth rest := by
  match tree with
  | .leaf word => exact balanced_operand h depth
  | .binary op sign left right =>
    obtain ⟨hsign, hleft, hright⟩ := h
    rw [Tree.words, List.append_assoc, left.balanced_words hleft, List.cons_append,
      balanced_other (by simp [hsign.1]) (by simp [hsign.1]), right.balanced_words hright]
  | .group opening inner closing =>
    obtain ⟨hopening, hclosing, hinner⟩ := h
    rw [Tree.words, List.cons_append, List.append_assoc, balanced_opening hopening,
      inner.balanced_words hinner, List.singleton_append, balanced_closing hclosing]
  | .call builtin name opening arguments closing =>
    obtain ⟨hname, hopening, hclosing, harguments⟩ := h
    rw [Tree.words, List.cons_append, List.cons_append, List.append_assoc,
      balanced_other (by simp [hname.1]) (by simp [hname.1]), balanced_opening hopening,
      arguments.balanced_words harguments, List.singleton_append, balanced_closing hclosing]

theorem Arguments.balanced_words (arguments : Arguments Word)
    (h : arguments.Spelled Word.IsOperand) (depth : Nat) (rest : List Word) :
    balanced depth (arguments.words ++ rest) = balanced depth rest := by
  match arguments with
  | .last only => exact only.balanced_words h depth rest
  | .more first comma others =>
    obtain ⟨hcomma, hfirst, hothers⟩ := h
    rw [Arguments.words, List.append_assoc, first.balanced_words hfirst, List.cons_append,
      balanced_other (by simp [hcomma]) (by simp [hcomma]), others.balanced_words hothers]

end

/-! ## Errors of reading -/

namespace Chain

variable {context : Context} {register : Option Register} {word : Word} {error : EvalError}

theorem isReading_literal (h : literalValue context word = .error error) : error.IsReading := by
  rw [literalValue] at h
  split at h
  · obtain rfl := Except.error.inj h
    trivial
  · split at h
    · obtain rfl := Except.error.inj h
      trivial
    · cases h

theorem isReading_stored {number : Number} (h : storedValue word number = .error error) :
    error.IsReading := by
  rw [storedValue] at h
  split at h
  · cases h
  · obtain rfl := Except.error.inj h
    trivial

theorem isReading_require (h : requireRegister register word = .error error) :
    error.IsReading := by
  cases register with
  | some _ => cases h
  | none =>
    obtain rfl := Except.error.inj h
    trivial

theorem isReading_atWord {α : Type} {result : Except RegisterError α}
    (h : atWord word result = .error error) : error.IsReading := by
  cases result with
  | ok _ => cases h
  | error _ =>
    obtain rfl := Except.error.inj h
    trivial

theorem atWord_eq_ok {α : Type} {result : Except RegisterError α} {a : α}
    (h : atWord word result = .ok a) : result = .ok a := by
  cases result with
  | ok _ => exact congrArg Except.ok (Except.ok.inj h)
  | error _ => cases h

theorem isReading_mapM {numbers : List Number}
    (h : numbers.mapM (storedValue word) = .error error) : error.IsReading := by
  induction numbers with
  | nil => cases h
  | cons number numbers ih =>
    rw [List.mapM_cons] at h
    rcases bind_eq_error h with h | ⟨_, -, h⟩
    · exact isReading_stored h
    · rcases bind_eq_error h with h | ⟨_, -, h⟩
      · exact ih h
      · cases h

theorem isReading_register (h : registerValue register word = .error error) :
    error.IsReading := by
  rcases bind_eq_error h with h | ⟨_, -, h⟩
  · exact isReading_require h
  · rcases bind_eq_error h with h | ⟨_, -, h⟩
    · exact isReading_atWord h
    · exact isReading_stored h

theorem isReading_range (h : rangeValues register word = .error error) : error.IsReading := by
  rcases bind_eq_error h with h | ⟨_, -, h⟩
  · exact isReading_require h
  · split at h
    · obtain rfl := Except.error.inj h
      trivial
    · rcases bind_eq_error h with h | ⟨_, -, h⟩
      · exact isReading_atWord h
      · exact isReading_mapM h

theorem isReading_values (h : wordValues context register word = .error error) :
    error.IsReading := by
  rw [wordValues] at h
  split at h
  · exact isReading_range h
  · exact isReading_register (map_eq_error h)
  · exact isReading_literal (map_eq_error h)

/-! ## Register ranges of a queue -/

theorem mapM_ne_nil {α β ε : Type} {f : α → Except ε β} {inputs : List α} {outputs : List β}
    (h : inputs.mapM f = .ok outputs) (hne : inputs ≠ []) : outputs ≠ [] := by
  cases inputs with
  | nil => exact absurd rfl hne
  | cons input inputs =>
    rw [List.mapM_cons] at h
    obtain ⟨_, -, h⟩ := bind_eq_ok h
    obtain ⟨_, -, h⟩ := bind_eq_ok h
    obtain rfl := Except.ok.inj h
    exact List.cons_ne_nil _ _

theorem readRange_ne_nil {queue : Register.Queue} {first last : Text} {numbers : List Number}
    (h : queue.readRange first last = .ok numbers) : numbers ≠ [] := by
  rw [Register.Queue.readRange] at h
  split at h
  · split at h
    · cases h
    · split at h
      · cases h
      · next hne =>
        obtain rfl := Except.ok.inj h
        exact hne
  · cases h

/-- A word stands for at least one value. -/
theorem wordValues_ne_nil {queue : Option Register.Queue} {values : List Decimal}
    (h : wordValues context (queue.map Register.Queue.reader) word = .ok values) :
    values ≠ [] := by
  rw [wordValues] at h
  split at h
  · obtain ⟨register, hregister, h⟩ := bind_eq_ok h
    split at h
    · cases h
    · obtain ⟨numbers, hnumbers, h⟩ := bind_eq_ok h
      refine mapM_ne_nil h ?_
      cases queue with
      | none => cases hregister
      | some queue =>
        obtain rfl := Except.ok.inj hregister
        exact readRange_ne_nil (atWord_eq_ok hnumbers)
  · obtain ⟨value, -, rfl⟩ := map_eq_ok h
    exact List.cons_ne_nil _ _
  · obtain ⟨value, -, rfl⟩ := map_eq_ok h
    exact List.cons_ne_nil _ _

/-- The operands that a word stands for. -/
def wordOperands (context : Context) (register : Option Register) (word : Word) :
    Except EvalError (List Number) :=
  (wordValues context register word).map fun values => values.map (operand word)

def operandsRow (base : Int) : List Number → Row
  | [] => ⟨.placeholder, []⟩
  | first :: rest => .list base first rest

theorem takes_operands (queue : Option Register.Queue) :
    TakesLeaves context (queue.map Register.Queue.reader) Word.IsOperand
      (wordOperands context (queue.map Register.Queue.reader)) operandsRow := by
  intro word assembly hword hlast
  rw [take_operand hlast hword, wordOperands]
  cases hvalues : wordValues context (queue.map Register.Queue.reader) word with
  | error _ => rfl
  | ok values =>
    cases values with
    | nil => exact absurd rfl (wordValues_ne_nil hvalues)
    | cons value values => exact congrArg Except.ok (Assembly.pushList_cons assembly _ _)

/-- Building a chain from the words of an accepted source fails only where a word cannot be
read as a value. -/
theorem isReading_ofWords {source : Text} {log : Log} {words : List Word}
    {queue : Option Register.Queue} {context : Context} {error : CalcError}
    (hparse : (parse source log).1 = .ok words)
    (herror : ofWords words (queue.map Register.Queue.reader) context = .error error) :
    ∃ cause : EvalError, error = .evaluation cause ∧ cause.IsReading := by
  obtain ⟨tree, hspelled, -, rfl⟩ := (Grammar.parse_eq_ok_iff.1 hparse).writes
  rw [ofWords_tree (takes_operands queue) tree hspelled] at herror
  have hread := map_eq_error herror
  cases htraverse : tree.traverse (wordOperands context (queue.map Register.Queue.reader)) with
  | ok _ =>
    rw [htraverse] at hread
    cases hread
  | error cause =>
    rw [htraverse] at hread
    refine ⟨cause, (Except.error.inj hread).symm, ?_⟩
    exact Tree.traverse_error (fun h => isReading_values (map_eq_error h)) htraverse

end Chain

/-- The words of an accepted source are well-formed, and a chain can be built from them
unless one of them cannot be read as a value. -/
theorem accepted_words_well_formed (source : Text) (log : Log) (words : List Word)
    (queue : Option Register.Queue) (context : Context)
    (hparse : (parse source log).1 = .ok words) :
    (∀ error, Chain.ofWords words (queue.map Register.Queue.reader) context = .error error →
      ∃ cause : EvalError, error = .evaluation cause ∧ cause.IsReading) ∧
        alternates .operand words = true ∧ balanced 0 words = true := by
  refine ⟨fun error herror => Chain.isReading_ofWords hparse herror, ?_⟩
  obtain ⟨tree, hspelled, -, rfl⟩ := (Grammar.parse_eq_ok_iff.1 hparse).writes
  have halternates := tree.alternates_words hspelled []
  have hbalanced := tree.balanced_words hspelled 0 []
  rw [List.append_nil] at halternates hbalanced
  exact ⟨halternates, hbalanced⟩

/-- The words of `max((@a_b),2,)`, whose last comma leaves none. -/
def rangeWords : List Word :=
  [.plain "max".toList .functionName 0, .plain ['('] .leftParen 3, .plain ['('] .leftParen 4,
    .plain "@a_b".toList .registerRange 5, .plain [')'] .rightParen 9, .plain [','] .comma 10,
    .plain ['2'] .number 11, .plain [')'] .rightParen 13]

theorem accepted_words_well_formed_range :
    (parse "max((@a_b),2,)".toList {}).1 = .ok rangeWords ∧
      (∀ error, Chain.ofWords rangeWords ((some .empty).map Register.Queue.reader) {} =
        .error error → ∃ cause : EvalError, error = .evaluation cause ∧ cause.IsReading) ∧
          alternates .operand rangeWords = true ∧ balanced 0 rangeWords = true := by
  have hparse : (parse "max((@a_b),2,)".toList {}).1 = .ok rangeWords := by decide +kernel
  exact ⟨hparse, accepted_words_well_formed _ {} rangeWords (some .empty) {} hparse⟩

end DeskCalc
