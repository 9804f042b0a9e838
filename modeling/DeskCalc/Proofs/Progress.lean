import DeskCalc.Proofs.Progress.Step
import Mathlib.Data.List.Basic

/-
A chain that could be built can be reduced to a value.

This holds whatever words the chain was built from, also of words that no source has:
the weights that the words in front of a placeholder and behind it get are those that
guard it.
-/
namespace DeskCalc

namespace Chain

namespace Assembly

/-- The operator behind the last of some pairs, or else the one in front of them. -/
def lastOperator : Option Operator → List (Number × Operator) → Option Operator
  | left, [] => left
  | _, (_, operator) :: pairs => lastOperator (some operator) pairs

/-- Every operand of the pairs is guarded. -/
def Paired : Option Operator → List (Number × Operator) → Prop
  | _, [] => True
  | left, (number, operator) :: pairs =>
      Guarded left number (some operator) ∧ Paired (some operator) pairs

theorem lastOperator_append (left : Option Operator) (pairs more : List (Number × Operator)) :
    lastOperator left (pairs ++ more) = lastOperator (lastOperator left pairs) more := by
  induction pairs generalizing left with
  | nil => rfl
  | cons pair pairs ih => exact ih _

theorem paired_append {left : Option Operator} {pairs more : List (Number × Operator)}
    (h : Paired left pairs) (h' : Paired (lastOperator left pairs) more) :
    Paired left (pairs ++ more) := by
  induction pairs generalizing left with
  | nil => exact h'
  | cons pair pairs ih => exact ⟨h.1, ih h.2 h'⟩

theorem aligned_toRow {left : Option Operator} {pairs : List (Number × Operator)}
    {last : Number} (h : Paired left pairs) (h' : Guarded (lastOperator left pairs) last none) :
    Aligned left (toRow pairs last).first (toRow pairs last).links := by
  induction pairs generalizing left with
  | nil => exact h'
  | cons pair pairs ih => exact ⟨h.1, ih h.2 h'⟩

/-- What has been built can go on: a last operand is a value or stands behind a `)` that
weighs more than whatever follows here, and without one the last operator weighs less than
whatever may open here, or is a call. -/
structure Sound (assembly : Assembly) : Prop where
  paired : Paired none assembly.pairs
  last : ∀ number, assembly.last = some number → number.value.isSome = true ∨
    ∃ owner, lastOperator none assembly.pairs = some owner ∧ owner.kind = .closeParen ∧
      owner.weight = OperatorKind.groupWeight + assembly.base
  due : assembly.last = none → ∀ other ∈ lastOperator none assembly.pairs,
    other.kind.isCall = true ∨ other.weight < OperatorKind.groupWeight + assembly.base

variable {assembly : Assembly}

theorem sound_empty : Sound {} :=
  ⟨trivial, fun _ hlast => (by cases hlast), fun _ _ h => by cases h⟩

theorem Sound.pushOperand (h : assembly.Sound) {number : Number}
    (hvalue : number.value.isSome = true) : (assembly.pushOperand number).Sound := by
  refine ⟨h.paired, fun other hother => Or.inl ?_, fun hnone => by cases hnone⟩
  obtain rfl := Option.some.inj hother
  exact hvalue

/-- An opening operator stands where an operand is due, and every other one behind an
operand. -/
theorem Sound.paired_pushOperator (h : assembly.Sound) (kind : OperatorKind)
    (hdue : assembly.last.isNone = kind.isOpening) (words : List Word) :
    Paired none (assembly.pushOperator kind words).pairs := by
  refine paired_append h.paired ⟨?_, trivial⟩
  cases hlast : assembly.last with
  | none =>
    have hopening : kind.isOpening = true := by rw [← hdue, hlast]; rfl
    have hweight := OperatorKind.weight_of_opening hopening
    refine Or.inr (Or.inl ⟨_, rfl, hopening, fun other hother => ?_⟩)
    rcases h.due hlast other hother with hcall | hlt
    · exact Or.inl hcall
    · right
      show other.weight < kind.weight + assembly.base
      omega
  | some number =>
    have hopening : kind.isOpening = false := by rw [← hdue, hlast]; rfl
    have hweight := OperatorKind.weight_lt hopening
    rcases h.last number hlast with hvalue | ⟨owner, howner, hkind, howned⟩
    · exact Or.inl hvalue
    · refine Or.inr (Or.inr ⟨owner, howner, hkind, fun other hother => ?_⟩)
      obtain rfl := Option.some.inj hother
      show kind.weight + assembly.base < owner.weight
      omega

theorem lastOperator_pushOperator (assembly : Assembly) (kind : OperatorKind)
    (words : List Word) : lastOperator none (assembly.pushOperator kind words).pairs =
      some ⟨kind, kind.weight + assembly.base, words⟩ :=
  lastOperator_append none assembly.pairs _

/-- Behind a call or an operator that opens nothing an operand is due. -/
theorem Sound.pushOperator (h : assembly.Sound) (kind : OperatorKind)
    (hdue : assembly.last.isNone = kind.isOpening) (words : List Word)
    (hkind : kind.isCall = true ∨ kind.isOpening = false) :
    (assembly.pushOperator kind words).Sound := by
  refine ⟨h.paired_pushOperator kind hdue words, fun _ hlast => (by cases hlast), fun _ other hother => ?_⟩
  rw [lastOperator_pushOperator] at hother
  obtain rfl := Option.some.inj hother
  rcases hkind with hcall | hopening
  · exact Or.inl hcall
  · have hweight := OperatorKind.weight_lt hopening
    right
    show kind.weight + assembly.base < OperatorKind.groupWeight + assembly.base
    omega

theorem Sound.pushList (h : assembly.Sound) {numbers : List Number}
    (hvalues : ∀ number ∈ numbers, number.value.isSome = true) :
    (assembly.pushList numbers).Sound := by
  induction numbers generalizing assembly with
  | nil => exact h
  | cons number rest ih =>
    obtain ⟨hvalue, hrest⟩ := List.forall_mem_cons.1 hvalues
    cases rest with
    | nil => exact h.pushOperand hvalue
    | cons second rest =>
      exact ih ((h.pushOperand hvalue).pushOperator .comma rfl [] (Or.inr rfl)) hrest

theorem Sound.openGroup (h : assembly.Sound) (hlast : assembly.last = none) (word : Word) :
    (assembly.openGroup word).Sound := by
  have hpaired := h.paired_pushOperator .openParen (by rw [hlast]; rfl) [word]
  refine ⟨hpaired, fun _ hlast => (by cases hlast), fun _ other hother => Or.inr ?_⟩
  have hlastOperator := lastOperator_pushOperator assembly .openParen [word]
  obtain rfl := Option.some.inj (hlastOperator.symm.trans hother)
  show OperatorKind.groupWeight + assembly.base <
    OperatorKind.groupWeight + (assembly.base + OperatorKind.groupWeight)
  have hpos : 0 < OperatorKind.groupWeight := by decide
  omega

theorem Sound.closeGroup (h : assembly.Sound) (hlast : assembly.last.isNone = false)
    (word : Word) : (assembly.closeGroup word).Sound := by
  have hpaired := h.paired_pushOperator .closeParen hlast [word]
  refine ⟨hpaired, fun number hnumber => Or.inr ?_, fun hnone => by cases hnone⟩
  refine ⟨_, lastOperator_pushOperator assembly .closeParen [word], rfl, ?_⟩
  show 0 + assembly.base =
    OperatorKind.groupWeight + (assembly.base - OperatorKind.groupWeight)
  omega

end Assembly

section Build

variable {context : Context} {register : Option Register} {assembly : Assembly} {word : Word}

theorem isNone_last (hfits : fits assembly.wantsOperand word.kind = true)
    (hspoken : word.kind.isVirtual = false) :
    assembly.last.isNone = (word.kind.isOperand || word.kind.isOpening) := by
  rw [fits, hspoken, Bool.false_or, beq_iff_eq] at hfits
  exact hfits.symm

/-- A word that is taken in leaves an assembly that can go on. -/
theorem sound_place (h : assembly.Sound) (hfits : fits assembly.wantsOperand word.kind = true)
    {after : Assembly} (hplace : place context register assembly word = .ok after) :
    after.Sound := by
  have hlast := isNone_last hfits
  unfold place at hplace
  split at hplace
  · next hkind =>
    rw [hkind] at hlast
    obtain rfl := Except.ok.inj hplace
    exact h.openGroup (Option.isNone_iff_eq_none.1 (hlast rfl)) word
  · next hkind =>
    rw [hkind] at hlast
    dsimp only at hplace
    split at hplace
    · cases hplace
    · obtain rfl := Except.ok.inj hplace
      exact h.closeGroup (hlast rfl) word
  · next hkind =>
    rw [hkind] at hlast
    split at hplace
    · cases hplace
    · obtain rfl := Except.ok.inj hplace
      exact h.pushOperator (.call _) (hlast rfl) [word] (Or.inl rfl)
  · next hkind =>
    rw [hkind] at hlast
    split at hplace
    · cases hplace
    · obtain rfl := Except.ok.inj hplace
      exact h.pushOperator (.arithmetic _) (hlast rfl) [word] (Or.inr rfl)
  · next hkind =>
    rw [hkind] at hlast
    obtain rfl := Except.ok.inj hplace
    exact h.pushOperator .comma (hlast rfl) [word] (Or.inr rfl)
  iterate 3
    · obtain ⟨values, -, rfl⟩ := map_eq_ok hplace
      refine h.pushList fun number hnumber => ?_
      obtain ⟨value, -, rfl⟩ := List.mem_map.1 hnumber
      rfl
  iterate 2
    · obtain rfl := Except.ok.inj hplace
      exact h

theorem sound_take (h : assembly.Sound) {after : Assembly}
    (htake : take context register assembly word = .ok after) : after.Sound := by
  unfold take at htake
  split at htake
  · next hfits => exact sound_place h hfits htake
  · cases htake

theorem sound_words {words : List Word} (h : assembly.Sound) {after : Assembly}
    (hwords : words.foldlM (take context register) assembly = .ok after) : after.Sound :=
  foldlM_keeps h (fun _ _ _ _ hsound htake => sound_take hsound htake) hwords

/-- The operands of a chain that could be built are guarded. -/
theorem aligned_ofWords {words : List Word} {chain : Chain}
    (h : ofWords words register context = .ok chain) : Aligned none chain.first chain.links := by
  obtain ⟨assembly, hwords, hfinish⟩ := bind_eq_ok h
  have hsound := sound_words Assembly.sound_empty hwords
  unfold finish at hfinish
  split at hfinish
  · cases hfinish
  · split at hfinish
    · cases hfinish
    · next last hlast =>
      obtain rfl := Except.ok.inj hfinish
      refine Assembly.aligned_toRow hsound.paired ?_
      rcases hsound.last last hlast with hvalue | ⟨owner, howner, hkind, -⟩
      · exact Or.inl hvalue
      · exact Or.inr (Or.inr ⟨owner, howner, hkind, by simp⟩)

end Build
end Chain

/-- A chain that could be built from any words is reduced without getting stuck: each of its
states has one operand more than operators, a step that succeeds removes operators, one that
fails keeps the count and does not fail for want of an operand, and where no operator is
left the only operand is a value and the result of the chain. -/
theorem built_chain_progresses (words : List Word) (register : Option Register)
    (context : Context) (chain after : Chain)
    (hchain : Chain.ofWords words register context = .ok chain)
    (hafter : Chain.Leads context chain after) :
    after.operands.length = after.operators.length + 1 ∧
      (∀ next, after.step context = .reduced next →
        next.operators.length < after.operators.length) ∧
      (∀ error left, after.step context = .failed error left →
        (∀ symbol span, error ≠ .missingOperand symbol span) ∧
          left.operands.length = left.operators.length + 1) ∧
      (after.step context = .exhausted →
        ∃ number value, after.operands = [number] ∧ number.value = some value ∧
          after.result context =
            .ok { number with value := some (context.finalize value after.inexact) }) := by
  have haligned := hafter.aligned (Chain.aligned_ofWords hchain)
  have hlength := hafter.length
  refine ⟨hlength, fun next hstep => ?_, fun error left hstep => ⟨?_, ?_⟩, fun hstep => ?_⟩
  · obtain ⟨i, count, -, hremoves⟩ := Chain.removes_step (Or.inl hstep)
    exact (hremoves.length hlength).1
  · rintro symbol span rfl
    exact Chain.supplied_step haligned hstep trivial
  · obtain ⟨i, count, -, hremoves⟩ := Chain.removes_step (Or.inr ⟨error, hstep⟩)
    exact (hremoves.length hlength).2
  · obtain ⟨hlinks, value, hvalue, hresult⟩ := Chain.result_of_exhausted haligned hstep
    refine ⟨after.first, value, ?_, hvalue, hresult⟩
    rw [Row.operands, hlinks, List.map_nil]

/-- The words of `max 1,(2+3)`, with a placeholder: the call has no parentheses, and the
comma stands outside of it. -/
def looseWords : List Word :=
  [.plain "max".toList .functionName 0, .placeholder 3, .plain ['1'] .number 4,
    .plain [','] .comma 5, .plain ['('] .leftParen 6, .plain ['2'] .number 7,
    .plain ['+'] .operator 8, .plain ['3'] .number 9, .plain [')'] .rightParen 10]

/-- The chain of these words, but for the links between the comma and the `)`. -/
def looseChain (inside : List Link) : Chain where
  first := .placeholder
  links :=
    [⟨⟨.call .max, 100, [.plain "max".toList .functionName 0]⟩,
        Chain.operand (.plain ['1'] .number 4) ⟨1, 0⟩⟩,
      ⟨⟨.comma, 0, [.plain [','] .comma 5]⟩, .placeholder⟩] ++
    inside ++ [⟨⟨.closeParen, 100, [.plain [')'] .rightParen 10]⟩, .placeholder⟩]

/-- The sum stands between two placeholders, and is applied first. -/
theorem built_chain_progresses_loose :
    ∃ chain after, Chain.ofWords looseWords none {} = .ok chain ∧
      chain.step {} = .reduced after ∧ Chain.Leads {} chain after ∧
        after.operands.length = after.operators.length + 1 ∧
        (∀ next, after.step {} = .reduced next →
          next.operators.length < after.operators.length) ∧
        (∀ error left, after.step {} = .failed error left →
          (∀ symbol span, error ≠ .missingOperand symbol span) ∧
            left.operands.length = left.operators.length + 1) ∧
        (after.step {} = .exhausted →
          ∃ number value, after.operands = [number] ∧ number.value = some value ∧
            after.result {} =
              .ok { number with value := some (Context.finalize {} value after.inexact) }) := by
  have hchain : Chain.ofWords looseWords none {} = .ok (looseChain
      [⟨⟨.openParen, 100, [.plain ['('] .leftParen 6]⟩,
          Chain.operand (.plain ['2'] .number 7) ⟨2, 0⟩⟩,
        ⟨⟨.arithmetic .add, 110, [.plain ['+'] .operator 8]⟩,
          Chain.operand (.plain ['3'] .number 9) ⟨3, 0⟩⟩]) := by
    decide +kernel
  have hstep : Chain.step {} (looseChain
      [⟨⟨.openParen, 100, [.plain ['('] .leftParen 6]⟩,
          Chain.operand (.plain ['2'] .number 7) ⟨2, 0⟩⟩,
        ⟨⟨.arithmetic .add, 110, [.plain ['+'] .operator 8]⟩,
          Chain.operand (.plain ['3'] .number 9) ⟨3, 0⟩⟩]) = .reduced (looseChain
      [⟨⟨.openParen, 100, [.plain ['('] .leftParen 6]⟩,
          { value := some ⟨5, 0⟩
            words := [.plain ['2'] .number 7, .plain ['+'] .operator 8,
              .plain ['3'] .number 9] }⟩]) := by
    decide +kernel
  have hleads : Chain.Leads {} _ _ := Relation.ReflTransGen.single hstep
  exact ⟨_, _, hchain, hstep, hleads,
    built_chain_progresses looseWords none {} _ _ hchain hleads⟩

end DeskCalc
