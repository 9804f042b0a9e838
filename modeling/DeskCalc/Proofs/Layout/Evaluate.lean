import DeskCalc.Calculator
import DeskCalc.Proofs.Layout.Wordless

/-
Evaluation of words at other places.

Words that are the same but for their places build the same chain but for its words, or fail
with the same cause.
-/
namespace DeskCalc

/-- A result without what is left out of its value and without the place of its error. -/
def apart {α : Type} (strip : α → α) (result : Except CalcError α) : Except CalcError α :=
  (result.map strip).mapError CalcError.unplaced

section Apart

variable {α β : Type} {strip : α → α} {strip' : β → β}

/-- Results that differ in what is left out only fail together. -/
theorem apart_cases {result result' : Except CalcError α}
    (h : apart strip result' = apart strip result) :
    (∃ error error', result = .error error ∧ result' = .error error' ∧
      error'.unplaced = error.unplaced) ∨
    ∃ a a', result = .ok a ∧ result' = .ok a' ∧ strip a' = strip a := by
  cases result with
  | error error =>
    cases result' with
    | error error' => exact Or.inl ⟨error, error', rfl, rfl, Except.error.inj h⟩
    | ok _ => cases h
  | ok a =>
    cases result' with
    | error _ => cases h
    | ok a' => exact Or.inr ⟨a, a', rfl, rfl, Except.ok.inj h⟩

/-- What is computed from results that differ in what is left out only differs so, too. -/
theorem apart_bind {result result' : Except CalcError α} {next next' : α → Except CalcError β}
    (h : apart strip result' = apart strip result)
    (hnext : ∀ a a', strip a' = strip a →
      apart strip' (next' a') = apart strip' (next a)) :
    apart strip' (result'.bind next') = apart strip' (result.bind next) := by
  rcases apart_cases h with ⟨error, error', rfl, rfl, herror⟩ | ⟨a, a', rfl, rfl, ha⟩
  · exact congrArg Except.error herror
  · exact hnext a a' ha

theorem apart_inEvaluation (strip : α → α) (result : Except EvalError α) :
    apart strip (Chain.inEvaluation result) =
      Chain.inEvaluation ((result.map strip).mapError EvalError.unplaced) := by
  cases result <;> rfl

end Apart

namespace Chain

/-! ## Runs -/

section Runs

variable (context : Context)

/-- A run that ends at a chain, or fails, up to words and places. -/
theorem run_wordless (fuel : Nat) {chain chain' : Chain} (h : chain'.wordless = chain.wordless) :
    ((chain'.run context fuel).map wordless).mapError EvalError.unplaced =
      ((chain.run context fuel).map wordless).mapError EvalError.unplaced := by
  induction fuel generalizing chain chain' with
  | zero => exact congrArg Except.ok h
  | succ fuel ih =>
    have hstep : (chain'.step context).wordless = (chain.step context).wordless := by
      rw [← step_wordless, h, step_wordless]
    rw [run_succ, run_succ]
    generalize chain'.step context = step' at hstep ⊢
    generalize chain.step context = step at hstep ⊢
    cases step with
    | exhausted =>
      cases step' with
      | exhausted => exact congrArg Except.ok h
      | reduced _ | failed _ _ => cases hstep
    | reduced next =>
      cases step' with
      | reduced next' => exact ih (Step.reduced.inj hstep)
      | exhausted | failed _ _ => cases hstep
    | failed error left =>
      cases step' with
      | failed error' left' => exact congrArg Except.error (Step.failed.inj hstep).1
      | exhausted | reduced _ => cases hstep

theorem result_wordless (chain : Chain) :
    ((chain.wordless.result context).map Number.wordless).mapError EvalError.unplaced =
      ((chain.result context).map Number.wordless).mapError EvalError.unplaced := by
  obtain ⟨⟨first, links⟩, inexact⟩ := chain
  cases links with
  | nil =>
    obtain ⟨value, words, display⟩ := first
    cases value <;> rfl
  | cons link rest => rfl

end Runs

/-! ## Building -/

namespace Assembly

def wordless (assembly : Assembly) : Assembly where
  pairs := assembly.pairs.map fun pair => (pair.1.wordless, pair.2.wordless)
  last := assembly.last.map Number.wordless
  base := assembly.base

@[simp] theorem wordless_wordless (assembly : Assembly) :
    assembly.wordless.wordless = assembly.wordless := by
  simp [wordless, Function.comp_def]

theorem pushOperator_wordless (assembly : Assembly) (kind : OperatorKind) (words : List Word) :
    assembly.wordless.pushOperator kind [] = (assembly.pushOperator kind words).wordless := by
  cases hlast : assembly.last with
  | none =>
    -- The placeholder that opens the row has no words to leave out.
    have hplaceholder : Number.placeholder.wordless = Number.placeholder := rfl
    simp [pushOperator, wordless, hlast, Operator.wordless, hplaceholder]
  | some operand => simp [pushOperator, wordless, hlast, Operator.wordless]

/-- Operators of one kind are put behind the same values, whatever their words. -/
theorem pushOperator_congr {assembly assembly' : Assembly} (h : assembly'.wordless = assembly.wordless)
    (kind : OperatorKind) (words words' : List Word) :
    (assembly'.pushOperator kind words').wordless = (assembly.pushOperator kind words).wordless := by
  rw [← pushOperator_wordless, h, pushOperator_wordless]

theorem pushList_wordless (assembly : Assembly) (numbers : List Number) :
    assembly.wordless.pushList (numbers.map Number.wordless) =
      (assembly.pushList numbers).wordless := by
  induction numbers generalizing assembly with
  | nil => rfl
  | cons number rest ih =>
    cases rest with
    | nil => rfl
    | cons second rest =>
      have hcomma := pushOperator_wordless (assembly.pushOperand number) .comma []
      show ((assembly.wordless.pushOperand number.wordless).pushOperator .comma []).pushList
          ((second :: rest).map Number.wordless) =
        (((assembly.pushOperand number).pushOperator .comma []).pushList (second :: rest)).wordless
      rw [← ih, ← hcomma]
      rfl

theorem pushList_congr {assembly assembly' : Assembly} (h : assembly'.wordless = assembly.wordless)
    {numbers numbers' : List Number}
    (hnumbers : numbers'.map Number.wordless = numbers.map Number.wordless) :
    (assembly'.pushList numbers').wordless = (assembly.pushList numbers).wordless := by
  rw [← pushList_wordless, h, hnumbers, pushList_wordless]

theorem openGroup_congr {assembly assembly' : Assembly} (h : assembly'.wordless = assembly.wordless)
    (word word' : Word) : (assembly'.openGroup word').wordless = (assembly.openGroup word).wordless :=
  congrArg (fun pushed : Assembly => { pushed with base := pushed.base + OperatorKind.groupWeight })
    (pushOperator_congr h .openParen [word] [word'])

theorem closeGroup_congr {assembly assembly' : Assembly} (h : assembly'.wordless = assembly.wordless)
    (word word' : Word) :
    (assembly'.closeGroup word').wordless = (assembly.closeGroup word).wordless :=
  congrArg (fun pushed : Assembly =>
    { pushed.pushOperand .placeholder with base := pushed.base - OperatorKind.groupWeight })
    (pushOperator_congr h .closeParen [word] [word'])

end Assembly

section Build

variable (context : Context) (register : Option Register)

/-- The values of a word are put behind the others, wherever the word stands. -/
theorem pushValues_wordless (assembly : Assembly) (word : Word) :
    apart Assembly.wordless ((inEvaluation (wordValues context register word.unplaced)).map
        fun values => assembly.wordless.pushList (values.map (operand word.unplaced))) =
      apart Assembly.wordless ((inEvaluation (wordValues context register word)).map
        fun values => assembly.pushList (values.map (operand word))) := by
  rw [wordValues_unplaced context register word]
  cases wordValues context register word.unplaced with
  | error cause =>
    have hcause : (cause.moved word.span).unplaced = cause.unplaced := cause.moved_moved _ _
    exact congrArg (fun error => Except.error (CalcError.evaluation error)) hcause.symm
  | ok values =>
    have hnumbers : (values.map (operand word.unplaced)).map Number.wordless =
        (values.map (operand word)).map Number.wordless := by
      rw [List.map_map, List.map_map]
      rfl
    exact congrArg Except.ok
      (Assembly.pushList_congr (Assembly.wordless_wordless assembly) hnumbers)

theorem take_unplaced (assembly : Assembly) (word : Word) :
    apart Assembly.wordless (take context register assembly.wordless word.unplaced) =
      apart Assembly.wordless (take context register assembly word) := by
  have hwants : assembly.wordless.wantsOperand = assembly.wantsOperand := Option.isNone_map
  have hkind : word.unplaced.kind = word.kind := rfl
  have hvalue : word.unplaced.value = word.value := rfl
  have hsame : assembly.wordless.wordless = assembly.wordless := Assembly.wordless_wordless assembly
  unfold take
  rw [hwants, hkind]
  split
  · unfold place
    rw [hkind, hvalue]
    split
    · exact congrArg Except.ok (Assembly.openGroup_congr hsame word word.unplaced)
    · have hclosed := Assembly.closeGroup_congr hsame word word.unplaced
      have hbase : (assembly.wordless.closeGroup word.unplaced).base =
          (assembly.closeGroup word).base := rfl
      dsimp only
      rw [hbase]
      split
      · rfl
      · exact congrArg Except.ok hclosed
    · split
      · rfl
      · exact congrArg Except.ok (Assembly.pushOperator_congr hsame _ _ _)
    · split
      · rfl
      · exact congrArg Except.ok (Assembly.pushOperator_congr hsame _ _ _)
    · exact congrArg Except.ok (Assembly.pushOperator_congr hsame _ _ _)
    iterate 3
      · exact pushValues_wordless context register assembly word
    iterate 2
      · exact congrArg Except.ok (Assembly.wordless_wordless _)
  · rfl

theorem foldlM_unplaced {words words' : List Word}
    (hwords : words'.map Word.unplaced = words.map Word.unplaced) {assembly assembly' : Assembly}
    (h : assembly'.wordless = assembly.wordless) :
    apart Assembly.wordless (words'.foldlM (take context register) assembly') =
      apart Assembly.wordless (words.foldlM (take context register) assembly) := by
  induction words generalizing words' assembly assembly' with
  | nil =>
    obtain rfl := List.map_eq_nil_iff.1 hwords
    exact congrArg Except.ok h
  | cons word words ih =>
    obtain ⟨word', words', rfl, hword, hwords⟩ := List.map_eq_cons_iff.1 hwords
    have htake := take_unplaced context register assembly' word'
    rw [h, hword, take_unplaced context register assembly word] at htake
    rw [List.foldlM_cons, List.foldlM_cons]
    exact apart_bind htake.symm fun _ _ hnext => ih hwords hnext

theorem toRow_wordless (pairs : List (Number × Operator)) (last : Number) :
    (Assembly.toRow pairs last).wordless =
      Assembly.toRow (pairs.map fun pair => (pair.1.wordless, pair.2.wordless))
        last.wordless := by
  induction pairs with
  | nil => rfl
  | cons pair pairs ih => exact congrArg (Row.attach pair.1.wordless pair.2.wordless) ih

theorem finish_wordless {assembly assembly' : Assembly} (h : assembly'.wordless = assembly.wordless)
    (stop stop' : Nat) : apart wordless (finish assembly' stop') =
      apart wordless (finish assembly stop) := by
  obtain ⟨pairs, last, base⟩ := assembly
  obtain ⟨pairs', last', base'⟩ := assembly'
  obtain ⟨hpairs, hlast, rfl⟩ := Assembly.mk.inj h
  unfold finish
  dsimp only
  split
  · rfl
  · cases last with
    | none =>
      cases last' with
      | none => rfl
      | some _ => cases hlast
    | some last =>
      cases last' with
      | none => cases hlast
      | some last' =>
        have hrow : (Assembly.toRow pairs' last').wordless = (Assembly.toRow pairs last).wordless := by
          rw [toRow_wordless, toRow_wordless, hpairs, Option.some.inj hlast]
        exact congrArg (fun row : Row => Except.ok (⟨row, false⟩ : Chain)) hrow

variable {words words' : List Word}

theorem ofWords_unplaced (h : words'.map Word.unplaced = words.map Word.unplaced) :
    apart wordless (ofWords words' register context) =
      apart wordless (ofWords words register context) :=
  apart_bind (foldlM_unplaced context register h rfl) fun _ _ hassembly =>
    finish_wordless hassembly _ _

/-- The chain that words come to when it is exhausted.  It bears the mark of lost digits. -/
def exhaust (context : Context) (words : List Word) (register : Option Register) :
    Except CalcError Chain := do
  let chain ← ofWords words register context
  inEvaluation (chain.run context chain.links.length)

variable {context register}

/-- Chains that are the same but for their words come to the same but for its words. -/
theorem exhaust_congr
    (h : apart wordless (ofWords words' register context) =
      apart wordless (ofWords words register context)) :
    apart wordless (exhaust context words' register) =
      apart wordless (exhaust context words register) := by
  refine apart_bind h fun chain chain' hchain => ?_
  have hlength : chain'.links.length = chain.links.length := by
    have hlinks := congrArg (fun chain : Chain => chain.links.length) hchain
    rwa [wordless, wordless, Row.wordless, Row.wordless, List.length_map, List.length_map]
      at hlinks
  rw [apart_inEvaluation, apart_inEvaluation, hlength, run_wordless context _ hchain]

end Build
end Chain

namespace Calculator

variable (context : Context) (register : Option Register) {words words' : List Word}

theorem evaluateWords_exhaust (words : List Word) : evaluateWords context words register =
    (Chain.exhaust context words register).bind fun final =>
      Chain.inEvaluation (final.result context) := by
  rw [evaluateWords_eq, Chain.exhaust]
  cases Chain.ofWords words register context with
  | error _ => rfl
  | ok chain =>
    show Chain.inEvaluation (chain.evaluate context) =
      (Chain.inEvaluation (chain.run context chain.links.length)).bind _
    rw [Chain.evaluate_eq]
    cases chain.run context chain.links.length <;> rfl

theorem evaluateWords_congr
    (h : apart Chain.wordless (Chain.ofWords words' register context) =
      apart Chain.wordless (Chain.ofWords words register context)) :
    apart Number.wordless (evaluateWords context words' register) =
      apart Number.wordless (evaluateWords context words register) := by
  rw [evaluateWords_exhaust, evaluateWords_exhaust]
  refine apart_bind (Chain.exhaust_congr h) fun final final' hfinal => ?_
  rw [apart_inEvaluation, apart_inEvaluation, ← Chain.result_wordless, hfinal,
    Chain.result_wordless]

theorem evaluateWords_unplaced (h : words'.map Word.unplaced = words.map Word.unplaced) :
    apart Number.wordless (evaluateWords context words' register) =
      apart Number.wordless (evaluateWords context words register) :=
  evaluateWords_congr context register (Chain.ofWords_unplaced context register h)

end Calculator
end DeskCalc
