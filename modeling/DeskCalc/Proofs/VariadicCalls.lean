import DeskCalc.Proofs.Accumulation
import DeskCalc.Proofs.Calculation
import DeskCalc.Proofs.Magnitude

/-
Calls with any number of arguments, and chains of additions.

The sum of a row of literals is computed exactly and settled once, and so are the largest and the
smallest of them.  The order of the arguments therefore plays no part in what is shown.  A chain of
additions settles after each sign, and shows the same as the call if no partial sum needs it.
-/
namespace DeskCalc

open Decimal

/-- A decimal literal whose number is in range.  One that is tiny stands for zero. -/
structure RangedLiteral (context : Context) where
  text : Text
  decimal : Lexeme.DecimalLiteral text
  value : Decimal
  read : Chain.literalValue context (Grammar.literalWord text 0) = .ok value

namespace RangedLiteral

variable {context : Context}

def number (literal : RangedLiteral context) : ℚ := literal.value.toRat

/-- The exact sum of the literals. -/
def total (literals : List (RangedLiteral context)) : ℚ := (literals.map number).sum

theorem scale_le (literal : RangedLiteral context) : literal.value.scale ≤ maxScale := by
  obtain ⟨-, hread | hzero⟩ := Chain.literalValue_eq_ok literal.read
  · exact scale_le_of_read? hread
  · rw [hzero]
    decide

/-- A literal has its value wherever it stands. -/
theorem quantity_read (literal : RangedLiteral context) {word : Word}
    (hword : Grammar.IsLiteral word literal.text) (register : Option Register) :
    Quantity.read context register word = .ok ⟨literal.value, [word], none⟩ := by
  obtain ⟨offset, rfl⟩ := hword
  have hvalue : Chain.literalValue context (Grammar.literalWord literal.text offset) =
      .ok literal.value := by
    have hread := literal.read
    simp only [Chain.literalValue, Grammar.literalWord] at hread ⊢
    split at hread
    · cases hread
    · split at hread
      · cases hread
      · exact hread
  show (Chain.literalValue context (Grammar.literalWord literal.text offset)).map _ = _
  rw [hvalue]
  rfl

/-- Leaves that are read like literals have the values of these. -/
theorem reads (register : Option Register) (word : Word) (literal : RangedLiteral context)
    (hword : Grammar.IsLiteral word literal.text) :
    ∃ quantity, Quantity.read context register word = .ok quantity ∧
      quantity.value = literal.value :=
  ⟨_, literal.quantity_read hword register, rfl⟩

end RangedLiteral

/-! ## What a source comes to -/

/-- The source is calculated without an error: the chain that it stands for ends with this value
and with the mark of lost digits or without it, and the value is shown as the mark has it. -/
structure Calculator.EvaluatesTo (calculator : Calculator) (register : Option Register)
    (source : Text) (value : Decimal) (inexact : Bool) : Prop where
  run : ∃ words chain final, (parse source {}).1 = .ok words ∧
    Chain.ofWords words register calculator.context = .ok chain ∧
    chain.run calculator.context chain.links.length = .ok final ∧ final.links = [] ∧
    final.first.value = some value ∧ final.inexact = inexact
  answer : (calculator.evaluate source register).1.map Number.value =
    .ok (some (calculator.context.finalize value inexact))

namespace Tree.ReadFrom

variable {calculator : Calculator} {register : Option Register} {source : Text}
  {tree : Tree Word} {operands : Tree Quantity}

/-- A tree with a value is calculated to it. -/
theorem evaluatesTo (h : tree.ReadFrom source)
    (hread : tree.traverse (Quantity.read calculator.context register) = .ok operands)
    {quantity : Quantity} (heval : operands.eval calculator.context = .ok quantity) {lost : Bool}
    (hlost : lost = true ↔ Survives (operands.events calculator.context 0)) :
    calculator.EvaluatesTo register source quantity.value lost := by
  obtain ⟨chain, hchain, hends⟩ := Chain.ends_of_read h.single h.graded hread
  have hparse : (parse source {}).1 = .ok tree.words := Grammar.parse_eq_ok_iff.2 h.sentence
  generalize hrun : chain.run calculator.context chain.links.length = result at hends
  cases hends with
  | failed error hraises => exact absurd hraises (Tree.not_raises heval error)
  | exhausted other mark hother hmarked =>
    obtain rfl := Except.ok.inj (heval.symm.trans hother)
    obtain rfl : mark = lost := by
      rw [Bool.eq_iff_iff, hmarked, hlost, Marked]
      simp
    refine ⟨⟨tree.words, chain, _, hparse, hchain, hrun, rfl, rfl, rfl⟩, ?_⟩
    rw [evaluate_of_parse hparse, Calculator.evaluateWords_eq, hchain]
    show (Chain.inEvaluation (chain.evaluate calculator.context)).map _ = _
    rw [Chain.evaluate_eq, hrun]
    rfl

/-- A tree that raises one error only is refused with it. -/
theorem evaluate_error (h : tree.ReadFrom source)
    (hread : tree.traverse (Quantity.read calculator.context register) = .ok operands)
    {error : EvalError} (hnone : ∀ quantity, operands.eval calculator.context ≠ .ok quantity)
    (hraises : ∀ other, operands.Raises calculator.context other → other = error) :
    (calculator.evaluate source register).1 = .error (.evaluation error) := by
  obtain ⟨chain, hchain, hends⟩ := Chain.ends_of_read h.single h.graded hread
  generalize hrun : chain.run calculator.context chain.links.length = result at hends
  cases hends with
  | exhausted quantity mark heval hmarked => exact absurd heval (hnone quantity)
  | failed other hother =>
    obtain rfl := hraises other hother
    rw [evaluate_of_parse (Grammar.parse_eq_ok_iff.2 h.sentence), Calculator.evaluateWords_eq,
      hchain]
    show Chain.inEvaluation (chain.evaluate calculator.context) = _
    rw [Chain.evaluate_eq, hrun]
    rfl

end Tree.ReadFrom

/-- The source is calculated by settling one value. -/
def Calculator.Settles (calculator : Calculator) (register : Option Register) (source : Text)
    (x : Decimal) : Prop :=
  match calculator.context.settle x with
  | some (value, lost) => calculator.EvaluatesTo register source value lost
  | none => (calculator.evaluate source register).1 =
      .error (.evaluation (.domain .resultOutOfRange ⟨0, source.byteSize⟩))

/-- The source is calculated by rounding one number: what is out of range then is reported for all
of the source, and the digits count as lost if the rounding changes the number. -/
def Calculator.RoundsOnce (calculator : Calculator) (register : Option Register) (source : Text)
    (q : ℚ) : Prop :=
  let rounded := calculator.context.rounding.toDigits calculator.context.precision q
  match calculator.context.settled? rounded with
  | some r => ∃ value, calculator.EvaluatesTo register source value (decide (rounded ≠ q)) ∧
      value.toRat = r
  | none => (calculator.evaluate source register).1 =
      .error (.evaluation (.domain .resultOutOfRange ⟨0, source.byteSize⟩))

namespace Calculator.Settles

variable {calculator : Calculator} {register : Option Register} {source : Text} {x : Decimal}

theorem roundsOnce (h : calculator.Settles register source x)
    (hprecision : 1 ≤ calculator.context.precision) (hscale : x.scale ≤ maxScale) :
    calculator.RoundsOnce register source x.toRat := by
  obtain ⟨hvalue, hlost⟩ := Context.settle_once hprecision hscale
  rw [Settles] at h
  dsimp only [RoundsOnce]
  rw [← hvalue]
  cases hsettle : calculator.context.settle x with
  | none =>
    rw [hsettle] at h
    exact h
  | some settled =>
    obtain ⟨value, lost⟩ := settled
    rw [hsettle] at h
    have hmark : lost = decide (calculator.context.rounding.toDigits
        calculator.context.precision x.toRat ≠ x.toRat) := by
      rw [Bool.eq_iff_iff, decide_eq_true_iff]
      exact hlost value lost hsettle
    rw [hmark] at h
    exact ⟨value, h, rfl⟩

/-- What is shown. -/
theorem answer (h : calculator.Settles register source x) :
    (calculator.evaluate source register).1.map Number.value =
      match calculator.context.shown? x with
      | some shown => .ok (some shown)
      | none => .error (.evaluation (.domain .resultOutOfRange ⟨0, source.byteSize⟩)) := by
  rw [Settles] at h
  rw [Context.shown?]
  cases hsettle : calculator.context.settle x with
  | none =>
    rw [hsettle] at h
    rw [h]
    rfl
  | some settled =>
    rw [hsettle] at h
    exact h.answer

end Calculator.Settles

section Calls

variable {calculator : Calculator} {literals : List (RangedLiteral calculator.context)}

/-- A call with any number of literals settles what it accumulates. -/
theorem Calculator.exists_settles {builtin : Builtin} (hvariadic : builtin.signature = .variadic)
    (hliterals : literals ≠ []) (register : Option Register) :
    ∃ x, builtin.Accumulates (literals.map RangedLiteral.number) x.toRat ∧ x.scale ≤ maxScale ∧
      calculator.Settles register (callText builtin (literals.map RangedLiteral.text)) x := by
  obtain ⟨name, opening, arguments, closing, hcall, hspan, hlists⟩ :=
    Grammar.call_readFrom (fun literal _ => literal.decimal) hliterals builtin
  obtain ⟨operands, hoperands, hvalues⟩ := hlists.traverse (RangedLiteral.reads register)
  have hread : (Tree.call builtin name opening arguments closing).traverse
      (Quantity.read calculator.context register) =
        .ok (.call builtin name opening operands closing) := by
    rw [Tree.traverse, hoperands]
    rfl
  obtain ⟨x, spread, hx, hscale, hspread, hinvoke⟩ := hvalues.invoke hvariadic hliterals
    (by decide : 0 ≤ maxScale) (fun literal _ => literal.scale_le) calculator.context
  have hinvoked : invoked calculator.context builtin name opening
      (operands.eval calculator.context) closing =
        (Outcome.exact x).settled calculator.context
          (name :: opening :: (spread.words ++ [closing])) := by
    rw [hspread]
    exact hinvoke name opening closing
  refine ⟨x, hx, hscale, ?_⟩
  rw [Settles]
  cases hsettle : calculator.context.settle x with
  | none =>
    rw [Outcome.settled_exact_error hsettle, hspan] at hinvoked
    refine hcall.evaluate_error hread (fun quantity heval => ?_) fun other hother => ?_
    · rw [Tree.eval, hinvoked] at heval
      cases heval
    · rcases hother with hother | ⟨spread', hspread', hother⟩
      · exact absurd hother (Arguments.not_raises hspread other)
      · rw [hspread'] at hinvoked
        exact Except.error.inj (hother.symm.trans hinvoked)
  | some settled =>
    obtain ⟨value, lost⟩ := settled
    rw [Outcome.settled_exact hsettle] at hinvoked
    have heval : (Tree.call builtin name opening operands closing).eval calculator.context =
        .ok ⟨value, name :: opening :: (spread.words ++ [closing]), none⟩ := by
      rw [Tree.eval, hinvoked]
      rfl
    refine hcall.evaluatesTo hread heval ?_
    rw [Tree.events, hinvoked, hvalues.events_eq_nil, List.append_nil]
    exact (survives_singleton ⟨_, lost, false⟩).symm

/-- A chain of additions has the exact sum if every partial sum is kept by settling. -/
theorem Calculator.chain_evaluatesTo (hliterals : literals ≠ []) (register : Option Register)
    (hprecision : 1 ≤ calculator.context.precision)
    (hpartial : ∀ front, front ≠ [] → front <+: literals →
      InDigits calculator.context.precision (RangedLiteral.total front) ∧
        calculator.context.Admits (RangedLiteral.total front)) :
    ∃ value, calculator.EvaluatesTo register
        (chainText .add (literals.map RangedLiteral.text)) value false ∧
      value.toRat = RangedLiteral.total literals := by
  obtain ⟨tree, htree, hchains⟩ :=
    Grammar.chain_readFrom (fun literal _ => literal.decimal) hliterals .add
  obtain ⟨operands, hread, hvalues⟩ := hchains.traverse (RangedLiteral.reads register)
  obtain ⟨quantity, heval, hsum, -, hkept⟩ :=
    hvalues.eval_add hprecision (fun literal _ => literal.scale_le) hpartial
  refine ⟨quantity.value, htree.evaluatesTo hread heval ?_, hsum⟩
  have hunsettled : Unsettled (operands.events calculator.context 0) :=
    fun event hevent => by rw [hkept 0 event hevent]
  have hlossless : Lossless (operands.events calculator.context 0) :=
    fun event hevent => by rw [hkept 0 event hevent]
  simp [(not_survives_iff hunsettled).2 hlossless]

/-- The call has the exact sum as well if settling keeps it. -/
theorem Calculator.sum_evaluatesTo (hliterals : literals ≠ []) (register : Option Register)
    (hprecision : 1 ≤ calculator.context.precision)
    (hdigits : InDigits calculator.context.precision (RangedLiteral.total literals))
    (hadmits : calculator.context.Admits (RangedLiteral.total literals)) :
    ∃ value, calculator.EvaluatesTo register
        (callText .sum (literals.map RangedLiteral.text)) value false ∧
      value.toRat = RangedLiteral.total literals := by
  have hvariadic : Builtin.sum.signature = .variadic := rfl
  obtain ⟨x, hx, hscale, hsettles⟩ := exists_settles hvariadic hliterals register
  have htotal : x.toRat = RangedLiteral.total literals := hx
  rw [← htotal] at hdigits hadmits
  obtain ⟨value, hsettle, hvalue, -⟩ := Context.settle_kept hprecision hscale hdigits hadmits
  rw [Settles, hsettle] at hsettles
  exact ⟨value, hsettles, hvalue.trans htotal⟩

/-- The order of the arguments does not show. -/
theorem Calculator.answer_of_perm {builtin : Builtin} (hvariadic : builtin.signature = .variadic)
    (hliterals : literals ≠ []) (register : Option Register)
    (hprecision : 1 ≤ calculator.context.precision)
    {permuted : List (RangedLiteral calculator.context)} (hperm : permuted.Perm literals) :
    (calculator.evaluate (callText builtin (permuted.map RangedLiteral.text)) register).1.map
        Number.value =
      (calculator.evaluate (callText builtin (literals.map RangedLiteral.text)) register).1.map
        Number.value := by
  have hpermuted : permuted ≠ [] := fun hnil => hliterals (hnil ▸ hperm).nil_eq.symm
  obtain ⟨x, hx, hxscale, hxsettles⟩ := exists_settles hvariadic hliterals register
  obtain ⟨y, hy, hyscale, hysettles⟩ := exists_settles hvariadic hpermuted register
  have hsame : y.toRat = x.toRat := hy.eq_of_perm hx (hperm.map RangedLiteral.number)
  rw [hxsettles.answer, hysettles.answer, Context.shown?_congr hprecision hsame hyscale hxscale,
    byteSize_callText_perm builtin (hperm.map RangedLiteral.text)]

end Calls

/-- `sum`, `max` and `min` of a row of literals round their exact result once, in whichever order
the literals stand.  If every partial sum has few enough digits and is in range, adding the
literals one after the other has the same value and loses nothing either. -/
theorem variadic_calls_settle_once (calculator : Calculator) (register : Option Register)
    (literals : List (RangedLiteral calculator.context))
    (hprecision : 1 ≤ calculator.context.precision) (hliterals : literals ≠ []) :
    (∀ builtin : Builtin, builtin.signature = .variadic →
      (∃ q, builtin.Accumulates (literals.map RangedLiteral.number) q ∧
        calculator.RoundsOnce register
          (callText builtin (literals.map RangedLiteral.text)) q) ∧
      ∀ permuted : List (RangedLiteral calculator.context), permuted.Perm literals →
        (calculator.evaluate (callText builtin (permuted.map RangedLiteral.text)) register).1.map
            Number.value =
          (calculator.evaluate (callText builtin (literals.map RangedLiteral.text)) register).1.map
            Number.value) ∧
    ((∀ front, front ≠ [] → front <+: literals →
        InDigits calculator.context.precision (RangedLiteral.total front) ∧
          calculator.context.Admits (RangedLiteral.total front)) →
      ∃ called chained,
        calculator.EvaluatesTo register
          (callText .sum (literals.map RangedLiteral.text)) called false ∧
        calculator.EvaluatesTo register
          (chainText .add (literals.map RangedLiteral.text)) chained false ∧
        called.toRat = RangedLiteral.total literals ∧
        chained.toRat = RangedLiteral.total literals ∧
        calculator.context.finalize called false = calculator.context.finalize chained false) := by
  constructor
  · intro builtin hvariadic
    obtain ⟨x, hx, hscale, hsettles⟩ := Calculator.exists_settles hvariadic hliterals register
    refine ⟨⟨x.toRat, hx, hsettles.roundsOnce hprecision hscale⟩, ?_⟩
    intro permuted hperm
    exact Calculator.answer_of_perm hvariadic hliterals register hprecision hperm
  · intro hpartial
    obtain ⟨hdigits, hadmits⟩ := hpartial literals hliterals (List.prefix_refl literals)
    obtain ⟨called, hcalled, hcalledTotal⟩ :=
      Calculator.sum_evaluatesTo hliterals register hprecision hdigits hadmits
    obtain ⟨chained, hchained, hchainedTotal⟩ :=
      Calculator.chain_evaluatesTo hliterals register hprecision hpartial
    exact ⟨called, chained, hcalled, hchained, hcalledTotal, hchainedTotal,
      Context.finalize_exact_congr (hcalledTotal.trans hchainedTotal.symm)⟩

/-- The literals `1.5` and `-0.25`. -/
def twoLiterals : List (RangedLiteral {}) :=
  have hlonger : Lexeme.takeDecimal? "1.5".toList = some "1.5".toList := by decide
  have hshorter : Lexeme.takeDecimal? "-0.25".toList = some "-0.25".toList := by decide
  [⟨"1.5".toList, Lexeme.decimalLiteral_of_takeDecimal? hlonger, ⟨15, 1⟩, by decide⟩,
    ⟨"-0.25".toList, Lexeme.decimalLiteral_of_takeDecimal? hshorter, ⟨-25, 2⟩, by decide⟩]

theorem variadic_calls_settle_once_of_two : 1 ≤ Context.precision {} ∧ twoLiterals ≠ [] ∧
    (∃ q, Builtin.max.Accumulates (twoLiterals.map RangedLiteral.number) q ∧
      Calculator.RoundsOnce {} none "max(1.5, -0.25)".toList q) ∧
    (Calculator.evaluate {} "max(-0.25, 1.5)".toList none).1.map Number.value =
      (Calculator.evaluate {} "max(1.5, -0.25)".toList none).1.map Number.value ∧
    (∀ front, front ≠ [] → front <+: twoLiterals →
      InDigits (Context.precision {}) (RangedLiteral.total front) ∧
        Context.Admits {} (RangedLiteral.total front)) ∧
    ∃ called chained, Calculator.EvaluatesTo {} none "sum(1.5, -0.25)".toList called false ∧
      Calculator.EvaluatesTo {} none "1.5 + -0.25".toList chained false ∧
      called.toRat = RangedLiteral.total twoLiterals ∧
      chained.toRat = RangedLiteral.total twoLiterals ∧
      Context.finalize {} called false = Context.finalize {} chained false := by
  have hprecision : 1 ≤ Context.precision {} := by decide
  have hliterals : twoLiterals ≠ [] := List.cons_ne_nil _ _
  have hpartial : ∀ front, front ≠ [] → front <+: twoLiterals →
      InDigits (Context.precision {}) (RangedLiteral.total front) ∧
        Context.Admits {} (RangedLiteral.total front) := by
    intro front hne hfront
    have htotal : RangedLiteral.total front = toRat ⟨15, 1⟩ ∨
        RangedLiteral.total front = toRat ⟨125, 2⟩ := by
      rcases front with _ | ⟨first, _ | ⟨second, rest⟩⟩
      · exact absurd rfl hne
      · obtain ⟨rfl, -⟩ := List.cons_prefix_cons.1 hfront
        exact Or.inl (by norm_num [RangedLiteral.total, RangedLiteral.number])
      · obtain ⟨rfl, hbehind⟩ := List.cons_prefix_cons.1 hfront
        obtain ⟨rfl, hrest⟩ := List.cons_prefix_cons.1 hbehind
        rw [List.prefix_nil.1 hrest]
        exact Or.inr (by norm_num [RangedLiteral.total, RangedLiteral.number, toRat])
    rcases htotal with htotal | htotal
    · rw [htotal]
      exact ⟨⟨15, -1, by decide, by norm_num [toRat]⟩,
        Context.admits_of_leadingExponent (by decide) (by decide) (by decide) _⟩
    · rw [htotal]
      exact ⟨⟨125, -2, by decide, by norm_num [toRat]⟩,
        Context.admits_of_leadingExponent (by decide) (by decide) (by decide) _⟩
  obtain ⟨hcalls, hchain⟩ :=
    variadic_calls_settle_once {} none twoLiterals hprecision hliterals
  obtain ⟨hmax, hpermuted⟩ := hcalls .max rfl
  have hswapped := hpermuted twoLiterals.reverse (List.reverse_perm twoLiterals)
  exact ⟨hprecision, hliterals, hmax, hswapped, hpartial, hchain hpartial⟩

end DeskCalc
