import DeskCalc.Proofs.Location.Blame

/-
Evaluation without words.

The words of a chain matter for what its errors point at and what its result is computed
from, and for nothing else.  So chains that differ in their words only, be it in the places
of the words or in the words themselves, go through the same steps with the same values, and
fail with the same causes.
-/
namespace DeskCalc

/-! ## Leaving out words -/

def Number.wordless (number : Number) : Number := { number with words := [] }

def Operator.wordless (operator : Operator) : Operator := { operator with words := [] }

def Link.wordless (link : Link) : Link := ⟨link.operator.wordless, link.right.wordless⟩

def Row.wordless (row : Row) : Row := ⟨row.first.wordless, row.links.map Link.wordless⟩

def Chain.wordless (chain : Chain) : Chain :=
  { chain.toRow.wordless with inexact := chain.inexact }

/-- The error, wherever it is. -/
def EvalError.unplaced (error : EvalError) : EvalError := error.moved {}

def ParseError.unplaced : ParseError → ParseError
  | .invalidExpression message _ => .invalidExpression message {}
  | .unconsumedInput leftover message _ => .unconsumedInput leftover message {}
  | .unbalancedGrouping _ => .unbalancedGrouping {}

def CalcError.unplaced : CalcError → CalcError
  | .parsing error => .parsing error.unplaced
  | .evaluation error => .evaluation error.unplaced

section Wordless

@[simp] theorem Number.wordless_wordless (number : Number) :
    number.wordless.wordless = number.wordless := rfl

@[simp] theorem Operator.wordless_wordless (operator : Operator) :
    operator.wordless.wordless = operator.wordless := rfl

@[simp] theorem Link.wordless_wordless (link : Link) : link.wordless.wordless = link.wordless := rfl

@[simp] theorem Row.wordless_wordless (row : Row) : row.wordless.wordless = row.wordless := by
  simp [wordless]

@[simp] theorem Row.weights_wordless (row : Row) : row.wordless.weights = row.weights := by
  simp only [weights, operators, wordless, List.map_map]
  rfl

theorem CalcError.message_unplaced (error : CalcError) : error.unplaced.message = error.message := by
  match error with
  | .parsing (.invalidExpression _ _) => rfl
  | .parsing (.unconsumedInput _ _ _) => rfl
  | .parsing (.unbalancedGrouping _) => rfl
  | .evaluation error => exact error.message_moved {}

end Wordless

/-! ## Operations -/

section Operations

variable {context : Context}

/-- The errors of an operation at two spans are the same. -/
theorem Blames.unplaced {α : Type} {compute : Span → Except EvalError α} (h : Blames compute)
    (span span' : Span) :
    (compute span').mapError EvalError.unplaced = (compute span).mapError EvalError.unplaced := by
  rw [h span span']
  cases compute span with
  | ok _ => rfl
  | error error => exact congrArg Except.error (error.moved_moved span' {})

namespace Builtin

theorem checkArguments_wordless (builtin : Builtin) (span span' : Span) (arguments : List Number)
    (position : Nat) :
    (builtin.checkArguments span' position (arguments.map Number.wordless)).mapError
        EvalError.unplaced =
      (builtin.checkArguments span position arguments).mapError EvalError.unplaced := by
  induction arguments generalizing position with
  | nil => rfl
  | cons number rest ih =>
    have hone : (builtin.checkArgument position number.wordless span').mapError
        EvalError.unplaced = (builtin.checkArgument position number span).mapError
        EvalError.unplaced := by
      unfold checkArgument
      have hvalue : number.wordless.value = number.value := rfl
      rw [hvalue]
      split
      · rfl
      · dsimp only
        split <;> rfl
    show ((builtin.checkArgument position number.wordless span').bind _).mapError _ =
      ((builtin.checkArgument position number span).bind _).mapError _
    rw [mapError_bind, hone, mapError_bind]
    refine congrArg _ (funext fun value => ?_)
    show ((builtin.checkArguments span' (position + 1) (rest.map Number.wordless)).bind _).mapError _ =
      ((builtin.checkArguments span (position + 1) rest).bind _).mapError _
    rw [mapError_bind, ih, mapError_bind]

theorem call_wordless (builtin : Builtin) (arguments : List Number) (span span' : Span) :
    (builtin.call context (arguments.map Number.wordless) span').mapError EvalError.unplaced =
      (builtin.call context arguments span).mapError EvalError.unplaced := by
  rw [call_eq, call_eq, List.length_map]
  split
  · rfl
  · show ((builtin.checkArguments span' 0 _).bind _).mapError _ =
      ((builtin.checkArguments span 0 arguments).bind _).mapError _
    rw [mapError_bind, checkArguments_wordless builtin span span', mapError_bind]
    exact congrArg _ (funext fun values => (blames_apply context builtin values).unplaced _ _)

end Builtin
end Operations

namespace Chain

/-! ## Steps -/

namespace Reduction

def wordless : Reduction → Reduction
  | done row inexact => done row.wordless inexact
  | failed error row inexact => failed error.unplaced row.wordless inexact

end Reduction

namespace Step

def wordless : Step → Step
  | exhausted => exhausted
  | reduced chain => reduced chain.wordless
  | failed error chain => failed error.unplaced chain.wordless

end Step

section Steps

variable (context : Context) (inexact : Bool)

theorem conclude_wordless {outcome outcome' : Except EvalError Outcome}
    (h : outcome'.mapError EvalError.unplaced = outcome.mapError EvalError.unplaced)
    (words words' : List Word) (left : Number) (links : List Link) :
    (conclude context inexact outcome' words' left.wordless
        (links.map Link.wordless)).wordless =
      (conclude context inexact outcome words left links).wordless := by
  cases outcome with
  | error error =>
    cases outcome' with
    | ok _ => cases h
    | error error' =>
      have herror := Except.error.inj h
      simp [conclude, Except.bind, failedMark, Reduction.wordless, Row.wordless, herror]
  | ok outcome =>
    cases outcome' with
    | error _ => cases h
    | ok outcome' =>
      obtain rfl := Except.ok.inj h
      simp only [conclude, Except.bind, settle]
      cases context.settle outcome'.value with
      | none =>
        simp [failedMark, Reduction.wordless, Row.wordless, EvalError.unplaced, EvalError.moved]
      | some settled => simp [Reduction.wordless, Row.wordless, Number.wordless]

theorem passThrough_wordless (left : Number) (operator : Operator) (kept right : Number) :
    passThrough left.wordless operator.wordless kept.wordless right.wordless =
      (passThrough left operator kept right).wordless := by
  unfold passThrough
  have hvalue : kept.wordless.value = kept.value := rfl
  rw [hvalue]
  split
  · simp [Number.wordless, Operator.wordless]
  · rfl

theorem applyCall_wordless (builtin : Builtin) (left : Number) (link : Link) (rest : List Link) :
    (applyCall context inexact builtin left.wordless link.wordless
        (rest.map Link.wordless)).wordless =
      (applyCall context inexact builtin left link rest).wordless := by
  have htaken : (rest.map Link.wordless).takeWhile (belongsTo link.operator.weight) =
      (rest.takeWhile (belongsTo link.operator.weight)).map Link.wordless :=
    List.takeWhile_map ..
  rw [applyCall_eq_conclude, applyCall_eq_conclude]
  have hweight : link.wordless.operator.weight = link.operator.weight := rfl
  rw [hweight, htaken]
  dsimp only
  generalize rest.takeWhile (belongsTo link.operator.weight) = inner
  have harguments : ((link.wordless.right :: (inner.map Link.wordless).map Link.right).filter
      fun n => !n.isPlaceholder) =
      ((link.right :: inner.map Link.right).filter fun n => !n.isPlaceholder).map
        Number.wordless := by
    have hlist : link.wordless.right :: (inner.map Link.wordless).map Link.right =
        (link.right :: inner.map Link.right).map Number.wordless := by
      simp [Link.wordless]
    rw [hlist]
    exact List.filter_map ..
  rw [harguments, List.length_map, ← List.map_drop]
  exact conclude_wordless context inexact (Builtin.call_wordless builtin _ _ _) _ _ left _

theorem applyArithmetic_wordless (op : Arithmetic) (left : Number) (link : Link)
    (rest : List Link) :
    (applyArithmetic context inexact op left.wordless link.wordless
        (rest.map Link.wordless)).wordless =
      (applyArithmetic context inexact op left link rest).wordless := by
  rw [applyArithmetic_eq_conclude, applyArithmetic_eq_conclude]
  refine conclude_wordless context inexact ?_ _ _ .placeholder _
  have hleft : left.wordless.value = left.value := rfl
  have hright : link.wordless.right.value = link.right.value := rfl
  rw [compute_eq, compute_eq, hleft, hright]
  split
  · next x y _ _ => exact (Arithmetic.blames_eval context op x y).unplaced _ _
  · rfl

theorem applyLink_wordless (left : Number) (link : Link) (rest : List Link) :
    (applyLink context inexact left.wordless link.wordless (rest.map Link.wordless)).wordless =
      (applyLink context inexact left link rest).wordless := by
  rw [applyLink_eq, applyLink_eq]
  have hkind : link.wordless.operator.kind = link.operator.kind := rfl
  rw [hkind]
  split
  · simp [Reduction.wordless, Row.wordless]
  · have hpass := passThrough_wordless left link.operator link.right link.right
    simp [Reduction.wordless, Row.wordless, Link.wordless, hpass]
  · have hpass := passThrough_wordless left link.operator left link.right
    simp [Reduction.wordless, Row.wordless, Link.wordless, hpass]
  · exact applyCall_wordless ..
  · exact applyArithmetic_wordless ..

theorem reduceAt_wordless (i : Nat) (left : Number) (links : List Link) :
    (reduceAt context inexact i left.wordless (links.map Link.wordless)).wordless =
      (reduceAt context inexact i left links).wordless := by
  induction i generalizing left links with
  | zero =>
    cases links with
    | nil => simp [reduceAt_nil, Reduction.wordless, Row.wordless]
    | cons link rest => exact applyLink_wordless context inexact left link rest
  | succ i ih =>
    cases links with
    | nil => simp [reduceAt_nil, Reduction.wordless, Row.wordless]
    | cons link rest =>
      have hattach : ∀ (number : Number) (operator : Operator) (reduction : Reduction),
          (reduction.mapRow (Row.attach number operator)).wordless =
            reduction.wordless.mapRow (Row.attach number.wordless operator.wordless) := by
        intro number operator reduction
        cases reduction <;> rfl
      rw [List.map_cons, reduceAt_succ, reduceAt_succ, hattach, hattach]
      have hrest := ih link.right rest
      have hright : link.wordless.right = link.right.wordless := rfl
      have hoperator : link.wordless.operator = link.operator.wordless := rfl
      rw [hright, hrest, hoperator, Number.wordless_wordless, Operator.wordless_wordless]

/-- A step of a chain without places. -/
theorem step_wordless (chain : Chain) :
    (chain.wordless.step context).wordless = (chain.step context).wordless := by
  have hnext : chain.wordless.next? = chain.next? :=
    congrArg (fun weights => (firstGreatest weights).map Prod.fst) chain.toRow.weights_wordless
  rw [step_eq, step_eq, hnext]
  cases chain.next? with
  | none => rfl
  | some i =>
    have hreduced := reduceAt_wordless context chain.inexact i chain.first chain.links
    have hstep : ∀ reduction : Reduction, reduction.step.wordless = reduction.wordless.step := by
      intro reduction
      cases reduction <;> rfl
    rw [hstep, hstep]
    exact congrArg Reduction.step hreduced

end Steps
end Chain
end DeskCalc
