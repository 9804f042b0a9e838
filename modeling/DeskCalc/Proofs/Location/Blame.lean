import DeskCalc.Chain.Reduce
import DeskCalc.Proofs.Tree.Syntax

/-
What operations do with the span that they are given.

An operation is told where to put the blame, and uses this for nothing else: it fails at
one span as it fails at any other, with the same cause.
-/
namespace DeskCalc

/-- The same error at another part of the source. -/
def EvalError.moved (span : Span) : EvalError → EvalError
  | .unknownFunction name _ => .unknownFunction name span
  | .unknownOperator symbol _ => .unknownOperator symbol span
  | .argumentCount builtin expected found _ => .argumentCount builtin expected found span
  | .argumentType expected found _ => .argumentType expected found span
  | .divisionByZero _ => .divisionByZero span
  | .unknownRegister key _ => .unknownRegister key span
  | .register cause _ => .register cause span
  | .malformedLiteral text _ => .malformedLiteral text span
  | .domain cause _ => .domain cause span
  | .missingOperand symbol _ => .missingOperand symbol span

@[simp] theorem EvalError.span_moved (error : EvalError) (span : Span) :
    (error.moved span).span = span := by
  cases error <;> rfl

@[simp] theorem EvalError.moved_moved (error : EvalError) (span span' : Span) :
    (error.moved span).moved span' = error.moved span' := by
  cases error <;> rfl

@[simp] theorem EvalError.message_moved (error : EvalError) (span : Span) :
    (error.moved span).message = error.message := by
  cases error <;> rfl

/-- A computation that puts the blame for its errors where it is told to. -/
def Blames {α : Type} (compute : Span → Except EvalError α) : Prop :=
  ∀ span span', compute span' = (compute span).mapError (EvalError.moved span')

section Blames

variable {α β : Type} {compute : Span → Except EvalError α}

theorem blames_ok (a : α) : Blames fun _ => .ok a := fun _ _ => rfl

theorem Blames.bind {next : α → Span → Except EvalError β} (h : Blames compute)
    (hnext : ∀ a, Blames (next a)) : Blames fun span => (compute span).bind fun a => next a span := by
  intro span span'
  dsimp only
  rw [h span span']
  cases compute span with
  | ok a => exact hnext a span span'
  | error _ => rfl

/-- Where the errors stand. -/
theorem Blames.span_eq (h : Blames compute) {span : Span} {error : EvalError}
    (herror : compute span = .error error) : error.span = span := by
  have hmoved := h span span
  rw [herror] at hmoved
  rw [Except.error.inj hmoved, EvalError.span_moved]

end Blames

namespace Arithmetic

theorem blames_divide (x y : Decimal) : Blames (divide x y) := by
  intro span span'
  simp only [divide_eq]
  split <;> rfl

theorem blames_integerPower (context : Context) (base : Decimal) (exponent : Int) :
    Blames (integerPower context base exponent) := by
  intro span span'
  simp only [integerPower_eq]
  split
  · rfl
  · split
    · split
      · rfl
      · split
        · rfl
        · exact (blames_divide _ _).bind (fun _ => blames_ok _) span span'
    · rfl

theorem blames_fractionalPower (context : Context) (base exponent : Decimal) :
    Blames (fractionalPower context base exponent) := by
  intro span span'
  simp only [fractionalPower_eq]
  split
  · rfl
  · split
    · split <;> rfl
    · split
      · rfl
      · split <;> rfl

theorem blames_eval (context : Context) (op : Arithmetic) (x y : Decimal) :
    Blames (op.eval context x y) := by
  cases op with
  | pow =>
    show Blames (power context x y)
    intro span span'
    simp only [power_eq]
    split
    · split
      · exact blames_integerPower _ _ _ span span'
      · exact blames_fractionalPower _ _ _ span span'
    · exact blames_fractionalPower _ _ _ span span'
  | div => exact blames_divide x y
  | _ => exact blames_ok _

end Arithmetic

namespace Builtin

theorem blames_series (builtin : Builtin) (x : Decimal) (defined exact : Bool)
    (value : Option Decimal) : Blames (evalSeries builtin x defined exact value) := by
  intro span span'
  unfold evalSeries
  split
  · rfl
  · split <;> rfl

theorem blames_radix (radix : Nat) (mark : Text) (x : Decimal) :
    Blames (evalRadix radix mark x) := by
  intro span span'
  unfold evalRadix
  split <;> rfl

theorem blames_apply (context : Context) (builtin : Builtin) (args : List Decimal) :
    Blames (builtin.apply context args) := by
  intro span span'
  rw [apply_eq, apply_eq]
  split
  · unfold evalSum
    split <;> rfl
  · unfold evalMax
    split <;> rfl
  · unfold evalMin
    split <;> rfl
  · rfl
  · rw [evalSqrt_eq, evalSqrt_eq]
    split <;> rfl
  · rw [evalLn_eq, evalLn_eq]
    exact blames_series _ _ _ _ _ span span'
  · rw [evalLog_eq, evalLog_eq]
    exact blames_series _ _ _ _ _ span span'
  · rw [evalExp_eq, evalExp_eq]
    exact blames_series _ _ _ _ _ span span'
  · unfold evalRound
    split <;> rfl
  · exact blames_radix _ _ _ span span'
  · exact blames_radix _ _ _ span span'
  · rfl

end Builtin

/-! ## Values of words -/

/-- The word without its place in a source. -/
def Word.unplaced (word : Word) : Word := { word with offset := 0 }

section Except

variable {α β ε ε' : Type}

theorem mapError_bind (result : Except ε α) (next : α → Except ε β) (f : ε → ε') :
    (result.bind next).mapError f = (result.mapError f).bind fun a => (next a).mapError f := by
  cases result <;> rfl

theorem mapError_map (result : Except ε α) (g : α → β) (f : ε → ε') :
    (result.map g).mapError f = (result.mapError f).map g := by
  cases result <;> rfl

theorem mapError_mapM (compute : α → Except ε β) (f : ε → ε') (inputs : List α) :
    (inputs.mapM compute).mapError f = inputs.mapM fun a => (compute a).mapError f := by
  induction inputs with
  | nil => rfl
  | cons input inputs ih =>
    rw [List.mapM_cons, List.mapM_cons, ← ih]
    cases compute input with
    | error _ => rfl
    | ok _ => cases inputs.mapM compute <;> rfl

end Except

namespace Chain

variable (context : Context) (register : Option Register) (word : Word)

theorem literalValue_unplaced : literalValue context word =
    (literalValue context word.unplaced).mapError (.moved word.span) := by
  show _ = (literalValue context ⟨word.text, word.value, word.kind, 0⟩).mapError _
  unfold literalValue
  dsimp only
  split
  · rfl
  · split <;> rfl

theorem storedValue_unplaced (number : Number) : storedValue word number =
    (storedValue word.unplaced number).mapError (.moved word.span) := by
  unfold storedValue
  split <;> rfl

theorem requireRegister_unplaced : requireRegister register word =
    (requireRegister register word.unplaced).mapError (.moved word.span) := by
  cases register <;> rfl

theorem atWord_unplaced {α : Type} (result : Except RegisterError α) : atWord word result =
    (atWord word.unplaced result).mapError (.moved word.span) := by
  cases result <;> rfl

theorem registerValue_unplaced : registerValue register word =
    (registerValue register word.unplaced).mapError (.moved word.span) := by
  show (requireRegister register word).bind _ =
    ((requireRegister register word.unplaced).bind _).mapError _
  rw [mapError_bind, ← requireRegister_unplaced]
  refine congrArg _ (funext fun register => ?_)
  show (atWord word _).bind _ = ((atWord word.unplaced _).bind _).mapError _
  rw [mapError_bind, ← atWord_unplaced]
  exact congrArg _ (funext fun number => storedValue_unplaced word number)

theorem rangeValues_unplaced : rangeValues register word =
    (rangeValues register word.unplaced).mapError (.moved word.span) := by
  show (requireRegister register word).bind _ =
    ((requireRegister register word.unplaced).bind _).mapError _
  rw [mapError_bind, ← requireRegister_unplaced]
  refine congrArg _ (funext fun register => ?_)
  have hkey : registerKey word.unplaced = registerKey word := rfl
  rw [hkey]
  split
  · rfl
  · next first last _ =>
    show (atWord word _).bind _ = ((atWord word.unplaced _).bind _).mapError _
    rw [mapError_bind, ← atWord_unplaced]
    refine congrArg _ (funext fun numbers => ?_)
    rw [mapError_mapM]
    exact congrArg (numbers.mapM ·) (funext fun number => storedValue_unplaced word number)

/-- A word that cannot be read as a value is blamed itself. -/
theorem wordValues_unplaced : wordValues context register word =
    (wordValues context register word.unplaced).mapError (.moved word.span) := by
  show _ = (wordValues context register ⟨word.text, word.value, word.kind, 0⟩).mapError _
  unfold wordValues
  dsimp only
  split
  · exact rangeValues_unplaced register word
  · rw [mapError_map]
    exact congrArg _ (registerValue_unplaced register word)
  · rw [mapError_map]
    exact congrArg _ (literalValue_unplaced context word)

end Chain
end DeskCalc
