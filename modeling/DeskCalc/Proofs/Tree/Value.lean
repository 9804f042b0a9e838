import DeskCalc.Arithmetic.Power
import DeskCalc.Builtin.Eval
import DeskCalc.Chain.Build
import DeskCalc.Proofs.Tree.Syntax

/-
The value of a tree, computed from its leaves up.

An operation computes from the values of its operands, and its outcome is settled by the
context.  A parenthesis changes nothing but the words.  `Tree.Raises` says which errors
the nodes of a tree raise whose operands all have values.
-/
namespace DeskCalc

/-- A value with the words that it was computed from. -/
structure Quantity where
  value : Decimal
  words : List Word
  display : Option Text
  deriving DecidableEq, Repr

namespace Quantity

def number (quantity : Quantity) : Number :=
  { value := some quantity.value, words := quantity.words, display := quantity.display }

/-- What a literal or the name of a register stands for. -/
def read (context : Context) (register : Option Register) (word : Word) :
    Except EvalError Quantity :=
  let value :=
    match word.kind with
    | .register => Chain.registerValue register word
    | _ => Chain.literalValue context word
  value.map fun value => ⟨value, [word], none⟩

def enclose (opening : Word) (quantity : Quantity) (closing : Word) : Quantity :=
  { quantity with words := opening :: (quantity.words ++ [closing]) }

end Quantity

/-- What an operation does to the mark of lost digits. -/
structure Effect where
  /-- Digits were lost, by the operation or in settling its outcome. -/
  loses : Bool
  /-- Earlier losses no longer count. -/
  settles : Bool
  deriving DecidableEq, Repr

def Effect.apply (effect : Effect) (inexact : Bool) : Bool :=
  (inexact && !effect.settles) || effect.loses

/-- The outcome of an operation on these words, as the context leaves it. -/
def Outcome.settled (context : Context) (words : List Word) (outcome : Outcome) :
    Except EvalError (Quantity × Effect) :=
  match context.settle outcome.value with
  | none => .error (.domain .resultOutOfRange (Word.spanOf words))
  | some (value, lost) =>
      .ok (⟨value, words, outcome.display⟩,
        ⟨decide (outcome.precision = .inexact) || lost, decide (outcome.precision = .settled)⟩)

/-- Values of arguments, and their words with the commas. -/
structure Spread where
  values : List Quantity
  words : List Word

/-- An operator on the values of its sides. -/
def operate (context : Context) (op : Arithmetic) (sign : Word) (x y : Quantity) :
    Except EvalError (Quantity × Effect) := do
  let outcome ← op.eval context x.value y.value (Word.spanOf y.words)
  outcome.settled context (x.words ++ sign :: y.words)

/-- A builtin on the values of its arguments. -/
def invoke (context : Context) (builtin : Builtin) (name opening : Word) (arguments : Spread)
    (closing : Word) : Except EvalError (Quantity × Effect) := do
  let words := name :: opening :: (arguments.words ++ [closing])
  let outcome ← builtin.call context (arguments.values.map Quantity.number) (Word.spanOf words)
  outcome.settled context words

/-- An operator on sides that may have failed, the left one being asked first. -/
def operated (context : Context) (op : Arithmetic) (sign : Word)
    (left right : Except EvalError Quantity) : Except EvalError (Quantity × Effect) := do
  let x ← left
  let y ← right
  operate context op sign x y

def invoked (context : Context) (builtin : Builtin) (name opening : Word)
    (arguments : Except EvalError Spread) (closing : Word) :
    Except EvalError (Quantity × Effect) := do
  let arguments ← arguments
  invoke context builtin name opening arguments closing

mutual

def Tree.eval (context : Context) : Tree Quantity → Except EvalError Quantity
  | .leaf quantity => .ok quantity
  | .binary op sign left right =>
      (operated context op sign (left.eval context) (right.eval context)).map Prod.fst
  | .group opening inner closing =>
      (inner.eval context).map fun quantity => quantity.enclose opening closing
  | .call builtin name opening arguments closing =>
      (invoked context builtin name opening (arguments.eval context) closing).map Prod.fst

def Arguments.eval (context : Context) : Arguments Quantity → Except EvalError Spread
  | .last only => (only.eval context).map fun quantity => ⟨[quantity], quantity.words⟩
  | .more first comma rest => do
      let quantity ← first.eval context
      let spread ← rest.eval context
      .ok ⟨quantity :: spread.values, quantity.words ++ comma :: spread.words⟩

end

mutual

/-- Some node raises the error although its operands all have values. -/
def Tree.Raises (context : Context) (error : EvalError) : Tree Quantity → Prop
  | .leaf _ => False
  | .binary op sign left right =>
      left.Raises context error ∨ right.Raises context error ∨
        ∃ x y, left.eval context = .ok x ∧ right.eval context = .ok y ∧
          operate context op sign x y = .error error
  | .group _ inner _ => inner.Raises context error
  | .call builtin name opening arguments closing =>
      arguments.Raises context error ∨
        ∃ spread, arguments.eval context = .ok spread ∧
          invoke context builtin name opening spread closing = .error error

def Arguments.Raises (context : Context) (error : EvalError) : Arguments Quantity → Prop
  | .last only => only.Raises context error
  | .more first _ rest => first.Raises context error ∨ rest.Raises context error

end

variable {context : Context}

theorem operated_eq_ok {op : Arithmetic} {sign : Word} {left right : Except EvalError Quantity}
    {result : Quantity × Effect} (h : operated context op sign left right = .ok result) :
    ∃ x y, left = .ok x ∧ right = .ok y ∧ operate context op sign x y = .ok result := by
  obtain ⟨x, hx, h⟩ := bind_eq_ok h
  obtain ⟨y, hy, h⟩ := bind_eq_ok h
  exact ⟨x, y, hx, hy, h⟩

theorem invoked_eq_ok {builtin : Builtin} {name opening closing : Word}
    {arguments : Except EvalError Spread} {result : Quantity × Effect}
    (h : invoked context builtin name opening arguments closing = .ok result) :
    ∃ spread, arguments = .ok spread ∧
      invoke context builtin name opening spread closing = .ok result :=
  bind_eq_ok h

mutual

/-- A tree that has a value raises nothing. -/
theorem Tree.not_raises {tree : Tree Quantity} {quantity : Quantity}
    (h : tree.eval context = .ok quantity) (error : EvalError) : ¬ tree.Raises context error := by
  match tree with
  | .leaf _ => exact id
  | .binary op sign left right =>
    obtain ⟨result, hresult, -⟩ := map_eq_ok h
    obtain ⟨x, y, hx, hy, hoperate⟩ := operated_eq_ok hresult
    rintro (hleft | hright | ⟨x', y', hx', hy', herror⟩)
    · exact left.not_raises hx error hleft
    · exact right.not_raises hy error hright
    · obtain rfl := Except.ok.inj (hx.symm.trans hx')
      obtain rfl := Except.ok.inj (hy.symm.trans hy')
      rw [hoperate] at herror
      cases herror
  | .group opening inner closing =>
    obtain ⟨x, hx, -⟩ := map_eq_ok h
    exact inner.not_raises hx error
  | .call builtin name opening arguments closing =>
    obtain ⟨result, hresult, -⟩ := map_eq_ok h
    obtain ⟨spread, hspread, hinvoke⟩ := invoked_eq_ok hresult
    rintro (hraises | ⟨spread', hspread', herror⟩)
    · exact arguments.not_raises hspread error hraises
    · obtain rfl := Except.ok.inj (hspread.symm.trans hspread')
      rw [hinvoke] at herror
      cases herror

theorem Arguments.not_raises {arguments : Arguments Quantity} {spread : Spread}
    (h : arguments.eval context = .ok spread) (error : EvalError) :
    ¬ arguments.Raises context error := by
  match arguments with
  | .last only =>
    obtain ⟨x, hx, -⟩ := map_eq_ok h
    exact only.not_raises hx error
  | .more first comma rest =>
    obtain ⟨x, hx, h⟩ := bind_eq_ok h
    obtain ⟨spread, hspread, -⟩ := bind_eq_ok h
    rintro (hraises | hraises)
    · exact first.not_raises hx error hraises
    · exact rest.not_raises hspread error hraises

end

end DeskCalc
