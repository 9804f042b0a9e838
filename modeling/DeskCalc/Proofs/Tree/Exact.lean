import DeskCalc.Proofs.Evaluation
import DeskCalc.Proofs.Power.Value

/-
The exact value of an expression.

`Tree.Denotes` computes with numbers what an expression of literals stands for, as long as it has
no quotients and no calls: every literal and every result must be in range, and the values of
powers may be asked for something more.  Such an expression is read without an error, and no
operation in it makes up for earlier losses: its chain is marked just if digits are lost somewhere.
-/
namespace DeskCalc

/-- The number is the result of the operation.  It is left open for quotients and for the powers
that are not computed by squaring. -/
def Arithmetic.Exact (op : Arithmetic) (a b q : ℚ) : Prop :=
  match op with
  | .add => q = a + b
  | .sub => q = a - b
  | .mul => q = a * b
  | .div => False
  | .pow => ∃ n : ℕ, b = n ∧ n ≤ maxIntegerExponent ∧ q = a ^ n

namespace Tree

/-- The exact value of an expression of literals.  All values on the way to it are in range, and
those of powers have one more property. -/
inductive Denotes (range power : ℚ → Prop) : Tree Word → ℚ → Prop where
  | literal {word : Word} {x : Decimal} (kind : word.kind = .number)
      (read : Decimal.read? word.value = some x) (inRange : range x.toRat) :
      Denotes range power (.leaf word) x.toRat
  | operation {op : Arithmetic} {left right : Tree Word} {a b q : ℚ} (sign : Word)
      (onLeft : Denotes range power left a) (onRight : Denotes range power right b)
      (exact : op.Exact a b q) (inRange : range q) (fits : op = .pow → power q) :
      Denotes range power (.binary op sign left right) q
  | group {inner : Tree Word} {q : ℚ} (opening closing : Word)
      (inside : Denotes range power inner q) :
      Denotes range power (.group opening inner closing) q

end Tree

mutual

/-- All parts of a tree have the property, the tree itself among them. -/
def Tree.Every {α : Type} (P : Tree α → Prop) : Tree α → Prop
  | .leaf operand => P (.leaf operand)
  | .binary op sign left right => P (.binary op sign left right) ∧ left.Every P ∧ right.Every P
  | .group opening inner closing => P (.group opening inner closing) ∧ inner.Every P
  | .call builtin name opening arguments closing =>
      P (.call builtin name opening arguments closing) ∧ arguments.Every P

def Arguments.Every {α : Type} (P : Tree α → Prop) : Arguments α → Prop
  | .last only => only.Every P
  | .more first _ rest => first.Every P ∧ rest.Every P

end

mutual

def Tree.decidableEvery {α : Type} {P : Tree α → Prop} [DecidablePred P] :
    (tree : Tree α) → Decidable (tree.Every P)
  | .leaf operand => inferInstanceAs (Decidable (P (.leaf operand)))
  | .binary op sign left right =>
      have := left.decidableEvery (P := P)
      have := right.decidableEvery (P := P)
      inferInstanceAs (Decidable (P (.binary op sign left right) ∧ left.Every P ∧ right.Every P))
  | .group opening inner closing =>
      have := inner.decidableEvery (P := P)
      inferInstanceAs (Decidable (P (.group opening inner closing) ∧ inner.Every P))
  | .call builtin name opening arguments closing =>
      have := arguments.decidableEvery (P := P)
      inferInstanceAs
        (Decidable (P (.call builtin name opening arguments closing) ∧ arguments.Every P))

def Arguments.decidableEvery {α : Type} {P : Tree α → Prop} [DecidablePred P] :
    (arguments : Arguments α) → Decidable (arguments.Every P)
  | .last only => only.decidableEvery
  | .more first _ rest =>
      have := first.decidableEvery (P := P)
      have := rest.decidableEvery (P := P)
      inferInstanceAs (Decidable (first.Every P ∧ rest.Every P))

end

instance Tree.decidablePredEvery {α : Type} {P : Tree α → Prop} [DecidablePred P] :
    DecidablePred (Tree.Every P) := Tree.decidableEvery

instance Except.decidableOk {ε α : Type} {result : Except ε α} {P : α → Prop} [DecidablePred P] :
    Decidable (∀ a, result = .ok a → P a) :=
  match result with
  | .ok a => decidable_of_iff (P a) ⟨fun h _ heq => Except.ok.inj heq ▸ h, fun h => h a rfl⟩
  | .error _ => .isTrue fun _ h => by cases h

/-- The values of all parts of a tree are short enough to be written down. -/
def Tree.Writable (context : Context) (operands : Tree Quantity) : Prop :=
  operands.Every fun part => ∀ quantity, part.eval context = .ok quantity →
    quantity.value.digits ≤ writableDigits

instance Tree.decidableWritable (context : Context) : DecidablePred (Tree.Writable context) :=
  fun operands => inferInstanceAs (Decidable (operands.Every _))

theorem Tree.Every.root {α : Type} {P : Tree α → Prop} {tree : Tree α} (h : tree.Every P) :
    P tree := by
  cases tree with
  | leaf _ => exact h
  | _ => exact h.1

theorem Tree.Writable.digits {context : Context} {operands : Tree Quantity} {quantity : Quantity}
    (h : operands.Writable context) (heval : operands.eval context = .ok quantity) :
    quantity.value.digits ≤ writableDigits := h.root quantity heval

/-! ## Operators do not settle -/

namespace Arithmetic

variable {context : Context} {x y : Decimal} {span : Span} {outcome : Outcome}

theorem precision_exact (value : Decimal) : (Outcome.exact value).precision ≠ .settled := by
  intro h
  cases h

theorem precision_approximate (value : Decimal) (lost : Bool) :
    (Outcome.approximate value lost).precision ≠ .settled := by
  intro h
  cases lost <;> cases h

theorem precision_divide (h : divide x y span = .ok outcome) : outcome.precision ≠ .settled := by
  rw [divide_eq] at h
  split at h
  · cases h
  · obtain rfl := Except.ok.inj h
    exact precision_approximate _ _

theorem precision_integerPower {n : ℤ} (h : integerPower context x n span = .ok outcome) :
    outcome.precision ≠ .settled := by
  rw [integerPower_eq] at h
  generalize powerWith (context.widen powerGuardDigits).round x n.natAbs = power at h
  split at h
  · cases h
  · dsimp only at h
    split at h
    · split at h
      · obtain rfl := Except.ok.inj h
        exact precision_approximate _ _
      · split at h
        · cases h
        · obtain ⟨_, -, h⟩ := bind_eq_ok h
          obtain rfl := Except.ok.inj h
          exact precision_approximate _ _
    · obtain rfl := Except.ok.inj h
      exact precision_approximate _ _

theorem precision_fractionalPower (h : fractionalPower context x y span = .ok outcome) :
    outcome.precision ≠ .settled := by
  rw [fractionalPower_eq] at h
  split at h
  · cases h
  · split at h
    · split at h
      · obtain rfl := Except.ok.inj h
        exact precision_exact _
      · cases h
    · split at h
      · cases h
      · split at h
        · obtain rfl := Except.ok.inj h
          exact precision_exact _
        · obtain rfl := Except.ok.inj h
          exact precision_approximate _ _

/-- No operator makes up for earlier losses. -/
theorem precision_eval {op : Arithmetic} (h : op.eval context x y span = .ok outcome) :
    outcome.precision ≠ .settled := by
  cases op with
  | add | sub | mul =>
    obtain rfl := Except.ok.inj h
    exact precision_exact _
  | div => exact precision_divide h
  | pow =>
    change power context x y span = .ok outcome at h
    rw [power_eq] at h
    split at h
    · split at h
      · exact precision_integerPower h
      · exact precision_fractionalPower h
    · exact precision_fractionalPower h

end Arithmetic

/-! ## Expressions with an exact value -/

namespace Tree
namespace Denotes

variable {range power : ℚ → Prop} {context : Context} {register : Option Register}
  {tree : Tree Word} {operands : Tree Quantity} {q : ℚ}

theorem value_inRange (h : tree.Denotes range power q) : range q := by
  induction h with
  | literal _ _ inRange => exact inRange
  | operation _ _ _ _ inRange _ _ _ => exact inRange
  | group _ _ _ ih => exact ih

/-- The leaves of such an expression stand for one value each. -/
theorem spelled (h : tree.Denotes range power q) (hspelled : tree.Spelled Word.IsOperand) :
    tree.Spelled Word.IsSingle := by
  induction h with
  | literal kind _ _ => exact Or.inl kind
  | operation _ _ _ _ _ _ ihLeft ihRight =>
    obtain ⟨hsign, hleft, hright⟩ := hspelled
    exact ⟨hsign, ihLeft hleft, ihRight hright⟩
  | group _ _ _ ih =>
    obtain ⟨hopening, hclosing, hinner⟩ := hspelled
    exact ⟨hopening, hclosing, ih hinner⟩

/-- A literal whose number is admitted is read as it is written. -/
theorem read_literal {word : Word} {x : Decimal} (hkind : word.kind = .number)
    (hread : Decimal.read? word.value = some x) (hadmits : context.Admits x.toRat) :
    Quantity.read context register word = .ok ⟨x, [word], none⟩ := by
  obtain ⟨hconfine, hsnapped⟩ := hadmits.kept
  have hliteral : Chain.literalValue context word = .ok x := by
    rw [Chain.literalValue, hread]
    dsimp only
    rw [hconfine]
    dsimp only
    rw [hsnapped]
  simp only [Quantity.read, hkind, hliteral]
  rfl

/-- All leaves can be read. -/
theorem reads (h : tree.Denotes context.Admits power q) (register : Option Register) :
    ∃ operands, tree.traverse (Quantity.read context register) = .ok operands := by
  induction h with
  | literal kind read inRange =>
    rw [traverse, read_literal kind read inRange]
    exact ⟨_, rfl⟩
  | operation sign _ _ _ _ _ ihLeft ihRight =>
    obtain ⟨left, hleft⟩ := ihLeft
    obtain ⟨right, hright⟩ := ihRight
    rw [traverse, hleft, hright]
    exact ⟨_, rfl⟩
  | group opening closing _ ih =>
    obtain ⟨inner, hinner⟩ := ih
    rw [traverse, hinner]
    exact ⟨_, rfl⟩

/-- Nothing in such an expression is rounded on request. -/
theorem unsettled (h : tree.Denotes range power q)
    (hread : tree.traverse (Quantity.read context register) = .ok operands) (base : Int) :
    Unsettled (operands.events context base) := by
  induction h generalizing operands base with
  | literal _ _ _ =>
    obtain ⟨_, -, hread⟩ := bind_eq_ok hread
    obtain rfl := Except.ok.inj hread
    exact fun _ hevent => absurd hevent List.not_mem_nil
  | @operation op _ _ _ _ _ sign _ _ _ _ _ ihLeft ihRight =>
    obtain ⟨left, hleft, hread⟩ := bind_eq_ok hread
    obtain ⟨right, hright, hread⟩ := bind_eq_ok hread
    obtain rfl := Except.ok.inj hread
    refine List.forall_mem_append.2 ⟨ihLeft hleft base,
      List.forall_mem_append.2 ⟨fun event hevent => ?_, ihRight hright base⟩⟩
    cases hresult : operated context op sign (left.eval context) (right.eval context) with
    | error _ =>
      rw [hresult] at hevent
      cases hevent
    | ok result =>
      rw [hresult] at hevent
      obtain rfl := List.mem_singleton.1 hevent
      obtain ⟨x, y, -, -, hoperate⟩ := operated_eq_ok hresult
      obtain ⟨outcome, houtcome, hsettled⟩ := bind_eq_ok hoperate
      rw [Outcome.settled] at hsettled
      split at hsettled
      · cases hsettled
      · obtain rfl := Except.ok.inj hsettled
        exact decide_eq_false (Arithmetic.precision_eval houtcome)
  | group _ _ _ ih =>
    obtain ⟨inner, hinner, hread⟩ := bind_eq_ok hread
    obtain rfl := Except.ok.inj hread
    exact ih hinner _

/-- The chain of such an expression ends without a mark just if the expression has a value and
nothing is lost on the way to it. -/
theorem unmarked_iff {words : List Word} (h : tree.Denotes range power q)
    (hwrites : tree.Writes words)
    (hread : tree.traverse (Quantity.read context register) = .ok operands) :
    ∃ chain, Chain.ofWords words register context = .ok chain ∧ ∀ final,
      chain.run context chain.links.length = .ok final ∧ final.inexact = false ↔
        ∃ quantity, operands.eval context = .ok quantity ∧ Lossless (operands.events context 0) ∧
          final = { first := quantity.number, links := [], inexact := false } := by
  obtain ⟨hspelled, hgraded, rfl⟩ := hwrites
  obtain ⟨chain, hchain, hends⟩ := Chain.ends_of_read (h.spelled hspelled) hgraded hread
  have hlossless := not_survives_iff (h.unsettled hread 0)
  refine ⟨chain, hchain, fun final => ?_⟩
  generalize chain.run context chain.links.length = result at hends
  cases hends with
  | failed error hraises =>
    refine iff_of_false (fun hrun => by cases hrun.1) ?_
    rintro ⟨quantity, heval, -⟩
    exact Tree.not_raises heval error hraises
  | exhausted quantity mark heval hmarked =>
    have hmark : mark = false ↔ Lossless (operands.events context 0) := by
      rw [← hlossless, ← Bool.not_eq_true, hmarked, Marked]
      simp
    constructor
    · rintro ⟨hrun, hunmarked⟩
      obtain rfl := Except.ok.inj hrun
      obtain rfl : mark = false := hunmarked
      exact ⟨quantity, heval, hmark.1 rfl, rfl⟩
    · rintro ⟨other, hother, hkept, rfl⟩
      obtain rfl := Except.ok.inj (hother.symm.trans heval)
      obtain rfl := hmark.2 hkept
      exact ⟨rfl, rfl⟩

end Denotes
end Tree
end DeskCalc
