import DeskCalc.Decimal.Basic

/-
Computations that hold their scales in 64 bits.

A product adds the scales of its factors, and the program stops if the sum does
not fit in 64 bits.  So everything that multiplies is written as a computation,
which asks for each product and goes on with the answer; the names of such
functions end in M.

`run?` is what the program does: it stops at the first demand that does not fit.
`value` is the same computation with scales of any size, and a function without
the M is the value of the one with it.  By `run?_eq` the two agree unless a
demand does not fit, so what holds for the value holds for every answer.
-/
namespace DeskCalc

open Decimal

/-- What has to fit in 64 bits on the way: the scale of a product, or another
scale that is computed. -/
inductive Demand where
  | product (x y : Decimal)
  | scale (n : Int)
  deriving DecidableEq, Repr

namespace Demand

abbrev Answer : Demand → Type
  | product _ _ => Decimal
  | scale _ => Int

def answer : (demand : Demand) → demand.Answer
  | product x y => x * y
  | scale n => n

def Fits : Demand → Prop
  | product x y => InRange (x * y).scale
  | scale n => InRange n

instance : (demand : Demand) → Decidable demand.Fits
  | product x y => inferInstanceAs (Decidable (InRange (x * y).scale))
  | scale n => inferInstanceAs (Decidable (InRange n))

end Demand

inductive Checked (α : Type) where
  | done (value : α)
  | ask (demand : Demand) (next : demand.Answer → Checked α)

namespace Checked

variable {α β : Type}

def bind : Checked α → (α → Checked β) → Checked β
  | done a, next => next a
  | ask demand rest, next => ask demand fun answer => bind (rest answer) next

instance : Monad Checked where
  pure := done
  bind := bind

/-- The product of two decimals. -/
def times (x y : Decimal) : Checked Decimal := ask (.product x y) done

/-- A scale that is computed in 64 bits. -/
def held (n : Int) : Checked Int := ask (.scale n) done

/-! ## Answers -/

/-- The answer of the program, `none` if it stops because a scale does not fit. -/
def run? : Checked α → Option α
  | done a => some a
  | ask demand next => if demand.Fits then run? (next demand.answer) else none

/-- The answer with scales of any size. -/
def value : Checked α → α
  | done a => a
  | ask demand next => value (next demand.answer)

/-- What is asked for on the way to the value, in order. -/
def demands : Checked α → List Demand
  | done _ => []
  | ask demand next => demand :: demands (next demand.answer)

@[simp] theorem value_pure (a : α) : (pure a : Checked α).value = a := rfl

@[simp] theorem value_bind (first : Checked α) (next : α → Checked β) :
    (first >>= next).value = (next first.value).value := by
  induction first with
  | done a => rfl
  | ask demand rest ih => exact ih demand.answer

@[simp] theorem value_times (x y : Decimal) : (times x y).value = x * y := rfl

@[simp] theorem demands_bind (first : Checked α) (next : α → Checked β) :
    (first >>= next).demands = first.demands ++ (next first.value).demands := by
  induction first with
  | done a => rfl
  | ask demand rest ih => exact congrArg (demand :: ·) (ih demand.answer)

/-- The program answers with the value just if everything that is asked for fits. -/
theorem run?_eq (computation : Checked α) : computation.run? =
    if ∀ demand ∈ computation.demands, demand.Fits then some computation.value else none := by
  induction computation with
  | done a => simp [run?, demands, value]
  | ask demand next ih =>
    rw [run?, ih]
    by_cases hfits : demand.Fits <;> simp [demands, value, hfits]

end Checked
end DeskCalc
