import DeskCalc.Checked
import DeskCalc.Proofs.Decimal.Size

/-
What is asked for along a computation.

A property of the demands of a computation is proved together with one of its value, as what
comes later depends on both (`Keeps`).  The other way round, what an answer of the program is
follows from all demands on the way to it (`Gives`).
-/
namespace DeskCalc

open Decimal

/-- The scales of the factors of a product other than zero add up to a scale, and so the program
does not stop there.  Nothing is said about other scales. -/
def Demand.Adds : Demand → Prop
  | product x y => x.mantissa ≠ 0 → y.mantissa ≠ 0 →
      InRange (x.scale + y.scale) ∧ (product x y).Fits
  | scale _ => True

namespace Checked

variable {α β : Type} {A : Demand → Prop} {P Q : α → Prop} {R : β → Prop}
  {computation : Checked α}

/-- The value has a property, and all demands have another one. -/
structure Keeps (computation : Checked α) (A : Demand → Prop) (Q : α → Prop) : Prop where
  value : Q computation.value
  demands : ∀ demand ∈ computation.demands, A demand

theorem keeps_pure {a : α} (h : Q a) : (pure a : Checked α).Keeps A Q where
  value := h
  demands := by
    intro demand hdemand
    cases hdemand

theorem Keeps.bind (h : computation.Keeps A Q) {next : α → Checked β}
    (hnext : ∀ a, Q a → (next a).Keeps A R) : (computation >>= next).Keeps A R where
  value := by
    rw [value_bind]
    exact (hnext _ h.value).value
  demands := by
    intro demand hdemand
    rw [demands_bind] at hdemand
    rcases List.mem_append.1 hdemand with hdemand | hdemand
    · exact h.demands demand hdemand
    · exact (hnext _ h.value).demands demand hdemand

theorem Keeps.mono (h : computation.Keeps A P) (hPQ : ∀ a, P a → Q a) : computation.Keeps A Q :=
  ⟨hPQ _ h.value, h.demands⟩

theorem Keeps.and (h : computation.Keeps A Q) (hvalue : P computation.value) :
    computation.Keeps A fun a => Q a ∧ P a :=
  ⟨⟨h.value, hvalue⟩, h.demands⟩

theorem keeps_times {Q : Decimal → Prop} {x y : Decimal} (hasked : A (.product x y))
    (h : Q (x * y)) : (times x y).Keeps A Q :=
  ⟨h, List.forall_mem_singleton.2 hasked⟩

theorem keeps_held {Q : ℤ → Prop} {n : ℤ} (hasked : A (.scale n)) (h : Q n) :
    (held n).Keeps A Q :=
  ⟨h, List.forall_mem_singleton.2 hasked⟩

/-- If all demands have one property, the value has another one. -/
def Gives (computation : Checked α) (A : Demand → Prop) (Q : α → Prop) : Prop :=
  (∀ demand ∈ computation.demands, A demand) → Q computation.value

theorem gives_pure {a : α} (h : Q a) : (pure a : Checked α).Gives A Q := fun _ => h

theorem Gives.bind (h : computation.Gives A Q) {next : α → Checked β}
    (hnext : ∀ a, Q a → (next a).Gives A R) : (computation >>= next).Gives A R := by
  intro hdemands
  rw [demands_bind] at hdemands
  rw [value_bind]
  refine hnext _ (h fun demand hdemand => hdemands demand ?_) fun demand hdemand =>
    hdemands demand ?_
  · exact List.mem_append_left _ hdemand
  · exact List.mem_append_right _ hdemand

theorem gives_times {Q : Decimal → Prop} {x y : Decimal}
    (h : A (.product x y) → Q (x * y)) : (times x y).Gives A Q :=
  fun hdemands => h (hdemands _ (List.mem_singleton_self _))

/-- If all demands fit, the program answers. -/
theorem Keeps.run? (h : computation.Keeps Demand.Fits Q) :
    computation.run? = some computation.value := by
  rw [run?_eq, if_pos h.demands]

/-- An answer of the program is the value, and everything on the way to it fits. -/
theorem run?_eq_some_iff {a : α} : computation.run? = some a ↔
    (∀ demand ∈ computation.demands, demand.Fits) ∧ computation.value = a := by
  rw [run?_eq, Option.ite_none_right_eq_some, Option.some_inj]

/-- What follows from all demands holds for an answer of the program. -/
theorem Gives.of_run? (h : computation.Gives Demand.Fits Q) {a : α}
    (hrun : computation.run? = some a) : Q a := by
  obtain ⟨hfits, rfl⟩ := run?_eq_some_iff.1 hrun
  exact h hfits

end Checked

/-! ## Products of sized factors -/

variable {d d' : ℕ} {low low' high high' : ℤ} {x y : Decimal}

/-- The product of two factors that are not zero has a scale. -/
theorem Decimal.Sized.fits (hx : Sized d low high x) (hy : Sized d' low' high' y)
    (hlarge : high + high' ≤ 9223372036854775808)
    (hsmall : d + d' ≤ low + low' + 9223372036854775809) (hxne : x.mantissa ≠ 0)
    (hyne : y.mantissa ≠ 0) : InRange (x.scale + y.scale) ∧ (Demand.product x y).Fits := by
  have hsum := hx.scalesFit hy hlarge hsmall hxne hyne
  refine ⟨hsum, ?_⟩
  obtain ⟨hxdigits, hxlow, hxhigh⟩ := hx hxne
  obtain ⟨hydigits, hylow, hyhigh⟩ := hy hyne
  have hone : one.leadingExponent = 0 := by decide
  have hdigit : one.digits = 1 := by decide
  show InRange (x * y).scale
  rw [mul_eq]
  split
  · next hx1 =>
    rw [hx1, hone] at hxlow hxhigh
    rw [hx1, hdigit] at hxdigits
    obtain ⟨hlow, hhigh⟩ := hy.normalize.scale (mantissa_normalize_ne hyne)
    constructor <;> omega
  · split
    · next hy1 =>
      rw [hy1, hone] at hylow hyhigh
      rw [hy1, hdigit] at hydigits
      obtain ⟨hlow, hhigh⟩ := hx.normalize.scale (mantissa_normalize_ne hxne)
      constructor <;> omega
    · exact hsum

end DeskCalc
