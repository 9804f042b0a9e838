import DeskCalc.Proofs.Tree.Value

/-
Which losses of digits count in the end.

Every operation of a tree is an event with the weight of its operator, and the events
stand in the order of the operators.  The greatest weight comes first, and of equal
weights the leftmost, so a loss counts if no rounding on request has a lower weight or
stands with the same weight further right.  `marked_iff` lets one event happen.
-/
namespace DeskCalc

/-- Where a list goes on behind a member, if it is also two lists in a row. -/
theorem split_append {α : Type} {before after left right : List α} {x : α}
    (h : before ++ x :: after = left ++ right) :
    (∃ mid, left = before ++ x :: mid ∧ after = mid ++ right) ∨
      ∃ mid, before = left ++ mid ∧ right = mid ++ x :: after := by
  rcases List.append_eq_append_iff.1 h with ⟨mid, hleft, hafter⟩ | ⟨mid, hbefore, hright⟩
  · cases mid with
    | nil => exact Or.inr ⟨[], by simpa using hleft.symm, hafter.symm⟩
    | cons y mid =>
      obtain ⟨rfl, rfl⟩ := List.cons.inj hafter
      exact Or.inl ⟨mid, hleft, rfl⟩
  · exact Or.inr ⟨mid, hbefore, hright⟩

theorem mem_middle {α : Type} {x y : α} {left right : List α} :
    x ∈ left ++ y :: right ↔ x = y ∨ x ∈ left ++ right := by
  simp [or_left_comm]

/-- The effect of an operation, at the weight of its operator. -/
structure Event where
  weight : Int
  effect : Effect
  deriving DecidableEq, Repr

/-- The event of an operation that succeeds. -/
def Event.ofResult (weight : Int) : Except EvalError (Quantity × Effect) → List Event
  | .ok (_, effect) => [⟨weight, effect⟩]
  | .error _ => []

mutual

/-- The events of the operations of a tree inside parentheses that lift by `base`. -/
def Tree.events (context : Context) (base : Int) : Tree Quantity → List Event
  | .leaf _ => []
  | .binary op sign left right =>
      left.events context base ++
        (Event.ofResult (op.weight + base)
          (operated context op sign (left.eval context) (right.eval context)) ++
        right.events context base)
  | .group _ inner _ => inner.events context (base + OperatorKind.groupWeight)
  | .call builtin name opening arguments closing =>
      Event.ofResult (OperatorKind.groupWeight + base)
          (invoked context builtin name opening (arguments.eval context) closing) ++
        arguments.events context (base + OperatorKind.groupWeight)

def Arguments.events (context : Context) (base : Int) : Arguments Quantity → List Event
  | .last only => only.events context base
  | .more first _ rest => first.events context base ++ rest.events context base

end

/-- Some loss is not followed by a rounding on request. -/
def Survives (events : List Event) : Prop :=
  ∃ before event after, events = before ++ event :: after ∧ event.effect.loses = true ∧
    (∀ other ∈ before, other.effect.settles = true → event.weight ≤ other.weight) ∧
    ∀ other ∈ after, other.effect.settles = true → event.weight < other.weight

/-- Nothing is rounded on request. -/
def Unsettled (events : List Event) : Prop := ∀ event ∈ events, event.effect.settles = false

/-- The mark of lost digits is set once all events have happened. -/
def Marked (inexact : Bool) (events : List Event) : Prop :=
  (inexact = true ∧ Unsettled events) ∨ Survives events

theorem not_survives_nil : ¬ Survives [] := by
  rintro ⟨before, event, after, h, -⟩
  exact List.cons_ne_nil _ _ (List.append_eq_nil_iff.1 h.symm).2

/-- Nothing loses digits. -/
def Lossless (events : List Event) : Prop := ∀ event ∈ events, event.effect.loses = false

/-- Where nothing is rounded on request, every loss survives. -/
theorem not_survives_iff {events : List Event} (h : Unsettled events) :
    ¬ Survives events ↔ Lossless events := by
  constructor
  · intro hnone event hevent
    rw [Bool.eq_false_iff]
    intro hloses
    have hsettles : ∀ other ∈ events, ¬ other.effect.settles = true := fun other hother hsettles =>
      Bool.false_ne_true ((h other hother).symm.trans hsettles)
    obtain ⟨before, after, rfl⟩ := List.append_of_mem hevent
    exact hnone ⟨before, event, after, rfl, hloses,
      fun other hother hs => absurd hs (hsettles other (List.mem_append_left _ hother)),
      fun other hother hs => absurd hs (hsettles other (mem_middle.2 (Or.inr
        (List.mem_append_right _ hother))))⟩
  · rintro hkept ⟨before, event, after, rfl, hloses, -⟩
    rw [hkept event (mem_middle.2 (Or.inl rfl))] at hloses
    cases hloses

theorem marked_nil {inexact : Bool} : Marked inexact [] ↔ inexact = true := by
  simp [Marked, Unsettled, not_survives_nil]

theorem unsettled_iff {before after : List Event} {event : Event} :
    Unsettled (before ++ event :: after) ↔
      event.effect.settles = false ∧ Unsettled (before ++ after) := by
  constructor
  · intro h
    exact ⟨h event (mem_middle.2 (Or.inl rfl)), fun other hother => h other
      (mem_middle.2 (Or.inr hother))⟩
  · rintro ⟨hevent, h⟩ other hother
    rcases mem_middle.1 hother with rfl | hother
    · exact hevent
    · exact h other hother

section First

variable {before after : List Event} {event : Event}

/-- The event of the greatest weight, the leftmost of several, is followed by all
others. -/
theorem survives_iff (hbefore : ∀ other ∈ before, other.weight < event.weight)
    (hafter : ∀ other ∈ after, other.weight ≤ event.weight) :
    Survives (before ++ event :: after) ↔
      (event.effect.loses = true ∧ Unsettled (before ++ after)) ∨ Survives (before ++ after) := by
  constructor
  · rintro ⟨b, x, a, hsplit, hloses, hb, ha⟩
    rcases split_append hsplit.symm with ⟨mid, rfl, rfl⟩ | ⟨mid, rfl, htail⟩
    · exact Or.inr ⟨b, x, mid ++ after, by simp, hloses, hb,
        fun other hother => ha other (mem_middle.2 (Or.inr hother))⟩
    · cases mid with
      | nil =>
        obtain ⟨rfl, rfl⟩ := List.cons.inj htail
        refine Or.inl ⟨hloses, fun other hother => ?_⟩
        rw [Bool.eq_false_iff]
        intro hsettles
        rcases List.mem_append.1 hother with h | h
        · have hle := hb other (List.mem_append_left _ h) hsettles
          have hlt := hbefore other h
          omega
        · have hlt := ha other h hsettles
          have hle := hafter other h
          omega
      | cons y mid =>
        obtain ⟨rfl, rfl⟩ := List.cons.inj htail
        exact Or.inr ⟨before ++ mid, x, a, by simp, hloses,
          fun other hother => hb other (mem_middle.2 (Or.inr hother)), ha⟩
  · rintro (⟨hloses, hunsettled⟩ | ⟨b, x, a, hsplit, hloses, hb, ha⟩)
    · have hnone : ∀ other ∈ before ++ after, other.effect.settles = true →
          event.weight < other.weight := by
        intro other hother hsettles
        rw [hunsettled other hother] at hsettles
        cases hsettles
      exact ⟨before, event, after, rfl, hloses,
        fun other h hs => Int.le_of_lt (hnone other (List.mem_append_left _ h) hs),
        fun other h hs => hnone other (List.mem_append_right _ h) hs⟩
    · rcases split_append hsplit.symm with ⟨mid, rfl, rfl⟩ | ⟨mid, rfl, rfl⟩
      · refine ⟨b, x, mid ++ event :: after, by simp, hloses, hb, fun other hother hsettles => ?_⟩
        rcases mem_middle.1 hother with rfl | hother
        · exact hbefore x (by simp)
        · exact ha other hother hsettles
      · refine ⟨before ++ event :: mid, x, a, by simp, hloses, fun other hother hsettles => ?_, ha⟩
        rcases mem_middle.1 hother with rfl | hother
        · exact hafter x (by simp)
        · exact hb other hother hsettles

theorem survives_singleton (event : Event) : Survives [event] ↔ event.effect.loses = true := by
  have hfirst := @survives_iff [] [] event (by simp) (by simp)
  simpa [Unsettled, not_survives_nil] using hfirst

/-- That event happens first. -/
theorem marked_iff (hbefore : ∀ other ∈ before, other.weight < event.weight)
    (hafter : ∀ other ∈ after, other.weight ≤ event.weight) {inexact : Bool} :
    Marked inexact (before ++ event :: after) ↔
      Marked (event.effect.apply inexact) (before ++ after) := by
  rw [Marked, Marked, survives_iff hbefore hafter, unsettled_iff, Effect.apply, Bool.or_eq_true,
    Bool.and_eq_true, Bool.not_eq_true']
  constructor
  · rintro (⟨hinexact, hsettles, hunsettled⟩ | ⟨hloses, hunsettled⟩ | hsurvives)
    · exact Or.inl ⟨Or.inl ⟨hinexact, hsettles⟩, hunsettled⟩
    · exact Or.inl ⟨Or.inr hloses, hunsettled⟩
    · exact Or.inr hsurvives
  · rintro (⟨⟨hinexact, hsettles⟩ | hloses, hunsettled⟩ | hsurvives)
    · exact Or.inl ⟨hinexact, hsettles, hunsettled⟩
    · exact Or.inr (Or.inl ⟨hloses, hunsettled⟩)
    · exact Or.inr (Or.inr hsurvives)

end First

end DeskCalc
