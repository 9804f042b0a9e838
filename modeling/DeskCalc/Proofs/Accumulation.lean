import DeskCalc.Proofs.ArgumentCheck
import DeskCalc.Proofs.Decimal.Shown
import DeskCalc.Proofs.Reading.Listing

/-
Functions of any number of arguments.

`sum`, `max` and `min` go through their arguments once and compute exactly: whatever is lost, is
lost when their outcome is settled.  An operator between literals settles each result on the way.
As long as these have few enough digits and are in range, that changes no number.
-/
namespace DeskCalc

open Decimal

/-! ## One pass over the arguments -/

namespace Builtin

/-- What a function of any number of arguments makes of them. -/
def Accumulates (builtin : Builtin) (numbers : List ℚ) (q : ℚ) : Prop :=
  match builtin with
  | sum => q = numbers.sum
  | max => q ∈ numbers ∧ ∀ r ∈ numbers, r ≤ q
  | min => q ∈ numbers ∧ ∀ r ∈ numbers, q ≤ r
  | _ => False

/-- The order of the arguments plays no part in it. -/
theorem Accumulates.eq_of_perm {builtin : Builtin} {numbers numbers' : List ℚ} {q q' : ℚ}
    (h : builtin.Accumulates numbers q) (h' : builtin.Accumulates numbers' q')
    (hperm : numbers.Perm numbers') : q = q' := by
  cases builtin with
  | sum =>
    have hsum : numbers.sum = numbers'.sum := hperm.sum_eq
    exact h.trans (hsum.trans h'.symm)
  | max =>
    refine le_antisymm (h'.2 q (hperm.mem_iff.1 h.1)) (h.2 q' (hperm.mem_iff.2 h'.1))
  | min =>
    refine le_antisymm (h.2 q' (hperm.mem_iff.2 h'.1)) (h'.2 q (hperm.mem_iff.1 h.1))
  | _ => exact h.elim

theorem toRat_foldl_add (values : List Decimal) (start : Decimal) :
    (values.foldl (· + ·) start).toRat = start.toRat + (values.map toRat).sum := by
  induction values generalizing start with
  | nil => simp
  | cons x values ih =>
    rw [List.foldl_cons, ih, toRat_add, List.map_cons, List.sum_cons, add_assoc]

theorem scale_foldl_add_le {n : ℤ} {values : List Decimal} {start : Decimal}
    (hstart : start.scale ≤ n) (hvalues : ∀ x ∈ values, x.scale ≤ n) :
    (values.foldl (· + ·) start).scale ≤ n := by
  induction values generalizing start with
  | nil => exact hstart
  | cons x values ih =>
    obtain ⟨hx, hvalues⟩ := List.forall_mem_cons.1 hvalues
    exact ih (scale_add_le hstart hx) hvalues

/-- Going through the values and keeping the better one of two leaves one that is as good as any
of them. -/
theorem foldl_choice (better replaces : Decimal → Decimal → Prop)
    [∀ x y, Decidable (replaces x y)] (hrefl : ∀ x, better x x)
    (htrans : ∀ {x y z}, better x y → better y z → better x z)
    (hreplaced : ∀ {x y}, replaces x y → better y x)
    (hkept : ∀ {x y}, ¬ replaces x y → better x y) (x : Decimal) (rest : List Decimal) :
    rest.foldl (fun best y => if replaces best y then y else best) x ∈ x :: rest ∧
      ∀ y ∈ x :: rest,
        better (rest.foldl (fun best y => if replaces best y then y else best) x) y := by
  induction rest generalizing x with
  | nil => simp [hrefl]
  | cons next rest ih =>
    rw [List.foldl_cons]
    by_cases hnext : replaces x next
    · rw [if_pos hnext]
      obtain ⟨hmem, hbest⟩ := ih next
      have hbetter := htrans (hbest next List.mem_cons_self) (hreplaced hnext)
      exact ⟨List.mem_cons_of_mem _ hmem, List.forall_mem_cons.2 ⟨hbetter, hbest⟩⟩
    · rw [if_neg hnext]
      obtain ⟨hmem, hbest⟩ := ih x
      obtain ⟨hfirst, hrest⟩ := List.forall_mem_cons.1 hbest
      have hbetter := htrans hfirst (hkept hnext)
      refine ⟨?_, List.forall_mem_cons.2 ⟨hfirst, List.forall_mem_cons.2 ⟨hbetter, hrest⟩⟩⟩
      exact List.mem_cons.2 ((List.mem_cons.1 hmem).imp_right (List.mem_cons_of_mem next))

variable {builtin : Builtin} {context : Context} {values : List Decimal} {n : ℤ}

/-- A function of any number of arguments goes through them without a loss. -/
theorem exists_apply (hvariadic : builtin.signature = .variadic) (hvalues : values ≠ [])
    (hn : 0 ≤ n) (hscale : ∀ x ∈ values, x.scale ≤ n) :
    ∃ x, builtin.Accumulates (values.map toRat) x.toRat ∧ x.scale ≤ n ∧
      ∀ span, builtin.apply context values span = .ok (.exact x) := by
  obtain ⟨first, rest, rfl⟩ := List.exists_cons_of_ne_nil hvalues
  cases builtin with
  | sum =>
    refine ⟨(first :: rest).foldl (· + ·) .zero, ?_, scale_foldl_add_le hn hscale, fun span => rfl⟩
    rw [Accumulates, toRat_foldl_add, toRat_zero, zero_add]
  | max =>
    obtain ⟨hmem, hbest⟩ := foldl_choice (fun x y => y.toRat ≤ x.toRat)
      (fun best y => best ≤ y) (fun x => le_rfl) (fun h h' => h'.trans h) le_iff.1
      (fun h => (not_le.1 (le_iff.not.1 h)).le) first rest
    refine ⟨_, ⟨List.mem_map_of_mem hmem, ?_⟩, hscale _ hmem, fun span => rfl⟩
    exact List.forall_mem_map.2 hbest
  | min =>
    obtain ⟨hmem, hbest⟩ := foldl_choice (fun x y => x.toRat ≤ y.toRat)
      (fun best y => y < best) (fun x => le_rfl) (fun h h' => h.trans h')
      (fun h => (lt_iff.1 h).le) (fun h => not_lt.1 (lt_iff.not.1 h)) first rest
    refine ⟨_, ⟨List.mem_map_of_mem hmem, ?_⟩, hscale _ hmem, fun span => rfl⟩
    exact List.forall_mem_map.2 hbest
  | _ => cases hvariadic

theorem call_of_variadic (hvariadic : builtin.signature = .variadic) (hvalues : values ≠ [])
    {arguments : List Number} (harguments : arguments.map Number.value = values.map some)
    (span : Span) : builtin.call context arguments span = builtin.apply context values span := by
  have hlength : arguments.length = values.length := by
    simpa using congrArg List.length harguments
  refine call_of_fit ?_ harguments ?_
  · rw [hvariadic, hlength]
    exact decide_eq_true (List.length_pos_iff.2 hvalues)
  · rintro i x - ⟨hparam, -⟩
    rw [hvariadic] at hparam
    cases hparam

end Builtin

/-! ## Calls of literals -/

section Calls

variable {β : Type} {context : Context} {value : β → Decimal} {items : List β}
  {arguments : Arguments Quantity} {builtin : Builtin}

/-- Arguments that are leaves have the values of their items. -/
theorem Arguments.Lists.eval
    (h : arguments.Lists (fun quantity item => quantity.value = value item) items) :
    ∃ spread, arguments.eval context = .ok spread ∧
      spread.values.map Quantity.value = items.map value := by
  induction h with
  | @last operand item is =>
    refine ⟨⟨[operand], operand.words⟩, rfl, ?_⟩
    rw [List.map_singleton, List.map_singleton, is]
  | @more operand item comma rest items is separated others ih =>
    obtain ⟨spread, hspread, hvalues⟩ := ih
    refine ⟨⟨operand :: spread.values, operand.words ++ comma :: spread.words⟩, ?_, ?_⟩
    · rw [Arguments.eval, hspread]
      rfl
    · rw [List.map_cons, List.map_cons, hvalues, is]

theorem Arguments.Lists.events_eq_nil {Item : Quantity → β → Prop} (h : arguments.Lists Item items)
    (base : Int) : arguments.events context base = [] := by
  induction h with
  | last is => rfl
  | more is separated others ih => rw [Arguments.events, Tree.events, ih, List.append_nil]

/-- A call with any number of literals accumulates their values, and the outcome is settled
once. -/
theorem Arguments.Lists.invoke {n : ℤ}
    (h : arguments.Lists (fun quantity item => quantity.value = value item) items)
    (hvariadic : builtin.signature = .variadic) (hitems : items ≠ []) (hn : 0 ≤ n)
    (hscale : ∀ item ∈ items, (value item).scale ≤ n) (context : Context) :
    ∃ x spread, builtin.Accumulates (items.map fun item => (value item).toRat) x.toRat ∧
      x.scale ≤ n ∧ arguments.eval context = .ok spread ∧
      ∀ name opening closing, invoke context builtin name opening spread closing =
        (Outcome.exact x).settled context (name :: opening :: (spread.words ++ [closing])) := by
  obtain ⟨spread, hspread, hvalues⟩ := h.eval
  have hne : items.map value ≠ [] := by simpa using hitems
  obtain ⟨x, hx, hxscale, happly⟩ :=
    Builtin.exists_apply hvariadic hne hn (List.forall_mem_map.2 hscale)
  rw [List.map_map] at hx
  refine ⟨x, spread, hx, hxscale, hspread, fun name opening closing => ?_⟩
  have harguments : (spread.values.map Quantity.number).map Number.value =
      (items.map value).map some := by
    rw [← hvalues, List.map_map, List.map_map]
    rfl
  rw [DeskCalc.invoke, Builtin.call_of_variadic hvariadic hne harguments, happly]
  rfl

end Calls

namespace Outcome

variable {context : Context} {x y : Decimal} {words : List Word}

theorem settled_exact {lost : Bool} (h : context.settle x = some (y, lost)) :
    (exact x).settled context words = .ok (⟨y, words, none⟩, ⟨lost, false⟩) := by
  simp only [settled, exact, h]
  rfl

theorem settled_exact_error (h : context.settle x = none) : (exact x).settled context words =
    .error (.domain .resultOutOfRange (Word.spanOf words)) := by
  simp only [settled, exact, h]

end Outcome

/-! ## Chains of additions -/

/-- An addition is exact if its result has few enough digits and is in range. -/
theorem operate_add {context : Context} {x y : Quantity} {q : ℚ}
    (hprecision : 1 ≤ context.precision) (hx : x.value.scale ≤ maxScale)
    (hy : y.value.scale ≤ maxScale) (hsum : x.value.toRat + y.value.toRat = q)
    (hdigits : InDigits context.precision q) (hadmits : context.Admits q) (sign : Word) :
    ∃ quantity, operate context .add sign x y = .ok (quantity, ⟨false, false⟩) ∧
      quantity.value.toRat = q ∧ quantity.value.scale ≤ maxScale := by
  have hvalue : (x.value + y.value).toRat = q := by rw [toRat_add, hsum]
  rw [← hvalue] at hdigits hadmits
  obtain ⟨z, hsettle, hz, hscale⟩ :=
    Context.settle_kept hprecision (scale_add_le hx hy) hdigits hadmits
  exact ⟨⟨z, x.words ++ sign :: y.words, none⟩, Outcome.settled_exact hsettle,
    hz.trans hvalue, hscale⟩

/-- Adding leaves one after the other gives their exact sum, and nothing is lost, if every partial
sum has few enough digits and is in range. -/
theorem Tree.Chains.eval_add {β : Type} {context : Context} {value : β → Decimal} {items : List β}
    {tree : Tree Quantity}
    (h : tree.Chains .add (fun quantity item => quantity.value = value item) items)
    (hprecision : 1 ≤ context.precision) (hscale : ∀ item ∈ items, (value item).scale ≤ maxScale)
    (hpartial : ∀ front, front ≠ [] → front <+: items →
      InDigits context.precision (front.map fun item => (value item).toRat).sum ∧
        context.Admits (front.map fun item => (value item).toRat).sum) :
    ∃ quantity, tree.eval context = .ok quantity ∧
      quantity.value.toRat = (items.map fun item => (value item).toRat).sum ∧
      quantity.value.scale ≤ maxScale ∧
      ∀ base, ∀ event ∈ tree.events context base, event.effect = ⟨false, false⟩ := by
  induction h with
  | @single operand item is =>
    refine ⟨operand, rfl, ?_, ?_, fun base event hevent => absurd hevent List.not_mem_nil⟩
    · rw [is, List.map_singleton, List.sum_singleton]
    · rw [is]
      exact hscale item (List.mem_singleton_self item)
  | @append left items sign operand item front signed is ih =>
    obtain ⟨hscale, hitem⟩ := List.forall_mem_append.1 hscale
    -- The partial sums of the chain in front are partial sums of all of it.
    obtain ⟨x, hx, hsum, hxscale, hkept⟩ := ih hscale fun part hne hpart =>
      hpartial part hne (hpart.trans (List.prefix_append _ _))
    have hoperand : operand.value.scale ≤ maxScale := by
      rw [is]
      exact hitem item (List.mem_singleton_self item)
    have htotal : x.value.toRat + operand.value.toRat =
        ((items ++ [item]).map fun item => (value item).toRat).sum := by
      rw [hsum, is, List.map_append, List.sum_append, List.map_singleton, List.sum_singleton]
    obtain ⟨hdigits, hadmits⟩ := hpartial _ (by simp) (List.prefix_refl _)
    obtain ⟨quantity, hoperate, hquantity, hqscale⟩ :=
      operate_add hprecision hxscale hoperand htotal hdigits hadmits sign
    have hoperated : operated context .add sign (left.eval context)
        ((Tree.leaf operand).eval context) = .ok (quantity, ⟨false, false⟩) := by
      rw [hx]
      exact hoperate
    refine ⟨quantity, ?_, hquantity, hqscale, fun base => ?_⟩
    · rw [Tree.eval, hoperated]
      rfl
    · rw [Tree.events, hoperated]
      refine List.forall_mem_append.2 ⟨hkept base, List.forall_mem_append.2 ⟨?_, ?_⟩⟩
      · exact List.forall_mem_singleton.2 rfl
      · exact fun event hevent => absurd hevent List.not_mem_nil

end DeskCalc
