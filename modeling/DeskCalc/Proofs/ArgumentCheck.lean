import DeskCalc.Builtin.Eval
import DeskCalc.Proofs.Power.Exponent
import DeskCalc.Proofs.Tree.Syntax
import Mathlib.Data.List.Basic

/-
The errors of a call that are about its arguments.

The number of arguments and their fractions are checked from the signature, before the
function runs.  Its own readings of an integer agree with that check for `hex` and `oct`.
The places of `round` are read once more, as a number of 64 bits, so that an integer
beyond them is refused there, and at the place of the call.
-/
namespace DeskCalc
namespace Builtin

variable {builtin : Builtin} {context : Context} {arguments : List Number}
  {values : List Decimal} {number : Number} {x places : Decimal} {position i : ℕ} {span : Span}

/-- The value has a fraction and stands where an integer is taken. -/
def Misfit (builtin : Builtin) (position : ℕ) (x : Decimal) : Prop :=
  builtin.signature.param position = .integer ∧ ∀ n : ℤ, x.toRat ≠ n

/-- The places of a `round` are an integer beyond 64 bits. -/
def FarPlaces (builtin : Builtin) (values : List Decimal) (places : Decimal) : Prop :=
  builtin = round ∧ values[1]? = some places ∧ ∃ n : ℤ, places.toRat = n ∧ ¬ Decimal.InRange n

/-! ## The check against the signature -/

theorem checkArgument_of_misfit (hvalue : number.value = some x)
    (h : builtin.Misfit position x) : builtin.checkArgument position number span =
      .error (.argumentType .integer x (number.span?.getD span)) := by
  have hfraction : ¬ x.isIntegral = true := by
    rw [Decimal.isIntegral_iff, not_exists]
    exact h.2
  simp [checkArgument, hvalue, h.1, hfraction]

theorem checkArgument_of_fit (hvalue : number.value = some x)
    (h : ¬ builtin.Misfit position x) : builtin.checkArgument position number span = .ok x := by
  have hfits : ¬ (builtin.signature.param position = .integer ∧ x.isIntegral = false) := by
    rintro ⟨hparam, hfraction⟩
    refine h ⟨hparam, fun n hn => ?_⟩
    exact absurd (Decimal.isIntegral_of_toRat hn) (by simp [hfraction])
  simp [checkArgument, hvalue, hfits]

theorem checkArguments_of_fit (hvalues : arguments.map Number.value = values.map some)
    (h : ∀ i x, values[i]? = some x → ¬ builtin.Misfit (position + i) x) :
    builtin.checkArguments span position arguments = .ok values := by
  induction arguments generalizing values position with
  | nil =>
    cases values with
    | nil => rfl
    | cons _ _ => cases hvalues
  | cons number rest ih =>
    cases values with
    | nil => cases hvalues
    | cons x values =>
      obtain ⟨hvalue, hvalues⟩ := List.cons.inj hvalues
      have hhead : ¬ builtin.Misfit position x := h 0 x rfl
      have hrest : builtin.checkArguments span (position + 1) rest = .ok values := by
        apply ih hvalues
        intro i y hy
        rw [Nat.add_assoc, Nat.add_comm 1]
        exact h (i + 1) y hy
      rw [checkArguments, checkArgument_of_fit hvalue hhead, hrest]
      rfl

/-- The first misfit is reported, where its argument stands. -/
theorem checkArguments_of_misfit (hvalues : arguments.map Number.value = values.map some)
    (hnumber : arguments[i]? = some number) (hvalue : number.value = some x)
    (h : builtin.Misfit (position + i) x)
    (hfirst : ∀ j y, j < i → values[j]? = some y → ¬ builtin.Misfit (position + j) y) :
    builtin.checkArguments span position arguments =
      .error (.argumentType .integer x (number.span?.getD span)) := by
  induction i generalizing arguments values position with
  | zero =>
    obtain ⟨rest, rfl⟩ : ∃ rest, arguments = number :: rest := by
      cases arguments with
      | nil => cases hnumber
      | cons _ rest => exact ⟨rest, by rw [Option.some.inj hnumber]⟩
    have hhead : builtin.Misfit position x := h
    rw [checkArguments, checkArgument_of_misfit hvalue hhead]
    rfl
  | succ i ih =>
    cases arguments with
    | nil => cases hnumber
    | cons head rest =>
      cases values with
      | nil => cases hvalues
      | cons y values =>
        obtain ⟨hhead, hvalues⟩ := List.cons.inj hvalues
        have hfit : ¬ builtin.Misfit position y := hfirst 0 y (Nat.succ_pos i) rfl
        have hrest : builtin.checkArguments span (position + 1) rest =
            .error (.argumentType .integer x (number.span?.getD span)) := by
          apply ih hvalues hnumber
          · rwa [Nat.add_assoc, Nat.add_comm 1]
          · intro j z hj hz
            rw [Nat.add_assoc, Nat.add_comm 1]
            exact hfirst (j + 1) z (Nat.succ_lt_succ hj) hz
        rw [checkArguments, checkArgument_of_fit hhead hfit, hrest]
        rfl

/-! ## The functions on checked values -/

/-- A result, or an error about the values and not about their number or type. -/
def Ran (result : Except EvalError Outcome) : Prop :=
  (∃ outcome, result = .ok outcome) ∨ ∃ cause span, result = .error (.domain cause span)

theorem ran_ok (outcome : Outcome) : Ran (.ok outcome) := Or.inl ⟨outcome, rfl⟩

theorem ran_domain (cause : DomainError) (span : Span) : Ran (.error (.domain cause span)) :=
  Or.inr ⟨cause, span, rfl⟩

theorem ran_sqrt (x : Decimal) (span : Span) : Ran (evalSqrt x span) := by
  rw [evalSqrt_eq]
  split
  · exact ran_domain _ _
  · exact ran_ok _

theorem ran_series (builtin : Builtin) (x : Decimal) (defined exact : Bool)
    (value : Option Decimal) (span : Span) :
    Ran (evalSeries builtin x defined exact value span) := by
  unfold evalSeries
  split
  · exact ran_domain _ _
  · split
    · exact ran_domain _ _
    · exact ran_ok _

theorem ran_radix {n : ℤ} (radix : ℕ) (mark : Text) (hn : x.toRat = n) (span : Span) :
    Ran (evalRadix radix mark x span) := by
  rw [evalRadix, Decimal.toInt?_eq_some_iff.2 hn]
  exact ran_ok _

/-- The second reading of the places, as a number of 64 bits. -/
theorem ran_round_iff (context : Context) (x : Decimal) (span : Span) {n : ℤ}
    (hn : places.toRat = n) :
    (Decimal.InRange n → Ran (evalRound context x places span)) ∧
      (¬ Decimal.InRange n →
        evalRound context x places span = .error (.argumentType .integer places span)) := by
  constructor
  · intro hrange
    rw [evalRound, Decimal.toInt64?_eq_some_iff.2 ⟨hn, hrange⟩]
    exact ran_ok _
  · intro hrange
    have hnone : places.toInt64? = none := by
      rw [Option.eq_none_iff_forall_ne_some]
      intro m hm
      obtain ⟨hm, hrange'⟩ := Decimal.toInt64?_eq_some_iff.1 hm
      have hmn : m = n := by exact_mod_cast hm.symm.trans hn
      exact hrange (hmn ▸ hrange')
    rw [evalRound, hnone]

theorem exists_toRat_of_fit (hparam : builtin.signature.param position = .integer)
    (h : ¬ builtin.Misfit position x) : ∃ n : ℤ, x.toRat = n := by
  by_contra hnone
  exact h ⟨hparam, not_exists.1 hnone⟩

/-- On values that the signature accepts a function refuses nothing but far places. -/
theorem apply_of_fit (context : Context) (span : Span)
    (hcount : builtin.signature.arity.accepts values.length = true)
    (h : ∀ i x, values[i]? = some x → ¬ builtin.Misfit i x) :
    ((¬ ∃ places, builtin.FarPlaces values places) → Ran (builtin.apply context values span)) ∧
      ∀ places, builtin.FarPlaces values places →
        builtin.apply context values span = .error (.argumentType .integer places span) := by
  by_cases hround : builtin = round
  · subst hround
    obtain ⟨x, places, rfl⟩ : ∃ x places, values = [x, places] :=
      List.length_eq_two.1 (beq_iff_eq.1 hcount)
    obtain ⟨n, hn⟩ := exists_toRat_of_fit rfl (h 1 places rfl)
    obtain ⟨hnear, hfar⟩ := ran_round_iff context x span hn
    constructor
    · intro hnone
      refine hnear (by_contra fun hrange => hnone ⟨places, rfl, rfl, n, hn, hrange⟩)
    · rintro _ ⟨-, hplaces, m, hm, hrange⟩
      obtain rfl := Option.some.inj hplaces
      have hmn : m = n := by exact_mod_cast hm.symm.trans hn
      exact hfar (hmn ▸ hrange)
  · refine ⟨fun _ => ?_, fun _ hfar => absurd hfar.1 hround⟩
    cases builtin with
    | round => exact absurd rfl hround
    | sum | max | min =>
      cases values with
      | nil => cases hcount
      | cons _ _ => exact ran_ok _
    | abs =>
      obtain ⟨x, rfl⟩ := List.length_eq_one_iff.1 (beq_iff_eq.1 hcount)
      exact ran_ok _
    | sqrt =>
      obtain ⟨x, rfl⟩ := List.length_eq_one_iff.1 (beq_iff_eq.1 hcount)
      exact ran_sqrt x span
    | ln =>
      obtain ⟨x, rfl⟩ := List.length_eq_one_iff.1 (beq_iff_eq.1 hcount)
      show Ran (evalLn context x span)
      rw [evalLn_eq]
      apply ran_series
    | log =>
      obtain ⟨x, rfl⟩ := List.length_eq_one_iff.1 (beq_iff_eq.1 hcount)
      show Ran (evalLog context x span)
      rw [evalLog_eq]
      apply ran_series
    | exp =>
      obtain ⟨x, rfl⟩ := List.length_eq_one_iff.1 (beq_iff_eq.1 hcount)
      show Ran (evalExp context x span)
      rw [evalExp_eq]
      apply ran_series
    | hex | oct =>
      obtain ⟨x, rfl⟩ := List.length_eq_one_iff.1 (beq_iff_eq.1 hcount)
      obtain ⟨n, hn⟩ := exists_toRat_of_fit rfl (h 0 x rfl)
      exact ran_radix _ _ hn _

/-! ## Calls -/

theorem call_of_misfit (hcount : builtin.signature.arity.accepts arguments.length = true)
    (hvalues : arguments.map Number.value = values.map some)
    (hnumber : arguments[i]? = some number) (hvalue : number.value = some x)
    (h : builtin.Misfit i x)
    (hfirst : ∀ j y, j < i → values[j]? = some y → ¬ builtin.Misfit j y) :
    builtin.call context arguments span =
      .error (.argumentType .integer x (number.span?.getD span)) := by
  have hcheck : builtin.checkArguments span 0 arguments =
      .error (.argumentType .integer x (number.span?.getD span)) := by
    apply checkArguments_of_misfit hvalues hnumber hvalue
    · rwa [Nat.zero_add]
    · intro j y hj hy
      rw [Nat.zero_add]
      exact hfirst j y hj hy
  rw [call_eq, hcount, hcheck]
  rfl

theorem call_of_fit (hcount : builtin.signature.arity.accepts arguments.length = true)
    (hvalues : arguments.map Number.value = values.map some)
    (h : ∀ i x, values[i]? = some x → ¬ builtin.Misfit i x) :
    builtin.call context arguments span = builtin.apply context values span := by
  have hcheck : builtin.checkArguments span 0 arguments = .ok values := by
    apply checkArguments_of_fit hvalues
    intro i x hx
    rw [Nat.zero_add]
    exact h i x hx
  rw [call_eq, hcount, hcheck]
  rfl

/-- Of several misfits one is the first, and it is reported. -/
theorem call_of_exists_misfit
    (hcount : builtin.signature.arity.accepts arguments.length = true)
    (hvalues : arguments.map Number.value = values.map some)
    (h : ∃ i x, values[i]? = some x ∧ builtin.Misfit i x) :
    ∃ x stop, builtin.call context arguments span = .error (.argumentType .integer x stop) := by
  classical
  obtain ⟨x, hx, hmisfit⟩ := Nat.find_spec h
  have hfirst : ∀ j y, j < Nat.find h → values[j]? = some y → ¬ builtin.Misfit j y :=
    fun j y hj hy hm => Nat.find_min h hj ⟨y, hy, hm⟩
  obtain ⟨number, hnumber, hvalue⟩ :
      ∃ number, arguments[Nat.find h]? = some number ∧ number.value = some x := by
    have hat : (arguments.map Number.value)[Nat.find h]? = some (some x) := by
      rw [hvalues, List.getElem?_map, hx]
      rfl
    rwa [List.getElem?_map, Option.map_eq_some_iff] at hat
  exact ⟨x, _, call_of_misfit hcount hvalues hnumber hvalue hmisfit hfirst⟩

/-- What becomes of a call with the right number of arguments. -/
theorem call_of_count (context : Context) (span : Span)
    (hcount : builtin.signature.arity.accepts arguments.length = true)
    (hvalues : arguments.map Number.value = values.map some) :
    ((∃ i x, values[i]? = some x ∧ builtin.Misfit i x) ∧
        ∃ x stop, builtin.call context arguments span = .error (.argumentType .integer x stop)) ∨
      ((∀ i x, values[i]? = some x → ¬ builtin.Misfit i x) ∧
        ((∃ places, builtin.FarPlaces values places ∧ builtin.call context arguments span =
            .error (.argumentType .integer places span)) ∨
          (¬ ∃ places, builtin.FarPlaces values places) ∧
            Ran (builtin.call context arguments span))) := by
  by_cases hmisfit : ∃ i x, values[i]? = some x ∧ builtin.Misfit i x
  · exact Or.inl ⟨hmisfit, call_of_exists_misfit hcount hvalues hmisfit⟩
  · right
    have hfit : ∀ i x, values[i]? = some x → ¬ builtin.Misfit i x :=
      fun i x hx h => hmisfit ⟨i, x, hx, h⟩
    have hlength : arguments.length = values.length := by
      simpa using congrArg List.length hvalues
    obtain ⟨hran, hfar⟩ := apply_of_fit context span (hlength ▸ hcount) hfit
    rw [call_of_fit hcount hvalues hfit]
    refine ⟨hfit, ?_⟩
    by_cases hplaces : ∃ places, builtin.FarPlaces values places
    · obtain ⟨places, hplaces⟩ := hplaces
      exact Or.inl ⟨places, hplaces, hfar places hplaces⟩
    · exact Or.inr ⟨hplaces, hran hplaces⟩

theorem FarPlaces.unique {places' : Decimal} (h : builtin.FarPlaces values places)
    (h' : builtin.FarPlaces values places') : places = places' :=
  Option.some.inj (h.2.1.symm.trans h'.2.1)

end Builtin

open Builtin

/-- The number of the arguments is refused just if the signature does not take it.  Their
type is refused just if an argument has a fraction where an integer is taken, which is
reported for the first one of them and where it stands, or if the places of a `round` are
an integer beyond 64 bits, which is reported at the call. -/
theorem argument_error_iff (builtin : Builtin) (context : Context) (arguments : List Number)
    (values : List Decimal) (span : Span)
    (hvalues : arguments.map Number.value = values.map some) :
    ((∃ of arity found stop, builtin.call context arguments span =
          .error (.argumentCount of arity found stop)) ↔
        ¬ builtin.signature.arity.accepts arguments.length = true) ∧
      ((∃ expected found stop, builtin.call context arguments span =
          .error (.argumentType expected found stop)) ↔
        builtin.signature.arity.accepts arguments.length = true ∧
          ((∃ i x, values[i]? = some x ∧ builtin.Misfit i x) ∨
            ∃ places, builtin.FarPlaces values places)) ∧
      (builtin.signature.arity.accepts arguments.length = true →
        (∀ i number x, arguments[i]? = some number → number.value = some x →
          builtin.Misfit i x → (∀ j y, j < i → values[j]? = some y → ¬ builtin.Misfit j y) →
          builtin.call context arguments span =
            .error (.argumentType .integer x (number.span?.getD span))) ∧
        ((∀ i x, values[i]? = some x → ¬ builtin.Misfit i x) →
          ∀ places, builtin.FarPlaces values places →
            builtin.call context arguments span =
              .error (.argumentType .integer places span))) := by
  by_cases hcount : builtin.signature.arity.accepts arguments.length = true
  · have hcases := call_of_count context span hcount hvalues
    refine ⟨?_, ?_, fun _ => ⟨?_, ?_⟩⟩
    · simp only [hcount, not_true_eq_false, iff_false]
      rintro ⟨of, arity, found, stop, hcall⟩
      rw [hcall] at hcases
      rcases hcases with ⟨-, x, stop, h⟩ | ⟨-, ⟨places, -, h⟩ | ⟨-, h⟩⟩
      · cases h
      · cases h
      · rcases h with ⟨outcome, h⟩ | ⟨cause, stop, h⟩ <;> cases h
    · simp only [hcount, true_and]
      rcases hcases with ⟨hmisfit, x, stop, h⟩ | ⟨hfit, ⟨places, hfar, h⟩ | ⟨hnear, h⟩⟩
      · exact ⟨fun _ => Or.inl hmisfit, fun _ => ⟨_, _, _, h⟩⟩
      · exact ⟨fun _ => Or.inr ⟨places, hfar⟩, fun _ => ⟨_, _, _, h⟩⟩
      · constructor
        · rintro ⟨expected, found, stop, hcall⟩
          rw [hcall] at h
          rcases h with ⟨outcome, h⟩ | ⟨cause, stop, h⟩ <;> cases h
        · rintro (⟨i, x, hx, hmisfit⟩ | hfar)
          · exact absurd hmisfit (hfit i x hx)
          · exact absurd hfar hnear
    · intro i number x hnumber hvalue h hfirst
      exact call_of_misfit hcount hvalues hnumber hvalue h hfirst
    · intro hfit places hfar
      rcases hcases with ⟨⟨i, x, hx, hmisfit⟩, -⟩ | ⟨-, ⟨places', hfar', h⟩ | ⟨hnear, -⟩⟩
      · exact absurd hmisfit (hfit i x hx)
      · rwa [hfar.unique hfar']
      · exact absurd ⟨places, hfar⟩ hnear
  · have hcall : builtin.call context arguments span =
        .error (countError builtin arguments.length (countSpan builtin arguments span)) := by
      rw [call_eq, if_pos (by simpa using hcount)]
    simp [hcall, hcount, countError]

/-- The fraction of the second argument of a `round` is refused. -/
theorem argument_error_iff_round_to_half :
    (∃ expected found stop, round.call {} [.ofDecimal ⟨15, 1⟩, .ofDecimal ⟨5, 1⟩] {} =
      .error (.argumentType expected found stop)) ∧
    round.call {} [.ofDecimal ⟨15, 1⟩, .ofDecimal ⟨5, 1⟩] {} =
      .error (.argumentType .integer ⟨5, 1⟩ {}) := by
  have hhalf : round.Misfit 1 ⟨5, 1⟩ := by
    refine ⟨rfl, fun n hn => ?_⟩
    exact absurd (Decimal.isIntegral_of_toRat hn) (by decide)
  obtain ⟨-, htype, hfirst⟩ := argument_error_iff round {}
    [.ofDecimal ⟨15, 1⟩, .ofDecimal ⟨5, 1⟩] [⟨15, 1⟩, ⟨5, 1⟩] {} rfl
  refine ⟨htype.2 ⟨rfl, Or.inl ⟨1, _, rfl, hhalf⟩⟩, ?_⟩
  refine (hfirst rfl).1 1 _ _ rfl rfl hhalf fun j y hj _ h => ?_
  obtain rfl : j = 0 := by omega
  cases h.1

/-- A `round` to 10 ^ 20 places is refused, although the number of places is an integer. -/
theorem far_places_of_round_refused : (∃ n : ℤ, (Decimal.mk 1 (-20)).toRat = n) ∧
    round.call {} [.ofDecimal ⟨15, 1⟩, .ofDecimal ⟨1, -20⟩] {} =
      .error (.argumentType .integer ⟨1, -20⟩ {}) := by
  refine ⟨⟨10 ^ 20, ?_⟩, by decide⟩
  norm_num [Decimal.toRat]

end DeskCalc
