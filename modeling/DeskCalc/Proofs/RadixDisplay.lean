import DeskCalc.Proofs.Decimal.Whole
import DeskCalc.Proofs.Magnitude
import DeskCalc.Proofs.RadixRoundTrip

/-
What the display of a result denotes.

Only `hex` and `oct` give a display, and it denotes the integer they are called with.  The
value beside it is settled as any other, so a longer integer than the working precision is
shown with all its digits while its value is rounded.  Parentheses pass both on together.
-/
namespace DeskCalc

/-! ## Outcomes without a display -/

/-- A result comes without a display. -/
def Undisplayed (result : Except EvalError Outcome) : Prop :=
  ∀ outcome, result = .ok outcome → outcome.display = none

theorem undisplayed_ok {outcome : Outcome} (h : outcome.display = none) :
    Undisplayed (.ok outcome) := by
  intro other hother
  rwa [← Except.ok.inj hother]

theorem undisplayed_error (error : EvalError) : Undisplayed (.error error) := nofun

namespace Arithmetic

variable {context : Context} {x y : Decimal} {span : Span}

theorem undisplayed_divide : Undisplayed (divide x y span) := by
  rw [divide_eq]
  split
  · exact undisplayed_error _
  · exact undisplayed_ok rfl

theorem undisplayed_integerPower (n : ℤ) : Undisplayed (integerPower context x n span) := by
  rw [integerPower_eq]
  split
  · exact undisplayed_error _
  · dsimp only
    split
    · split
      · exact undisplayed_ok rfl
      · split
        · exact undisplayed_error _
        · intro outcome houtcome
          obtain ⟨reciprocal, -, h⟩ := bind_eq_ok houtcome
          rw [← Except.ok.inj h]
          rfl
    · exact undisplayed_ok rfl

theorem undisplayed_fractionalPower : Undisplayed (fractionalPower context x y span) := by
  rw [fractionalPower_eq]
  split
  · exact undisplayed_error _
  · split
    · split
      · exact undisplayed_ok rfl
      · exact undisplayed_error _
    · split
      · exact undisplayed_error _
      · split <;> exact undisplayed_ok rfl

theorem undisplayed_eval (op : Arithmetic) : Undisplayed (op.eval context x y span) := by
  cases op with
  | add | sub | mul => exact undisplayed_ok rfl
  | div => exact undisplayed_divide
  | pow =>
    show Undisplayed (power context x y span)
    rw [power_eq]
    split
    · split
      · exact undisplayed_integerPower _
      · exact undisplayed_fractionalPower
    · exact undisplayed_fractionalPower

end Arithmetic

namespace Builtin

variable {builtin : Builtin} {context : Context} {x : Decimal} {span : Span} {outcome : Outcome}
  {text : Text}

theorem undisplayed_series {defined exact : Bool} {value : Option Decimal} :
    Undisplayed (evalSeries builtin x defined exact value span) := by
  unfold evalSeries
  split
  · exact undisplayed_error _
  · split
    · exact undisplayed_error _
    · exact undisplayed_ok rfl

theorem undisplayed_sqrt : Undisplayed (evalSqrt x span) := by
  rw [evalSqrt_eq]
  split
  · exact undisplayed_error _
  · dsimp only
    split <;> exact undisplayed_ok rfl

theorem undisplayed_ln : Undisplayed (evalLn context x span) :=
  evalLn_eq context x span ▸ undisplayed_series

theorem undisplayed_log : Undisplayed (evalLog context x span) :=
  evalLog_eq context x span ▸ undisplayed_series

theorem undisplayed_exp : Undisplayed (evalExp context x span) :=
  evalExp_eq context x span ▸ undisplayed_series

theorem radix_display (base : Base)
    (h : evalRadix base.radix ['0', base.mark] x span = .ok outcome)
    (hdisplay : outcome.display = some text) :
    ∃ n : ℤ, text = base.text n ∧ outcome.value.toRat = n := by
  cases hx : x.toInt? with
  | none =>
    rw [evalRadix, hx] at h
    cases h
  | some n =>
    have hn := Decimal.toInt?_eq_some_iff.1 hx
    rw [Base.evalRadix_eq base hn] at h
    obtain rfl := Except.ok.inj h
    exact ⟨n, (Option.some.inj hdisplay).symm, hn⟩

theorem undisplayed_extreme {args : List Decimal} {best : Decimal → Decimal → Decimal} :
    Undisplayed (match args with
      | [] => .error (countError builtin 0 span)
      | x :: rest => .ok (.exact (rest.foldl best x))) := by
  cases args with
  | nil => exact undisplayed_error _
  | cons x rest => exact undisplayed_ok rfl

/-- A display shows the integer that a function of a base is called with. -/
theorem apply_display {args : List Decimal} (h : builtin.apply context args span = .ok outcome)
    (hdisplay : outcome.display = some text) :
    ∃ (base : Base) (n : ℤ), text = base.text n ∧ outcome.value.toRat = n := by
  have hshown : ¬ Undisplayed (builtin.apply context args span) := fun hnone => by
    rw [hnone outcome h] at hdisplay
    cases hdisplay
  rw [apply_eq] at h hshown
  split at h
  · refine absurd ?_ hshown
    dsimp only
    unfold evalSum
    split
    · exact undisplayed_error _
    · exact undisplayed_ok rfl
  · exact absurd undisplayed_extreme hshown
  · exact absurd undisplayed_extreme hshown
  · exact absurd (undisplayed_ok rfl) hshown
  · exact absurd undisplayed_sqrt hshown
  · exact absurd undisplayed_ln hshown
  · exact absurd undisplayed_log hshown
  · exact absurd undisplayed_exp hshown
  · refine absurd ?_ hshown
    dsimp only
    unfold evalRound
    split
    · exact undisplayed_error _
    · exact undisplayed_ok rfl
  · exact ⟨.hex, radix_display .hex h hdisplay⟩
  · exact ⟨.octal, radix_display .octal h hdisplay⟩
  · cases h

theorem call_display {arguments : List Number}
    (h : builtin.call context arguments span = .ok outcome)
    (hdisplay : outcome.display = some text) :
    ∃ (base : Base) (n : ℤ), text = base.text n ∧ outcome.value.toRat = n := by
  rw [call_eq] at h
  split at h
  · cases h
  · obtain ⟨values, -, h⟩ := bind_eq_ok h
    exact apply_display h hdisplay

end Builtin

/-! ## Displays in a chain -/

/-- A display denotes an integer, and the value beside it is that integer, settled. -/
def Number.Denoted (context : Context) (number : Number) : Prop :=
  ∀ text, number.display = some text → ∃ (n : ℤ) (x : Decimal), Base.integer? text = some n ∧
    number.value = some x ∧ x.toRat = context.rounding.toDigits context.precision n ∧
    context.Admits x.toRat

namespace Chain

variable {context : Context}

theorem denoted_of_display_none {number : Number} (h : number.display = none) :
    number.Denoted context := by
  intro text htext
  rw [h] at htext
  cases htext

theorem keeps_denoted (hprecision : 1 ≤ context.precision) :
    Keeps context (Number.Denoted context) where
  placeholder := denoted_of_display_none rfl
  reworded := fun _ h => h
  called := by
    intro builtin arguments span outcome words inexact mark number hcall hsettle text htext
    obtain ⟨y, lost, hsettled, rfl⟩ := settle_eq_ok hsettle
    obtain ⟨base, n, rfl, hn⟩ := Builtin.call_display hcall htext
    exact ⟨n, y, base.integer?_text n, rfl, Context.toRat_settle_of_int hprecision hn hsettled,
      Context.admits_settle hsettled⟩
  computed := by
    intro op x y span outcome words inexact mark number heval hsettle
    obtain ⟨_, _, -, rfl⟩ := settle_eq_ok hsettle
    exact denoted_of_display_none (Arithmetic.undisplayed_eval op outcome heval)

end Chain

/-- The display of a result denotes an integer, and the value of the result is that integer
rounded to the working precision.  So the display denotes the value just if the integer has
no more significant digits than that. -/
theorem display_denotes_rounded_value (calculator : Calculator) (source : Text)
    (register : Option Register) (number : Number) (text : Text)
    (hprecision : 1 ≤ calculator.context.precision) (hplaces : 0 ≤ calculator.context.places)
    (hresult : (calculator.evaluate source register).1 = .ok number)
    (hdisplay : number.display = some text) :
    ∃ (n : ℤ) (x : Decimal), Base.integer? text = some n ∧ number.value = some x ∧
      x.toRat = calculator.context.rounding.toDigits calculator.context.precision n ∧
      (x.toRat = n ↔ InDigits calculator.context.precision n) := by
  obtain ⟨words, chain, final, computed, -, hchain, hleads, hvalue, rfl⟩ :=
    Calculator.evaluate_eq_ok hresult
  have hkeeps := Chain.keeps_denoted hprecision
  have hbuilt : chain.toRow.All (Number.Denoted calculator.context) :=
    Chain.all_ofWords hkeeps.placeholder
      (fun _ _ _ _ _ _ => Chain.denoted_of_display_none rfl) hchain
  obtain ⟨n, y, htext, hy, hrounded, hadmits⟩ :=
    hkeeps.leads hbuilt hleads final.first List.mem_cons_self text hdisplay
  obtain rfl := Option.some.inj (hvalue.symm.trans hy)
  obtain ⟨m, hm⟩ := RoundingMode.exists_int_toDigits calculator.context.rounding
    calculator.context.precision n
  have hshown : (calculator.context.finalize computed final.inexact).toRat =
      calculator.context.rounding.toDigits calculator.context.precision n := by
    rw [hm] at hrounded ⊢
    exact Context.toRat_finalize_of_int hplaces hadmits hrounded final.inexact
  refine ⟨n, _, htext, rfl, hshown, ?_⟩
  rw [hshown]
  exact RoundingMode.toDigits_eq_iff _ hprecision

/-- The result of `(hex(255))`. -/
def hexadecimal : Number where
  value := some ⟨255, 0⟩
  words := [.plain ['('] .leftParen 0, .plain "hex".toList .functionName 1,
    .plain ['('] .leftParen 4, .plain "255".toList .number 5, .plain [')'] .rightParen 8,
    .plain [')'] .rightParen 9]
  display := some "0xff".toList

theorem display_denotes_rounded_value_hexadecimal :
    (Calculator.evaluate {} "(hex(255))".toList none).1 = .ok hexadecimal ∧
      ∃ (n : ℤ) (x : Decimal), Base.integer? "0xff".toList = some n ∧
        hexadecimal.value = some x ∧ x.toRat = RoundingMode.halfUp.toDigits 30 n ∧
        (x.toRat = n ↔ InDigits 30 n) := by
  have hresult : (Calculator.evaluate {} "(hex(255))".toList none).1 = .ok hexadecimal := by
    decide +kernel
  exact ⟨hresult, display_denotes_rounded_value {} "(hex(255))".toList none hexadecimal
    "0xff".toList (by decide) (by decide) hresult rfl⟩

/-- An integer of 31 digits is shown in full, and its value is another. -/
theorem display_of_long_integer :
    ∃ number text x, (Calculator.evaluate {} "hex(1000000000000000000000000000001)".toList none).1 =
        .ok number ∧ number.display = some text ∧ number.value = some x ∧
      Base.integer? text = some (10 ^ 30 + 1) ∧ x.toRat ≠ (10 ^ 30 + 1 : ℤ) := by
  refine ⟨⟨some ⟨10 ^ 40, 10⟩, [.plain "hex".toList .functionName 0, .plain ['('] .leftParen 3,
      .plain "1000000000000000000000000000001".toList .number 4, .plain [')'] .rightParen 35],
    some "0xc9f2c9cd04674edea40000001".toList⟩, "0xc9f2c9cd04674edea40000001".toList,
    ⟨10 ^ 40, 10⟩, ?_, rfl, rfl, ?_, ?_⟩
  · decide +kernel
  · decide +kernel
  · norm_num [Decimal.toRat]

end DeskCalc
