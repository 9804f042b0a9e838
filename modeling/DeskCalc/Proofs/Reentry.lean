import DeskCalc.Proofs.Calculation
import DeskCalc.Proofs.Decimal.Written
import DeskCalc.Proofs.Magnitude
import DeskCalc.Proofs.Reading.Literal

/-
What is printed can be typed back.

Every value in a calculation is in range, and one that an operation has made is short, so
what is shown in the end is in range again and has no negative scale.  Such a value is
printed as a literal that is read as this value, and a literal in range is its own result.
-/
namespace DeskCalc

open Context

/-! ## Values of trees -/

theorem Quantity.read_admitted {word : Word} {quantity : Quantity}
    (h : Quantity.read {} none word = .ok quantity) :
    Admits {} quantity.value.toRat ∧ Fits quantity.value := by
  obtain ⟨x, hx, rfl⟩ := map_eq_ok h
  split at hx
  · cases hx
  · exact Chain.literalValue_admitted hx

/-- What an operation has made is admitted and short. -/
theorem Outcome.settled_admitted {words : List Word} {outcome : Outcome} {quantity : Quantity}
    {effect : Effect} (h : outcome.settled {} words = .ok (quantity, effect)) :
    Admits {} quantity.value.toRat ∧ Short {} quantity.value := by
  rw [Outcome.settled] at h
  cases hsettle : Context.settle {} outcome.value with
  | none =>
    rw [hsettle] at h
    cases h
  | some settled =>
    rw [hsettle] at h
    obtain ⟨rfl, -⟩ := Prod.mk.inj (Except.ok.inj h)
    exact settled_of_settle (by decide) hsettle

/-- The value of a tree is admitted.  It is short unless the tree is a literal in
parentheses. -/
theorem Tree.eval_admitted {tree : Tree Word} {operands : Tree Quantity} {quantity : Quantity}
    {base : ℤ} (hread : tree.traverse (Quantity.read {} none) = .ok operands)
    (hvalue : operands.eval {} = .ok quantity) :
    Admits {} quantity.value.toRat ∧ Fits quantity.value ∧
      (operands.events {} base ≠ [] → Short {} quantity.value) := by
  have hmade : ∀ {words outcome effect}, Outcome.settled {} words outcome = .ok (quantity, effect) →
      Admits {} quantity.value.toRat ∧ Fits quantity.value ∧
        (operands.events {} base ≠ [] → Short {} quantity.value) := by
    intro words outcome effect h
    obtain ⟨hadmits, hshort⟩ := Outcome.settled_admitted h
    exact ⟨hadmits, fits_of_short hadmits hshort, fun _ => hshort⟩
  match tree with
  | .leaf word =>
    obtain ⟨operand, hoperand, h⟩ := bind_eq_ok hread
    obtain rfl := Except.ok.inj h
    obtain rfl := Except.ok.inj hvalue
    obtain ⟨hadmits, hfits⟩ := Quantity.read_admitted hoperand
    exact ⟨hadmits, hfits, fun hevents => absurd rfl hevents⟩
  | .binary op sign left right =>
    obtain ⟨_, -, h⟩ := bind_eq_ok hread
    obtain ⟨_, -, h⟩ := bind_eq_ok h
    obtain rfl := Except.ok.inj h
    obtain ⟨⟨_, effect⟩, hresult, rfl⟩ := map_eq_ok hvalue
    obtain ⟨x, y, -, -, hoperate⟩ := operated_eq_ok hresult
    obtain ⟨outcome, -, hsettled⟩ := bind_eq_ok hoperate
    exact hmade hsettled
  | .group opening inner closing =>
    obtain ⟨inner', hinner, h⟩ := bind_eq_ok hread
    obtain rfl := Except.ok.inj h
    obtain ⟨value, heval, rfl⟩ := map_eq_ok hvalue
    show Admits {} value.value.toRat ∧ Fits value.value ∧
      (inner'.events {} (base + OperatorKind.groupWeight) ≠ [] → Short {} value.value)
    exact Tree.eval_admitted hinner heval
  | .call builtin name opening arguments closing =>
    obtain ⟨_, -, h⟩ := bind_eq_ok hread
    obtain rfl := Except.ok.inj h
    obtain ⟨⟨_, effect⟩, hresult, rfl⟩ := map_eq_ok hvalue
    obtain ⟨spread, -, hinvoke⟩ := invoked_eq_ok hresult
    obtain ⟨outcome, -, hsettled⟩ := bind_eq_ok hinvoke
    exact hmade hsettled

/-- What a calculation shows. -/
theorem calculate_admitted {source : Text} {v : Decimal} (h : calculate source = .ok v) :
    Admits {} v.toRat ∧ WrittenOut v := by
  obtain ⟨tree, operands, quantity, inexact, hread, hvalue, hevents, rfl⟩ := calculate_eq_ok h
  obtain ⟨hadmits, hfits, hshort⟩ := Tree.eval_admitted hread hvalue
  exact finalize_admitted hadmits hfits fun hinexact => hshort (hevents hinexact)

/-! ## Typing it back -/

/-- What is printed is read as the same number. -/
theorem Decimal.literal_render {x : Decimal} (h : WrittenOut x) :
    Lexeme.DecimalLiteral x.render ∧
      ∃ y, Decimal.read? (Lexeme.normalDecimal x.render) = some y ∧ y.toRat = x.toRat := by
  by_cases hx : x.mantissa = 0
  · obtain ⟨hliteral, hread⟩ := read?_render_zero hx
    exact ⟨hliteral, zero, hread, by rw [toRat_zero, toRat_eq_zero.2 hx]⟩
  · obtain ⟨hlow, hhigh⟩ := h.resolve_left hx
    have hscale : saturate x.scale = x.scale := saturate_eq_self.2 ⟨by omega, hhigh⟩
    obtain ⟨hliteral, hread⟩ := read?_render hx hlow hscale
    exact ⟨hliteral, x, hread, rfl⟩

theorem calculate_render {x : Decimal} (hadmits : Admits {} x.toRat) (hout : WrittenOut x) :
    ∃ v, calculate x.render = .ok v ∧ v.toRat = x.toRat := by
  obtain ⟨hliteral, y, hread, hy⟩ := Decimal.literal_render hout
  obtain ⟨hconfine, hsnapped⟩ := Admits.kept (show Admits {} y.toRat from hy ▸ hadmits)
  refine ⟨finalize {} y false, calculate_literal hliteral.parse rfl ?_, ?_⟩
  · rw [Chain.literalValue]
    dsimp only
    rw [hread]
    dsimp only
    rw [hconfine]
    exact congrArg Except.ok hsnapped
  · rw [toRat_finalize_exact, hy]

/-- The printed text of every result is itself a source, and it comes to the same number. -/
theorem printed_result_reenters (source : Text) (v : Decimal) (h : calculate source = .ok v) :
    ∃ again, calculate (toString v).toList = .ok again ∧ again.same v = true ∧
      again.toRat = v.toRat := by
  obtain ⟨hadmits, hout⟩ := calculate_admitted h
  obtain ⟨again, hagain, hvalue⟩ := calculate_render hadmits hout
  have htext : (toString v).toList = v.render := String.toList_ofList
  rw [htext]
  exact ⟨again, hagain, Decimal.same_iff.2 hvalue, hvalue⟩

/-- The result of `0-1e-20` is printed with an exponent. -/
theorem printed_result_reenters_scientific :
    calculate "0-1e-20".toList = .ok ⟨-1, 20⟩ ∧
      toString (⟨-1, 20⟩ : Decimal) = "-1E-20" ∧
        ∃ again, calculate (toString (⟨-1, 20⟩ : Decimal)).toList = .ok again ∧
          again.same ⟨-1, 20⟩ = true ∧ again.toRat = (⟨-1, 20⟩ : Decimal).toRat := by
  have hresult : calculate "0-1e-20".toList = .ok ⟨-1, 20⟩ := by decide +kernel
  exact ⟨hresult, by decide +kernel, printed_result_reenters _ _ hresult⟩

end DeskCalc
