import DeskCalc.Proofs.Decimal.Finalized
import DeskCalc.Proofs.Magnitude.Values
import DeskCalc.Proofs.WellFormedness

/-
Every value in a calculation is in range.

A literal is checked when it is read, and a result when it is settled.  Nothing is checked
when a register is read, so what a register serves has to be in range by itself.
-/
namespace DeskCalc

open Context

/-- A scale that is read is one of 64 bits. -/
theorem Decimal.scale_le_of_read? {text : Text} {x : Decimal} (h : Decimal.read? text = some x) :
    x.scale ≤ maxScale := by
  have hchecked : ∀ {digits : Text} {scale : ℤ},
      (if saturate scale = scale then do
        let mantissa ← Text.integer? digits
        some ⟨mantissa, scale⟩
      else none) = some x → x.scale ≤ maxScale := by
    intro digits scale h
    split at h
    · next hscale =>
      obtain ⟨mantissa, -, h⟩ := Option.bind_eq_some_iff.1 h
      obtain rfl := Option.some.inj h
      exact (saturate_eq_self.1 hscale).2
    · cases h
  unfold read? at h
  dsimp only at h
  split at h
  · exact hchecked h
  · obtain ⟨exponent, -, h⟩ := Option.bind_eq_some_iff.1 h
    exact hchecked h

theorem Decimal.fits_of_read? {text : Text} {x : Decimal} (h : Decimal.read? text = some x) :
    Fits x :=
  Or.inr (scale_le_of_read? h)

/-- A literal is checked when it is read; it is kept as it was written, or replaced by zero. -/
theorem Chain.literalValue_eq_ok {context : Context} {word : Word} {x : Decimal}
    (h : Chain.literalValue context word = .ok x) :
    context.Admits x.toRat ∧ (Decimal.read? word.value = some x ∨ x = .zero) := by
  rw [literalValue] at h
  cases hread : Decimal.read? word.value with
  | none =>
    rw [hread] at h
    cases h
  | some literal =>
    rw [hread] at h
    dsimp only at h
    cases hconfine : confine literal with
    | none =>
      rw [hconfine] at h
      cases h
    | some value =>
      rw [hconfine] at h
      obtain rfl := Except.ok.inj h
      obtain ⟨hadmits, hkept | hzero⟩ := admits_of_confine context hconfine
      · exact ⟨hadmits, Or.inl (by rw [hkept])⟩
      · exact ⟨hadmits, Or.inr hzero⟩

theorem Chain.literalValue_admitted {context : Context} {word : Word} {x : Decimal}
    (h : Chain.literalValue context word = .ok x) : context.Admits x.toRat ∧ Fits x := by
  obtain ⟨hadmits, hread | rfl⟩ := literalValue_eq_ok h
  · exact ⟨hadmits, Decimal.fits_of_read? hread⟩
  · exact ⟨hadmits, Or.inl rfl⟩

/-- All values that are read from a register are in range, and none of them is one that is
replaced by zero. -/
structure Register.Serves (context : Context) (register : Register) : Prop where
  one : ∀ key number, register.read key = .ok number →
    number.Holds fun x => context.Admits x.toRat
  range : ∀ first last numbers, register.readRange first last = .ok numbers →
    ∀ number ∈ numbers, number.Holds fun x => context.Admits x.toRat

/-- A queue serves what it holds. -/
theorem Register.Queue.serves {context : Context} {queue : Register.Queue}
    (h : ∀ slot number, queue.get? slot = some number →
      number.Holds fun x => context.Admits x.toRat) : queue.reader.Serves context where
  one := by
    intro key number hread
    change queue.read key = .ok number at hread
    unfold read at hread
    dsimp only at hread
    generalize (if key = lastKey then queue.last else slot? key) = named at hread
    split at hread
    · next held hheld =>
      obtain rfl := Except.ok.inj hread
      obtain ⟨slot, -, hslot⟩ := Option.bind_eq_some_iff.1 hheld
      exact h slot held hslot
    · cases hread
  range := by
    intro first last numbers hread number hnumber
    change queue.readRange first last = .ok numbers at hread
    unfold readRange at hread
    split at hread
    · split at hread
      · cases hread
      · split at hread
        · cases hread
        · obtain rfl := Except.ok.inj hread
          obtain ⟨slot, -, hslot⟩ := List.mem_filterMap.1 hnumber
          exact h slot number hslot
    · cases hread

namespace Chain

variable {context : Context} {register : Option Register} {word : Word}

theorem requireRegister_eq_ok {found : Register} (h : requireRegister register word = .ok found) :
    register = some found := by
  cases register with
  | none => cases h
  | some _ => exact congrArg some (Except.ok.inj h)

theorem storedValue_eq_ok {number : Number} {x : Decimal}
    (h : storedValue word number = .ok x) : number.value = some x := by
  unfold storedValue at h
  split at h
  · next value hvalue => rw [hvalue, Except.ok.inj h]
  · cases h

theorem mem_mapM {α β ε : Type} {f : α → Except ε β} {inputs : List α} {outputs : List β}
    (h : inputs.mapM f = .ok outputs) {b : β} (hb : b ∈ outputs) : ∃ a ∈ inputs, f a = .ok b := by
  induction inputs generalizing outputs with
  | nil =>
    obtain rfl := Except.ok.inj h
    cases hb
  | cons input inputs ih =>
    rw [List.mapM_cons] at h
    obtain ⟨first, hfirst, h⟩ := bind_eq_ok h
    obtain ⟨rest, hrest, h⟩ := bind_eq_ok h
    obtain rfl := Except.ok.inj h
    rcases List.mem_cons.1 hb with rfl | hb
    · exact ⟨input, List.mem_cons_self, hfirst⟩
    · obtain ⟨a, ha, hfa⟩ := ih hrest hb
      exact ⟨a, List.mem_cons_of_mem _ ha, hfa⟩

/-- What a word is read as is in range. -/
theorem wordValues_admitted (hregister : ∀ found, register = some found → found.Serves context)
    {values : List Decimal} (h : wordValues context register word = .ok values) :
    ∀ x ∈ values, context.Admits x.toRat := by
  unfold wordValues at h
  split at h
  · obtain ⟨found, hfound, h⟩ := bind_eq_ok h
    have hserves := hregister found (requireRegister_eq_ok hfound)
    split at h
    · cases h
    · obtain ⟨numbers, hnumbers, h⟩ := bind_eq_ok h
      intro x hx
      obtain ⟨number, hnumber, hstored⟩ := mem_mapM h hx
      exact hserves.range _ _ _ (atWord_eq_ok hnumbers) number hnumber x
        (storedValue_eq_ok hstored)
  · have hvalue : (registerValue register word).map (fun x => [x]) = .ok values := h
    obtain ⟨x, hx, rfl⟩ := map_eq_ok hvalue
    obtain ⟨found, hfound, hx⟩ := bind_eq_ok hx
    obtain ⟨number, hnumber, hstored⟩ := bind_eq_ok hx
    have hserves := hregister found (requireRegister_eq_ok hfound)
    exact List.forall_mem_singleton.2
      (hserves.one _ number (atWord_eq_ok hnumber) x (storedValue_eq_ok hstored))
  · obtain ⟨x, hliteral, rfl⟩ := map_eq_ok h
    exact List.forall_mem_singleton.2 (literalValue_admitted hliteral).1

end Chain

/-- What is settled is in range, whatever the precision. -/
theorem Context.admits_settle {context : Context} {x y : Decimal} {lost : Bool}
    (h : context.settle x = some (y, lost)) : context.Admits y.toRat := by
  obtain ⟨value, hconfine, hvalue⟩ := Option.map_eq_some_iff.1 h
  obtain ⟨rfl, -⟩ := Prod.mk.inj hvalue
  exact (admits_of_confine context hconfine).1

/-- In every state of a chain each operand is a placeholder, or it holds zero or a number
from 10^-10000 up to, not including, 10^10001 in magnitude, and one above 10^-29 if tiny
results become zero. -/
theorem magnitude_bound (words : List Word) (context : Context) (register : Option Register)
    (hregister : ∀ found, register = some found → found.Serves context) (chain after : Chain)
    (hchain : Chain.ofWords words register context = .ok chain)
    (hafter : Chain.Leads context chain after) :
    ∀ number ∈ after.operands, number.value = none ∨ ∃ x, number.value = some x ∧
      (x.toRat = 0 ∨ (10 : ℚ) ^ (-10000 : ℤ) ≤ |x.toRat| ∧ |x.toRat| < 10 ^ (10001 : ℤ) ∧
        (context.snap = true → (10 : ℚ) ^ (-29 : ℤ) < |x.toRat|)) := by
  have hbuilt : chain.toRow.Holds fun x => context.Admits x.toRat :=
    Chain.holds_ofWords (fun _ _ _ hvalues => Chain.wordValues_admitted hregister hvalues) hchain
  have hholds := hafter.holds (fun _ _ _ => Context.admits_settle) hbuilt
  intro number hnumber
  cases hvalue : number.value with
  | none => exact Or.inl rfl
  | some x =>
    have hadmits := hholds number hnumber x hvalue
    rw [← toRat_epsilon]
    exact Or.inr ⟨x, rfl, hadmits⟩

/-- The words of `@a*9e5000`. -/
def scaledWords : List Word :=
  [⟨"@a".toList, "@a".toList, .register, 0⟩, .plain ['*'] .operator 2,
    .plain "9e5000".toList .number 3]

/-- A queue that holds 10^5000. -/
def scaledQueue : Register.Queue := (Register.Queue.empty.write (.ofDecimal ⟨1, -5000⟩)).1

/-- The product has the greatest leading exponent that is in range. -/
theorem magnitude_bound_product :
    scaledQueue.reader.Serves {} ∧ ∃ chain after,
      Chain.ofWords scaledWords (some scaledQueue.reader) {} = .ok chain ∧
        Chain.Leads {} chain after ∧ after.operands.map Number.value = [some ⟨9, -10000⟩] ∧
        ∀ number ∈ after.operands, number.value = none ∨ ∃ x, number.value = some x ∧
          (x.toRat = 0 ∨ (10 : ℚ) ^ (-10000 : ℤ) ≤ |x.toRat| ∧ |x.toRat| < 10 ^ (10001 : ℤ) ∧
            (Context.snap {} = true → (10 : ℚ) ^ (-29 : ℤ) < |x.toRat|)) := by
  have hserves : scaledQueue.reader.Serves {} := by
    refine Register.Queue.serves fun slot number hheld x hx => ?_
    rw [scaledQueue, Register.Queue.get?_write] at hheld
    split at hheld
    · obtain rfl := Option.some.inj hheld
      obtain rfl := Option.some.inj hx
      exact admits_of_leadingExponent (by decide) (by decide) (by decide) {}
    · have hempty : ∀ slot, Register.Queue.empty.get? slot = none := by decide
      rw [hempty slot] at hheld
      cases hheld
  have hchain : Chain.ofWords scaledWords (some scaledQueue.reader) {} = .ok
      { first := ⟨some ⟨1, -5000⟩, [⟨"@a".toList, "@a".toList, .register, 0⟩], none⟩
        links := [⟨⟨.arithmetic .mul, 20, [.plain ['*'] .operator 2]⟩,
          ⟨some ⟨9, -5000⟩, [.plain "9e5000".toList .number 3], none⟩⟩] } := by
    decide +kernel
  have hstep : Chain.step {}
      { first := ⟨some ⟨1, -5000⟩, [⟨"@a".toList, "@a".toList, .register, 0⟩], none⟩
        links := [⟨⟨.arithmetic .mul, 20, [.plain ['*'] .operator 2]⟩,
          ⟨some ⟨9, -5000⟩, [.plain "9e5000".toList .number 3], none⟩⟩] } =
      .reduced { first := ⟨some ⟨9, -10000⟩, scaledWords, none⟩, links := [] } := by
    decide +kernel
  have hleads : Chain.Leads {} _ _ := Relation.ReflTransGen.single hstep
  refine ⟨hserves, _, _, hchain, hleads, rfl, ?_⟩
  exact magnitude_bound scaledWords {} (some scaledQueue.reader)
    (fun found hfound => Option.some.inj hfound ▸ hserves) _ _ hchain hleads

end DeskCalc
