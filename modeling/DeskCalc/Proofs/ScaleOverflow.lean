import DeskCalc.Proofs.Magnitude
import DeskCalc.Proofs.Scale.Literal
import DeskCalc.Proofs.Scale.Run

/-
Scales that are added up.

A product adds the scales of its factors in 64 bits.  The place of the leading digit is
checked for each literal and each result, and it keeps the scales of numbers small, so the
sum is in range.  Zero has no leading digit: a literal of it keeps any scale, and the program can
stop at a product with it.
-/
namespace DeskCalc

open Decimal Checked Demand

/-- Without a register, each word is read as a number in range, with no more digits than the
word has characters. -/
theorem Chain.sized_wordValues {word : Word} {values : List Decimal} {d : ℕ}
    (hword : word.value.length ≤ d) (h : wordValues {} none word = .ok values) :
    ∀ x ∈ values, Sized d (-10000) 10000 x := by
  unfold wordValues at h
  split at h
  · cases h
  · cases h
  · obtain ⟨x, hliteral, rfl⟩ := map_eq_ok h
    refine List.forall_mem_singleton.2 ?_
    obtain ⟨hadmits, hread | rfl⟩ := literalValue_eq_ok hliteral
    · exact sized_of_admits hadmits fun _ => (digits_read? hread).trans hword
    · exact sized_of_zero rfl

/-- The scales add up in all products of an accepted source. -/
theorem Calculator.keeps_evaluateWordsM {source : Text} {log : Log} {words : List Word}
    (hlength : source.length ≤ 2 ^ 49) (hparse : (parse source log).1 = .ok words) :
    (evaluateWordsM {} words none).Keeps Adds fun _ => True := by
  unfold evaluateWordsM
  split
  · exact keeps_pure trivial
  · next chain hchain =>
    have hbuilt : chain.toRow.Holds (Sized (max 10001 (2 * source.length)) (-10000) 10000) := by
      refine Chain.holds_ofWords (fun word hword values hvalues => ?_) hchain
      have hvalue := Grammar.length_value_of_parse hparse word hword
      exact Chain.sized_wordValues (by omega) hvalues
    have hrun := Chain.keeps_runM (le_max_left _ _) (by omega) chain.links.length hbuilt
    exact (hrun.bind fun _ _ => keeps_pure trivial).bind fun _ (_ : True) => keeps_pure trivial

/-- Wherever two numbers other than zero are multiplied, by an operator, in a power or in a call,
the sum of their scales is one of 64 bits, and the program does not stop there. -/
theorem product_scales_in_range (source : Text) (log : Log) (words : List Word)
    (hlength : source.length ≤ 2 ^ 49) (hparse : (parse source log).1 = .ok words) :
    ∀ x y, .product x y ∈ (Calculator.evaluateWordsM {} words none).demands →
      x.mantissa ≠ 0 → y.mantissa ≠ 0 →
        InRange (x.scale + y.scale) ∧ (Demand.product x y).Fits :=
  fun _ _ => (Calculator.keeps_evaluateWordsM hlength hparse).demands _

/-- The words of `1.5*2^3`. -/
def powerWords : List Word :=
  [.plain "1.5".toList .number 0, .plain ['*'] .operator 3, .plain ['2'] .number 4,
    .plain ['^'] .operator 5, .plain ['3'] .number 6]

/-- The power multiplies three times before the product does. -/
theorem product_scales_in_range_power :
    "1.5*2^3".toList.length ≤ 2 ^ 49 ∧ (parse "1.5*2^3".toList {}).1 = .ok powerWords ∧
      (Calculator.evaluateWordsM {} powerWords none).demands =
        [.product ⟨1, 0⟩ ⟨2, 0⟩, .product ⟨2, 0⟩ ⟨2, 0⟩, .product ⟨2, 0⟩ ⟨4, 0⟩,
          .product ⟨15, 1⟩ ⟨8, 0⟩] ∧
      ∀ x y, .product x y ∈ (Calculator.evaluateWordsM {} powerWords none).demands →
        x.mantissa ≠ 0 → y.mantissa ≠ 0 →
          InRange (x.scale + y.scale) ∧ (Demand.product x y).Fits := by
  have hlength : "1.5*2^3".toList.length ≤ 2 ^ 49 := by decide
  have hparse : (parse "1.5*2^3".toList {}).1 = .ok powerWords := by decide +kernel
  exact ⟨hlength, hparse, by decide +kernel, product_scales_in_range _ {} _ hlength hparse⟩

/-- A square root with a product of two zeros in its exponent. -/
def zeroProductSource : Text := "25^(0.5000+0e9223372036854775808*0e1)".toList

def zeroProductWords : List Word :=
  [.plain "25".toList .number 0, .plain ['^'] .operator 2, .plain ['('] .leftParen 3,
    .plain "0.5000".toList .number 4, .plain ['+'] .operator 10,
    .plain "0e9223372036854775808".toList .number 11, .plain ['*'] .operator 32,
    .plain "0e1".toList .number 33, .plain [')'] .rightParen 36]

/-- The scales of two zeros add up to less than 64 bits hold, and the program stops. -/
theorem zero_scales_out_of_range :
    (parse zeroProductSource {}).1 = .ok zeroProductWords ∧
      (∃ x y, .product x y ∈ (Calculator.evaluateWordsM {} zeroProductWords none).demands ∧
        ¬ InRange (x.scale + y.scale)) ∧
      (Calculator.evaluateM {} zeroProductSource none).run? = none := by
  have hfirst : (Calculator.evaluateWordsM {} zeroProductWords none).demands.head? =
      some (.product ⟨0, -9223372036854775808⟩ ⟨0, -1⟩) := by
    decide +kernel
  refine ⟨by decide +kernel, ⟨_, _, List.mem_of_head? hfirst, by decide⟩, ?_⟩
  exact Option.isNone_iff_eq_none.1 (by decide +kernel)

end DeskCalc
