import DeskCalc.Calculator
import DeskCalc.Proofs.Location.Build
import DeskCalc.Proofs.Location.Reading

/-
Where errors point.

The words of an accepted source lie in it, one behind the other, and the chain keeps their
order.  So an error of its evaluation reaches from one of them to the same or a later one,
or stands at the end of one; an error of reading points where diagnostics do.
-/
namespace DeskCalc

open Grammar

variable {source : Text} {log : Log} {words : List Word} {span : Span}

/-- What points at words of an accepted source, in whatever number each of them is there,
points at a part of the source that is not behind its words. -/
theorem Word.Marked.covers (hparse : (parse source log).1 = .ok words) {more : List Word}
    (h : Word.Marked more span) (hordered : Word.InOrder more)
    (hmore : ∀ word ∈ more, word ∈ words) :
    (∃ part, span.Covers source part) ∧
      ∃ first ∈ words, ∃ last ∈ words, first.offset ≤ last.offset ∧ 0 < span.stop ∧
        (span = ⟨first.offset, last.stop⟩ ∨ span = .point last.stop) := by
  obtain ⟨htiles, hspoken⟩ := tiles_of_parse hparse
  obtain ⟨first, hfirst, last, hlast, hle, hspan⟩ := h.between hordered
  have hfirst' := htiles.covers_start first (hmore first hfirst)
  have hlast' := htiles.covers_start last (hmore last hlast)
  have hlong : last.offset ≤ last.stop := Nat.le_add_right _ _
  have hstop : 0 < last.stop := by
    have hpos := Text.byteSize_pos (hspoken last (hmore last hlast)).2
    rw [Word.stop]
    omega
  refine ⟨?_, first, hmore first hfirst, last, hmore last hlast, hle, ?_, hspan⟩
  · rcases hspan with rfl | rfl
    · exact hfirst'.hull hlast' (Nat.le_trans hle hlong)
    · exact ⟨[], hlast'.stop⟩
  · rcases hspan with rfl | rfl <;> exact hstop

/-- Every error points at a part of the source: its ends are boundaries of characters, the
second one not before the first, and not behind the end.  If the source was accepted, the
error reaches from one of its words to the same or a later one, or stands at the end of a
word, whatever the register holds. -/
theorem error_span_in_source {calculator : Calculator} {register : Option Register}
    {error : CalcError} (h : (calculator.evaluate source register).1 = .error error) :
    (∃ part, error.span.Covers source part) ∧
      ((∃ cause, error = .parsing cause ∧ (parse source {}).1 = .error cause) ∨
        ∃ words, (parse source {}).1 = .ok words ∧
          ∃ first ∈ words, ∃ last ∈ words, first.offset ≤ last.offset ∧ 0 < error.span.stop ∧
            (error.span = ⟨first.offset, last.stop⟩ ∨ error.span = .point last.stop)) := by
  have hrun : (calculator.run source register).1 = .error error := by
    rw [Calculator.evaluate_eq] at h
    generalize calculator.run source register = outcome at h ⊢
    obtain ⟨result, log⟩ := outcome
    cases result <;> exact h
  have hparse : (parse source .empty).1 = (parse source {}).1 := rfl
  rw [← hparse]
  rw [Calculator.run_eq] at hrun
  generalize hread : parse source .empty = outcome at hrun
  obtain ⟨result, log⟩ := outcome
  cases result with
  | error cause =>
    obtain rfl := Except.error.inj hrun
    exact ⟨covers_of_rejected (congrArg Prod.fst hread), Or.inl ⟨cause, rfl, rfl⟩⟩
  | ok words =>
    have hwords : (parse source .empty).1 = .ok words := congrArg Prod.fst hread
    obtain ⟨htiles, -⟩ := tiles_of_parse hwords
    have hordered : Word.InOrder words :=
      htiles.ordered.imp fun {a b} hstop => Nat.le_trans (Nat.le_add_right _ _) hstop
    suffices hmarked : ∃ more, Word.Marked more error.span ∧ Word.InOrder more ∧
        ∀ word ∈ more, word ∈ words by
      obtain ⟨more, hmarked, hmore, hmem⟩ := hmarked
      obtain ⟨hcovers, hends⟩ := hmarked.covers hwords hmore hmem
      exact ⟨hcovers, Or.inr ⟨words, rfl, hends⟩⟩
    dsimp only at hrun
    rw [Calculator.evaluateWords_eq] at hrun
    rcases bind_eq_error hrun with hbuild | ⟨chain, hchain, hevaluate⟩
    · have hne : words ≠ [] := by
        obtain ⟨stop, hderives, -⟩ := parse_eq_ok_iff.1 hwords
        exact hderives.ne_nil
      exact ⟨words, Chain.marked_ofWords hne hbuild, hordered, fun _ hword => hword⟩
    · obtain ⟨hworded, hmem, hkept⟩ := Chain.worded_ofWords hchain
      cases hresult : chain.evaluate calculator.context with
      | ok number =>
        rw [hresult] at hevaluate
        cases hevaluate
      | error cause =>
        rw [hresult] at hevaluate
        obtain rfl := Except.error.inj hevaluate
        exact ⟨chain.words, Chain.marked_evaluate hworded (Chain.aligned_ofWords hchain) hresult,
          hkept hordered, hmem⟩

/-- The surplus arguments of `abs(1,2+3)` are reported together. -/
theorem error_span_of_surplus :
    (Calculator.evaluate {} "abs(1,2+3)".toList none).1 =
        .error (.evaluation (.argumentCount .abs (.exactly 1) 2 ⟨6, 9⟩)) ∧
      ∃ part, (⟨6, 9⟩ : Span).Covers "abs(1,2+3)".toList part := by
  have h : (Calculator.evaluate {} "abs(1,2+3)".toList none).1 =
      .error (.evaluation (.argumentCount .abs (.exactly 1) 2 ⟨6, 9⟩)) := by decide +kernel
  exact ⟨h, (error_span_in_source h).1⟩

end DeskCalc
