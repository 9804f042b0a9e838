import DeskCalc.Grammar.Sentence
import DeskCalc.Proofs.Reading.Completeness

/-
Accepted sources are sentences.

What stood in the log before has no part in it: the readers do not see the log.
-/
namespace DeskCalc
namespace Grammar

theorem parse_of_none {source : Text} {log : Log} {words : List Word}
    (h : Reader.expression (.start source) = none) : (parse source log).1 ≠ .ok words := by
  obtain ⟨cursor, log', hrun⟩ := reads_expression.failed (State.at_start source log) h
  rw [parse, hrun]
  intro hok
  cases hok

/-- Behind the expression that the reader finds, only blanks may be left. -/
theorem parse_of_some {source : Text} {log : Log} {words found : List Word} {stop : Place}
    (h : Reader.expression (.start source) = some (found, stop)) :
    (parse source log).1 = .ok words ↔ spoken found = words ∧ stop.Blank := by
  obtain ⟨log', hrun, hat⟩ := reads_expression.matched (State.at_start source log) h
  have hwords : (spoken found).isEmpty = false :=
    List.isEmpty_eq_false_iff.2 (sound_expression h).ne_nil
  have hrest : (State.extend { source, log } found stop log').skipBlanks.rest = stop.skip.rest :=
    hat.skipBlanks.rest
  have hfound : (State.extend { source, log } found stop log').skipBlanks.words = found := rfl
  have hleft : stop.skip.rest.trimEnd.isEmpty = true ↔ stop.Blank := by
    rw [List.isEmpty_iff, Text.trimEnd_eq_nil_iff]
    exact Place.blank_skip_iff
  rw [parse, hrun]
  show (if !true || (spoken found).isEmpty then _ else if !_ then _ else _ : _ × Log).1 = _ ↔ _
  rw [hwords, hrest, ← hleft]
  cases stop.skip.rest.trimEnd.isEmpty
  · simp
  · simp [hfound, spoken]

/-- A source is accepted exactly if it is a sentence, whatever the log holds. -/
theorem parse_eq_ok_iff {source : Text} {log : Log} {words : List Word} :
    (parse source log).1 = .ok words ↔ Sentence source words := by
  match h : Reader.expression (.start source) with
  | none =>
    constructor
    · intro hok
      exact absurd hok (parse_of_none h)
    · rintro ⟨stop, hderives, hblank⟩
      obtain ⟨found, hread, -⟩ := complete_expression hderives hblank.ended
      rw [h] at hread
      cases hread
  | some (found, stop) =>
    rw [parse_of_some h]
    constructor
    · rintro ⟨rfl, hblank⟩
      exact ⟨stop, sound_expression h, hblank⟩
    · rintro ⟨stop', hderives, hblank⟩
      obtain ⟨found', hread, hspoken⟩ := complete_expression hderives hblank.ended
      obtain ⟨rfl, rfl⟩ := Prod.mk.inj (Option.some.inj (h.symm.trans hread))
      exact ⟨hspoken, hblank⟩

end Grammar

open Grammar

/-- The parser accepts the sentences of its grammar, and nothing else.  The words do not
depend on the log. -/
theorem parse_accepts_sentences (source : Text) (words : List Word) (log log' : Log) :
    ((parse source log).1 = .ok words ↔ Sentence source words) ∧
      ((parse source log).1 = .ok words ↔ (parse source log').1 = .ok words) :=
  ⟨parse_eq_ok_iff, parse_eq_ok_iff.trans parse_eq_ok_iff.symm⟩

end DeskCalc
