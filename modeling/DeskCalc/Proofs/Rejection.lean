import DeskCalc.Proofs.Diagnosis.Viable

/-
Where a rejected source is reported.

Reading notes nothing behind a place that tokens do not lead to, and something at or
behind every place that they do.  So the latest diagnostic stands at the first token that
cannot go on: the tokens before it open an accepted source, and with it they open none.
-/
namespace DeskCalc
namespace Grammar

variable {source : Text} {c : Stance} {q : Place} {words : List Word}

theorem Longest.path (h : Longest source words q) :
    ∃ c, Path .initial (.start source) words c q :=
  (viable_iff_path h.scans).1 h.viable

/-- Tokens behind which there is no other one are as many as can be. -/
theorem Path.longest (h : Path .initial (.start source) words c q)
    (hnone : ∀ word r, ¬ Token Recognized q word r) : Longest source words q where
  scans := h.scans
  viable := (viable_iff_path h.scans).2 ⟨c, h⟩
  longest := by
    intro more r hscans hviable
    obtain ⟨d, hmore⟩ := (viable_iff_path hscans).1 hviable
    rcases Nat.le_total more.length words.length with hle | hle
    · exact hle
    obtain ⟨same, rest, m, rfl, hlength, -, hrest, -⟩ := h.compare hmore hle
    cases hrest with
    | nil => simp [hlength]
    | cons hmove _ => exact absurd hmove.token (hnone _ _)

/-- Every path ends on the way of a longest one. -/
theorem Longest.compare (h : Longest source words q) (hpath : Path .initial (.start source) words c q)
    {d : Stance} {r : Place} {more : List Word} (hmore : Path .initial (.start source) more d r) :
    ∃ same rest m, words = same ++ rest ∧ Path m r rest c q ∧
      ((same = more ∧ m = d) ∨ (EndsInComma same ∧ EndsInComma more)) := by
  have hle := h.longest more r hmore.scans ((viable_iff_path hmore.scans).2 ⟨d, hmore⟩)
  obtain ⟨same, rest, m, hsplit, -, -, hrest, hend⟩ := hmore.compare hpath hle
  exact ⟨same, rest, m, hsplit, hrest, hend⟩

/-- Nothing is noted behind the longest viable tokens. -/
theorem Longest.start_le (h : Longest source words q) {entry : Diagnostic}
    (hentry : entry ∈ missesOf source) : entry.span.start ≤ q.skip.offset := by
  obtain ⟨c, hpath⟩ := h.path
  obtain ⟨more, d, r, hmore, hnoted⟩ := mem_missesOf hentry
  obtain ⟨_, _, _, -, hrest, -⟩ := h.compare hpath hmore
  rw [hnoted.start]
  exact hrest.skip_le

/-- The latest diagnostic stands behind the longest viable tokens. -/
theorem Longest.latest (h : Longest source words q) :
    ∃ entry, (expression { source }).2.log.latest? = some entry ∧ entry ∈ missesOf source ∧
      entry.span.start = q.skip.offset ∧
      (expression { source }).2.log.get? q.skip.offset = some entry := by
  obtain ⟨c, hpath⟩ := h.path
  obtain ⟨noted, hnoted, hge⟩ := exists_mem_missesOf hpath
  have hstart : noted.span.start = q.skip.offset := Nat.le_antisymm (h.start_le hnoted) hge
  rw [← hstart]
  exact (notes_expression source {}).latest hnoted fun d hd => hstart ▸ h.start_le hd

/-- A rejected source is explained by the latest diagnostic. -/
theorem parse_error_of_latest? {log : Log} {error : ParseError} {entry : Diagnostic}
    (h : (parse source log).1 = .error error)
    (hlatest : (expression { source, log }).2.log.latest? = some entry) :
    error.message = entry.message ∧ error.span = entry.span := by
  rw [parse] at h
  generalize expression { source, log } = outcome at h hlatest
  obtain ⟨matched, state⟩ := outcome
  have hexplain : explain state.skipBlanks.log state.skipBlanks.cursor =
      (entry.message, entry.span, state.skipBlanks.log) := by
    have hlog : state.skipBlanks.log.latest? = some entry := hlatest
    rw [explain, hlog]
  dsimp only at h
  rw [hexplain] at h
  split at h
  · cases h
    exact ⟨rfl, rfl⟩
  · split at h
    · cases h
      exact ⟨rfl, rfl⟩
    · cases h

end Grammar

open Grammar

/-- A rejected source is reported at the first token that cannot go on: behind the longest
viable row of tokens and the blanks that follow it.  The text before can be completed to
an accepted source, and no token that stands there may follow. -/
theorem rejection_at_first_misfit {source : Text} {error : ParseError}
    (h : (parse source {}).1 = .error error) :
    (∃ words q, Longest source words q) ∧ ∀ words q, Longest source words q →
      error.span.start = q.skip.offset ∧
      (∃ before completion, source = before ++ q.skip.rest ∧
        Text.byteSize before = q.skip.offset ∧ Accepted (before ++ completion)) ∧
      ∀ word r, Token Recognized q word r → ¬ Viable (words ++ [word]) := by
  refine ⟨exists_longest source, fun words q hlongest => ?_⟩
  obtain ⟨c, hpath⟩ := hlongest.path
  obtain ⟨entry, hlatest, -, hstart, -⟩ := hlongest.latest
  obtain ⟨-, hspan⟩ := parse_error_of_latest? h hlatest
  obtain ⟨before, completion, _, _, hsource, hsize, hcompleted, hblank⟩ := hpath.completed
  refine ⟨hspan ▸ hstart, ⟨before, completion, hsource, hsize, hcompleted.accepted hblank⟩, ?_⟩
  intro word r htoken hviable
  have hle := hlongest.longest _ r (hlongest.scans.snoc htoken) hviable
  rw [List.length_append, List.length_singleton] at hle
  omega

theorem rejection_at_missing_separator :
    ∃ error words q before completion, (parse "max(1+2, 3 4)".toList {}).1 = .error error ∧
      Longest "max(1+2, 3 4)".toList words q ∧ error.span.start = 11 ∧ q.skip.offset = 11 ∧
      "max(1+2, 3 4)".toList = before ++ q.skip.rest ∧ Text.byteSize before = 11 ∧
      Accepted (before ++ completion) ∧
      ∀ word r, Token Recognized q word r → ¬ Viable (words ++ [word]) := by
  have h : (parse "max(1+2, 3 4)".toList {}).1 =
      .error (.invalidExpression "expecting ')'" (.point 11)) := by decide +kernel
  obtain ⟨⟨words, q, hlongest⟩, hall⟩ := rejection_at_first_misfit h
  obtain ⟨hstart, ⟨before, completion, hsource, hsize, haccepted⟩, hmisfit⟩ := hall words q hlongest
  have hoffset : q.skip.offset = 11 := hstart.symm
  exact ⟨_, words, q, before, completion, h, hlongest, rfl, hoffset, hsource, hoffset ▸ hsize,
    haccepted, hmisfit⟩

end DeskCalc
