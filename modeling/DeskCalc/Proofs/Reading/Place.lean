import DeskCalc.Grammar.State
import Mathlib.Data.List.TakeWhile

/-
Places of a source, and the states that stand at one.

A place is what is left to read and how many bytes stand before it.  Reading depends
on nothing else: the words found so far and the log only receive what is read.
-/
namespace DeskCalc

namespace Text

/-- A cut exists exactly behind a part of that size. -/
theorem dropBytes_eq_some_iff {text rest : Text} {n : Nat} :
    dropBytes text n = some rest ↔ ∃ before, text = before ++ rest ∧ byteSize before = n := by
  constructor
  · intro h
    induction text, n using dropBytes.induct with
    | case1 text =>
      rw [dropBytes_zero] at h
      exact ⟨[], by simpa using h, rfl⟩
    | case2 n => simp [dropBytes] at h
    | case3 c text n hc ih =>
      rw [dropBytes, if_pos hc] at h
      obtain ⟨before, htext, hsize⟩ := ih h
      refine ⟨c :: before, by rw [htext, List.cons_append], ?_⟩
      rw [byteSize, hsize]
      omega
    | case4 c text n hc =>
      rw [dropBytes, if_neg hc] at h
      cases h
  · rintro ⟨before, rfl, rfl⟩
    exact dropBytes_append before rest

/-- A cut behind a cut. -/
theorem dropBytes_add {text part rest : Text} {n : Nat}
    (h : dropBytes text n = some (part ++ rest)) :
    dropBytes text (n + byteSize part) = some rest := by
  obtain ⟨before, rfl, rfl⟩ := dropBytes_eq_some_iff.1 h
  refine dropBytes_eq_some_iff.2 ⟨before ++ part, by rw [List.append_assoc], ?_⟩
  rw [byteSize_append]

theorem byteSize_pos {text : Text} (h : text ≠ []) : 0 < byteSize text := by
  match text, h with
  | c :: rest, _ =>
    have := c.utf8Size_pos
    rw [byteSize]
    omega

/-- What is trimmed at the end is blank. -/
theorem trimEnd_eq_nil_iff {text : Text} : trimEnd text = [] ↔ ∀ c ∈ text, isBlank c = true := by
  rw [trimEnd, List.reverse_eq_nil_iff, List.dropWhile_eq_nil_iff]
  simp only [List.mem_reverse]

end Text

namespace Grammar

structure Place where
  rest : Text
  offset : Nat
  deriving DecidableEq, Repr

namespace Place

/-- The start of a source. -/
def start (source : Text) : Place := ⟨source, 0⟩

/-- The place behind the blanks that follow. -/
def skip (p : Place) : Place :=
  ⟨p.rest.dropWhile Text.isBlank, p.offset + Text.byteSize (p.rest.takeWhile Text.isBlank)⟩

/-- Only blanks are left. -/
def Blank (p : Place) : Prop := ∀ c ∈ p.rest, Text.isBlank c = true

theorem skip_eq_nil_iff {p : Place} : p.skip.rest = [] ↔ p.Blank :=
  List.dropWhile_eq_nil_iff

theorem blank_skip_iff {p : Place} : p.skip.Blank ↔ p.Blank := by
  constructor
  · intro h c hc
    rw [← List.takeWhile_append_dropWhile (p := Text.isBlank) (l := p.rest)] at hc
    rcases List.mem_append.1 hc with htaken | hleft
    · exact List.mem_takeWhile_imp htaken
    · exact h c hleft
  · intro h c hc
    exact h c (List.dropWhile_subset Text.isBlank hc)

theorem byteSize_skip_le (p : Place) :
    Text.byteSize p.skip.rest ≤ Text.byteSize p.rest := by
  have h := Text.byteSize_append (p.rest.takeWhile Text.isBlank) p.skip.rest
  rw [skip, List.takeWhile_append_dropWhile] at h
  rw [skip]
  omega

end Place

namespace State

/-- The state stands at a place of its source. -/
structure At (state : State) (p : Place) : Prop where
  cut : state.source.dropBytes state.cursor = some p.rest
  cursor : state.cursor = p.offset

/-- The state that has read words up to a place. -/
def extend (state : State) (words : List Word) (q : Place) (log : Log) : State :=
  ⟨state.source, q.offset, state.words ++ words, log⟩

theorem at_start (source : Text) (log : Log) :
    State.At { source, log } (.start source) :=
  ⟨Text.dropBytes_zero source, rfl⟩

variable {state : State} {p : Place}

theorem At.rest (h : state.At p) : state.rest = p.rest := by
  rw [State.rest, h.cut, Option.getD_some]

theorem At.remaining (h : state.At p) : state.remaining = Text.byteSize p.rest := by
  obtain ⟨before, hsource, hsize⟩ := Text.dropBytes_eq_some_iff.1 h.cut
  rw [State.remaining, hsource, Text.byteSize_append, hsize]
  omega

theorem At.with_log (h : state.At p) (log : Log) : { state with log }.At p := ⟨h.cut, h.cursor⟩

theorem At.skipBlanks (h : state.At p) : state.skipBlanks.At p.skip := by
  have hcut := h.cut
  rw [← List.takeWhile_append_dropWhile (p := Text.isBlank) (l := p.rest)] at hcut
  refine ⟨?_, ?_⟩
  · rw [State.skipBlanks, h.rest]
    exact Text.dropBytes_add hcut
  · rw [State.skipBlanks, h.rest, Place.skip, h.cursor]

/-- A word that stands at the cursor is pushed, and the cursor moves behind it. -/
theorem At.found (h : state.At p) {word : Word} {q : Place}
    (htext : p.rest = word.text ++ q.rest)
    (hstop : q.offset = p.offset + word.text.byteSize) :
    (state.advance word.text.byteSize).push word = state.extend [word] q state.log ∧
      (state.extend [word] q state.log).At q := by
  have hcut : state.source.dropBytes q.offset = some q.rest := by
    rw [hstop, ← h.cursor]
    exact Text.dropBytes_add (htext ▸ h.cut)
  have hbound : state.cursor + word.text.byteSize ≤ state.source.byteSize := by
    obtain ⟨before, hsource, hsize⟩ := Text.dropBytes_eq_some_iff.1 hcut
    rw [hsource, Text.byteSize_append, hsize, hstop, h.cursor]
    omega
  refine ⟨?_, hcut, rfl⟩
  rw [State.advance, State.push, State.extend, Nat.min_eq_left hbound, hstop, h.cursor]

/-- Going back to a snapshot undoes what was read since, but for the log. -/
theorem restore_snapshot (state : State) (cursor : Nat) (words : List Word) (log : Log) :
    State.restore ⟨state.source, cursor, state.words ++ words, log⟩ state.snapshot =
      { state with log } := by
  simp [State.restore, State.snapshot]

theorem restore_failed (state : State) (cursor : Nat) (log : Log) :
    { state with cursor, log }.restore state.snapshot = { state with log } := by
  simpa using restore_snapshot state cursor [] log

end State
end Grammar
end DeskCalc
