import DeskCalc.Diagnostic.Log
import Mathlib.Data.List.Basic

/-
What a log keeps of the diagnostics that are noted one after another.

A position that something was noted at has an entry, and an entry was noted at its
position.  The last forced diagnostic of a position stays (`NotesAll.forced`), and the
latest entry is at the greatest position of all that was noted (`NotesAll.latest`).
-/
namespace DeskCalc
namespace Log

/-! ## Entries and positions -/

section Entries

variable {log : Log} {entry : Diagnostic} {offset : Nat}

theorem mem_of_get? (h : log.get? offset = some entry) :
    entry ∈ log.entries ∧ entry.span.start = offset :=
  ⟨List.mem_of_find?_eq_some h, by simpa using List.find?_some h⟩

theorem get?_of_mem_entries {entries : List Diagnostic} (hasc : Ascending entries)
    (h : entry ∈ entries) :
    entries.find? (fun e => e.span.start == entry.span.start) = some entry := by
  induction entries with
  | nil => cases h
  | cons d rest ih =>
    obtain ⟨hd, hrest⟩ := List.pairwise_cons.1 hasc
    rcases List.mem_cons.1 h with rfl | hmem
    · exact List.find?_cons_of_pos (by simp)
    · have hlt := hd entry hmem
      rw [List.find?_cons_of_neg (by simp; omega), ih hrest hmem]

theorem get?_of_mem (h : entry ∈ log.entries) : log.get? entry.span.start = some entry :=
  get?_of_mem_entries log.ascending h

/-- The latest entry is at the greatest position. -/
theorem le_of_latest? {latest : Diagnostic} (h : log.latest? = some latest)
    (hentry : entry ∈ log.entries) : entry.span.start ≤ latest.span.start := by
  obtain ⟨front, hfront⟩ := List.getLast?_eq_some_iff.1 h
  have hasc := log.ascending
  rw [hfront] at hentry
  rw [hfront, Ascending, List.pairwise_append] at hasc
  rcases List.mem_append.1 hentry with hmem | hmem
  · exact Nat.le_of_lt (hasc.2.2 entry hmem latest (List.mem_singleton_self _))
  · obtain rfl := List.mem_singleton.1 hmem
    exact Nat.le_refl _

end Entries

/-! ## Noting diagnostics -/

/-- A diagnostic is put into the log, or gives way to what stands at its position.  What is
forced does not give way, and what is not forced does not replace what is. -/
inductive Notes (log : Log) (entry : Diagnostic) : Log → Prop where
  | put (fits : ∀ old, log.get? entry.span.start = some old → old.forced = true →
      entry.forced = true) : Notes log entry (log.put entry)
  | giveWay (free : entry.forced = false) (stands : (log.get? entry.span.start).isSome = true) :
      Notes log entry log

inductive NotesAll : Log → List Diagnostic → Log → Prop where
  | nil {log : Log} : NotesAll log [] log
  | cons {log log' log'' : Log} {entry : Diagnostic} {entries : List Diagnostic}
      (first : Notes log entry log') (rest : NotesAll log' entries log'') :
      NotesAll log (entry :: entries) log''

theorem notes_add (log : Log) (message : String) (span : Span) (forced : Bool) :
    Notes log { message, span, turn := none, forced } (log.add message span forced) := by
  unfold add
  split
  · next h =>
    rw [Bool.and_eq_true, Bool.not_eq_true'] at h
    exact .giveWay h.1 h.2
  · next h =>
    refine .put fun old hold _ => ?_
    rw [hold] at h
    simpa using h

/-- The diagnostic for a token that is expected. -/
def expected (expectation : Expectation) (offset : Nat) (forced : Bool) : Diagnostic :=
  { message := expectation.message
    span := .point offset
    turn := some expectation.turn
    forced }

theorem notes_expect (log : Log) (expectation : Expectation) (offset : Nat) (due : Turn)
    (forced : Bool) :
    Notes log (expected expectation offset forced) (log.expect expectation offset due forced) := by
  have hstart : (expected expectation offset forced).span.start = offset := rfl
  have hforced : (expected expectation offset forced).forced = forced := rfl
  unfold expect
  dsimp only
  split
  · next hnone =>
    refine .put fun old hold => ?_
    rw [hstart, hnone] at hold
    cases hold
  · next existing hexisting =>
    split
    · next houtranks =>
      refine .put fun old hold hold' => ?_
      rw [hstart, hexisting] at hold
      obtain rfl := Option.some.inj hold
      simpa [outranks, hold', hforced] using houtranks
    · next houtranks =>
      refine .giveWay ?_ (by rw [hstart, hexisting, Option.isSome_some])
      simp only [outranks, Bool.or_eq_true, not_or, Bool.not_eq_true] at houtranks
      exact houtranks.1

section Notes

variable {log log' log'' : Log} {entry : Diagnostic} {entries more : List Diagnostic}
  {offset : Nat}

theorem NotesAll.append (h : NotesAll log entries log') (h' : NotesAll log' more log'') :
    NotesAll log (entries ++ more) log'' := by
  induction h with
  | nil => exact h'
  | cons hfirst _ ih => exact .cons hfirst (ih h')

theorem NotesAll.split (h : NotesAll log (entries ++ more) log'') :
    ∃ log', NotesAll log entries log' ∧ NotesAll log' more log'' := by
  induction entries generalizing log with
  | nil => exact ⟨log, .nil, h⟩
  | cons entry entries ih =>
    cases h with
    | cons hfirst hrest =>
      obtain ⟨mid, hentries, hmore⟩ := ih hrest
      exact ⟨mid, .cons hfirst hentries, hmore⟩

/-- An entry afterwards stood there before or is the one that was noted. -/
theorem Notes.origin (h : Notes log entry log') {found : Diagnostic}
    (hfound : log'.get? offset = some found) : log.get? offset = some found ∨ found = entry := by
  cases h with
  | put =>
    rw [get?_put] at hfound
    split at hfound
    · exact Or.inr (Option.some.inj hfound).symm
    · exact Or.inl hfound
  | giveWay => exact Or.inl hfound

theorem Notes.isSome (h : Notes log entry log')
    (hoffset : (log.get? offset).isSome = true ∨ offset = entry.span.start) :
    (log'.get? offset).isSome = true := by
  cases h with
  | put =>
    rw [get?_put]
    split
    · rfl
    · next hne => exact hoffset.resolve_right (Ne.symm hne)
  | giveWay _ hstands =>
    rcases hoffset with hoffset | rfl
    · exact hoffset
    · exact hstands

/-- What is noted in vain against a forced entry leaves it where it is. -/
theorem Notes.keeps (h : Notes log entry log') {old : Diagnostic}
    (hold : log.get? offset = some old) (hforced : old.forced = true)
    (hother : entry.forced = true → entry.span.start ≠ offset) : log'.get? offset = some old := by
  cases h with
  | put hfits =>
    rw [get?_put]
    split
    · next heq => exact absurd heq (hother (hfits old (heq ▸ hold) hforced))
    · exact hold
  | giveWay => exact hold

theorem NotesAll.origin (h : NotesAll log entries log') {found : Diagnostic}
    (hfound : log'.get? offset = some found) : log.get? offset = some found ∨ found ∈ entries := by
  induction h with
  | nil => exact Or.inl hfound
  | cons hfirst _ ih =>
    rcases ih hfound with hmid | hmem
    · exact (hfirst.origin hmid).imp_right fun heq => List.mem_cons.2 (Or.inl heq)
    · exact Or.inr (List.mem_cons_of_mem _ hmem)

theorem NotesAll.isSome (h : NotesAll log entries log')
    (hoffset : (log.get? offset).isSome = true ∨ ∃ entry ∈ entries, offset = entry.span.start) :
    (log'.get? offset).isSome = true := by
  induction h with
  | nil => simpa using hoffset
  | cons hfirst _ ih =>
    refine ih ?_
    rcases hoffset with hoffset | ⟨entry, hentry, heq⟩
    · exact Or.inl (hfirst.isSome (Or.inl hoffset))
    · rcases List.mem_cons.1 hentry with rfl | hmem
      · exact Or.inl (hfirst.isSome (Or.inr heq))
      · exact Or.inr ⟨entry, hmem, heq⟩

theorem NotesAll.keeps (h : NotesAll log entries log') {old : Diagnostic}
    (hold : log.get? offset = some old) (hforced : old.forced = true)
    (hother : ∀ entry ∈ entries, entry.forced = true → entry.span.start ≠ offset) :
    log'.get? offset = some old := by
  induction h with
  | nil => exact hold
  | cons hfirst _ ih =>
    exact ih (hfirst.keeps hold hforced (hother _ List.mem_cons_self))
      fun entry hentry => hother entry (List.mem_cons_of_mem _ hentry)

/-- The last forced diagnostic of a position stays there. -/
theorem NotesAll.forced (h : NotesAll log (entries ++ entry :: more) log')
    (hforced : entry.forced = true)
    (hother : ∀ d ∈ more, d.forced = true → d.span.start ≠ entry.span.start) :
    log'.get? entry.span.start = some entry := by
  obtain ⟨before, -, hrest⟩ := h.split
  cases hrest with
  | cons hfirst hmore =>
    refine hmore.keeps ?_ hforced hother
    cases hfirst with
    | put => rw [get?_put, if_pos rfl]
    | giveWay hfree =>
      rw [hforced] at hfree
      cases hfree

theorem exists_last_forced (h : ∃ d ∈ entries, d.forced = true ∧ d.span.start = offset) :
    ∃ front last back, entries = front ++ last :: back ∧ last.forced = true ∧
      last.span.start = offset ∧ ∀ d ∈ back, d.forced = true → d.span.start ≠ offset := by
  induction entries with
  | nil =>
    obtain ⟨d, hd, -⟩ := h
    cases hd
  | cons entry entries ih =>
    by_cases hrest : ∃ d ∈ entries, d.forced = true ∧ d.span.start = offset
    · obtain ⟨front, last, back, rfl, hlast⟩ := ih hrest
      exact ⟨entry :: front, last, back, rfl, hlast⟩
    · obtain ⟨d, hd, hforced, hstart⟩ := h
      rcases List.mem_cons.1 hd with rfl | hmem
      · exact ⟨[], d, entries, rfl, hforced, hstart,
          fun d' hd' hforced' hstart' => hrest ⟨d', hd', hforced', hstart'⟩⟩
      · exact absurd ⟨d, hmem, hforced, hstart⟩ hrest

/-- The latest entry is at the greatest position that something was noted at. -/
theorem NotesAll.latest (h : NotesAll {} entries log') (hentry : entry ∈ entries)
    (hmax : ∀ d ∈ entries, d.span.start ≤ entry.span.start) :
    ∃ found, log'.latest? = some found ∧ found ∈ entries ∧
      found.span.start = entry.span.start ∧ log'.get? entry.span.start = some found := by
  have hsome := h.isSome (Or.inr ⟨entry, hentry, rfl⟩)
  obtain ⟨there, hthere⟩ := Option.isSome_iff_exists.1 hsome
  obtain ⟨hmem, hstart⟩ := mem_of_get? hthere
  obtain ⟨found, hfound⟩ : ∃ found, log'.latest? = some found :=
    ⟨_, List.getLast?_eq_some_getLast (List.ne_nil_of_mem hmem)⟩
  have hfoundMem : found ∈ log'.entries := List.mem_of_getLast? hfound
  have horigin : found ∈ entries := by
    rcases h.origin (get?_of_mem hfoundMem) with hnone | hmem
    · cases hnone
    · exact hmem
  have heq : found.span.start = entry.span.start := by
    have hle := le_of_latest? hfound hmem
    have hge := hmax found horigin
    omega
  exact ⟨found, hfound, horigin, heq, heq ▸ get?_of_mem hfoundMem⟩

end Notes
end Log
end DeskCalc
