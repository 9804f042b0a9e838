import DeskCalc.Proofs.Location.Blame
import Mathlib.Data.List.Basic
import Mathlib.Data.List.Flatten

/-
Parts of a row of words, and what points at them.

An error of an evaluation points at some of the words of the row: at all from the first to
the last of them, or at their end.
-/
namespace DeskCalc
namespace Word

/-- The span goes from the start of some of the words to their end, or stands there. -/
def Marked (words : List Word) (span : Span) : Prop :=
  ∃ part extent, part.Sublist words ∧ spanOf? part = some extent ∧
    (span = extent ∨ span = .point extent.stop)

/-- Each word starts where the one before it starts, or behind. -/
def InOrder (words : List Word) : Prop := words.Pairwise fun a b => a.offset ≤ b.offset

variable {words more part : List Word} {span : Span}

theorem spanOf?_of_ends {first last : Word} (hfirst : words.head? = some first)
    (hlast : words.getLast? = some last) : spanOf? words = some ⟨first.offset, last.stop⟩ := by
  rw [spanOf?, hfirst, hlast]

theorem spanOf?_of_ne_nil (h : words ≠ []) : spanOf? words = some (spanOf words) := by
  have hextent := spanOf?_of_ends (List.head?_eq_some_head h) (List.getLast?_eq_some_getLast h)
  rw [spanOf, hextent, Option.getD_some]

theorem ends_of_spanOf? {extent : Span} (h : spanOf? words = some extent) :
    ∃ first last, words.head? = some first ∧ words.getLast? = some last ∧
      extent = ⟨first.offset, last.stop⟩ := by
  unfold spanOf? at h
  split at h
  · next first last hfirst hlast => exact ⟨first, last, hfirst, hlast, (Option.some.inj h).symm⟩
  · cases h

theorem Marked.mono (h : Marked words span) (hsublist : words.Sublist more) :
    Marked more span := by
  obtain ⟨part, extent, hpart, hextent, hspan⟩ := h
  exact ⟨part, extent, hpart.trans hsublist, hextent, hspan⟩

theorem marked_spanOf (h : words ≠ []) : Marked words (spanOf words) :=
  ⟨words, _, List.Sublist.refl _, spanOf?_of_ne_nil h, Or.inl rfl⟩

theorem marked_stop (h : words ≠ []) : Marked words (.point (spanOf words).stop) :=
  ⟨words, _, List.Sublist.refl _, spanOf?_of_ne_nil h, Or.inr rfl⟩

/-- What points at words in order goes from one of them to one that is not before it. -/
theorem Marked.between (h : Marked words span) (hordered : InOrder words) :
    ∃ first ∈ words, ∃ last ∈ words, first.offset ≤ last.offset ∧
      (span = ⟨first.offset, last.stop⟩ ∨ span = .point last.stop) := by
  obtain ⟨part, extent, hpart, hextent, hspan⟩ := h
  obtain ⟨first, last, hfirst, hlast, rfl⟩ := ends_of_spanOf? hextent
  refine ⟨first, hpart.subset (List.mem_of_mem_head? hfirst), last,
    hpart.subset (List.mem_of_getLast? hlast), ?_, hspan⟩
  obtain ⟨rest, rfl⟩ := List.head?_eq_some_iff.1 hfirst
  rcases List.mem_cons.1 (List.mem_of_getLast? hlast) with rfl | hmem
  · exact Nat.le_refl _
  · exact (List.pairwise_cons.1 (hordered.sublist hpart)).1 last hmem

end Word

/-! ## Operands -/

namespace Number

variable {number first last : Number} {numbers : List Number}

theorem marked_span? (h : number.words ≠ []) (span : Span) :
    Word.Marked number.words (number.span?.getD span) := by
  rw [span?, Word.spanOf?_of_ne_nil h]
  exact Word.marked_spanOf h

/-- The words of several operands reach from the first operand to the last one. -/
theorem spanOf?_flatMap (hwords : ∀ number ∈ numbers, number.words ≠ [])
    (hfirst : numbers.head? = some first) (hlast : numbers.getLast? = some last) :
    Word.spanOf? (numbers.flatMap Number.words) =
      some ⟨(Word.spanOf first.words).start, (Word.spanOf last.words).stop⟩ := by
  obtain ⟨a, b, ha, -, hab⟩ := Word.ends_of_spanOf?
    (Word.spanOf?_of_ne_nil (hwords first (List.mem_of_mem_head? hfirst)))
  obtain ⟨c, d, -, hd, hcd⟩ := Word.ends_of_spanOf?
    (Word.spanOf?_of_ne_nil (hwords last (List.mem_of_getLast? hlast)))
  rw [hab, hcd]
  refine Word.spanOf?_of_ends ?_ ?_
  · obtain ⟨rest, rfl⟩ := List.head?_eq_some_iff.1 hfirst
    rw [List.flatMap_cons, List.head?_append_of_ne_nil _ (hwords first List.mem_cons_self), ha]
  · obtain ⟨rest, rfl⟩ := List.getLast?_eq_some_iff.1 hlast
    have hne : last.words ≠ [] := hwords last (by simp)
    rw [List.flatMap_append, List.flatMap_singleton, List.getLast?_append_of_ne_nil _ hne, hd]

end Number

/-! ## Calls -/

namespace Builtin

variable {builtin : Builtin} {arguments : List Number} {words : List Word}

/-- A wrong number of arguments is reported at the surplus ones, or at the end of the last
one, or of the call. -/
theorem marked_countSpan (hwords : ∀ number ∈ arguments, number.words ≠ [])
    (harguments : (arguments.flatMap Number.words).Sublist words) (hcall : words ≠ []) :
    Word.Marked words (builtin.countSpan arguments (Word.spanOf words)) := by
  unfold countSpan
  cases hlast : arguments.getLast? with
  | none =>
    obtain rfl := List.getLast?_eq_none_iff.1 hlast
    cases builtin.signature <;> exact Word.marked_stop hcall
  | some last =>
    have hstop : last.span? = some (Word.spanOf last.words) :=
      Word.spanOf?_of_ne_nil (hwords last (List.mem_of_getLast? hlast))
    have hend : Word.Marked words (.point (Word.spanOf last.words).stop) := by
      obtain ⟨first, hfirst⟩ : ∃ first, arguments.head? = some first := by
        cases arguments with
        | nil => cases hlast
        | cons first _ => exact ⟨first, rfl⟩
      exact ⟨_, _, harguments, Number.spanOf?_flatMap hwords hfirst hlast, Or.inr rfl⟩
    rw [Option.bind_some, hstop, Option.map_some, Option.getD_some]
    dsimp only
    split
    · exact hend
    · next params _ =>
      split
      · next surplus hsurplus =>
        -- The surplus arguments are those from the first of them on.
        have hdrop : (arguments.drop params.length).Sublist arguments := List.drop_sublist _ _
        have hhead : (arguments.drop params.length).head? = some surplus := by
          rw [List.head?_drop, hsurplus]
        have hlast' : (arguments.drop params.length).getLast? = some last := by
          rw [List.getLast?_drop, if_neg, hlast]
          exact Nat.not_le.2 (List.getElem?_eq_some_iff.1 hsurplus).1
        have hstart : surplus.span? = some (Word.spanOf surplus.words) :=
          Word.spanOf?_of_ne_nil (hwords surplus (List.mem_of_getElem? hsurplus))
        rw [hstart, Option.map_some, Option.getD_some]
        exact ⟨_, _, (hdrop.flatMap _).trans harguments,
          Number.spanOf?_flatMap (fun number hnumber => hwords number (hdrop.subset hnumber))
            hhead hlast', Or.inl rfl⟩
      · exact hend

/-- A wrong argument is reported where it stands. -/
theorem span_checkArguments {span : Span} {position : Nat} {error : EvalError}
    (h : builtin.checkArguments span position arguments = .error error) :
    ∃ number ∈ arguments, error.span = number.span?.getD span := by
  induction arguments generalizing position with
  | nil => cases h
  | cons number rest ih =>
    rcases bind_eq_error h with h | ⟨_, -, h⟩
    · refine ⟨number, List.mem_cons_self, ?_⟩
      unfold checkArgument at h
      split at h
      · obtain rfl := Except.error.inj h
        rfl
      · dsimp only at h
        split at h
        · obtain rfl := Except.error.inj h
          rfl
        · cases h
    · rcases bind_eq_error h with h | ⟨_, -, h⟩
      · obtain ⟨other, hother, hspan⟩ := ih h
        exact ⟨other, List.mem_cons_of_mem _ hother, hspan⟩
      · cases h

/-- The errors of a call point at its words. -/
theorem marked_call {context : Context} {error : EvalError}
    (hwords : ∀ number ∈ arguments, number.words ≠ [])
    (harguments : (arguments.flatMap Number.words).Sublist words) (hcall : words ≠ [])
    (h : builtin.call context arguments (Word.spanOf words) = .error error) :
    Word.Marked words error.span := by
  rw [call_eq] at h
  split at h
  · obtain rfl := Except.error.inj h
    exact marked_countSpan hwords harguments hcall
  · rcases bind_eq_error h with h | ⟨values, -, h⟩
    · obtain ⟨number, hnumber, hspan⟩ := span_checkArguments h
      have hsublist : number.words.Sublist words :=
        (List.sublist_flatten_of_mem (List.mem_map_of_mem hnumber)).trans harguments
      rw [hspan]
      exact (Number.marked_span? (hwords number hnumber) _).mono hsublist
    · rw [(blames_apply context builtin values).span_eq h]
      exact Word.marked_spanOf hcall

end Builtin
end DeskCalc
