import DeskCalc.Proofs.Location.Row
import DeskCalc.Proofs.Progress

/-
The words of a built chain.

Taking in a word puts it behind the words that are there, once for every value that it
stands for.  So a chain has its words from the source, in their order, and what a stored
value was computed from does not get into it.
-/
namespace DeskCalc
namespace Chain

namespace Assembly

/-- The words of the operands and operators from left to right. -/
def words (assembly : Assembly) : List Word :=
  assembly.pairs.flatMap (fun pair => pair.1.words ++ pair.2.words) ++
    (assembly.last.map Number.words).getD []

/-- Values and operators have words. -/
structure Worded (assembly : Assembly) : Prop where
  pairs : ∀ pair ∈ assembly.pairs, (pair.1.value.isSome = true → pair.1.words ≠ []) ∧
    (pair.2.kind ≠ .comma → pair.2.words ≠ [])
  last : ∀ number ∈ assembly.last, number.value.isSome = true → number.words ≠ []

variable {assembly : Assembly} {number : Number} {kind : OperatorKind}

theorem worded_empty : Worded {} := ⟨fun _ h => (by cases h), fun _ h => by cases h⟩

theorem Worded.pushOperand (h : assembly.Worded)
    (hnumber : number.value.isSome = true → number.words ≠ []) :
    (assembly.pushOperand number).Worded :=
  ⟨h.pairs, fun _ hother => Option.some.inj hother ▸ hnumber⟩

theorem Worded.pushOperator (h : assembly.Worded) {words : List Word}
    (hwords : kind ≠ .comma → words ≠ []) : (assembly.pushOperator kind words).Worded := by
  refine ⟨List.forall_mem_append.2 ⟨h.pairs, ?_⟩, fun _ hlast => by cases hlast⟩
  refine List.forall_mem_singleton.2 ⟨?_, hwords⟩
  cases hlast : assembly.last with
  | none => exact fun hvalue => by cases hvalue
  | some number => exact h.last number hlast

theorem words_pushOperator (assembly : Assembly) (kind : OperatorKind) (words : List Word) :
    (assembly.pushOperator kind words).words = assembly.words ++ words := by
  cases hlast : assembly.last <;>
    simp [Assembly.words, Assembly.pushOperator, hlast, Number.placeholder]

theorem words_pushOperand (hlast : assembly.last = none) (number : Number) :
    (assembly.pushOperand number).words = assembly.words ++ number.words := by
  simp [Assembly.words, Assembly.pushOperand, hlast]

theorem Worded.pushList (h : assembly.Worded) {numbers : List Number}
    (hnumbers : ∀ number ∈ numbers, number.words ≠ []) : (assembly.pushList numbers).Worded := by
  induction numbers generalizing assembly with
  | nil => exact h
  | cons number rest ih =>
    obtain ⟨hnumber, hrest⟩ := List.forall_mem_cons.1 hnumbers
    cases rest with
    | nil => exact h.pushOperand fun _ => hnumber
    | cons second rest =>
      exact ih ((h.pushOperand fun _ => hnumber).pushOperator fun hkind => absurd rfl hkind) hrest

theorem words_pushList (hlast : assembly.last = none) (numbers : List Number) :
    (assembly.pushList numbers).words = assembly.words ++ numbers.flatMap Number.words := by
  induction numbers generalizing assembly with
  | nil => simp [pushList]
  | cons number rest ih =>
    cases rest with
    | nil => simp [pushList, words_pushOperand hlast]
    | cons second rest =>
      rw [pushList, ih rfl, words_pushOperator, words_pushOperand hlast]
      · simp
      · simp

/-- The row of what has been built has the same words. -/
theorem worded_toRow (h : assembly.Worded) {last : Number} (hlast : assembly.last = some last) :
    (toRow assembly.pairs last).Worded ∧ (toRow assembly.pairs last).words = assembly.words := by
  have hnumber := h.last last hlast
  have hpairs := h.pairs
  rw [words, hlast, Option.map_some, Option.getD_some]
  generalize assembly.pairs = pairs at hpairs
  induction pairs with
  | nil =>
    refine ⟨⟨List.forall_mem_singleton.2 hnumber, fun _ hmem => by cases hmem⟩, ?_⟩
    simp [toRow, Row.words]
  | cons pair pairs ih =>
    obtain ⟨hpair, hpairs⟩ := List.forall_mem_cons.1 hpairs
    obtain ⟨hworded, hwords⟩ := ih hpairs
    refine ⟨worded_cons.2 ⟨hpair.1, hpair.2, hworded⟩, ?_⟩
    rw [toRow, Row.attach, Row.words_cons, hwords]
    simp

end Assembly

section Build

variable {context : Context} {register : Option Register} {assembly after : Assembly}
  {word : Word} {words : List Word}

/-- A word is put behind the others, once for each of its values. -/
theorem words_take (h : assembly.Worded) (htake : take context register assembly word = .ok after) :
    after.Worded ∧ ∃ count, after.words = assembly.words ++ List.replicate count word := by
  have honce : ∀ kind, (assembly.pushOperator kind [word]).Worded ∧
      (assembly.pushOperator kind [word]).words = assembly.words ++ List.replicate 1 word :=
    fun kind => ⟨h.pushOperator fun _ => List.cons_ne_nil _ _, Assembly.words_pushOperator ..⟩
  unfold take at htake
  split at htake
  · next hfits =>
    unfold place at htake
    split at htake
    · obtain rfl := Except.ok.inj htake
      have hopened := honce .openParen
      exact ⟨⟨hopened.1.pairs, hopened.1.last⟩, 1, hopened.2⟩
    · dsimp only at htake
      split at htake
      · cases htake
      · obtain rfl := Except.ok.inj htake
        have hclosed : ((assembly.pushOperator .closeParen [word]).pushOperand .placeholder).Worded :=
          (honce .closeParen).1.pushOperand fun hvalue => by cases hvalue
        refine ⟨⟨hclosed.pairs, hclosed.last⟩, 1, ?_⟩
        rw [← (honce .closeParen).2]
        show ((assembly.pushOperator .closeParen [word]).pushOperand .placeholder).words = _
        rw [Assembly.words_pushOperand rfl]
        exact List.append_nil _
    · split at htake
      · cases htake
      · obtain rfl := Except.ok.inj htake
        exact ⟨(honce _).1, 1, (honce _).2⟩
    · split at htake
      · cases htake
      · obtain rfl := Except.ok.inj htake
        exact ⟨(honce _).1, 1, (honce _).2⟩
    · obtain rfl := Except.ok.inj htake
      exact ⟨(honce _).1, 1, (honce _).2⟩
    iterate 3
      · next hkind =>
        obtain ⟨values, -, rfl⟩ := map_eq_ok htake
        have hlast : assembly.last = none := by
          have hnone := isNone_last hfits (by rw [hkind]; rfl)
          rw [hkind] at hnone
          exact Option.isNone_iff_eq_none.1 (hnone.trans rfl)
        refine ⟨h.pushList fun number hnumber => ?_, values.length, ?_⟩
        · obtain ⟨value, -, rfl⟩ := List.mem_map.1 hnumber
          exact List.cons_ne_nil _ _
        · rw [Assembly.words_pushList hlast, List.flatMap_map]
          show _ ++ values.flatMap (fun _ => [word]) = _
          rw [← List.map_eq_flatMap, List.map_const']
    iterate 2
      · obtain rfl := Except.ok.inj htake
        exact ⟨h, 0, (List.append_nil _).symm⟩
  · cases htake

theorem words_foldlM (h : assembly.Worded)
    (hwords : words.foldlM (take context register) assembly = .ok after) :
    after.Worded ∧ (∀ word ∈ after.words, word ∈ assembly.words ∨ word ∈ words) ∧
      (Word.InOrder (assembly.words ++ words) → Word.InOrder after.words) := by
  induction words generalizing assembly with
  | nil =>
    obtain rfl := Except.ok.inj hwords
    exact ⟨h, fun _ hword => Or.inl hword, fun hordered => by rwa [List.append_nil] at hordered⟩
  | cons word words ih =>
    rw [List.foldlM_cons] at hwords
    obtain ⟨next, hnext, hrest⟩ := bind_eq_ok hwords
    obtain ⟨hworded, count, hcopies⟩ := words_take h hnext
    obtain ⟨hafter, hmem, hordered⟩ := ih hworded hrest
    rw [hcopies] at hmem hordered
    refine ⟨hafter, fun other hother => ?_, fun hbefore => hordered ?_⟩
    · rcases hmem other hother with hother | hother
      · rcases List.mem_append.1 hother with hother | hother
        · exact Or.inl hother
        · exact Or.inr (List.eq_of_mem_replicate hother ▸ List.mem_cons_self)
      · exact Or.inr (List.mem_cons_of_mem _ hother)
    · obtain ⟨hassembly, hbehind, hacross⟩ := List.pairwise_append.1 hbefore
      obtain ⟨hword, hwords⟩ := List.pairwise_cons.1 hbehind
      rw [List.append_assoc]
      refine List.pairwise_append.2 ⟨hassembly, List.pairwise_append.2 ⟨?_, hwords, ?_⟩, ?_⟩
      · exact List.pairwise_replicate.2 (Or.inr (Nat.le_refl _))
      · exact fun a ha => List.eq_of_mem_replicate ha ▸ hword
      · intro a ha b hb
        rcases List.mem_append.1 hb with hb | hb
        · exact hacross a ha b (List.eq_of_mem_replicate hb ▸ List.mem_cons_self)
        · exact hacross a ha b (List.mem_cons_of_mem _ hb)

/-- A chain has its words from those that it was built from, in their order. -/
theorem worded_ofWords {chain : Chain} (h : ofWords words register context = .ok chain) :
    chain.toRow.Worded ∧ (∀ word ∈ chain.words, word ∈ words) ∧
      (Word.InOrder words → Word.InOrder chain.words) := by
  obtain ⟨assembly, hwords, hfinish⟩ := bind_eq_ok h
  obtain ⟨hworded, hmem, hordered⟩ := words_foldlM Assembly.worded_empty hwords
  unfold finish at hfinish
  split at hfinish
  · cases hfinish
  · split at hfinish
    · cases hfinish
    · next last hlast =>
      obtain rfl := Except.ok.inj hfinish
      obtain ⟨hrow, hsame⟩ := Assembly.worded_toRow hworded hlast
      refine ⟨hrow, fun word hword => ?_, fun h => ?_⟩
      · rcases hmem word (hsame ▸ hword) with hnone | hword
        · cases hnone
        · exact hword
      · rw [hsame]
        exact hordered h

/-! ## Words that do not make a chain -/

theorem span_take {error : CalcError} (h : take context register assembly word = .error error) :
    error.span = word.span := by
  unfold take at h
  split at h
  · unfold place at h
    split at h
    · cases h
    · dsimp only at h
      split at h
      · obtain rfl := Except.error.inj h
        rfl
      · cases h
    · split at h
      · obtain rfl := Except.error.inj h
        rfl
      · cases h
    · split at h
      · obtain rfl := Except.error.inj h
        rfl
      · cases h
    · cases h
    iterate 3
      · rw [wordValues_unplaced] at h
        cases hvalues : wordValues context register word.unplaced with
        | ok _ =>
          rw [hvalues] at h
          cases h
        | error cause =>
          rw [hvalues] at h
          obtain rfl := Except.error.inj h
          exact EvalError.span_moved ..
    iterate 2
      · cases h
  · obtain rfl := Except.error.inj h
    rfl

theorem span_foldlM {error : CalcError}
    (h : words.foldlM (take context register) assembly = .error error) :
    ∃ word ∈ words, error.span = word.span := by
  induction words generalizing assembly with
  | nil => cases h
  | cons word words ih =>
    rw [List.foldlM_cons] at h
    rcases bind_eq_error h with h | ⟨next, -, h⟩
    · exact ⟨word, List.mem_cons_self, span_take h⟩
    · obtain ⟨other, hother, hspan⟩ := ih h
      exact ⟨other, List.mem_cons_of_mem _ hother, hspan⟩

/-- An error in building a chain points at a word, or at the end of the last one. -/
theorem marked_ofWords {error : CalcError} (hne : words ≠ [])
    (h : ofWords words register context = .error error) : Word.Marked words error.span := by
  rcases bind_eq_error h with h | ⟨assembly, -, h⟩
  · obtain ⟨word, hword, hspan⟩ := span_foldlM h
    exact ⟨[word], word.span, List.singleton_sublist.2 hword, rfl, Or.inl hspan⟩
  · have hlast := List.getLast?_eq_some_getLast hne
    have hspan : error.span = .point (words.getLast hne).stop := by
      rw [hlast, Option.map_some, Option.getD_some] at h
      unfold finish at h
      split at h
      · obtain rfl := Except.error.inj h
        rfl
      · split at h
        · obtain rfl := Except.error.inj h
          rfl
        · cases h
    exact ⟨[words.getLast hne], _, List.singleton_sublist.2 (List.getLast_mem hne), rfl,
      Or.inr hspan⟩

end Build
end Chain
end DeskCalc
