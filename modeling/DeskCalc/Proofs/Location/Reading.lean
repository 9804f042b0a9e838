import DeskCalc.Proofs.Rejection
import DeskCalc.Proofs.Tiling

/-
What the diagnostics of a rejected source point at.

All but one kind point at a single place, which is where tokens lead to.  A name that no
function has is pointed at as a whole, and the longest lexeme that it is lies in the source.
-/
namespace DeskCalc

/-- Two parts of a source, the end of the second not before the start of the first, lie in
a part that reaches from the one to the other. -/
theorem Span.Covers.hull {source part part' : Text} {span span' : Span}
    (h : span.Covers source part) (h' : span'.Covers source part')
    (hle : span.start ≤ span'.stop) :
    ∃ hull, (⟨span.start, span'.stop⟩ : Span).Covers source hull := by
  obtain ⟨before, after, hsource, hstart, -⟩ := h
  obtain ⟨before', after', hsource', hstart', hstop'⟩ := h'
  have hsize : Text.byteSize (before' ++ part') = span'.stop := by
    rw [Text.byteSize_append, hstart', hstop']
  rw [← List.append_assoc] at hsource'
  rw [hsource] at hsource'
  rcases List.append_eq_append_iff.1 hsource' with ⟨hull, hleft, hright⟩ | ⟨back, hleft, hright⟩
  · refine ⟨hull, before, after', by rw [hsource, hright], hstart, ?_⟩
    rw [← hsize, hleft, Text.byteSize_append, hstart]
  · -- The first part starts where the second one stops.
    have hback : back = [] := by
      by_contra hne
      have hpos := Text.byteSize_pos hne
      rw [hleft, Text.byteSize_append] at hstart
      omega
    subst hback
    rw [List.append_nil] at hleft
    refine ⟨[], before, part ++ after, hsource, hstart, ?_⟩
    rw [← hsize, ← hleft, hstart]
    rfl

theorem Span.Covers.stop {source part : Text} {span : Span} (h : span.Covers source part) :
    (Span.point span.stop).Covers source [] := by
  obtain ⟨before, after, hsource, hstart, hstop⟩ := h
  refine ⟨before ++ part, after, by rw [hsource, List.nil_append, List.append_assoc], ?_, rfl⟩
  rw [Text.byteSize_append, hstart, hstop]
  rfl

namespace Lexeme

/-- A name is as long in bytes as in characters. -/
theorem byteSize_identifier {text name : Text} {size : Nat}
    (h : first? text = some (.identifier name, size)) : Text.byteSize name = size := by
  obtain ⟨hsize, -, c, hhead, hstart⟩ := (fits_first h).name name rfl
  obtain ⟨rest, rfl⟩ := List.head?_eq_some_iff.1 hhead
  have hat : c ≠ '@' := by
    rintro rfl
    exact absurd hstart (by decide)
  rw [first?, if_neg hat, if_pos hstart] at h
  obtain rfl := Lexeme.identifier.inj (Prod.mk.inj (Option.some.inj h)).1
  rw [byteSize_of_toNat_lt, hsize]
  refine List.forall_mem_cons.2 ⟨toNat_of_isNamePart ?_, fun d hd =>
    toNat_of_isNamePart (List.mem_takeWhile_imp hd)⟩
  rw [isNamePart, hstart, Bool.true_or]

end Lexeme

namespace Grammar

/-- The diagnostic is forced, or points at a single place. -/
def PointsOrForces (entry : Diagnostic) : Prop :=
  entry.forced = true ∨ entry.span = .point entry.span.start

namespace Course

/-- Whatever is missed on the way of a course is of this kind. -/
structure Only (Kind : Diagnostic → Prop) (course : Course) : Prop where
  kind : ∀ {p entry}, entry ∈ course.misses p → Kind entry

variable {Kind : Diagnostic → Prop} {course : Course} {courses : List Course}

theorem Only.inOrder (h : ∀ course ∈ courses, course.Only Kind) : (inOrder courses).Only Kind := by
  induction courses with
  | nil => exact ⟨fun hmem => by cases hmem⟩
  | cons course courses ih =>
    obtain ⟨hcourse, hcourses⟩ := List.forall_mem_cons.1 h
    refine ⟨fun hmem => ?_⟩
    rcases List.mem_append.1 hmem with hmem | hmem
    · exact hcourse.kind hmem
    · split at hmem
      · cases hmem
      · exact (ih hcourses).kind hmem

theorem Only.followed (hfirst : course.Only Kind) (h : ∀ course ∈ courses, course.Only Kind) :
    (followed course courses).Only Kind :=
  ⟨(Only.inOrder (List.forall_mem_cons.2 ⟨hfirst, h⟩)).kind⟩

theorem Only.firstOf (h : ∀ course ∈ courses, course.Only Kind) : (firstOf courses).Only Kind := by
  induction courses with
  | nil => exact ⟨fun hmem => by cases hmem⟩
  | cons course courses ih =>
    obtain ⟨hcourse, hcourses⟩ := List.forall_mem_cons.1 h
    refine ⟨fun hmem => ?_⟩
    rcases List.mem_append.1 hmem with hmem | hmem
    · exact hcourse.kind hmem
    · split at hmem
      · cases hmem
      · exact (ih hcourses).kind hmem

theorem Only.missesWithin (h : course.Only Kind) (fuel : Nat) {p : Place} {entry : Diagnostic}
    (hmem : entry ∈ missesWithin course fuel p) : Kind entry := by
  induction fuel generalizing p with
  | zero => cases hmem
  | succ fuel ih =>
    rcases List.mem_append.1 hmem with hmem | hmem
    · exact h.kind hmem
    · split at hmem
      · cases hmem
      · split at hmem
        · cases hmem
        · exact ih hmem

theorem Only.repetition (h : course.Only Kind) : (repetition course).Only Kind :=
  ⟨fun hmem => h.missesWithin _ hmem⟩

theorem Only.token {find : Text → Nat → Option Word} {miss : Place → Diagnostic}
    (h : ∀ p, Kind (miss p)) : (token find miss).Only Kind := by
  refine ⟨fun {p entry} hmem => ?_⟩
  change entry ∈ (if _ then [] else [miss p.skip]) at hmem
  split at hmem
  · cases hmem
  · exact List.mem_singleton.1 hmem ▸ h _

theorem pointsOrForces_expected (expectation : Expectation) (offset : Nat) (forced : Bool) :
    PointsOrForces (Log.expected expectation offset forced) := Or.inr rfl

theorem only_expected (find : Text → Nat → Option Word) (expectation : Expectation)
    (forced : Bool) :
    (token find fun p => Log.expected expectation p.offset forced).Only PointsOrForces :=
  .token fun _ => pointsOrForces_expected ..

theorem pointsOrForces_missedName (p : Place) : PointsOrForces (missedName p) := by
  unfold missedName
  split
  · split
    · exact Or.inl rfl
    · exact pointsOrForces_expected ..
  · exact pointsOrForces_expected ..

theorem pointsOrForces_expressionWithin (depth : Nat) :
    (expressionWithin depth).Only PointsOrForces := by
  induction depth with
  | zero => exact ⟨fun hmem => by cases hmem⟩
  | succ depth ih =>
    have hname : name.Only PointsOrForces := .token pointsOrForces_missedName
    have hrun : numberRun.Only PointsOrForces := by
      refine .followed (only_expected ..) ?_
      refine List.forall_mem_singleton.2 (.repetition (.inOrder ?_))
      simp only [List.forall_mem_cons]
      exact ⟨only_expected .., only_expected .., by simp⟩
    have hgroup : (groupOf (expressionWithin depth)).Only PointsOrForces := by
      refine .inOrder ?_
      simp only [List.forall_mem_cons]
      exact ⟨only_expected .., ih, only_expected .., by simp⟩
    have harguments : (argumentsOf (expressionWithin depth)).Only PointsOrForces := by
      refine .followed ih ?_
      simp only [List.forall_mem_cons]
      refine ⟨.repetition (.inOrder ?_), only_expected .., by simp⟩
      simp only [List.forall_mem_cons]
      exact ⟨only_expected .., ih, by simp⟩
    have hcall : (callOf (expressionWithin depth)).Only PointsOrForces := by
      refine .inOrder ?_
      simp only [List.forall_mem_cons]
      exact ⟨hname, only_expected .., harguments, only_expected .., by simp⟩
    have hoperand : (operandOf (expressionWithin depth)).Only PointsOrForces := by
      refine .firstOf ?_
      simp only [List.forall_mem_cons]
      exact ⟨hrun, hgroup, hcall, by simp⟩
    refine Only.followed hoperand (List.forall_mem_singleton.2 (.repetition (.inOrder ?_)))
    simp only [List.forall_mem_cons]
    exact ⟨only_expected .., ih, by simp⟩

end Course

/-- What is noted while a source is read points at a part of it. -/
theorem covers_of_mem_missesOf {source : Text} {entry : Diagnostic} (h : entry ∈ missesOf source) :
    ∃ part, entry.span.Covers source part := by
  obtain ⟨words, c, q, hpath, hnoted⟩ := mem_missesOf h
  obtain ⟨before, _, _, _, hsource, hsize, -, -⟩ := hpath.completed
  have hpoint : entry.span = .point q.skip.offset → ∃ part, entry.span.Covers source part := by
    intro hspan
    rw [hspan]
    exact ⟨[], before, q.skip.rest, hsource, hsize, rfl⟩
  rcases (Course.pointsOrForces_expressionWithin _).kind h with hforced | hspan
  · rcases hnoted.forced hforced with ⟨-, name, size, hunknown, rfl⟩ | ⟨-, rfl⟩
    · obtain ⟨-, hname, -⟩ := (Lexeme.fits_first hunknown.1).name name rfl
      refine ⟨name, before, q.skip.rest.drop size, ?_, hsize, ?_⟩
      · rw [← hname, hsource]
      · rw [Lexeme.byteSize_identifier hunknown.1]
        rfl
    · exact hpoint rfl
  · exact hpoint (by rw [hspan, hnoted.start])

/-- A rejected source is rejected for a part of it. -/
theorem covers_of_rejected {source : Text} {error : ParseError}
    (h : (parse source {}).1 = .error error) : ∃ part, error.span.Covers source part := by
  obtain ⟨words, q, hlongest⟩ := exists_longest source
  obtain ⟨entry, hlatest, hentry, -, -⟩ := hlongest.latest
  rw [(parse_error_of_latest? h hlatest).2]
  exact covers_of_mem_missesOf hentry

end Grammar
end DeskCalc
