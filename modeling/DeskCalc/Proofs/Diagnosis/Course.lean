import DeskCalc.Proofs.Diagnosis.Log
import DeskCalc.Proofs.Reading.Reader

/-
Courses: what rules read and what they find missing on the way.

A course adds to a reader the diagnostics of the attempts that it makes, in their order,
also of those it goes back from.  `Follows` ties a rule to its course: the rule reads what
the reader reads, and its log is what noting the diagnostics one after another makes of it.
-/
namespace DeskCalc
namespace Grammar

structure Course where
  reader : Reader
  misses : Place → List Diagnostic

namespace Course

/-- What is missed by courses in order, up to the first that finds nothing. -/
def missesInOrder : List Course → Place → List Diagnostic
  | [], _ => []
  | course :: courses, p =>
      course.misses p ++
        match course.reader p with
        | none => []
        | some (_, q) => missesInOrder courses q

/-- What is missed by alternatives, up to the first that finds something. -/
def missesOfFirst : List Course → Place → List Diagnostic
  | [], _ => []
  | course :: courses, p =>
      course.misses p ++ if (course.reader p).isSome then [] else missesOfFirst courses p

/-- What is missed by a course over and over. -/
def missesWithin (course : Course) : Nat → Place → List Diagnostic
  | 0, _ => []
  | fuel + 1, p =>
      course.misses p ++
        match course.reader p with
        | none => []
        | some (_, q) => if q.offset = p.offset then [] else missesWithin course fuel q

def inOrder (courses : List Course) : Course :=
  ⟨.inOrder (courses.map reader), missesInOrder courses⟩

def firstOf (courses : List Course) : Course :=
  ⟨.firstOf (courses.map reader), missesOfFirst courses⟩

def followed (first : Course) (courses : List Course) : Course :=
  ⟨.followed first.reader (courses.map reader), missesInOrder (first :: courses)⟩

def repetition (course : Course) : Course :=
  ⟨.repetition course.reader, fun p => missesWithin course (Text.byteSize p.rest + 1) p⟩

end Course

/-- The log of the rule receives the diagnostics. -/
def Logs (rule : Rule) (misses : Place → List Diagnostic) : Prop :=
  ∀ {state : State} {p : Place}, state.At p → Log.NotesAll state.log (misses p) (rule state).2.log

structure Follows (rule : Rule) (course : Course) : Prop where
  reads : Reads rule course.reader
  logs : Logs rule course.misses

namespace Follows

open Log

variable {rule : Rule} {course : Course} {rules : List Rule} {courses : List Course}

theorem reads_all (h : List.Forall₂ Follows rules courses) :
    List.Forall₂ Reads rules (courses.map Course.reader) := by
  induction h with
  | nil => exact .nil
  | cons hfirst _ ih => exact .cons hfirst.reads ih

theorem inOrder_logs (h : List.Forall₂ Follows rules courses) :
    Logs (Rule.inOrder rules) (Course.missesInOrder courses) := by
  induction h with
  | nil => exact fun _ => .nil
  | @cons rule course _ _ hfirst _ ih =>
    intro state p hat
    have hlogs := hfirst.logs hat
    rw [Course.missesInOrder, Rule.inOrder]
    cases hread : course.reader p with
    | none =>
      obtain ⟨cursor, log, hrun⟩ := hfirst.reads.failed hat hread
      rw [hrun] at hlogs ⊢
      exact hlogs.append .nil
    | some found =>
      obtain ⟨words, q⟩ := found
      obtain ⟨log, hrun, hq⟩ := hfirst.reads.matched hat hread
      rw [hrun] at hlogs ⊢
      exact hlogs.append (ih hq)

theorem sequence (h : List.Forall₂ Follows rules courses) :
    Follows (Rule.sequence rules) (Course.inOrder courses) where
  reads := .sequence (reads_all h)
  logs {state p} hat := by
    have hlogs := inOrder_logs h hat
    rw [Rule.sequence]
    generalize Rule.inOrder rules state = outcome at hlogs ⊢
    obtain ⟨matched, after⟩ := outcome
    cases matched <;> exact hlogs

theorem alternative (h : List.Forall₂ Follows rules courses) :
    Follows (Rule.alternative rules) (Course.firstOf courses) where
  reads := .alternative (reads_all h)
  logs {state p} hat := by
    -- The rules are tried from one snapshot, with a log that grows.
    suffices hfrom : ∀ log, NotesAll log (Course.missesOfFirst courses p)
        (Rule.firstFrom state.snapshot rules { state with log }).2.log from hfrom state.log
    induction h with
    | nil => exact fun _ => .nil
    | @cons rule course _ _ hfirst _ ih =>
      intro log
      have hlogs := hfirst.logs (hat.with_log log)
      rw [Course.missesOfFirst, Rule.firstFrom]
      cases hread : course.reader p with
      | none =>
        obtain ⟨cursor, log', hrun⟩ := hfirst.reads.failed (hat.with_log log) hread
        rw [hrun] at hlogs ⊢
        have hback : { state with cursor, log := log' }.restore state.snapshot =
            { state with log := log' } := State.restore_failed state cursor log'
        refine hlogs.append ?_
        dsimp only
        rw [hback]
        exact ih log'
      | some found =>
        obtain ⟨words, q⟩ := found
        obtain ⟨log', hrun, -⟩ := hfirst.reads.matched (hat.with_log log) hread
        rw [hrun] at hlogs ⊢
        exact hlogs.append .nil

theorem asFarAs_logs (h : List.Forall₂ Follows rules courses) (matched : Bool) :
    Logs (Rule.asFarAs matched rules) (Course.missesInOrder courses) := by
  induction h generalizing matched with
  | nil => exact fun _ => .nil
  | @cons rule course _ _ hfirst _ ih =>
    intro state p hat
    have hlogs := hfirst.logs hat
    rw [Course.missesInOrder, Rule.asFarAs]
    cases hread : course.reader p with
    | none =>
      obtain ⟨cursor, log, hrun⟩ := hfirst.reads.failed hat hread
      rw [hrun] at hlogs ⊢
      exact hlogs.append .nil
    | some found =>
      obtain ⟨words, q⟩ := found
      obtain ⟨log, hrun, hq⟩ := hfirst.reads.matched hat hread
      rw [hrun] at hlogs ⊢
      exact hlogs.append (ih true hq)

theorem optionalSequence (hfirst : Follows rule course) (h : List.Forall₂ Follows rules courses) :
    Follows (Rule.optionalSequence (rule :: rules)) (Course.followed course courses) where
  reads := .optionalSequence hfirst.reads (reads_all h)
  logs := asFarAs_logs (.cons hfirst h) false

theorem repeatWithin_logs (h : Follows rule course) (fuel : Nat) {state : State} {p : Place}
    (hat : state.At p) :
    NotesAll state.log (course.missesWithin fuel p) (Rule.repeatWithin rule fuel state).2.log := by
  induction fuel generalizing state p with
  | zero => exact .nil
  | succ fuel ih =>
    have hlogs := h.logs hat
    rw [Course.missesWithin, Rule.repeatWithin]
    cases hread : course.reader p with
    | none =>
      obtain ⟨cursor, log, hrun⟩ := h.reads.failed hat hread
      rw [hrun] at hlogs ⊢
      exact hlogs.append .nil
    | some found =>
      obtain ⟨words, q⟩ := found
      obtain ⟨log, hrun, hq⟩ := h.reads.matched hat hread
      have hmoved : (state.extend words q log).cursor = state.cursor ↔ q.offset = p.offset := by
        rw [← hat.cursor]
        rfl
      rw [hrun] at hlogs ⊢
      dsimp only at hlogs ⊢
      by_cases hstop : q.offset = p.offset
      · rw [if_pos hstop, if_pos (hmoved.2 hstop)]
        exact hlogs.append .nil
      · rw [if_neg hstop, if_neg (mt hmoved.1 hstop)]
        exact hlogs.append (ih hq)

theorem repetition (h : Follows rule course) :
    Follows (Rule.repetition rule false) (Course.repetition course) where
  reads := .repetition h.reads
  logs {state p} hat := by
    have hlogs := repeatWithin_logs h (state.remaining + 1) hat
    rw [hat.remaining] at hlogs
    rw [Rule.repetition, hat.remaining]
    generalize Rule.repeatWithin rule (Text.byteSize p.rest + 1) state = outcome at hlogs ⊢
    obtain ⟨count, after⟩ := outcome
    cases count <;> exact hlogs

end Follows
end Grammar
end DeskCalc
