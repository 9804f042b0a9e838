import DeskCalc.CommandLine.Session
import DeskCalc.Proofs.Calculation
import DeskCalc.Proofs.Inexactness
import DeskCalc.Proofs.RegisterHistory
import Mathlib.Data.List.DropRight

/-
What the lines of a session see of each other.

A line sees the settings and the stored values.  A line that fails changes neither, although
it leaves its diagnostics with the calculator that all lines share.  Sessions that are alike
in what a line can see stay alike when both take the same line, and a session that takes a
line that fails stays like itself; everything that is printed for lines that succeed follows
from these two facts by induction on the lines.
-/
namespace DeskCalc

/-! ## Trimming -/

namespace Text

theorem trimStart_trim (text : Text) : trimStart (trim text) = trim text := by
  refine List.dropWhile_eq_self_iff.2 fun hlength => ?_
  have hprefix : trim text <+: trimStart text := List.rdropWhile_prefix isBlank _
  have hpos : 0 < (trimStart text).length := Nat.lt_of_lt_of_le hlength hprefix.length_le
  rw [List.IsPrefix.getElem hprefix hlength]
  exact List.dropWhile_get_zero_not isBlank text hpos

theorem trim_trim (text : Text) : trim (trim text) = trim text := by
  rw [trim, trimStart_trim]
  exact List.rdropWhile_idempotent isBlank (trimStart text)

end Text

/-! ## The shared calculator -/

/-- The diagnostics of earlier calls do not matter. -/
theorem Calculator.evaluate_congr {calculator calculator' : Calculator}
    (h : calculator.context = calculator'.context) (source : Text) (register : Option Register) :
    calculator.evaluate source register = calculator'.evaluate source register := by
  obtain ⟨context, log⟩ := calculator
  obtain ⟨context', log'⟩ := calculator'
  obtain rfl : context = context' := h
  rfl

theorem Calculator.context_evaluate (calculator : Calculator) (source : Text)
    (register : Option Register) :
    (calculator.evaluate source register).2.context = calculator.context := by
  rw [evaluate_eq, conclude.eq_def]
  split <;> rfl

theorem Calculator.isSome_evaluate {calculator : Calculator} {source : Text}
    {register : Option Register} {number : Number}
    (h : (calculator.evaluate source register).1 = .ok number) : number.value.isSome = true := by
  cases hparse : (parse source {}).1 with
  | error error =>
    rw [evaluate_of_parse_error hparse] at h
    cases h
  | ok words =>
    rw [evaluate_of_parse hparse, evaluateWords_eq] at h
    obtain ⟨chain, -, hevaluate⟩ := bind_eq_ok h
    obtain ⟨_, _, -, -, hvalue⟩ := Chain.evaluate_eq_ok (Chain.inEvaluation_eq_ok hevaluate)
    rw [hvalue]
    rfl

namespace CommandLine
namespace Session

/-! ## Lines and their outcomes -/

/-- What a line comes to; a blank line comes to nothing. -/
def outcome? (session : Session) (line : Text) : Option (Except CalcError Number) :=
  if line.trim.isEmpty then none
  else some (session.calculator.evaluate line.trim (some session.queue.reader)).1

def Fails (session : Session) (line : Text) : Prop :=
  ∃ error, session.outcome? line = some (.error error)

/-- The session behind a line. -/
def behind (session : Session) (line : Text) : Session := (session.step false line).1

/-- The lines that succeed, without the blanks around them, and their results. -/
def answers (session : Session) : List Text → List (Text × Number)
  | [] => []
  | line :: rest =>
      match session.outcome? line with
      | some (.ok number) => (line.trim, number) :: (session.behind line).answers rest
      | _ => (session.behind line).answers rest

/-- The lines without those that fail. -/
def withoutFailures (session : Session) : List Text → List Text
  | [] => []
  | line :: rest =>
      match session.outcome? line with
      | some (.error _) => (session.behind line).withoutFailures rest
      | _ => line :: (session.behind line).withoutFailures rest

/-- What is printed for results, the first of which goes to the slot of this turn. -/
def shown (turn : ℕ) (answers : List (Text × Number)) : String :=
  String.join (answers.mapIdx fun k answer =>
    storedLine (Register.turn (turn + k)) answer.2 answer.1 ++ "\n")

/-- A stored result is shown behind the letter of its slot, and the letters take turns. -/
theorem take_storedLine (k : ℕ) (number : Number) (source : Text) :
    (storedLine (Register.turn k) number source).toList.take 2 =
      ['@', Register.slotNames.getD (k % 26) 'a'] := by
  rw [storedLine, String.toList_ofList]
  rfl

/-! ## One line -/

/-- What a line does to a session, and what is printed for it. -/
inductive Takes (session : Session) (line : Text) : Session × Printed → Prop where
  | blank (outcome : session.outcome? line = none) : Takes session line (session, {})
  | answered (number : Number) (calculator : Calculator)
      (context : calculator.context = session.calculator.context)
      (value : number.value.isSome = true)
      (outcome : session.outcome? line = some (.ok number)) :
      Takes session line ({ session with calculator, queue := (session.queue.write number).1 },
        .outLine (storedLine (session.queue.write number).2 number line.trim))
  | failed (error : CalcError) (calculator : Calculator) (report : String)
      (context : calculator.context = session.calculator.context)
      (outcome : session.outcome? line = some (.error error)) :
      Takes session line ({ session with calculator, succeeded := false }, .errLine report)

theorem step_of_blank {session : Session} {line : Text} (h : line.trim.isEmpty = true) :
    session.step false line = (session, {}) :=
  (step_eq ..).trans (if_pos h)

theorem step_of_source {session : Session} {line : Text} (h : ¬ line.trim.isEmpty = true) :
    session.step false line = session.conclude line.trim
      (session.calculator.evaluate line.trim (some session.queue.reader)) :=
  (step_eq ..).trans (if_neg h)

theorem takes_step (session : Session) (line : Text) :
    session.Takes line (session.step false line) := by
  have hcontext := session.calculator.context_evaluate line.trim (some session.queue.reader)
  by_cases hblank : line.trim.isEmpty = true
  · rw [step_of_blank hblank]
    exact .blank (if_pos hblank)
  · rw [step_of_source hblank, conclude.eq_def]
    have houtcome : session.outcome? line =
        some (session.calculator.evaluate line.trim (some session.queue.reader)).1 :=
      if_neg hblank
    split
    · next number calculator heq =>
      rw [heq] at hcontext houtcome
      exact .answered number calculator hcontext
        (Calculator.isSome_evaluate (congrArg Prod.fst heq)) houtcome
    · next error calculator heq =>
      rw [heq] at hcontext houtcome
      exact .failed error calculator _ hcontext houtcome

/-- The sessions are alike in what a line sees of them. -/
structure Alike (session session' : Session) : Prop where
  context : session.calculator.context = session'.calculator.context
  queue : session.queue = session'.queue

variable {session session' : Session} {line line' : Text} {lines : List Text}

theorem Alike.refl (session : Session) : Alike session session := ⟨rfl, rfl⟩

theorem Alike.trans {session'' : Session} (h : Alike session session')
    (h' : Alike session' session'') : Alike session session'' :=
  ⟨h.context.trans h'.context, h.queue.trans h'.queue⟩

theorem Alike.outcome? (h : Alike session session') (hline : line.trim = line'.trim) :
    session.outcome? line = session'.outcome? line' := by
  rw [Session.outcome?, Session.outcome?, hline, h.queue, Calculator.evaluate_congr h.context]

/-- Alike sessions print the same for a line and are alike behind it. -/
theorem Alike.step (h : Alike session session') (hline : line.trim = line'.trim) :
    Alike (session.behind line) (session'.behind line') ∧
      (session.step false line).2 = (session'.step false line').2 := by
  have hevaluate := Calculator.evaluate_congr h.context line'.trim (some session'.queue.reader)
  rw [behind, behind]
  by_cases hblank : line'.trim.isEmpty = true
  · rw [step_of_blank hblank, step_of_blank (hline ▸ hblank)]
    exact ⟨h, rfl⟩
  · rw [step_of_source hblank, step_of_source (hline ▸ hblank), hline, h.queue, hevaluate]
    generalize session'.calculator.evaluate line'.trim (some session'.queue.reader) = result
    obtain ⟨outcome, calculator⟩ := result
    cases outcome with
    | ok number =>
      rw [conclude, conclude, h.queue]
      exact ⟨⟨rfl, rfl⟩, rfl⟩
    | error error => exact ⟨⟨rfl, h.queue⟩, rfl⟩

/-- A line without a result changes nothing that other lines see. -/
theorem alike_behind (h : ∀ number, session.outcome? line ≠ some (.ok number)) :
    Alike (session.behind line) session ∧ (session.step false line).2.out = "" := by
  have htakes := session.takes_step line
  unfold behind
  generalize session.step false line = taken at htakes
  cases htakes with
  | blank houtcome => exact ⟨.refl session, rfl⟩
  | answered number calculator context value outcome => exact absurd outcome (h number)
  | failed error calculator report context outcome => exact ⟨⟨context, rfl⟩, rfl⟩

theorem behind_of_ok {number : Number} (h : session.outcome? line = some (.ok number)) :
    (session.behind line).queue = (session.queue.write number).1 ∧
      (session.step false line).2.out =
        storedLine (session.queue.write number).2 number line.trim ++ "\n" ∧
      number.value.isSome = true := by
  have htakes := session.takes_step line
  unfold behind
  generalize session.step false line = taken at htakes
  cases htakes with
  | blank outcome =>
    rw [outcome] at h
    cases h
  | answered other calculator context value outcome =>
    rw [outcome] at h
    obtain rfl : other = number := Except.ok.inj (Option.some.inj h)
    exact ⟨rfl, rfl, value⟩
  | failed error calculator report context outcome =>
    rw [outcome] at h
    cases h

theorem succeeded_behind (session : Session) (line : Text) :
    (session.behind line).succeeded = false ↔ session.succeeded = false ∨ session.Fails line := by
  have htakes := session.takes_step line
  unfold behind Fails
  generalize session.step false line = taken at htakes
  cases htakes with
  | blank outcome => simp [outcome]
  | answered number calculator context value outcome => simp [outcome]
  | failed error calculator report context outcome => simp [outcome]

/-! ## Many lines -/

theorem run_behind (session : Session) (line : Text) (rest : List Text) :
    session.run false (line :: rest) = (((session.behind line).run false rest).1,
      (session.step false line).2 ++ ((session.behind line).run false rest).2) :=
  run_cons ..

theorem shown_cons (turn : ℕ) (source : Text) (number : Number) (answers : List (Text × Number)) :
    shown turn ((source, number) :: answers) =
      storedLine (Register.turn turn) number source ++ "\n" ++ shown (turn + 1) answers := by
  rw [shown, List.mapIdx_cons, String.join_cons, shown]
  simp only [Nat.add_zero, Nat.add_assoc, Nat.add_comm 1]

theorem answers_of_ok {number : Number} (h : session.outcome? line = some (.ok number))
    (rest : List Text) : session.answers (line :: rest) =
      (line.trim, number) :: (session.behind line).answers rest := by
  rw [answers, h]

theorem Alike.answers (h : Alike session session') (lines : List Text) :
    session.answers lines = session'.answers lines := by
  induction lines generalizing session session' with
  | nil => rfl
  | cons line rest ih =>
    have hline : line.trim = line.trim := rfl
    have hbehind := ih (h.step hline).1
    rw [Session.answers, Session.answers, h.outcome? rfl, hbehind]

theorem answers_of_not_ok (h : ∀ number, session.outcome? line ≠ some (.ok number))
    (rest : List Text) : session.answers (line :: rest) = session.answers rest := by
  rw [← (alike_behind h).1.answers rest, answers]
  split
  · next number hok => exact absurd hok (h number)
  · rfl

/-- A run prints its results in turn and stores them in turn. -/
theorem run_answers {values : List Number} (h : session.queue.Refines values)
    (lines : List Text) :
    (session.run false lines).2.out = shown values.length (session.answers lines) ∧
      (session.run false lines).1.queue =
        session.queue.writeAll ((session.answers lines).map Prod.snd) := by
  induction lines generalizing session values with
  | nil => exact ⟨rfl, rfl⟩
  | cons line rest ih =>
    by_cases hok : ∃ number, session.outcome? line = some (.ok number)
    · obtain ⟨number, hok⟩ := hok
      obtain ⟨hqueue, hout, -⟩ := behind_of_ok hok
      obtain ⟨hslot, hwritten⟩ := h.write number
      rw [← hqueue] at hwritten
      obtain ⟨hrest, hstored⟩ := ih hwritten
      rw [answers_of_ok hok, run_behind, shown_cons]
      constructor
      · show (session.step false line).2.out ++ ((session.behind line).run false rest).2.out = _
        rw [hout, hrest, hslot, List.length_append, List.length_singleton]
      · show ((session.behind line).run false rest).1.queue = _
        rw [hstored, hqueue]
        rfl
    · have hnot : ∀ number, session.outcome? line ≠ some (.ok number) :=
        fun number hnumber => hok ⟨number, hnumber⟩
      obtain ⟨halike, hout⟩ := alike_behind hnot
      have hbehind : (session.behind line).queue.Refines values := halike.queue ▸ h
      obtain ⟨hrest, hstored⟩ := ih hbehind
      rw [halike.answers rest] at hrest hstored
      rw [answers_of_not_ok hnot, run_behind]
      constructor
      · show (session.step false line).2.out ++ ((session.behind line).run false rest).2.out = _
        rw [hout, hrest, String.empty_append]
      · show ((session.behind line).run false rest).1.queue = _
        rw [hstored, halike.queue]

/-- The lines that succeed give the same results among themselves. -/
theorem answers_replay (session : Session) (lines : List Text) :
    session.answers ((session.answers lines).map Prod.fst) = session.answers lines := by
  induction lines generalizing session with
  | nil => rfl
  | cons line rest ih =>
    by_cases hok : ∃ number, session.outcome? line = some (.ok number)
    · obtain ⟨number, hok⟩ := hok
      have htrim : Text.trim line.trim = line.trim := Text.trim_trim line
      have hagain := ((Alike.refl session).outcome? htrim).trans hok
      have hbehind := ((Alike.refl session).step htrim).1
      rw [answers_of_ok hok, List.map_cons, answers_of_ok hagain, htrim, hbehind.answers, ih]
    · rw [answers_of_not_ok fun number hnumber => hok ⟨number, hnumber⟩, ih]

theorem answers_withoutFailures (session : Session) (lines : List Text) :
    session.answers (session.withoutFailures lines) = session.answers lines := by
  induction lines generalizing session with
  | nil => rfl
  | cons line rest ih =>
    rw [withoutFailures]
    split
    · next error hfails =>
      have hnot : ∀ number, session.outcome? line ≠ some (.ok number) := by simp [hfails]
      rw [answers_of_not_ok hnot, ← (alike_behind hnot).1.answers, ih,
        (alike_behind hnot).1.answers]
    · rw [answers, answers, ih]

theorem value_of_mem_answers {lines : List Text} {answer : Text × Number}
    (h : answer ∈ session.answers lines) : answer.2.value.isSome = true := by
  induction lines generalizing session with
  | nil => cases h
  | cons line rest ih =>
    by_cases hok : ∃ number, session.outcome? line = some (.ok number)
    · obtain ⟨number, hok⟩ := hok
      rw [answers_of_ok hok] at h
      rcases List.mem_cons.1 h with rfl | h
      · exact (behind_of_ok hok).2.2
      · exact ih h
    · rw [answers_of_not_ok fun number hnumber => hok ⟨number, hnumber⟩] at h
      exact ih h

/-- A run is a failure once a line has failed where it stood. -/
theorem succeeded_run (session : Session) (lines : List Text) :
    (session.run false lines).1.succeeded = false ↔ session.succeeded = false ∨
      ∃ before line after, lines = before ++ line :: after ∧
        (session.run false before).1.Fails line := by
  induction lines generalizing session with
  | nil => simp [run, runM]
  | cons line rest ih =>
    rw [run_behind, ih, succeeded_behind, or_assoc]
    refine or_congr_right ⟨?_, ?_⟩
    · rintro (hfails | ⟨before, other, after, rfl, hfails⟩)
      · exact ⟨[], line, rest, rfl, hfails⟩
      · exact ⟨line :: before, other, after, rfl, by rwa [run_behind]⟩
    · rintro ⟨before, other, after, hlines, hfails⟩
      cases before with
      | nil =>
        obtain ⟨rfl, rfl⟩ := List.cons.inj hlines
        exact Or.inl hfails
      | cons first before =>
        obtain ⟨rfl, rfl⟩ := List.cons.inj hlines
        rw [run_behind] at hfails
        exact Or.inr ⟨before, other, after, rfl, hfails⟩

/-- No line fails once those that fail are gone. -/
theorem succeeded_withoutFailures (h : Alike session session') (lines : List Text) :
    (session'.run false (session.withoutFailures lines)).1.succeeded = session'.succeeded := by
  induction lines generalizing session session' with
  | nil => rfl
  | cons line rest ih =>
    rw [withoutFailures]
    split
    · next error hfails =>
      have hnot : ∀ number, session.outcome? line ≠ some (.ok number) := by simp [hfails]
      exact ih ((alike_behind hnot).1.trans h)
    · next hkept =>
      have hline : ¬ session'.Fails line := by
        rintro ⟨error, herror⟩
        exact hkept error ((h.outcome? rfl).trans herror)
      have hbehind := succeeded_behind session' line
      rw [or_iff_left hline] at hbehind
      rw [run_behind, ih (h.step rfl).1]
      exact Bool.eq_iff_iff.2 (by simpa using not_congr hbehind)

theorem context_run (session : Session) (lines : List Text) :
    (session.run false lines).1.calculator.context = session.calculator.context := by
  induction lines generalizing session with
  | nil => rfl
  | cons line rest ih =>
    rw [run_behind, ih, behind]
    have htakes := session.takes_step line
    generalize session.step false line = taken at htakes
    cases htakes with
    | blank outcome => rfl
    | answered number calculator context value outcome => exact context
    | failed error calculator report context outcome => exact context

/-! ## From the first line on -/

/-- The session behind the lines of an input, and what is printed for them. -/
def fed (context : Context) (lines : List Text) : Session × Printed :=
  (fresh context).run false lines

section Fresh

variable {context : Context} {lines lines' : List Text}

theorem refines_run (context : Context) (lines : List Text) :
    ((fresh context).run false lines).1.queue.Refines
      (((fresh context).answers lines).map Prod.snd) := by
  rw [(run_answers Register.Queue.refines_empty lines).2]
  exact Register.Queue.refines_writeAll _

/-- Inputs whose successful lines are the same leave sessions that are alike. -/
theorem alike_run (h : ((fresh context).answers lines).map Prod.fst =
      ((fresh context).answers lines').map Prod.fst) :
    Alike ((fresh context).run false lines).1 ((fresh context).run false lines').1 := by
  have hanswers : (fresh context).answers lines = (fresh context).answers lines' := by
    rw [← answers_replay _ lines, h, answers_replay]
  refine ⟨?_, ?_⟩
  · rw [context_run, context_run]
  · rw [(run_answers Register.Queue.refines_empty lines).2,
      (run_answers Register.Queue.refines_empty lines').2, hanswers]

end Fresh

/-- The register word for the latest result takes the last value of the history. -/
theorem wordValues_latest {queue : Register.Queue} {values : List Number}
    (h : queue.Refines values) (context : Context) {word : Word} (hkind : word.kind = .register)
    (hvalue : word.value = "@@".toList) :
    Chain.wordValues context (some queue.reader) word =
      (Chain.atWord word (Register.Queue.found Register.lastKey values.getLast?)
        >>= Chain.storedValue word).map fun value => [value] := by
  have hkey : Chain.registerKey word = Register.lastKey := by
    rw [Chain.registerKey, hvalue]
    rfl
  rw [Chain.wordValues, hkind, ← h.read_lastKey, ← hkey]
  rfl

end Session

open Session

/-- The failing line in between takes no slot. -/
example : (fed {} ["1+1".toList, " 1/0".toList, "@@*2 ".toList]).2.out =
    "@a: 2           = 1+1\n@b: 4           = @@*2\n" := by
  decide +kernel

end CommandLine
end DeskCalc
