import DeskCalc.Calculator
import DeskCalc.Proofs.WellFormedness

/-
The log explains the error of an evaluation.

An error of reading is taken from the last entry of the log.  An error of evaluation is
recorded in an empty log: whatever is built from the words of an accepted source fails
with an error that reading cannot have recorded.
-/
namespace DeskCalc

/-! ## Last entries -/

namespace Log

variable {log : Log}

/-- An empty log has no other entry than the one that is recorded in it. -/
theorem entries_add_of_empty (h : log.entries = []) (message : String) (span : Span)
    (forced : Bool) :
    (log.add message span forced).entries = [{ message, span, turn := none, forced }] := by
  have hnone : (log.get? span.start).isSome = false := by rw [get?, h]; rfl
  rw [add, hnone, Bool.and_false, if_neg Bool.false_ne_true, put]
  show insert _ log.entries = _
  rw [h]
  rfl

theorem latest?_add_of_empty (h : log.entries = []) (message : String) (span : Span)
    (forced : Bool) :
    (log.add message span forced).latest? = some { message, span, turn := none, forced } := by
  rw [latest?, entries_add_of_empty h, List.getLast?_singleton]

theorem entries_of_latest?_eq_none (h : log.latest? = none) : log.entries = [] :=
  List.getLast?_eq_none_iff.1 h

end Log

/-- The explanation of a rejected source is the last entry of the log. -/
theorem latest?_explain {log after : Log} {cursor : Nat} {message : String} {span : Span}
    (h : explain log cursor = (message, span, after)) :
    ∃ entry, after.latest? = some entry ∧ entry.message = message ∧ entry.span = span := by
  unfold explain at h
  split at h
  · next entry hentry =>
    cases h
    exact ⟨entry, hentry, rfl, rfl⟩
  · next hnone =>
    cases h
    have hempty := Log.entries_of_latest?_eq_none hnone
    exact ⟨_, Log.latest?_add_of_empty hempty .., rfl, rfl⟩

theorem latest?_parse {source : Text} {log after : Log} {error : ParseError}
    (h : parse source log = (.error error, after)) :
    Calculator.isFromLog (.parsing error) = true ∧ ∃ entry, after.latest? = some entry ∧
      entry.message = error.message ∧ entry.span = error.span := by
  rw [parse] at h
  generalize Grammar.expression _ = outcome at h
  obtain ⟨matched, state⟩ := outcome
  dsimp only at h
  cases hexplain : explain state.skipBlanks.log state.skipBlanks.cursor with
  | mk message rest =>
    obtain ⟨span, log'⟩ := rest
    rw [hexplain] at h
    have hlatest := latest?_explain hexplain
    split at h
    · cases h
      exact ⟨rfl, hlatest⟩
    · split at h
      · cases h
        exact ⟨rfl, hlatest⟩
      · cases h

/-! ## Calls -/

/-- The source, the place marked under it, and the message. -/
def Log.reportOf (source : Text) (message : String) (span : Span) : String :=
  let input := String.ofList source
  let line := String.ofList (Log.marker source span)
  s!"  Input: {input}\n         {line}\n  Error: {message}"

theorem Log.report_of_latest? {log : Log} {entry : Diagnostic} (h : log.latest? = some entry)
    (source : Text) : log.report source = Log.reportOf source entry.message entry.span := by
  rw [Log.report, h]
  rfl

/-- The log tells how an evaluation ended: it is empty after a success, and after an error
its last entry has the wording and the place of the error, and is the one that is shown.
An error of evaluation stands alone. -/
def Log.Explains (log : Log) (source : Text) : Except CalcError Number → Prop
  | .ok _ => log.entries = []
  | .error error => ∃ entry, log.latest? = some entry ∧ entry.message = error.message ∧
      entry.span = error.span ∧ (∀ cause, error = .evaluation cause → log.entries = [entry]) ∧
        log.report source = Log.reportOf source error.message error.span

namespace Calculator

/-- The words of an accepted source are evaluated, or fail with an error of evaluation. -/
theorem evaluateWords_error {source : Text} {log : Log} {words : List Word}
    {queue : Option Register.Queue} {context : Context} {error : CalcError}
    (hparse : (parse source log).1 = .ok words)
    (herror : evaluateWords context words (queue.map Register.Queue.reader) = .error error) :
    ∃ cause, error = .evaluation cause := by
  rw [evaluateWords_eq] at herror
  rcases bind_eq_error herror with hbuild | ⟨chain, -, hrun⟩
  · obtain ⟨cause, hcause, -⟩ := Chain.isReading_ofWords hparse hbuild
    exact ⟨cause, hcause⟩
  · cases hevaluate : chain.evaluate context with
    | ok _ =>
      rw [hevaluate] at hrun
      cases hrun
    | error cause =>
      rw [hevaluate] at hrun
      exact ⟨cause, (Except.error.inj hrun).symm⟩

end Calculator

/-- After every call the log explains its result, whatever the log held before. -/
theorem log_explains_result (calculator : Calculator) (source : Text)
    (queue : Option Register.Queue) :
    (calculator.evaluate source (queue.map Register.Queue.reader)).2.log.Explains source
      (calculator.evaluate source (queue.map Register.Queue.reader)).1 := by
  rw [Calculator.evaluate_eq, Calculator.run_eq]
  cases hparse : parse source .empty with
  | mk result log =>
    cases result with
    | error error =>
      obtain ⟨hrecorded, entry, hentry, hmessage, hspan⟩ := latest?_parse hparse
      have hlog : Calculator.recordError log (.parsing error) = log := if_pos hrecorded
      show (Calculator.recordError log (.parsing error)).Explains source (.error (.parsing error))
      rw [hlog]
      refine ⟨entry, hentry, hmessage, hspan, fun cause hcause => (by cases hcause), ?_⟩
      rw [Log.report_of_latest? hentry, hmessage, hspan]
      rfl
    | ok words =>
      have hwords : (parse source .empty).1 = .ok words := by rw [hparse]
      dsimp only
      cases hresult : Calculator.evaluateWords calculator.context words
        (queue.map Register.Queue.reader) with
      | ok number => exact rfl
      | error error =>
        obtain ⟨cause, rfl⟩ := Calculator.evaluateWords_error hwords hresult
        have hempty : Log.empty.entries = [] := rfl
        have hlog : Calculator.recordError .empty (.evaluation cause) =
            Log.empty.add cause.message cause.span true := rfl
        have hentries := Log.entries_add_of_empty hempty cause.message cause.span true
        have hlatest := Log.latest?_add_of_empty hempty cause.message cause.span true
        show (Calculator.recordError .empty (.evaluation cause)).Explains source _
        rw [hlog]
        exact ⟨_, hlatest, rfl, rfl, fun _ _ => hentries, Log.report_of_latest? hlatest source⟩

end DeskCalc
