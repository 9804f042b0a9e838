import DeskCalc.Proofs.Diagnosis.Log
import Mathlib.Data.Finset.Card
import Mathlib.Data.List.Perm.Basic

/-
Which of several reports at one position survives.

What a position holds after all reports is decided by the reports at that position alone, in the
order in which they came (`get?_ofReports`).  The last forced one wins; without one, it is the
first expectation of what is due, or else the first report of all.
-/
namespace DeskCalc

/-- What is reported to a log: a message, or a token that was expected and not found. -/
inductive Report where
  | message (text : String) (span : Span) (forced : Bool)
  | missing (expectation : Expectation) (offset : Nat) (due : Turn) (forced : Bool)
  deriving DecidableEq, Repr

namespace Report

def offset : Report → Nat
  | message _ span _ => span.start
  | missing _ offset _ _ => offset

def forced : Report → Bool
  | message _ _ forced => forced
  | missing _ _ _ forced => forced

/-- The entry that the report writes, if it writes one. -/
def entry : Report → Diagnostic
  | message text span forced => { message := text, span, turn := none, forced }
  | missing expectation offset _ forced => Log.expected expectation offset forced

/-- An expectation was reported with this as what is due. -/
def Follows (due : Turn) : Report → Prop
  | message _ _ _ => True
  | missing _ _ due' _ => due' = due

/-- The report is an expectation of this class. -/
def isOf (turn : Turn) (report : Report) : Bool := report.entry.turn == some turn

def noteIn (report : Report) (log : Log) : Log :=
  match report with
  | message text span forced => log.add text span forced
  | missing expectation offset due forced => log.expect expectation offset due forced

/-- Whether the report takes the place of an entry at its position. -/
def replaces (report : Report) (held : Diagnostic) : Bool :=
  match report with
  | message _ _ forced => forced
  | missing expectation _ due forced => Log.outranks expectation due forced held

/-- What the position of a report holds afterwards. -/
def survivor (report : Report) : Option Diagnostic → Diagnostic
  | none => report.entry
  | some held => if report.replaces held then report.entry else held

variable {report : Report} {held : Diagnostic} {due : Turn}

theorem start_entry (report : Report) : report.entry.span.start = report.offset := by
  cases report <;> rfl

theorem forced_entry (report : Report) : report.entry.forced = report.forced := by
  cases report <;> rfl

theorem notes (report : Report) (log : Log) : Log.Notes log report.entry (report.noteIn log) := by
  cases report with
  | message text span forced => exact Log.notes_add log text span forced
  | missing expectation offset due forced => exact Log.notes_expect log expectation offset due forced

/-- A report is written unless it gives way to what stands at its position. -/
theorem noteIn_eq (report : Report) (log : Log) : report.noteIn log =
    match log.get? report.offset with
    | none => log.put report.entry
    | some held => if report.replaces held then log.put report.entry else log := by
  cases report with
  | message text span forced =>
    show log.add text span forced = match log.get? span.start with | none => _ | some held => _
    rw [Log.add]
    cases log.get? span.start with
    | none => rw [Option.isSome_none, Bool.and_false, if_neg Bool.false_ne_true]; rfl
    | some held => cases forced <;> rfl
  | missing expectation offset due forced => rfl

/-- A report decides about its own position and no other one. -/
theorem get?_noteIn (report : Report) (log : Log) (offset : Nat) :
    (report.noteIn log).get? offset =
      if report.offset = offset then some (report.survivor (log.get? offset))
      else log.get? offset := by
  have hput : (log.put report.entry).get? offset =
      if report.offset = offset then some report.entry else log.get? offset := by
    rw [Log.get?_put, start_entry]
  rw [noteIn_eq]
  split
  · next hnone =>
    rw [hput]
    split
    · next hoffset => rw [← hoffset, hnone, survivor]
    · rfl
  · next held hheld =>
    by_cases hreplaces : report.replaces held = true
    · rw [if_pos hreplaces, hput]
      split
      · next hoffset => rw [← hoffset, hheld, survivor, if_pos hreplaces]
      · rfl
    · rw [if_neg hreplaces]
      split
      · next hoffset => rw [← hoffset, hheld, survivor, if_neg hreplaces]
      · rfl

theorem replaces_of_forced (hforced : report.forced = true) (held : Diagnostic) :
    report.replaces held = true := by
  cases report with
  | message text span forced => exact hforced
  | missing expectation offset due forced =>
    obtain rfl : forced = true := hforced
    rfl

/-- What is forced does not give way. -/
theorem replaces_forced (hforced : report.forced = false) (hheld : held.forced = true) :
    report.replaces held = false := by
  cases report with
  | message text span forced => exact hforced
  | missing expectation offset due forced =>
    obtain rfl : forced = false := hforced
    rw [replaces, Log.outranks, hheld]
    rfl

/-- What is of the class that is due does not give way. -/
theorem replaces_fit (hforced : report.forced = false) (hfollows : report.Follows due)
    (hturn : held.turn = some due) : report.replaces held = false := by
  cases report with
  | message text span forced => exact hforced
  | missing expectation offset due' forced =>
    obtain rfl : forced = false := hforced
    obtain rfl : due' = due := hfollows
    rw [replaces, Log.outranks, hturn, bne_self_eq_false, Bool.and_false]
    rfl

/-- Anything else that is not forced gives way to an expectation of what is due. -/
theorem replaces_unfit (hforced : report.forced = false) (hfollows : report.Follows due)
    (hheld : held.forced = false) (hturn : held.turn ≠ some due) :
    report.replaces held = report.isOf due := by
  cases report with
  | message text span forced => exact hforced
  | missing expectation offset due' forced =>
    obtain rfl : forced = false := hforced
    obtain rfl : due' = due := hfollows
    rw [replaces, Log.outranks, hheld, bne_iff_ne.2 hturn]
    rfl

end Report

/-! ## What a position holds -/

namespace Log

/-- The log of reports that come one after another. -/
def ofReports (reports : List Report) : Log :=
  reports.foldl (fun log report => report.noteIn log) .empty

/-- What a position holds after reports that are all at it. -/
def heldAfter (held : Option Diagnostic) (reports : List Report) : Option Diagnostic :=
  reports.foldl (fun held report => some (report.survivor held)) held

/-- The reports at a position. -/
def reportsAt (offset : Nat) (reports : List Report) : List Report :=
  reports.filter fun report => report.offset == offset

section Held

variable {reports front back : List Report} {report : Report} {held : Diagnostic} {offset : Nat}
  {due : Turn}

theorem get?_foldl_noteIn (reports : List Report) (log : Log) (offset : Nat) :
    (reports.foldl (fun log report => report.noteIn log) log).get? offset =
      heldAfter (log.get? offset) (reportsAt offset reports) := by
  induction reports generalizing log with
  | nil => rfl
  | cons report rest ih =>
    rw [List.foldl_cons, ih, Report.get?_noteIn, reportsAt, reportsAt, List.filter_cons]
    by_cases hoffset : report.offset = offset
    · rw [if_pos hoffset, if_pos (beq_iff_eq.2 hoffset)]
      rfl
    · rw [if_neg hoffset, if_neg (by simpa using hoffset)]

/-- Reports at other positions do not matter. -/
theorem get?_ofReports (reports : List Report) (offset : Nat) :
    (ofReports reports).get? offset = heldAfter none (reportsAt offset reports) :=
  get?_foldl_noteIn reports .empty offset

/-- An entry stays where all that comes gives way to it. -/
theorem heldAfter_of_stays (h : ∀ report ∈ reports, report.replaces held = false) :
    heldAfter (some held) reports = some held := by
  induction reports with
  | nil => rfl
  | cons report rest ih =>
    obtain ⟨hfirst, hrest⟩ := List.forall_mem_cons.1 h
    have hstays : report.survivor (some held) = held := by
      rw [Report.survivor, if_neg (by rw [hfirst]; exact Bool.false_ne_true)]
    rw [heldAfter, List.foldl_cons, hstays]
    exact ih hrest

theorem heldAfter_of_forced (hforced : report.forced = true)
    (hback : ∀ later ∈ back, later.forced = false) (start : Option Diagnostic) :
    heldAfter start (front ++ report :: back) = some report.entry := by
  have hwritten : ∀ start, report.survivor start = report.entry := by
    intro start
    cases start with
    | none => rfl
    | some held => rw [Report.survivor, if_pos (report.replaces_of_forced hforced held)]
  rw [heldAfter, List.foldl_append, List.foldl_cons, hwritten]
  refine heldAfter_of_stays fun later hlater => ?_
  exact later.replaces_forced (hback later hlater) (report.forced_entry.trans hforced)

/-- What is not of the class that is due makes room for the first expectation that is. -/
theorem heldAfter_of_unfit (hheld : held.forced = false) (hturn : held.turn ≠ some due)
    (hforced : ∀ report ∈ reports, report.forced = false)
    (hdue : ∀ report ∈ reports, report.Follows due) :
    heldAfter (some held) reports =
      ((reports.find? (Report.isOf due)).map Report.entry).or (some held) := by
  induction reports with
  | nil => rfl
  | cons report rest ih =>
    obtain ⟨hfirst, hrest⟩ := List.forall_mem_cons.1 hforced
    obtain ⟨hfollows, hfollow⟩ := List.forall_mem_cons.1 hdue
    have hreplaces := report.replaces_unfit hfirst hfollows hheld hturn
    rw [heldAfter, List.foldl_cons, Report.survivor, hreplaces]
    by_cases hof : report.isOf due = true
    · rw [if_pos hof, List.find?_cons_of_pos hof]
      exact heldAfter_of_stays fun later hlater =>
        later.replaces_fit (hrest later hlater) (hfollow later hlater) (beq_iff_eq.1 hof)
    · rw [if_neg hof, List.find?_cons_of_neg hof]
      exact ih hrest hfollow

/-- Without a forced report, the first expectation of what is due stays, or else the first
report. -/
theorem heldAfter_of_unforced (hforced : ∀ report ∈ reports, report.forced = false)
    (hdue : ∀ report ∈ reports, report.Follows due) :
    heldAfter none reports =
      ((reports.find? (Report.isOf due)).or reports.head?).map Report.entry := by
  cases reports with
  | nil => rfl
  | cons report rest =>
    obtain ⟨hfirst, hrest⟩ := List.forall_mem_cons.1 hforced
    obtain ⟨-, hfollow⟩ := List.forall_mem_cons.1 hdue
    rw [heldAfter, List.foldl_cons, Report.survivor, List.head?_cons]
    by_cases hof : report.isOf due = true
    · rw [List.find?_cons_of_pos hof]
      exact heldAfter_of_stays fun later hlater =>
        later.replaces_fit (hrest later hlater) (hfollow later hlater) (beq_iff_eq.1 hof)
    · rw [List.find?_cons_of_neg hof, Option.map_or]
      exact heldAfter_of_unfit (report.forced_entry.trans hfirst)
        (fun hturn => hof (beq_iff_eq.2 hturn)) hrest hfollow

/-- The last forced report of all. -/
theorem heldAfter_of_last_forced (h : (reports.filter Report.forced).getLast? = some report)
    (start : Option Diagnostic) : heldAfter start reports = some report.entry := by
  obtain ⟨before, hforced⟩ := List.getLast?_eq_some_iff.1 h
  obtain ⟨front, rest, rfl, -, hlast⟩ := List.filter_eq_append_iff.1 hforced
  obtain ⟨between, back, rfl, -, hreport, hback⟩ := List.filter_eq_cons_iff.1 hlast
  rw [← List.append_assoc]
  refine heldAfter_of_forced hreport (fun later hlater => ?_) start
  exact Bool.eq_false_of_not_eq_true (List.filter_eq_nil_iff.1 hback later hlater)

end Held

/-! ## The whole log -/

section Whole

variable (reports : List Report)

theorem notesAll_foldl (log : Log) : NotesAll log (reports.map Report.entry)
    (reports.foldl (fun log report => report.noteIn log) log) := by
  induction reports generalizing log with
  | nil => exact .nil
  | cons report rest ih => exact .cons (report.notes log) (ih _)

theorem notesAll_ofReports : NotesAll {} (reports.map Report.entry) (ofReports reports) :=
  notesAll_foldl reports .empty

/-- The latest entry is that of the greatest position. -/
theorem latest?_ofReports : (ofReports reports).latest? =
    (reports.map Report.offset).max?.bind (ofReports reports).get? := by
  cases hmax : (reports.map Report.offset).max? with
  | none =>
    obtain rfl := List.map_eq_nil_iff.1 (List.max?_eq_none_iff.1 hmax)
    rfl
  | some greatest =>
    obtain ⟨hmem, hbound⟩ := List.max?_eq_some_iff.1 hmax
    obtain ⟨report, hreport, rfl⟩ := List.mem_map.1 hmem
    obtain ⟨found, hlatest, -, -, hget⟩ := (notesAll_ofReports reports).latest
      (List.mem_map_of_mem hreport) fun entry hentry => by
        obtain ⟨other, hother, rfl⟩ := List.mem_map.1 hentry
        rw [other.start_entry, report.start_entry]
        exact hbound _ (List.mem_map_of_mem hother)
    rw [report.start_entry] at hget
    rw [hlatest, Option.bind_some, hget]

/-- There is one entry for each position. -/
theorem size_ofReports : (ofReports reports).size = (reports.map Report.offset).toFinset.card := by
  have hnodup : ((ofReports reports).entries.map fun entry => entry.span.start).Nodup := by
    rw [List.Nodup, List.pairwise_map]
    exact (ofReports reports).ascending.imp fun hlt => Nat.ne_of_lt hlt
  have hsame : ((ofReports reports).entries.map fun entry => entry.span.start).toFinset =
      (reports.map Report.offset).toFinset := by
    ext offset
    rw [List.mem_toFinset, List.mem_toFinset, List.mem_map, List.mem_map]
    constructor
    · rintro ⟨entry, hentry, rfl⟩
      rcases (notesAll_ofReports reports).origin (get?_of_mem hentry) with hnone | hmem
      · cases hnone
      · obtain ⟨report, hreport, rfl⟩ := List.mem_map.1 hmem
        exact ⟨report, hreport, report.start_entry.symm⟩
    · rintro ⟨report, hreport, rfl⟩
      obtain ⟨entry, hentry⟩ := Option.isSome_iff_exists.1 ((notesAll_ofReports reports).isSome
        (Or.inr ⟨report.entry, List.mem_map_of_mem hreport, report.start_entry.symm⟩))
      exact ⟨entry, mem_of_get? hentry⟩
  rw [← hsame, List.toFinset_card_of_nodup hnodup, List.length_map, size]

end Whole

/-! ## The class of what survives -/

section Turn

variable {reports others : List Report} {offset : Nat} {due : Turn}

/-- The class of the entry at a position, if it has one. -/
def turnAt (offset : Nat) (reports : List Report) : Option (Option Turn) :=
  ((ofReports reports).get? offset).map Diagnostic.turn

/-- No report at the position is forced, and all expectations there were told the same class. -/
def Plain (due : Turn) (offset : Nat) (reports : List Report) : Prop :=
  ∀ report ∈ reportsAt offset reports, report.forced = false ∧ report.Follows due

theorem Plain.get? (h : Plain due offset reports) : (ofReports reports).get? offset =
    (((reportsAt offset reports).find? (Report.isOf due)).or
      (reportsAt offset reports).head?).map Report.entry := by
  rw [get?_ofReports]
  exact heldAfter_of_unforced (fun report hreport => (h report hreport).1)
    fun report hreport => (h report hreport).2

theorem perm_reportsAt (hperm : others.Perm reports) (offset : Nat) :
    (reportsAt offset others).Perm (reportsAt offset reports) := hperm.filter _

theorem Plain.perm (h : Plain due offset reports) (hperm : others.Perm reports) :
    Plain due offset others :=
  fun report hreport => h report ((perm_reportsAt hperm offset).mem_iff.1 hreport)

/-- One expectation of what is due is enough. -/
theorem Plain.turnAt_of_fit (h : Plain due offset reports)
    (hfit : ∃ report ∈ reportsAt offset reports, report.isOf due = true) :
    turnAt offset reports = some (some due) := by
  cases hfound : (reportsAt offset reports).find? (Report.isOf due) with
  | none =>
    obtain ⟨report, hreport, hof⟩ := hfit
    exact absurd hof (List.find?_eq_none.1 hfound report hreport)
  | some report =>
    have hof : report.isOf due = true := List.find?_some hfound
    have hturn : report.entry.turn = some due := beq_iff_eq.1 hof
    rw [turnAt, h.get?, hfound, Option.some_or, Option.map_some, Option.map_some, hturn]

/-- Without one, the first report decides. -/
theorem Plain.turnAt_of_unfit (h : Plain due offset reports)
    (hunfit : ∀ report ∈ reportsAt offset reports, ¬ report.isOf due = true) :
    turnAt offset reports =
      (reportsAt offset reports).head?.map fun report => report.entry.turn := by
  rw [turnAt, h.get?, List.find?_eq_none.2 hunfit, Option.none_or, Option.map_map]
  rfl

theorem Plain.turnAt_eq_due_iff (h : Plain due offset reports) :
    turnAt offset reports = some (some due) ↔
      ∃ report ∈ reportsAt offset reports, report.isOf due = true := by
  refine ⟨fun hturn => ?_, h.turnAt_of_fit⟩
  by_contra hunfit
  rw [h.turnAt_of_unfit fun report hreport hof => hunfit ⟨report, hreport, hof⟩] at hturn
  obtain ⟨report, hhead, hdue⟩ := Option.map_eq_some_iff.1 hturn
  exact hunfit ⟨report, List.mem_of_mem_head? hhead, beq_iff_eq.2 hdue⟩

/-- The position has messages, and expectations of which none is of the class that is due. -/
def Mixed (due : Turn) (offset : Nat) (reports : List Report) : Prop :=
  (∀ report ∈ reportsAt offset reports, ¬ report.isOf due = true) ∧
    (∃ report ∈ reportsAt offset reports, report.entry.turn = none) ∧
      ∃ report ∈ reportsAt offset reports, report.entry.turn ≠ none

/-- There are only two classes. -/
theorem turn_eq_of_ne {turn turn' : Option Turn} (hturn : turn ≠ some due)
    (hturn' : turn' ≠ some due) (hnone : turn = none ↔ turn' = none) : turn = turn' := by
  revert hturn hturn' hnone
  cases due <;> rcases turn with - | - | - <;> rcases turn' with - | - | - <;> simp

/-- A report at the position that is put in front of all others. -/
theorem Plain.turnAt_cons_erase (h : Plain due offset reports)
    (hunfit : ∀ report ∈ reportsAt offset reports, ¬ report.isOf due = true) {report : Report}
    (hreport : report ∈ reportsAt offset reports) :
    turnAt offset (report :: reports.erase report) = some report.entry.turn := by
  have hperm := (List.perm_cons_erase (List.mem_filter.1 hreport).1).symm
  have hhere : report.offset = offset := beq_iff_eq.1 (List.mem_filter.1 hreport).2
  rw [(h.perm hperm).turnAt_of_unfit fun other hother =>
      hunfit other ((perm_reportsAt hperm offset).mem_iff.1 hother),
    reportsAt, List.filter_cons, if_pos (beq_iff_eq.2 hhere)]
  rfl

/-- The order of the reports decides about the class only where the position is mixed. -/
theorem Plain.turnAt_perm_iff (h : Plain due offset reports) :
    (∀ others : List Report, others.Perm reports → turnAt offset others = turnAt offset reports) ↔
      ¬ Mixed due offset reports := by
  constructor
  · rintro hsame ⟨hunfit, ⟨message, hmessage, hnone⟩, ⟨missing, hmissing, hsome⟩⟩
    have hperm : ∀ {report}, report ∈ reportsAt offset reports →
        (report :: reports.erase report).Perm reports := fun hreport =>
      (List.perm_cons_erase (List.mem_filter.1 hreport).1).symm
    have hfirst := (h.turnAt_cons_erase hunfit hmessage).symm.trans (hsame _ (hperm hmessage))
    have hother := (h.turnAt_cons_erase hunfit hmissing).symm.trans (hsame _ (hperm hmissing))
    exact hsome ((Option.some.inj (hother.trans hfirst.symm)).trans hnone)
  · intro hmixed others hperm
    have hhere := perm_reportsAt hperm offset
    by_cases hfit : ∃ report ∈ reportsAt offset reports, report.isOf due = true
    · rw [h.turnAt_of_fit hfit, (h.perm hperm).turnAt_of_fit]
      obtain ⟨report, hreport, hof⟩ := hfit
      exact ⟨report, hhere.mem_iff.2 hreport, hof⟩
    · have hunfit : ∀ report ∈ reportsAt offset reports, ¬ report.isOf due = true :=
        fun report hreport hof => hfit ⟨report, hreport, hof⟩
      rw [h.turnAt_of_unfit hunfit, (h.perm hperm).turnAt_of_unfit fun report hreport =>
        hunfit report (hhere.mem_iff.1 hreport)]
      cases hother : (reportsAt offset others).head? with
      | none =>
        rw [List.head?_eq_none_iff] at hother
        rw [hother] at hhere
        rw [← hhere.nil_eq]
        rfl
      | some other =>
        have hmem := hhere.mem_iff.1 (List.mem_of_mem_head? hother)
        obtain ⟨first, hfirst⟩ := Option.isSome_iff_exists.1
          (List.isSome_head?.2 (List.ne_nil_of_mem hmem))
        have hfirstMem := List.mem_of_mem_head? hfirst
        have hturn : ∀ report ∈ reportsAt offset reports, report.entry.turn ≠ some due :=
          fun report hreport hdue => hunfit report hreport (beq_iff_eq.2 hdue)
        rw [hfirst, Option.map_some, Option.map_some,
          turn_eq_of_ne (hturn other hmem) (hturn first hfirstMem)]
        exact ⟨fun hnone => by_contra fun hsome => hmixed
            ⟨hunfit, ⟨other, hmem, hnone⟩, ⟨first, hfirstMem, hsome⟩⟩,
          fun hnone => by_contra fun hsome => hmixed
            ⟨hunfit, ⟨first, hfirstMem, hnone⟩, ⟨other, hmem, hsome⟩⟩⟩

end Turn
end Log

open Log

/-- Reports at other positions never matter.  The last forced report wins.  Without one, if all
expectations were told the same class, the first of that class stays, or else the first report;
their order decides about the class that is left only where messages meet expectations that do
not fit.  The latest entry is that of the greatest position, and each position counts once. -/
theorem reports_resolved (reports : List Report) (offset : ℕ) :
    (ofReports reports).get? offset = (ofReports (reportsAt offset reports)).get? offset ∧
      (∀ last, ((reportsAt offset reports).filter Report.forced).getLast? = some last →
        (ofReports reports).get? offset = some last.entry) ∧
      (∀ due, Plain due offset reports →
        (ofReports reports).get? offset =
            (((reportsAt offset reports).find? (Report.isOf due)).or
              (reportsAt offset reports).head?).map Report.entry ∧
          (∀ others : List Report, others.Perm reports →
            (turnAt offset others = some (some due) ↔ turnAt offset reports = some (some due))) ∧
          ((∀ others : List Report, others.Perm reports →
            turnAt offset others = turnAt offset reports) ↔ ¬ Mixed due offset reports)) ∧
      (ofReports reports).latest? =
        (reports.map Report.offset).max?.bind (ofReports reports).get? ∧
      (ofReports reports).size = (reports.map Report.offset).toFinset.card := by
  refine ⟨?_, fun last hlast => ?_, fun due hplain => ⟨hplain.get?, fun others hperm => ?_,
    hplain.turnAt_perm_iff⟩, latest?_ofReports reports, size_ofReports reports⟩
  · rw [get?_ofReports, get?_ofReports, reportsAt, reportsAt, List.filter_filter]
    simp only [Bool.and_self]
  · rw [get?_ofReports]
    exact heldAfter_of_last_forced hlast none
  · rw [(hplain.perm hperm).turnAt_eq_due_iff, hplain.turnAt_eq_due_iff]
    exact exists_congr fun report => and_congr_left fun _ =>
      (perm_reportsAt hperm offset).mem_iff

/-- A message in front of an operator that was expected while a value was due, or behind it. -/
theorem class_left_by_order :
    ¬ ∀ (reports others : List Report) (offset : ℕ) (due : Turn), Plain due offset reports →
      others.Perm reports → turnAt offset others = turnAt offset reports := by
  intro h
  have hsame := h [.message "unclear" (.point 2) false, .missing .operator 2 .operand false]
    [.missing .operator 2 .operand false, .message "unclear" (.point 2) false] 2 .operand
    (fun report hreport => by
      rcases List.mem_cons.1 (List.mem_filter.1 hreport).1 with rfl | hrest
      · exact ⟨rfl, trivial⟩
      · obtain rfl := List.mem_singleton.1 hrest
        exact ⟨rfl, rfl⟩)
    (List.Perm.swap _ _ _)
  exact absurd hsame (by decide)

end DeskCalc
