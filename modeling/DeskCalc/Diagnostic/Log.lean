import DeskCalc.Diagnostic.Basic

/-
The log keeps the most useful diagnostic of each position.

Entries stand in the order of their positions, one for each, so the last entry
marks how far reading came.  `get?_put` says that an entry replaces what stood at
its position and leaves all others alone.
-/
namespace DeskCalc

/-- Entries in the order of their positions, no two at one position. -/
def Ascending (entries : List Diagnostic) : Prop :=
  entries.Pairwise fun a b => a.span.start < b.span.start

instance (entries : List Diagnostic) : Decidable (Ascending entries) :=
  inferInstanceAs (Decidable (List.Pairwise _ _))

theorem ascending_nil : Ascending [] := List.Pairwise.nil

structure Log where
  entries : List Diagnostic := []
  ascending : Ascending entries := by exact ascending_nil
  deriving DecidableEq, Repr

namespace Log

def empty : Log := {}

/-- The entry at its place, instead of the one that stood there. -/
def insert (entry : Diagnostic) : List Diagnostic → List Diagnostic
  | [] => [entry]
  | e :: rest =>
      if entry.span.start < e.span.start then entry :: e :: rest
      else if entry.span.start = e.span.start then entry :: rest
      else e :: insert entry rest

theorem mem_insert {entry e : Diagnostic} {entries : List Diagnostic}
    (h : e ∈ insert entry entries) : e = entry ∨ e ∈ entries := by
  induction entries with
  | nil => exact Or.inl (List.mem_singleton.1 h)
  | cons d rest ih =>
    rw [insert] at h
    split at h
    · exact (List.mem_cons.1 h).imp_right id
    · split at h
      · exact (List.mem_cons.1 h).imp_right (List.mem_cons_of_mem d)
      · rcases List.mem_cons.1 h with h | h
        · exact Or.inr (h ▸ List.mem_cons_self)
        · exact (ih h).imp_right (List.mem_cons_of_mem d)

theorem ascending_insert {entry : Diagnostic} {entries : List Diagnostic}
    (h : Ascending entries) : Ascending (insert entry entries) := by
  induction entries with
  | nil => exact List.pairwise_singleton _ _
  | cons d rest ih =>
    obtain ⟨hd, hrest⟩ := List.pairwise_cons.1 h
    rw [insert]
    split
    · next hlt =>
      refine List.pairwise_cons.2 ⟨fun e he => ?_, h⟩
      rcases List.mem_cons.1 he with rfl | he
      · exact hlt
      · exact Nat.lt_trans hlt (hd e he)
    · next hge =>
      split
      · next heq => exact List.pairwise_cons.2 ⟨fun e he => heq ▸ hd e he, hrest⟩
      · next hne =>
        refine List.pairwise_cons.2 ⟨fun e he => ?_, ih hrest⟩
        rcases mem_insert he with rfl | he
        · omega
        · exact hd e he

def put (log : Log) (entry : Diagnostic) : Log :=
  ⟨insert entry log.entries, ascending_insert log.ascending⟩

def get? (log : Log) (offset : Nat) : Option Diagnostic :=
  log.entries.find? fun entry => entry.span.start == offset

/-- The entry at the greatest position. -/
def latest? (log : Log) : Option Diagnostic := log.entries.getLast?

def size (log : Log) : Nat := log.entries.length

def isEmpty (log : Log) : Bool := log.entries.isEmpty

/-- Records a message at the start of its span.  It gives way to an entry that is
already there, unless it is forced. -/
def add (log : Log) (message : String) (span : Span) (forced : Bool) : Log :=
  if !forced && (log.get? span.start).isSome then log
  else log.put { message, span, turn := none, forced }

/-- Whether an expectation takes the place of an entry: always if it is forced,
never if the entry is, and else if it fits what is due and the entry does not. -/
def outranks (expectation : Expectation) (due : Turn) (forced : Bool) (entry : Diagnostic) :
    Bool :=
  forced || (!entry.forced && entry.turn != some due && expectation.turn == due)

/-- Records that a token was expected at an offset.  `due` is what the words
before it call for. -/
def expect (log : Log) (expectation : Expectation) (offset : Nat) (due : Turn)
    (forced : Bool) : Log :=
  let entry : Diagnostic :=
    { message := expectation.message
      span := .point offset
      turn := some expectation.turn
      forced }
  match log.get? offset with
  | none => log.put entry
  | some existing => if outranks expectation due forced existing then log.put entry else log

theorem find?_insert_self (entry : Diagnostic) (entries : List Diagnostic) :
    (insert entry entries).find? (fun e => e.span.start == entry.span.start) = some entry := by
  induction entries with
  | nil => simp [insert]
  | cons d rest ih =>
    rw [insert]
    split
    · simp
    · split
      · simp
      · next hne => rw [List.find?_cons_of_neg (by simpa using Ne.symm hne), ih]

theorem find?_insert_ne {entry : Diagnostic} {offset : Nat} (h : entry.span.start ≠ offset)
    (entries : List Diagnostic) :
    (insert entry entries).find? (fun e => e.span.start == offset) =
      entries.find? (fun e => e.span.start == offset) := by
  induction entries with
  | nil => simp [insert, h]
  | cons d rest ih =>
    rw [insert]
    split
    · rw [List.find?_cons_of_neg (by simpa using h)]
    · split
      · next heq =>
        rw [List.find?_cons_of_neg (by simpa using h),
          List.find?_cons_of_neg (by simpa [← heq] using h)]
      · rw [List.find?_cons, List.find?_cons, ih]

/-- An entry replaces what stood at its position and leaves all others alone. -/
theorem get?_put (log : Log) (entry : Diagnostic) (offset : Nat) :
    (log.put entry).get? offset =
      if entry.span.start = offset then some entry else log.get? offset := by
  split
  · next h => subst h; exact find?_insert_self entry log.entries
  · next h => exact find?_insert_ne h log.entries

end Log
end DeskCalc
