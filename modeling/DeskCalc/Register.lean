import DeskCalc.Number

/-
Stored values that expressions refer to.

`Register` is the reading side that an evaluation needs.  `Queue` holds 26 slots
named a to z that are filled in turn, the oldest value giving way to the newest.
-/
namespace DeskCalc

inductive RegisterError where
  /-- The key names no slot, or an empty one. -/
  | notFound (key : Text)
  /-- A bound of a range names no slot, or the bounds are reversed. -/
  | invalidRange (first last : Text)
  | emptyRange (first last : Text)
  deriving DecidableEq, Repr

def RegisterError.message : RegisterError → String
  | notFound key => s!"register @{String.ofList key} is empty"
  | invalidRange first last =>
      s!"invalid register range @{String.ofList first}_{String.ofList last}"
  | emptyRange first last =>
      s!"register range @{String.ofList first}_{String.ofList last} is empty"

structure Register where
  read : Text → Except RegisterError Number
  /-- The values of the filled slots between two bounds, both included. -/
  readRange : Text → Text → Except RegisterError (List Number)

namespace Register

/-- The slot names in the order in which slots are filled. -/
def slotNames : List Char := "abcdefghijklmnopqrstuvwxyz".toList

abbrev slotCount : Nat := 26

abbrev Slot := Fin slotCount

/-- The slot that is written first. -/
def firstSlot : Slot := 0

def slotName (slot : Slot) : Char := slotNames.getD slot.val 'a'

/-- The slot that a key names; a key is one letter. -/
def slot? : Text → Option Slot
  | [c] => (List.finRange slotCount).find? fun slot => slotName slot == c
  | _ => none

theorem slot?_slotName (slot : Slot) : slot? [slotName slot] = some slot := by
  revert slot
  decide

def lastKey : Text := ['@']

/-- The 26 slots, the one to be written next, and the one written last. -/
structure Queue where
  slots : Vector (Option Number) slotCount := Vector.replicate slotCount none
  next : Slot := firstSlot
  last : Option Slot := none
  deriving Repr

namespace Queue

def empty : Queue := {}

/-- The queue after a value is stored in the next slot, and that slot. -/
def write (queue : Queue) (number : Number) : Queue × Slot :=
  ({ slots := queue.slots.set queue.next.val (some number) queue.next.isLt
     next := queue.next + 1
     last := some queue.next }, queue.next)

def writeAll (queue : Queue) (numbers : List Number) : Queue :=
  numbers.foldl (fun queue number => (queue.write number).1) queue

def get? (queue : Queue) (slot : Slot) : Option Number := queue.slots[slot.val]

/-- A value is found in the slot it was written to, and no other slot changes. -/
theorem get?_write (queue : Queue) (number : Number) (slot : Slot) :
    (queue.write number).1.get? slot =
      if queue.next = slot then some number else queue.get? slot := by
  unfold get? write
  simp only [Vector.getElem_set, Fin.ext_iff]

def filled (queue : Queue) : List Slot :=
  (List.finRange slotCount).filter fun slot => (queue.get? slot).isSome

def size (queue : Queue) : Nat := queue.filled.length

def isEmpty (queue : Queue) : Bool := queue.filled.isEmpty

def read (queue : Queue) (key : Text) : Except RegisterError Number :=
  let slot := if key = lastKey then queue.last else slot? key
  match slot.bind queue.get? with
  | some number => .ok number
  | none => .error (.notFound key)

/-- The stored values from one slot to another in slot order. -/
def between (queue : Queue) (first last : Slot) : List Number :=
  ((List.finRange slotCount).filter fun slot => first ≤ slot && slot ≤ last).filterMap queue.get?

def readRange (queue : Queue) (first last : Text) : Except RegisterError (List Number) :=
  match slot? first, slot? last with
  | some low, some high =>
      if high < low then .error (.invalidRange first last)
      else
        match queue.between low high with
        | [] => .error (.emptyRange first last)
        | numbers => .ok numbers
  | _, _ => .error (.invalidRange first last)

def reader (queue : Queue) : Register := ⟨queue.read, queue.readRange⟩

end Queue
end Register
end DeskCalc
