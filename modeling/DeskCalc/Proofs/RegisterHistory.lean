import DeskCalc.Register
import Mathlib.Data.Fin.Basic
import Mathlib.Data.List.FinRange
import Mathlib.Data.List.Induction

/-
A register as the history of what was written to it.

The 26 slots, the slot to be written next and the slot written last are three pieces of state,
but each of them follows from the list of all values ever written.  The write with number k
goes to slot k mod 26, so a slot holds the last of the values whose numbers fall on it.
`Refines.write` lets one write happen, and `refines_writeAll` follows a queue through its
whole life.
-/
namespace DeskCalc
namespace Register

/-! ## The history of a slot -/

/-- The slot that the write with this number goes to, the first one having the number 0. -/
def turn (number : ℕ) : Slot := ⟨number % slotCount, Nat.mod_lt _ (by decide)⟩

/-- The last of the values whose numbers fall on the slot. -/
def lastWritten (values : List Number) (slot : Slot) : Option Number :=
  ((List.range values.length).filter fun k => turn k = slot).getLast?.bind (values[·]?)

section History

variable {values : List Number} {value : Number} {slot : Slot}

theorem turn_succ (k : ℕ) : turn (k + 1) = turn k + 1 := by
  apply Fin.ext
  show (k + 1) % 26 = (k % 26 + 1) % 26
  omega

/-- One more value takes the place of the last one in its slot, and in no other. -/
theorem lastWritten_snoc (values : List Number) (value : Number) (slot : Slot) :
    lastWritten (values ++ [value]) slot =
      if turn values.length = slot then some value else lastWritten values slot := by
  rw [lastWritten, List.length_append, List.length_singleton, List.range_succ, List.filter_append]
  by_cases h : turn values.length = slot
  · simp [h]
  · have hkept : ∀ k ∈ ((List.range values.length).filter fun k => turn k = slot).getLast?,
        (values ++ [value])[k]? = values[k]? := by
      intro k hk
      have hmem := List.mem_of_getLast? hk
      have hlt : k < values.length := List.mem_range.1 (List.mem_of_mem_filter hmem)
      exact List.getElem?_append_left hlt
    simp only [h, decide_false, List.filter_cons, Bool.false_eq_true, if_false, List.filter_nil,
      List.append_nil]
    rw [lastWritten]
    cases hlast : ((List.range values.length).filter fun k => turn k = slot).getLast? with
    | none => rfl
    | some k => exact hkept k hlast

/-- A slot has been written once its own number has come up. -/
theorem isSome_lastWritten :
    (lastWritten values slot).isSome = true ↔ slot.val < values.length := by
  induction values using List.reverseRecOn with
  | nil => simp [lastWritten]
  | append_singleton values value ih =>
    rw [lastWritten_snoc, List.length_append, List.length_singleton]
    by_cases h : turn values.length = slot
    · have hslot : values.length % slotCount = slot.val := congrArg Fin.val h
      have hle := Nat.mod_le values.length slotCount
      rw [if_pos h]
      simp only [Option.isSome_some, true_iff]
      omega
    · have hne : values.length % slotCount ≠ slot.val := fun heq => h (Fin.ext heq)
      have hlt := slot.isLt
      rw [if_neg h, ih]
      constructor
      · omega
      · intro hle
        by_contra hnot
        exact hne (by rw [show values.length = slot.val by omega, Nat.mod_eq_of_lt hlt])

end History

/-! ## Names of slots -/

theorem slot?_eq_some {key : Text} {slot : Slot} :
    slot? key = some slot ↔ key = [slotName slot] := by
  constructor
  · intro h
    match key with
    | [c] =>
      have hname := List.find?_some h
      rw [beq_iff_eq.1 hname]
    | [] | _ :: _ :: _ => cases h
  · rintro rfl
    exact slot?_slotName slot

theorem slot?_eq_none {key : Text} : slot? key = none ↔ ∀ slot, key ≠ [slotName slot] := by
  rw [Option.eq_none_iff_forall_ne_some]
  exact forall_congr' fun slot => not_congr slot?_eq_some

theorem slotName_ne_lastKey (slot : Slot) : [slotName slot] ≠ lastKey := by
  revert slot
  decide

/-! ## Queues and histories -/

namespace Queue

/-- The state of a queue follows from the values that were written to it. -/
structure Refines (queue : Queue) (values : List Number) : Prop where
  next : queue.next = turn values.length
  slots : ∀ slot, queue.get? slot = lastWritten values slot
  last : queue.last.bind queue.get? = values.getLast?

variable {queue : Queue} {values : List Number}

theorem refines_empty : Refines .empty [] := by
  refine ⟨rfl, ?_, rfl⟩
  decide

/-- A write goes to the next slot in turn and becomes the last value of the history. -/
theorem Refines.write (h : queue.Refines values) (number : Number) :
    (queue.write number).2 = turn values.length ∧
      (queue.write number).1.Refines (values ++ [number]) := by
  refine ⟨h.next, ?_, ?_, ?_⟩
  · show queue.next + 1 = _
    rw [h.next, List.length_append, List.length_singleton, turn_succ]
  · intro slot
    rw [get?_write, lastWritten_snoc, h.next, h.slots]
  · show (queue.write number).1.get? queue.next = _
    rw [get?_write, if_pos rfl, List.getLast?_concat]

theorem Refines.writeAll (h : queue.Refines values) (numbers : List Number) :
    (queue.writeAll numbers).Refines (values ++ numbers) := by
  induction numbers generalizing queue values with
  | nil => rwa [List.append_nil]
  | cons number numbers ih =>
    have hwritten := ih (h.write number).2
    rwa [List.append_assoc, List.singleton_append] at hwritten

theorem refines_writeAll (values : List Number) : (empty.writeAll values).Refines values := by
  have h := refines_empty.writeAll values
  rwa [List.nil_append] at h

/-! ## What a queue answers -/

/-- The answer of a register to a key under which it has this value, or none. -/
def found (key : Text) : Option Number → Except RegisterError Number
  | some number => .ok number
  | none => .error (.notFound key)

/-- The answer of a register to a range whose slots have these values. -/
def foundRange (first last : Text) : List Number → Except RegisterError (List Number)
  | [] => .error (.emptyRange first last)
  | numbers => .ok numbers

/-- The slots between two bounds in letter order, both included. -/
def slotsBetween (low high : Slot) : List Slot :=
  (List.finRange slotCount).filter fun slot => low ≤ slot && slot ≤ high

theorem read_eq (queue : Queue) (key : Text) :
    queue.read key =
      found key ((if key = lastKey then queue.last else slot? key).bind queue.get?) := by
  rw [read]
  split <;> simp [*, found]

theorem Refines.read_slotName (h : queue.Refines values) (slot : Slot) :
    queue.read [slotName slot] = found [slotName slot] (lastWritten values slot) := by
  rw [read_eq, if_neg (slotName_ne_lastKey slot), slot?_slotName, Option.bind_some, h.slots]

theorem Refines.read_lastKey (h : queue.Refines values) :
    queue.read lastKey = found lastKey values.getLast? := by
  rw [read_eq, if_pos rfl, h.last]

theorem read_other (queue : Queue) {key : Text} (hlast : key ≠ lastKey)
    (hslot : ∀ slot, key ≠ [slotName slot]) : queue.read key = .error (.notFound key) := by
  rw [read_eq, if_neg hlast, slot?_eq_none.2 hslot]
  rfl

theorem length_filter_lt (n k : ℕ) :
    ((List.range k).filter fun i => decide (i < n)).length = min n k := by
  induction k with
  | zero => simp
  | succ k ih =>
    rw [List.range_succ, List.filter_append, List.length_append, ih]
    by_cases h : k < n
    · simp [h]
      omega
    · simp [h]
      omega

theorem Refines.size (h : queue.Refines values) : queue.size = min values.length slotCount := by
  have hfilled : queue.filled =
      (List.finRange slotCount).filter fun slot => decide (slot.val < values.length) := by
    refine List.filter_congr fun slot _ => ?_
    rw [Bool.eq_iff_iff, h.slots, isSome_lastWritten, decide_eq_true_iff]
  have hmap : (List.finRange slotCount).map Fin.val = List.range slotCount :=
    List.map_coe_finRange_eq_range
  rw [Queue.size, hfilled, ← length_filter_lt, ← hmap, List.filter_map, List.length_map]
  rfl

theorem readRange_eq_invalidRange (queue : Queue) (first last : Text) :
    queue.readRange first last = .error (.invalidRange first last) ↔
      ¬ ∃ low high, first = [slotName low] ∧ last = [slotName high] ∧ low ≤ high := by
  constructor
  · rintro h ⟨low, high, rfl, rfl, hle⟩
    rw [readRange, slot?_slotName, slot?_slotName] at h
    dsimp only at h
    rw [if_neg (not_lt.2 hle)] at h
    split at h <;> cases h
  · intro h
    rw [readRange]
    split
    · next low high hlow hhigh =>
      rw [if_pos]
      by_contra hnot
      exact h ⟨low, high, slot?_eq_some.1 hlow, slot?_eq_some.1 hhigh, not_lt.1 hnot⟩
    · rfl

theorem Refines.readRange_slotName (h : queue.Refines values) {low high : Slot} (hle : low ≤ high) :
    queue.readRange [slotName low] [slotName high] =
      foundRange [slotName low] [slotName high]
        ((slotsBetween low high).filterMap (lastWritten values)) := by
  have hheld : queue.between low high = (slotsBetween low high).filterMap (lastWritten values) := by
    rw [between, funext h.slots]
    rfl
  rw [readRange, slot?_slotName, slot?_slotName]
  dsimp only
  rw [if_neg (not_lt.2 hle), hheld]
  split <;> simp [*, foundRange]

/-- The answers of a register that only the history of its writes decides. -/
structure Recalls (queue : Queue) (values : List Number) : Prop where
  slot : ∀ slot, queue.read [slotName slot] = found [slotName slot] (lastWritten values slot)
  latest : queue.read lastKey = found lastKey values.getLast?
  other : ∀ key, key ≠ lastKey → (∀ slot, key ≠ [slotName slot]) →
    queue.read key = .error (.notFound key)
  size : queue.size = min values.length slotCount
  invalid : ∀ first last, queue.readRange first last = .error (.invalidRange first last) ↔
    ¬ ∃ low high, first = [slotName low] ∧ last = [slotName high] ∧ low ≤ high
  range : ∀ low high, low ≤ high → queue.readRange [slotName low] [slotName high] =
    foundRange [slotName low] [slotName high]
      ((slotsBetween low high).filterMap (lastWritten values))

theorem Refines.recalls (h : queue.Refines values) : queue.Recalls values where
  slot := h.read_slotName
  latest := h.read_lastKey
  other _ := queue.read_other
  size := h.size
  invalid := queue.readRange_eq_invalidRange
  range _ _ := h.readRange_slotName

end Queue
end Register

open Register

/-- A queue answers every key and every range from the list of all values written to it, and
the write with number k, counted from 0, is answered with letter k mod 26. -/
theorem queue_recalls_history (values : List Number) :
    (∀ k : Fin values.length, slotNames[k.val % 26]? =
      some (slotName ((Queue.empty.writeAll (values.take k)).write values[k]).2)) ∧
    (∀ slot, (Queue.empty.writeAll values).get? slot = lastWritten values slot) ∧
    (Queue.empty.writeAll values).Recalls values := by
  have hrefines := Queue.refines_writeAll values
  refine ⟨?_, hrefines.slots, hrefines.recalls⟩
  intro k
  have hlength : (values.take k).length = k := by
    have hlt := k.isLt
    rw [List.length_take]
    omega
  have hslot := ((Queue.refines_writeAll (values.take k)).write values[k]).1
  have hletter : ∀ slot : Slot, slotNames[slot.val]? = some (slotName slot) := by decide
  rw [hslot, hlength, ← hletter]
  rfl

/-- The 27th write takes the place of the first one. -/
example : ((Queue.empty.writeAll ((List.range 27).map fun n => .ofDecimal ⟨n, 0⟩)).read ['a']) =
    .ok (.ofDecimal ⟨26, 0⟩) := by decide

end DeskCalc
