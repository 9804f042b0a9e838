/-
Text as a list of characters, measured in the bytes of its UTF-8 form.

Offsets into a source count bytes, so a cut at an offset exists only where the
offset falls between two characters.  `dropBytes` is that cut, and
`dropBytes_append` says that it finds every suffix.
-/
namespace DeskCalc

abbrev Text := List Char

namespace Text

def byteSize : Text → Nat
  | [] => 0
  | c :: rest => c.utf8Size + byteSize rest

/-- The part of a text from a byte offset on, if the offset lies on a character
boundary. -/
def dropBytes : Text → Nat → Option Text
  | text, 0 => some text
  | [], _ + 1 => none
  | c :: rest, n + 1 =>
      if c.utf8Size ≤ n + 1 then dropBytes rest (n + 1 - c.utf8Size) else none

/-- How many characters start before a byte offset. -/
def column : Text → Nat → Nat
  | [], _ => 0
  | _ :: _, 0 => 0
  | c :: rest, n + 1 => column rest (n + 1 - c.utf8Size) + 1

/-- What is left of a text after an opening part, if it starts with that part. -/
def after? : Text → Text → Option Text
  | [], text => some text
  | _ :: _, [] => none
  | p :: part, c :: text => if p = c then after? part text else none

/-- The parts before and after the first occurrence of a character. -/
def splitAt? (mark : Char) : Text → Option (Text × Text)
  | [] => none
  | c :: rest =>
      if c = mark then some ([], rest)
      else (splitAt? mark rest).map fun (before, behind) => (c :: before, behind)

theorem byteSize_append (s t : Text) : byteSize (s ++ t) = byteSize s + byteSize t := by
  induction s with
  | nil => simp [byteSize]
  | cons c s ih => simp [byteSize, ih, Nat.add_assoc]

theorem dropBytes_zero (text : Text) : dropBytes text 0 = some text := by
  cases text <;> rfl

/-- Every suffix is found at the size of what stands before it. -/
theorem dropBytes_append (s t : Text) : dropBytes (s ++ t) (byteSize s) = some t := by
  induction s with
  | nil => exact dropBytes_zero t
  | cons c s ih =>
    have hc := c.utf8Size_pos
    have hsize : byteSize (c :: s) = c.utf8Size + byteSize s := rfl
    obtain ⟨n, hn⟩ : ∃ n, c.utf8Size + byteSize s = n + 1 :=
      ⟨c.utf8Size + byteSize s - 1, by omega⟩
    rw [hsize, hn, List.cons_append, dropBytes, if_pos (by omega),
      show n + 1 - c.utf8Size = byteSize s by omega]
    exact ih

end Text
end DeskCalc
