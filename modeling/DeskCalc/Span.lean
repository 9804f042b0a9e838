/-
Byte ranges of a source.
-/
namespace DeskCalc

/-- The bytes from `start` up to, not including, `stop`. -/
structure Span where
  start : Nat := 0
  stop : Nat := 0
  deriving DecidableEq, Repr

namespace Span

def point (offset : Nat) : Span := ⟨offset, offset⟩

def isEmpty (span : Span) : Bool := span.stop ≤ span.start

instance : ToString Span := ⟨fun span => s!"{span.start}..{span.stop}"⟩

end Span
end DeskCalc
