import DeskCalc.Diagnostic.Log
import DeskCalc.Text.Basic

/-
The report of a log: the source, a line that marks the place, and the message.

The marker line has one sign for each character of the source and some to spare,
so that a place behind the end can be marked too.
-/
namespace DeskCalc
namespace Log

/-- The signs of the marker line beyond the end of the source. -/
def spareWidth : Nat := 4

/-- Dashes with carets under a span, at least one. -/
def marker (source : Text) (span : Span) : Text :=
  let width := source.length + spareWidth
  let start := min (source.column span.start) (width - 1)
  let carets := max 1 (min (source.column span.stop) width - start)
  List.replicate start '-' ++ List.replicate carets '^' ++
    List.replicate (width - start - carets) '-'

/-- The latest entry shown under the source. -/
def report (log : Log) (source : Text) : String :=
  let input := String.ofList source
  match log.latest? with
  | none => s!"  Input: {input}\n  Error: no diagnostic recorded"
  | some entry =>
      let line := String.ofList (marker source entry.span)
      s!"  Input: {input}\n         {line}\n  Error: {entry.message}"

theorem length_marker (source : Text) (span : Span) :
    (marker source span).length = source.length + spareWidth := by
  simp only [marker, List.length_append, List.length_replicate, spareWidth]
  omega

end Log
end DeskCalc
