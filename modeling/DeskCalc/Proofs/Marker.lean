import DeskCalc.Diagnostic.Report
import DeskCalc.Proofs.Tiling

/-
The marker of a report.

A span counts bytes and the marker line counts characters.  A column lies in front of a byte
offset exactly if the character there starts before the offset (`lt_column_iff`), so the carets
stand under the characters that start in the span.  The two ends of the carets are clipped to the
line one by one, and they stay on it whatever the span is.
-/
namespace DeskCalc

/-! ## Columns -/

namespace Text

/-- The byte offset of the character in a column, and the size of the text behind the last one. -/
def offsetAt (text : Text) (column : Nat) : Nat := byteSize (text.take column)

theorem lt_column_iff {text : Text} {i offset : Nat} :
    i < text.column offset ↔ i < text.length ∧ text.offsetAt i < offset := by
  induction text, offset using column.induct generalizing i with
  | case1 offset => simp [column]
  | case2 c text => simp [column]
  | case3 c text n ih =>
    rw [column]
    cases i with
    | zero => simp [offsetAt, byteSize]
    | succ i =>
      rw [Nat.add_lt_add_iff_right, ih, List.length_cons, Nat.add_lt_add_iff_right, offsetAt,
        offsetAt, List.take_succ_cons, byteSize]
      omega

theorem column_le_length (text : Text) (offset : Nat) : text.column offset ≤ text.length := by
  by_contra hlt
  exact Nat.lt_irrefl _ (lt_column_iff.1 (Nat.not_le.1 hlt)).1

theorem offsetAt_append (before after : Text) : (before ++ after).offsetAt before.length =
    byteSize before := by
  rw [offsetAt, List.take_left]

/-- Different columns have different offsets. -/
theorem offsetAt_lt {text : Text} {i j : Nat} (hij : i < j) (hj : j ≤ text.length) :
    text.offsetAt i < text.offsetAt j := by
  have htake : text.take j = text.take i ++ (text.drop i).take (j - i) := by
    rw [← List.take_add, Nat.add_sub_cancel' hij.le]
  have hne : (text.drop i).take (j - i) ≠ [] := by
    rw [← List.length_pos_iff, List.length_take, List.length_drop]
    omega
  have hpos := byteSize_pos hne
  rw [offsetAt, offsetAt, htake, byteSize_append]
  omega

theorem offsetAt_eq_iff {text : Text} {i j : Nat} (hi : i ≤ text.length) (hj : j ≤ text.length) :
    text.offsetAt i = text.offsetAt j ↔ i = j := by
  constructor
  · intro h
    rcases Nat.lt_trichotomy i j with hlt | heq | hlt
    · exact absurd h (offsetAt_lt hlt hj).ne
    · exact heq
    · exact absurd h (offsetAt_lt hlt hi).ne'
  · rintro rfl
    rfl

/-- In front of a boundary stand the characters of the text before it. -/
theorem column_append (before after : Text) :
    (before ++ after).column (byteSize before) = before.length := by
  refine Nat.le_antisymm ?_ ?_
  · refine Nat.not_lt.1 fun hlt => ?_
    obtain ⟨-, hbefore⟩ := lt_column_iff.1 hlt
    rw [offsetAt_append] at hbefore
    exact Nat.lt_irrefl _ hbefore
  · refine Nat.not_lt.1 fun hlt => ?_
    have hbefore := offsetAt_lt hlt (show before.length ≤ (before ++ after).length by simp)
    rw [offsetAt_append] at hbefore
    have hlength := column_le_length (before ++ after) (byteSize before)
    exact Nat.lt_irrefl _ (lt_column_iff.2 ⟨by simp; omega, hbefore⟩)

/-- The text with a stretch of it overwritten, if it has the stretch. -/
def overwrite? (text : Text) (start stop : Nat) (sign : Char) : Option Text :=
  if start ≤ stop ∧ stop ≤ text.length then
    some (text.take start ++ List.replicate (stop - start) sign ++ text.drop stop)
  else none

/-- Part of a row of one sign overwritten by another sign. -/
theorem overwrite?_replicate {width start stop : Nat} (hstart : start ≤ stop)
    (hstop : stop ≤ width) (ground sign : Char) :
    overwrite? (List.replicate width ground) start stop sign =
      some (List.replicate start ground ++ List.replicate (stop - start) sign ++
        List.replicate (width - stop) ground) := by
  rw [overwrite?, List.length_replicate, if_pos ⟨hstart, hstop⟩, List.take_replicate,
    List.drop_replicate, Nat.min_eq_left (hstart.trans hstop)]

end Text

/-! ## The marker line -/

namespace Log

/-- The marker drawn on a row of dashes, `none` if a place would be marked that is not on it: a
stretch if the columns of the span differ, a single place if they do not. -/
def drawMarker? (source : Text) (span : Span) : Option Text :=
  let width := source.length + spareWidth
  let start := min (source.column span.start) (width - 1)
  let stop := min (source.column span.stop) width
  let line := List.replicate width '-'
  if start < stop then Text.overwrite? line start stop '^'
  else Text.overwrite? line start (start + 1) '^'

/-- Dashes, carets, and dashes again. -/
theorem exists_marker_eq (source : Text) (span : Span) : ∃ after,
    marker source span = List.replicate (source.column span.start) '-' ++
      List.replicate (max 1 (source.column span.stop - source.column span.start)) '^' ++
        List.replicate after '-' := by
  have hstart := source.column_le_length span.start
  have hstop := source.column_le_length span.stop
  have hspare : spareWidth = 4 := rfl
  rw [marker, Nat.min_eq_left (by omega), Nat.min_eq_left (by omega)]
  exact ⟨_, rfl⟩

/-- No place off the line is marked. -/
theorem drawMarker?_eq (source : Text) (span : Span) :
    drawMarker? source span = some (marker source span) := by
  have hstart := source.column_le_length span.start
  have hstop := source.column_le_length span.stop
  have hspare : spareWidth = 4 := rfl
  rw [drawMarker?, marker, Nat.min_eq_left (by omega), Nat.min_eq_left (by omega)]
  generalize source.column span.start = start at hstart ⊢
  generalize source.column span.stop = stop at hstop ⊢
  split
  · next hlt =>
    rw [Text.overwrite?_replicate hlt.le (by omega), Nat.max_eq_right (by omega),
      show source.length + spareWidth - start - (stop - start) =
        source.length + spareWidth - stop by omega]
  · next hle =>
    rw [Text.overwrite?_replicate (Nat.le_add_right start 1) (by omega),
      Nat.max_eq_left (by omega), Nat.add_sub_cancel_left, Nat.sub_sub]

/-- A place past the end is marked behind the last character. -/
example : drawMarker? ['1', '2'] (Span.point 50) = some "--^---".toList := by decide

/-- The carets stand from the first column of the span on. -/
theorem marker_getElem?_eq_iff (source : Text) (span : Span) (i : Nat) :
    (marker source span)[i]? = some '^' ↔ source.column span.start ≤ i ∧
      i < source.column span.start +
        max 1 (source.column span.stop - source.column span.start) := by
  obtain ⟨after, hmarker⟩ := exists_marker_eq source span
  rw [hmarker]
  generalize source.column span.start = start
  generalize max 1 (source.column span.stop - start) = carets
  simp only [List.getElem?_append, List.getElem?_replicate, List.length_append,
    List.length_replicate]
  split_ifs <;> simp <;> omega

/-- The column is that of a character that starts in the span, or the one behind the characters
before an empty span. -/
def Underlined (source : Text) (span : Span) (i : Nat) : Prop :=
  if span.start = span.stop then i ≤ source.length ∧ source.offsetAt i = span.start
  else i < source.length ∧ span.start ≤ source.offsetAt i ∧ source.offsetAt i < span.stop

/-- A span that lies in the source has its carets under its characters. -/
theorem marker_underlines {source part : Text} {span : Span} (h : span.Covers source part)
    (i : Nat) : (marker source span)[i]? = some '^' ↔ Underlined source span i := by
  obtain ⟨before, after, rfl, hstart, hstop⟩ := h
  have hfirst : (before ++ (part ++ after)).column span.start = before.length := by
    rw [← hstart, Text.column_append]
  have hoffset : (before ++ (part ++ after)).offsetAt before.length = span.start := by
    rw [Text.offsetAt_append, hstart]
  have hlength : (before ++ (part ++ after)).length =
      before.length + (part.length + after.length) := by
    rw [List.length_append, List.length_append]
  rw [marker_getElem?_eq_iff, Underlined]
  generalize before ++ (part ++ after) = source at hfirst hoffset hlength ⊢
  split
  · next hempty =>
    rw [← hempty, Nat.sub_self, hfirst]
    constructor
    · rintro ⟨hle, hlt⟩
      obtain rfl : i = before.length := by omega
      exact ⟨by omega, hoffset⟩
    · rintro ⟨hi, heq⟩
      obtain rfl := (Text.offsetAt_eq_iff hi (by omega)).1 (heq.trans hoffset.symm)
      omega
  · next hne =>
    have hpart : 0 < part.length := by
      refine List.length_pos_iff.2 ?_
      rintro rfl
      exact hne hstop.symm
    have hlast : before.length < source.column span.stop :=
      Text.lt_column_iff.2 ⟨by omega, by omega⟩
    have hbelow : i < source.column span.start ↔
        i < source.length ∧ source.offsetAt i < span.start := Text.lt_column_iff
    have habove : i < source.column span.stop ↔
        i < source.length ∧ source.offsetAt i < span.stop := Text.lt_column_iff
    rw [hfirst] at hbelow ⊢
    omega

/-! ## The report -/

/-- What stands before the source in a report. -/
def inputLabel : Text := "  Input: ".toList

/-- What stands before the marker. -/
def markerIndent : Text := List.replicate 9 ' '

/-- What stands before the message. -/
def errorLabel : Text := "  Error: ".toList

/-- A report has three lines. -/
theorem toList_report {log : Log} {entry : Diagnostic} (h : log.latest? = some entry)
    (source : Text) : (log.report source).toList =
      inputLabel ++ source ++ '\n' :: (markerIndent ++ marker source entry.span ++
        '\n' :: (errorLabel ++ entry.message.toList)) := by
  have hreport : log.report source = "  Input: " ++ String.ofList source ++ "\n         " ++
      String.ofList (marker source entry.span) ++ "\n  Error: " ++ entry.message := by
    simp only [report, h]
    rfl
  have hinput : "  Input: ".toList = inputLabel := rfl
  have hindent : "\n         ".toList = '\n' :: markerIndent := rfl
  have hlabel : "\n  Error: ".toList = '\n' :: errorLabel := rfl
  -- The labels first: a literal is an `ofList` too.
  rw [hreport, String.toList_append, String.toList_append, String.toList_append,
    String.toList_append, String.toList_append, hinput, hindent, hlabel, String.toList_ofList,
    String.toList_ofList]
  simp only [List.append_assoc, List.cons_append]

end Log

/-- Under the source, a report has a marker of one sign for each of its characters and four more,
and the carets in it are one row, at least one of them.  For a span that lies in the source they
stand exactly under its characters, and for an empty one under the place behind the characters
before it.  Whatever the span is, no place off the line is marked. -/
theorem marker_under_span (source : Text) {log : Log} {entry : Diagnostic}
    (h : log.latest? = some entry) :
    ∃ drawn, Log.drawMarker? source entry.span = some drawn ∧
      (log.report source).toList =
        Log.inputLabel ++ source ++ '\n' :: (Log.markerIndent ++ drawn ++
          '\n' :: (Log.errorLabel ++ entry.message.toList)) ∧
      Log.markerIndent.length = Log.inputLabel.length ∧
      drawn.length = source.length + 4 ∧
      (∃ before carets after, 0 < carets ∧ drawn = List.replicate before '-' ++
        List.replicate carets '^' ++ List.replicate after '-') ∧
      ∀ part, entry.span.Covers source part →
        ∀ i, drawn[i]? = some '^' ↔ Log.Underlined source entry.span i := by
  obtain ⟨after, hmarker⟩ := Log.exists_marker_eq source entry.span
  refine ⟨Log.marker source entry.span, Log.drawMarker?_eq source entry.span,
    Log.toList_report h source, rfl, Log.length_marker source entry.span, ?_,
    fun part hpart => Log.marker_underlines hpart⟩
  exact ⟨_, _, after, Nat.lt_of_lt_of_le Nat.zero_lt_one (Nat.le_max_left 1 _), hmarker⟩

/-- The euro sign has three bytes and one caret. -/
theorem marker_under_euro_sign :
    ∃ drawn, Log.drawMarker? ['1', '€', '2'] ⟨1, 4⟩ = some drawn ∧
      ((Log.empty.add "unclear" ⟨1, 4⟩ true).report ['1', '€', '2']).toList =
        Log.inputLabel ++ ['1', '€', '2'] ++ '\n' :: (Log.markerIndent ++ drawn ++
          '\n' :: (Log.errorLabel ++ "unclear".toList)) ∧
      Log.markerIndent.length = Log.inputLabel.length ∧
      drawn.length = ['1', '€', '2'].length + 4 ∧
      (∃ before carets after, 0 < carets ∧ drawn = List.replicate before '-' ++
        List.replicate carets '^' ++ List.replicate after '-') ∧
      ∀ part, Span.Covers ⟨1, 4⟩ ['1', '€', '2'] part →
        ∀ i, drawn[i]? = some '^' ↔ Log.Underlined ['1', '€', '2'] ⟨1, 4⟩ i :=
  marker_under_span ['1', '€', '2'] (show (Log.empty.add "unclear" ⟨1, 4⟩ true).latest? =
    some ⟨"unclear", ⟨1, 4⟩, none, true⟩ from rfl)

end DeskCalc
