import DeskCalc.Proofs.Diagnosis.UnknownCall

/-
How an unknown function is reported.

Where an operand may come, its name is noted and stays, for nothing else that is forced is
noted there.  Only directly behind a comma in a call the `)` that is missing behind a
trailing comma is noted later, and takes the place of the name.
-/
namespace DeskCalc
namespace Grammar

variable {source : Text} {words : List Word} {q : Place} {name : Text} {size : Nat}

/-- An operand may follow the tokens. -/
def AllowsOperand (words : List Word) : Prop :=
  ∃ word, word.kind.isOperand = true ∧ Viable (words ++ [word])

theorem Move.demand_of_operand {c d : Stance} {p : Place} {word : Word} (h : Move c p word d q)
    (hkind : word.kind.isOperand = true) : c.demand = .operand := by
  cases h with
  | numeral | group | name => rfl
  | call h | sign h | close h | comma h | trailing h | last h =>
    rw [h.spelled.1] at hkind
    cases hkind

/-- Where an operand may follow, the tokens end at a stance that demands one. -/
theorem AllowsOperand.path (h : AllowsOperand words) (hscans : Scans (.start source) words q) :
    ∃ s, Path .initial (.start source) words ⟨.operand, s⟩ q := by
  obtain ⟨word, hkind, hviable⟩ := h
  obtain ⟨other, same, e, stop, hpath, hkinds⟩ := hviable.path
  rw [List.map_append] at hkinds
  obtain ⟨front, last, rfl, hfront, hlast⟩ := List.map_eq_append_iff.1 hkinds
  obtain ⟨⟨demand, s⟩, r, hfirst, hsecond⟩ := hpath.split
  cases hsecond with
  | nil => cases hlast
  | cons hmove _ =>
    have hoperand := hmove.demand_of_operand ((List.cons.inj hlast).1 ▸ hkind)
    dsimp only at hoperand
    rw [hoperand] at hfirst
    exact ⟨s, hfirst.of_kinds hscans hfront.symm⟩

/-- What is forced behind the longest viable tokens is reported, the last of it. -/
theorem Longest.reports_last (h : Longest source words q) {error : ParseError}
    (herror : (parse source {}).1 = .error error) {entry : Diagnostic}
    (hentry : entry ∈ missesOf source) (hforced : entry.forced = true)
    (hstart : entry.span.start = q.skip.offset) :
    ∃ front last back, missesOf source = front ++ last :: back ∧ last.forced = true ∧
      last.span.start = q.skip.offset ∧
      (∀ d ∈ back, d.forced = true → d.span.start ≠ q.skip.offset) ∧
      error.message = last.message ∧ error.span = last.span := by
  obtain ⟨front, last, back, hsplit, hlast, hlastStart, hback⟩ :=
    Log.exists_last_forced ⟨entry, hentry, hforced, hstart⟩
  have hnotes := notes_expression source {}
  rw [hsplit] at hnotes
  have hkept := hnotes.forced hlast (hlastStart ▸ hback)
  rw [hlastStart] at hkept
  obtain ⟨latest, hlatest, -, -, hthere⟩ := h.latest
  obtain rfl := Option.some.inj (hkept.symm.trans hthere)
  exact ⟨front, last, back, hsplit, hlast, hlastStart, hback, parse_error_of_latest? herror hlatest⟩

/-- Where an operand may come, only the name is forced, or a `)` if a comma stands before. -/
theorem Longest.forced_at_name (h : Longest source words q) {s : List Bracket}
    (hpath : Path .initial (.start source) words ⟨.operand, s⟩ q)
    (hunknown : UnknownCall q.skip name size) {entry : Diagnostic}
    (hentry : entry ∈ missesOf source) (hforced : entry.forced = true)
    (hstart : entry.span.start = q.skip.offset) :
    entry = unknownCall q.skip name size ∨ (EndsInComma words ∧ entry = missingClose q) := by
  obtain ⟨more, d, r, hmore, hnoted⟩ := mem_missesOf hentry
  obtain ⟨rfl, hend⟩ := h.at_stop hpath hmore (hnoted.start.symm.trans hstart)
  rcases hnoted.forced hforced with ⟨-, name', size', hunknown', rfl⟩ | ⟨hdemand, rfl⟩
  · obtain ⟨rfl, rfl⟩ := hunknown.unique hunknown'
    exact Or.inl rfl
  · rcases hend with ⟨-, rfl⟩ | ⟨hcomma, -⟩
    · rcases hdemand with hdemand | hdemand <;> cases hdemand
    · exact Or.inr ⟨hcomma, rfl⟩

/-- The name of an unknown function is noted where an operand may come. -/
theorem UnknownCall.mem_missesOf (hunknown : UnknownCall q.skip name size) {s : List Bracket}
    (hpath : Path .initial (.start source) words ⟨.operand, s⟩ q) :
    unknownCall q.skip name size ∈ missesOf source := by
  obtain ⟨p, hpending⟩ := Stands.of_path hpath
  obtain ⟨depth, hdepth, hsubset⟩ :=
    hpending.tries (Text.byteSize source + 1) (Nat.lt_succ_self (Text.byteSize source))
  obtain ⟨depth, rfl⟩ : ∃ n, depth = n + 1 := ⟨depth - 1, by omega⟩
  exact hsubset (hunknown.mem_misses depth)

/-- A missing `)` is not taken for the name of a function. -/
theorem unknownFunction_ne_missingClose (name : Text) :
    s!"unknown function '{String.ofList name}'" ≠ Expectation.rightParen.message := by
  intro hmessage
  have hname : (s!"unknown function '{String.ofList name}'").toList.head? = some 'u' := by
    simp [toString]
  rw [hmessage] at hname
  exact absurd hname (by decide)

end Grammar

open Grammar

/-- An unknown function, at the first token that cannot go on and where an operand may
come, is reported by name unless it stands directly behind a comma in a call.  There the
missing `)` is reported, at the name. -/
theorem unknown_function_reported {source : Text} {error : ParseError} {words : List Word}
    {q : Place} {name : Text} {size : Nat} (h : (parse source {}).1 = .error error)
    (hlongest : Longest source words q) (hallows : AllowsOperand words)
    (hunknown : UnknownCall q.skip name size) :
    ((error.message = s!"unknown function '{String.ofList name}'" ∧
        error.span = ⟨q.skip.offset, q.skip.offset + size⟩) ↔ ¬ EndsInComma words) ∧
      (EndsInComma words →
        error.message = "expecting ')'" ∧ error.span = .point q.skip.offset) := by
  obtain ⟨s, hpath⟩ := hallows.path hlongest.scans
  obtain ⟨front, last, back, hsplit, hforced, hstart, hback, hmessage, hspan⟩ :=
    hlongest.reports_last h (hunknown.mem_missesOf hpath) rfl rfl
  have hmem : last ∈ missesOf source := hsplit ▸ List.mem_append_right _ List.mem_cons_self
  have hlast := hlongest.forced_at_name hpath hunknown hmem hforced hstart
  by_cases hcomma : EndsInComma words
  · have hclose : last = missingClose q := by
      rcases hlast with rfl | ⟨-, hclose⟩
      · -- The `)` would be missed later than the name.
        have hquiet := (BehindComma.mk hlongest hpath hunknown hcomma).quiet_missesOf
        rw [hsplit] at hquiet
        exact absurd rfl (hback _ hquiet.mem rfl)
      · exact hclose
    subst hclose
    refine ⟨⟨fun hname => ?_, fun hnot => absurd hcomma hnot⟩, fun _ => ⟨hmessage, hspan⟩⟩
    exact absurd (hname.1.symm.trans hmessage) (unknownFunction_ne_missingClose name)
  · have hnamed : last = unknownCall q.skip name size :=
      hlast.resolve_right fun hclose => hcomma hclose.1
    subst hnamed
    exact ⟨⟨fun _ => hcomma, fun _ => ⟨hmessage, hspan⟩⟩, fun hnot => absurd hnot hcomma⟩

/-- The first argument of a call. -/
theorem unknown_function_reported_first_argument :
    ∃ error words q, (parse "max(foo(2), 1)".toList {}).1 = .error error ∧
      Longest "max(foo(2), 1)".toList words q ∧ AllowsOperand words ∧
      UnknownCall q.skip "foo".toList 3 ∧ ¬ EndsInComma words ∧
      error.message = "unknown function 'foo'" ∧ error.span = ⟨4, 7⟩ := by
  have h : (parse "max(foo(2), 1)".toList {}).1 =
      .error (.invalidExpression "unknown function 'foo'" ⟨4, 7⟩) := by decide +kernel
  have hname : Token BuiltinName (.start "max(foo(2), 1)".toList)
      (.plain "max".toList .functionName 0) ⟨"(foo(2), 1)".toList, 3⟩ :=
    finds_nameWord?.token rfl
  have hopen : Token (Mark '(' .leftParen) ⟨"(foo(2), 1)".toList, 3⟩
      (.plain ['('] .leftParen 3) ⟨"foo(2), 1)".toList, 4⟩ :=
    (finds_markWord? ..).token rfl
  have hpath := Path.cons (.name hname) (.single (.call (s := []) hopen))
  have hunknown : UnknownCall (Place.mk "foo(2), 1)".toList 4).skip "foo".toList 3 := by
    refine ⟨?_, ?_, ?_⟩ <;> decide
  have hlongest := hpath.longest fun _ _ => hunknown.not_recognized
  have haccepted : Accepted "max(1)".toList :=
    ⟨[.plain "max".toList .functionName 0, .plain ['('] .leftParen 3, .plain ['1'] .number 4,
      .plain [')'] .rightParen 5], by decide +kernel⟩
  have hallows : AllowsOperand [.plain "max".toList .functionName 0, .plain ['('] .leftParen 3] :=
    ⟨.plain ['1'] .number 4, rfl, "max(1)".toList, haccepted, by decide⟩
  have hcomma : ¬ EndsInComma [.plain "max".toList .functionName 0, .plain ['('] .leftParen 3] := by
    simp [EndsInComma, IsComma, Word.plain]
  obtain ⟨hmessage, hspan⟩ :=
    (unknown_function_reported h hlongest hallows hunknown).1.2 hcomma
  exact ⟨_, _, _, h, hlongest, hallows, hunknown, hcomma, hmessage, hspan⟩

/-- The second argument of a call: the name gives way to the `)` that is missing behind a
trailing comma, and in the first argument it does not. -/
theorem unknown_function_lost_behind_comma :
    (∃ error words q, (parse "max(1, foo(2))".toList {}).1 = .error error ∧
      Longest "max(1, foo(2))".toList words q ∧ AllowsOperand words ∧
      UnknownCall q.skip "foo".toList 3 ∧ q.skip.offset = 7 ∧
      error.message = "expecting ')'" ∧ error.span = .point 7) ∧
    (parse "max(foo(2), 1)".toList {}).1 =
      .error (.invalidExpression "unknown function 'foo'" ⟨4, 7⟩) := by
  refine ⟨?_, by decide +kernel⟩
  have h : (parse "max(1, foo(2))".toList {}).1 =
      .error (.invalidExpression "expecting ')'" (.point 7)) := by decide +kernel
  have hname : Token BuiltinName (.start "max(1, foo(2))".toList)
      (.plain "max".toList .functionName 0) ⟨"(1, foo(2))".toList, 3⟩ :=
    finds_nameWord?.token rfl
  have hopen : Token (Mark '(' .leftParen) ⟨"(1, foo(2))".toList, 3⟩
      (.plain ['('] .leftParen 3) ⟨"1, foo(2))".toList, 4⟩ :=
    (finds_markWord? ..).token rfl
  have hnumber : Token Numeral ⟨"1, foo(2))".toList, 4⟩
      (.plain ['1'] .number 4) ⟨", foo(2))".toList, 5⟩ :=
    finds_operandWord?.token rfl
  have hcomma : Token (Mark ',' .comma) ⟨", foo(2))".toList, 5⟩
      (.plain [','] .comma 5) ⟨" foo(2))".toList, 6⟩ :=
    (finds_markWord? ..).token rfl
  have hpath := Path.cons (.name hname) (.cons (.call (s := []) hopen)
    (.cons (.numeral hnumber) (.single (.comma hcomma))))
  have hunknown : UnknownCall (Place.mk " foo(2))".toList 6).skip "foo".toList 3 := by
    refine ⟨?_, ?_, ?_⟩ <;> decide
  have hlongest := hpath.longest fun _ _ => hunknown.not_recognized
  have haccepted : Accepted "max(1,1)".toList :=
    ⟨[.plain "max".toList .functionName 0, .plain ['('] .leftParen 3, .plain ['1'] .number 4,
      .plain [','] .comma 5, .plain ['1'] .number 6, .plain [')'] .rightParen 7], by decide +kernel⟩
  have hallows : AllowsOperand [.plain "max".toList .functionName 0, .plain ['('] .leftParen 3,
      .plain ['1'] .number 4, .plain [','] .comma 5] :=
    ⟨.plain ['1'] .number 6, rfl, "max(1,1)".toList, haccepted, by decide +kernel⟩
  exact ⟨_, _, _, h, hlongest, hallows, hunknown, rfl, rfl, rfl⟩

end DeskCalc
