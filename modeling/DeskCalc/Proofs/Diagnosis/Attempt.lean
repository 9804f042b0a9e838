import DeskCalc.Proofs.Diagnosis.Expression

/-
Where diagnostics are noted.

`Runs` says of a course that it reads along tokens that the stances admit, and that all it
misses is missed at places that such tokens lead to.  It is proved for every rule of
expressions from the way the rule is combined, so whatever is noted while a source is read
stands behind tokens that open an expression (`mem_missesOf`).
-/
namespace DeskCalc
namespace Grammar

/-- The words without the marks of repetitions that matched nothing: the tokens. -/
def tokens (words : List Word) : List Word := words.filter fun word => word.kind != .placeholder

@[simp] theorem tokens_append (words more : List Word) :
    tokens (words ++ more) = tokens words ++ tokens more :=
  List.filter_append words more

@[simp] theorem tokens_placeholder (offset : Nat) : tokens [.placeholder offset] = [] := rfl

theorem Recognized.tokens {word : Word} {after : Text} (h : Recognized word after) :
    tokens [word] = [word] := by
  have hkind : word.kind ≠ .placeholder := by
    intro hplaceholder
    rw [Recognized, hplaceholder] at h
    exact h
  simp [Grammar.tokens, hkind]

/-- The diagnostic for a missing `)`. -/
def missingClose (p : Place) : Diagnostic := Log.expected .rightParen p.skip.offset true

/-- A diagnostic that is noted at a place where a stance is taken.  It is forced only if it
names an unknown function where an operand may come, or asks for a `)` where that may. -/
structure NotedAt (entry : Diagnostic) (c : Stance) (p : Place) : Prop where
  start : entry.span.start = p.skip.offset
  forced : entry.forced = true →
    (c.demand = .operand ∧
      ∃ name size, UnknownCall p.skip name size ∧ entry = unknownCall p.skip name size) ∨
    ((c.demand = .operator ∨ c.demand = .closing) ∧ entry = missingClose p)

/-- From one stance the course leads to others, and notes something only on the way. -/
structure Course.Runs (course : Course) (c : Stance) (Ends : Stance → Prop) : Prop where
  misses : ∀ {p : Place} {entry : Diagnostic}, entry ∈ course.misses p →
    ∃ words d q, Path c p words d q ∧ NotedAt entry d q
  reads : ∀ {p q : Place} {words : List Word}, course.reader p = some (words, q) →
    ∃ d, Ends d ∧ Path c p (tokens words) d q

namespace Course

/-- As much of the courses in order as can be read. -/
def asFarAs (courses : List Course) : Course :=
  ⟨fun p => some (Reader.asFarAs (courses.map reader) p), missesInOrder courses⟩

variable {course : Course} {courses : List Course} {c d : Stance} {Mid Ends : Stance → Prop}

/-! ## Ways of combining courses -/

/-- What is missed by courses in order is missed by the first, or behind it. -/
theorem Runs.missesInOrder (hfirst : course.Runs c Mid)
    (hrest : ∀ d, Mid d → ∀ {q : Place} {entry : Diagnostic}, entry ∈ missesInOrder courses q →
      ∃ words e r, Path d q words e r ∧ NotedAt entry e r)
    {p : Place} {entry : Diagnostic} (h : entry ∈ missesInOrder (course :: courses) p) :
    ∃ words e r, Path c p words e r ∧ NotedAt entry e r := by
  rcases List.mem_append.1 h with hmem | hmem
  · exact hfirst.misses hmem
  · cases hread : course.reader p with
    | none =>
      rw [hread] at hmem
      cases hmem
    | some found =>
      obtain ⟨words, q⟩ := found
      rw [hread] at hmem
      obtain ⟨d, hd, hpath⟩ := hfirst.reads hread
      obtain ⟨more, e, r, hmore, hnoted⟩ := hrest d hd hmem
      exact ⟨_, e, r, hpath.append hmore, hnoted⟩

theorem runs_inOrder_nil : (inOrder []).Runs c (· = c) where
  misses h := by cases h
  reads h := by
    obtain ⟨rfl, rfl⟩ := Prod.mk.inj (Option.some.inj h)
    exact ⟨c, rfl, .nil⟩

theorem Runs.inOrder_cons (hfirst : course.Runs c Mid)
    (hrest : ∀ d, Mid d → (inOrder courses).Runs d Ends) :
    (inOrder (course :: courses)).Runs c Ends where
  misses h := hfirst.missesInOrder (fun d hd => (hrest d hd).misses) h
  reads h := by
    obtain ⟨first, q, more, hfirstRead, hmore, rfl⟩ := Reader.inOrder_cons h
    obtain ⟨d, hd, hpath⟩ := hfirst.reads hfirstRead
    obtain ⟨e, he, hpath'⟩ := (hrest d hd).reads hmore
    exact ⟨e, he, tokens_append first more ▸ hpath.append hpath'⟩

theorem runs_asFarAs_nil (hc : Ends c) : (asFarAs []).Runs c Ends where
  misses h := by cases h
  reads h := by
    obtain ⟨rfl, rfl⟩ := Prod.mk.inj (Option.some.inj h)
    exact ⟨c, hc, .nil⟩

theorem Runs.asFarAs_cons (hfirst : course.Runs c Mid) (hc : Ends c)
    (hrest : ∀ d, Mid d → (asFarAs courses).Runs d Ends) :
    (asFarAs (course :: courses)).Runs c Ends where
  misses h := hfirst.missesInOrder (fun d hd => (hrest d hd).misses) h
  reads {p q words} h := by
    have h := Option.some.inj h
    rw [List.map_cons, Reader.asFarAs] at h
    cases hread : course.reader p with
    | none =>
      rw [hread] at h
      obtain ⟨rfl, rfl⟩ := Prod.mk.inj h
      exact ⟨c, hc, .nil⟩
    | some found =>
      obtain ⟨first, r⟩ := found
      rw [hread] at h
      obtain ⟨rfl, rfl⟩ := Prod.mk.inj h
      obtain ⟨d, hd, hpath⟩ := hfirst.reads hread
      obtain ⟨e, he, hpath'⟩ := (hrest d hd).reads rfl
      exact ⟨e, he, tokens_append first _ ▸ hpath.append hpath'⟩

theorem Runs.followed (hfirst : course.Runs c Mid)
    (hrest : ∀ d, Mid d → (asFarAs courses).Runs d Ends) :
    (followed course courses).Runs c Ends where
  misses h := hfirst.missesInOrder (fun d hd => (hrest d hd).misses) h
  reads h := by
    obtain ⟨first, q, more, hfirstRead, hmore, rfl⟩ := Reader.followed_eq_some h
    obtain ⟨d, hd, hpath⟩ := hfirst.reads hfirstRead
    obtain ⟨e, he, hpath'⟩ := (hrest d hd).reads (congrArg some hmore)
    exact ⟨e, he, tokens_append first more ▸ hpath.append hpath'⟩

theorem runs_firstOf (h : ∀ course ∈ courses, course.Runs c Ends) :
    (firstOf courses).Runs c Ends := by
  induction courses with
  | nil => exact ⟨fun hmem => (by cases hmem), fun hread => (by cases hread)⟩
  | cons course courses ih =>
    have hfirst := h course List.mem_cons_self
    have hrest := ih fun course hcourse => h course (List.mem_cons_of_mem _ hcourse)
    constructor
    · intro p entry hmem
      rcases List.mem_append.1 hmem with hmem | hmem
      · exact hfirst.misses hmem
      · split at hmem
        · cases hmem
        · exact hrest.misses hmem
    · intro p q words hread
      rcases Option.or_eq_some_iff.1 hread with hread | ⟨-, hread⟩
      · exact hfirst.reads hread
      · exact hrest.reads hread

/-! Every round of a course that leads back to its stance starts there. -/

theorem Runs.missesWithin (h : course.Runs c (· = c)) (fuel : Nat) {p : Place}
    {entry : Diagnostic} (hmem : entry ∈ missesWithin course fuel p) :
    ∃ words d q, Path c p words d q ∧ NotedAt entry d q := by
  induction fuel generalizing p with
  | zero => cases hmem
  | succ fuel ih =>
    rcases List.mem_append.1 hmem with hmem | hmem
    · exact h.misses hmem
    cases hread : course.reader p with
    | none =>
      rw [hread] at hmem
      cases hmem
    | some found =>
      obtain ⟨words, q⟩ := found
      obtain ⟨_, rfl, hpath⟩ := h.reads hread
      rw [hread] at hmem
      dsimp only at hmem
      split at hmem
      · cases hmem
      · obtain ⟨more, e, r, hmore, hnoted⟩ := ih hmem
        exact ⟨_, e, r, hpath.append hmore, hnoted⟩

theorem Runs.repeatWithin (h : course.Runs c (· = c)) (fuel : Nat) {p q : Place} {count : Nat}
    {words : List Word} (hrun : Reader.repeatWithin course.reader fuel p = (count, words, q)) :
    Path c p (tokens words) c q := by
  induction fuel generalizing p count words q with
  | zero =>
    cases hrun
    exact .nil
  | succ fuel ih =>
    rw [Reader.repeatWithin] at hrun
    cases hone : course.reader p with
    | none =>
      rw [hone] at hrun
      cases hrun
      exact .nil
    | some found =>
      obtain ⟨first, r⟩ := found
      obtain ⟨_, rfl, hpath⟩ := h.reads hone
      rw [hone] at hrun
      dsimp only at hrun
      split at hrun
      · cases hrun
        exact hpath
      · cases hrun
        rw [tokens_append]
        exact hpath.append (ih rfl)

/-- A course that leads back to its stance can be repeated. -/
theorem Runs.repetition (h : course.Runs c (· = c)) : (repetition course).Runs c (· = c) where
  misses hmem := h.missesWithin _ hmem
  reads {p q words} hread := by
    have hrepetition : Reader.repetition course.reader p = some (words, q) := hread
    unfold Reader.repetition at hrepetition
    split at hrepetition
    · next found r hrun =>
      obtain ⟨rfl, rfl⟩ := Prod.mk.inj (Option.some.inj hrepetition)
      refine ⟨c, rfl, ?_⟩
      rw [tokens_append, tokens_placeholder, List.append_nil]
      exact h.repeatWithin _ hrun
    · next hrun =>
      obtain ⟨rfl, rfl⟩ := Prod.mk.inj (Option.some.inj hrepetition)
      exact ⟨c, rfl, h.repeatWithin _ hrun⟩

/-! ## Tokens -/

theorem runs_token {find : Text → Nat → Option Word} {Spelled : Word → Text → Prop}
    {miss : Place → Diagnostic} (hfinds : Finds find Spelled)
    (hmove : ∀ {p word q}, Token Spelled p word q → Move c p word d q)
    (hmiss : ∀ p, find p.skip.rest p.skip.offset = none → NotedAt (miss p.skip) c p) :
    (token find miss).Runs c (· = d) where
  misses {p entry} h := by
    change entry ∈ (if (find p.skip.rest p.skip.offset).isSome then [] else [miss p.skip]) at h
    split at h
    · cases h
    · next hnone =>
      rw [List.mem_singleton.1 h]
      exact ⟨[], c, p, .nil, hmiss p (Option.not_isSome_iff_eq_none.1 hnone)⟩
  reads h := by
    obtain ⟨word, rfl, htoken⟩ := hfinds.reader_iff.1 h
    have hword := hmove htoken
    exact ⟨d, rfl, (Recognized.tokens hword.token.spelled).symm ▸ .single hword⟩

theorem notedAt_expected (expectation : Expectation) (p : Place) :
    NotedAt (Log.expected expectation p.skip.offset false) c p :=
  ⟨rfl, fun h => (by cases h)⟩

theorem runs_mark {symbol : Char} {kind : WordKind} {expectation : Expectation} {forced : Bool}
    (hmove : ∀ {p word q}, Token (Mark symbol kind) p word q → Move c p word d q)
    (hnoted : ∀ p, NotedAt (Log.expected expectation p.skip.offset forced) c p) :
    (mark symbol kind expectation forced).Runs c (· = d) :=
  runs_token (finds_markWord? symbol kind) hmove fun p _ => hnoted p

variable (s : List Bracket)

theorem runs_numeral : numeral.Runs ⟨.operand, s⟩ (· = ⟨.operator, s⟩) :=
  runs_token finds_operandWord? .numeral fun p _ => notedAt_expected .number p

theorem runs_sign : sign.Runs ⟨.operator, s⟩ (· = ⟨.operand, s⟩) :=
  runs_token finds_signWord? .sign fun p _ => notedAt_expected .operator p

theorem runs_rightParen {c d : Stance} (hc : c.demand = .operator ∨ c.demand = .closing)
    (hmove : ∀ {p word q}, Token (Mark ')' .rightParen) p word q → Move c p word d q) :
    rightParen.Runs c (· = d) :=
  runs_mark hmove fun _ => ⟨rfl, fun _ => Or.inr ⟨hc, rfl⟩⟩

theorem runs_name : name.Runs ⟨.operand, s⟩ (· = ⟨.arguments, s⟩) := by
  refine runs_token finds_nameWord? .name fun p hnone => ?_
  have hmissed : missedName p.skip = Log.expected .functionName p.skip.offset false ∨
      ∃ name size, UnknownCall p.skip name size ∧ missedName p.skip = unknownCall p.skip name size := by
    unfold nameWord? at hnone
    split at hnone
    · next name size hfirst =>
      split at hnone
      · cases hnone
      · next hname =>
        rw [missedName, hfirst]
        dsimp only
        split
        · next hopen =>
          exact Or.inr ⟨name, size, ⟨hfirst, Option.not_isSome_iff_eq_none.1 hname, hopen⟩, rfl⟩
        · exact Or.inl rfl
    · exact Or.inl (by simp only [missedName])
  rcases hmissed with heq | ⟨name, size, hunknown, heq⟩
  · rw [heq]
    exact notedAt_expected ..
  · rw [heq]
    exact ⟨rfl, fun _ => Or.inl ⟨rfl, name, size, hunknown, rfl⟩⟩

/-! ## Rules of expressions -/

theorem runs_numberRun : numberRun.Runs ⟨.operand, s⟩ (· = ⟨.operator, s⟩) := by
  have hround : (inOrder [sign, numeral]).Runs ⟨.operator, s⟩ (· = ⟨.operator, s⟩) := by
    refine (runs_sign s).inOrder_cons ?_
    rintro _ rfl
    exact (runs_numeral s).inOrder_cons fun _ hd => hd ▸ runs_inOrder_nil
  refine (runs_numeral s).followed ?_
  rintro _ rfl
  exact hround.repetition.asFarAs_cons rfl fun _ hd => runs_asFarAs_nil hd

/-- The course of an expression, whatever brackets are open. -/
def RunsExpression (course : Course) : Prop :=
  ∀ s, course.Runs ⟨.operand, s⟩ (· = ⟨.operator, s⟩)

variable {s}

theorem runs_groupOf (h : RunsExpression course) :
    (groupOf course).Runs ⟨.operand, s⟩ (· = ⟨.operator, s⟩) := by
  refine (runs_mark .group (notedAt_expected _)).inOrder_cons ?_
  rintro _ rfl
  refine (h (.group :: s)).inOrder_cons ?_
  rintro _ rfl
  exact (runs_rightParen (Or.inl rfl) .close).inOrder_cons fun _ hd => hd ▸ runs_inOrder_nil

theorem runs_separated (h : RunsExpression course) :
    (inOrder [comma, course]).Runs ⟨.operator, .call :: s⟩ (· = ⟨.operator, .call :: s⟩) := by
  refine (runs_mark .comma (notedAt_expected _)).inOrder_cons ?_
  rintro _ rfl
  exact (h (.call :: s)).inOrder_cons fun _ hd => hd ▸ runs_inOrder_nil

theorem runs_argumentsOf (h : RunsExpression course) :
    (argumentsOf course).Runs ⟨.operand, .call :: s⟩
      fun d => d = ⟨.operator, .call :: s⟩ ∨ d = ⟨.closing, s⟩ := by
  refine (h (.call :: s)).followed ?_
  rintro _ rfl
  refine (runs_separated h).repetition.asFarAs_cons (Or.inl rfl) ?_
  rintro _ rfl
  exact (runs_mark .trailing (notedAt_expected _)).asFarAs_cons (Or.inl rfl)
    fun _ hd => runs_asFarAs_nil (Or.inr hd)

theorem runs_callOf (h : RunsExpression course) :
    (callOf course).Runs ⟨.operand, s⟩ (· = ⟨.operator, s⟩) := by
  refine (runs_name s).inOrder_cons ?_
  rintro _ rfl
  refine (runs_mark .call (notedAt_expected _)).inOrder_cons ?_
  rintro _ rfl
  refine (runs_argumentsOf h).inOrder_cons fun d hd => ?_
  have hclose : rightParen.Runs d (· = ⟨.operator, s⟩) := by
    rcases hd with rfl | rfl
    · exact runs_rightParen (Or.inl rfl) .close
    · exact runs_rightParen (Or.inr rfl) .last
  exact hclose.inOrder_cons fun _ hd => hd ▸ runs_inOrder_nil

theorem runs_operandOf (h : RunsExpression course) :
    (operandOf course).Runs ⟨.operand, s⟩ (· = ⟨.operator, s⟩) := by
  refine runs_firstOf fun alternative halternative => ?_
  simp only [List.mem_cons, List.not_mem_nil, or_false] at halternative
  rcases halternative with rfl | rfl | rfl
  · exact runs_numberRun s
  · exact runs_groupOf h
  · exact runs_callOf h

theorem runs_signed (h : RunsExpression course) :
    (inOrder [sign, course]).Runs ⟨.operator, s⟩ (· = ⟨.operator, s⟩) := by
  refine (runs_sign s).inOrder_cons ?_
  rintro _ rfl
  exact (h s).inOrder_cons fun _ hd => hd ▸ runs_inOrder_nil

theorem runs_expressionOf (h : RunsExpression course) : RunsExpression (expressionOf course) := by
  intro s
  refine (runs_operandOf h).followed ?_
  rintro _ rfl
  exact (runs_signed h).repetition.asFarAs_cons rfl fun _ hd => runs_asFarAs_nil hd

theorem runs_expressionWithin (depth : Nat) : RunsExpression (expressionWithin depth) := by
  induction depth with
  | zero => exact fun s => ⟨fun hmem => (by cases hmem), fun hread => (by cases hread)⟩
  | succ depth ih => exact runs_expressionOf ih

end Course

/-- Whatever is noted stands behind tokens that open an expression. -/
theorem mem_missesOf {source : Text} {entry : Diagnostic} (h : entry ∈ missesOf source) :
    ∃ words c p, Path .initial (.start source) words c p ∧ NotedAt entry c p :=
  (Course.runs_expressionWithin _ []).misses h

/-- What the reader finds in a source is read along its tokens. -/
theorem path_of_expression {source : Text} {words : List Word} {stop : Place}
    (h : Reader.expression (.start source) = some (words, stop)) :
    Path .initial (.start source) (tokens words) .complete stop := by
  rw [Reader.expression, ← Course.reader_expressionWithin] at h
  obtain ⟨d, rfl, hpath⟩ := (Course.runs_expressionWithin _ []).reads h
  exact hpath

end Grammar
end DeskCalc
