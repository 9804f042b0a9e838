import DeskCalc.Proofs.Rejection

/-
The name of an unknown function, where an operand may come.

Nothing is read there, and the name is noted.  Nothing else that is forced is noted at that
place, unless a comma stands before it: then the comma is also tried as a trailing one, and
the `)` that is missing behind it is noted last.
-/
namespace DeskCalc
namespace Grammar

section UnknownCall

variable {p q : Place} {name : Text} {size : Nat} {word : Word}

theorem UnknownCall.not_numeral (h : UnknownCall p.skip name size) : ¬ Token Numeral p word q := by
  intro hnumber
  obtain ⟨lexeme, hfirst, hkind, -⟩ := hnumber.spelled
  rw [← hnumber.text, h.1] at hfirst
  obtain ⟨rfl, -⟩ := Prod.mk.inj (Option.some.inj hfirst)
  cases hkind

theorem UnknownCall.not_mark (h : UnknownCall p.skip name size) {symbol : Char} {kind : WordKind}
    (hsymbol : symbol ∈ delimiters) : ¬ Token (Mark symbol kind) p word q := by
  intro hmark
  obtain ⟨lexeme, hfirst, -, hname⟩ := first?_delimiter q.rest hsymbol
  rw [← hmark.mark_rest, h.1] at hfirst
  exact hname name (Prod.mk.inj (Option.some.inj hfirst)).1.symm

theorem UnknownCall.not_name (h : UnknownCall p.skip name size) :
    ¬ Token BuiltinName p word q := by
  intro hname
  obtain ⟨-, -, hfirst, hbuiltin⟩ := hname.spelled
  rw [← hname.text, h.1] at hfirst
  obtain ⟨heq, -⟩ := Prod.mk.inj (Option.some.inj hfirst)
  rw [← Lexeme.identifier.inj heq, h.2.1] at hbuiltin
  cases hbuiltin

theorem UnknownCall.not_sign (h : UnknownCall p.skip name size) : ¬ Token Sign p word q := by
  intro hsign
  obtain ⟨-, -, op, htext⟩ := hsign.spelled
  obtain ⟨-, -, c, hc, hstart⟩ := (Lexeme.fits_first h.1).name name rfl
  rw [hsign.text, htext, List.singleton_append, List.head?_cons] at hc
  rw [← Option.some.inj hc] at hstart
  cases op <;> exact absurd hstart (by decide)

/-- There is no token at the name of an unknown function. -/
theorem UnknownCall.not_recognized (h : UnknownCall p.skip name size) :
    ¬ Token Recognized p word q := by
  intro htoken
  have hspelled := htoken.spelled
  unfold Recognized at hspelled
  split at hspelled
  all_goals first
    | exact h.not_numeral (htoken.imp fun _ => hspelled)
    | exact h.not_sign (htoken.imp fun _ => hspelled)
    | exact h.not_name (htoken.imp fun _ => hspelled)
    | exact h.not_mark (by decide) (htoken.imp fun _ => hspelled)
    | exact hspelled

/-- The name and its size are what stands at the place. -/
theorem UnknownCall.unique {name' : Text} {size' : Nat} (h : UnknownCall p name size)
    (h' : UnknownCall p name' size') : name' = name ∧ size' = size := by
  obtain ⟨hname, hsize⟩ := Prod.mk.inj (Option.some.inj (h'.1.symm.trans h.1))
  exact ⟨Lexeme.identifier.inj hname, hsize⟩

theorem missedName_of_unknownCall (h : UnknownCall p name size) :
    missedName p = unknownCall p name size := by
  rw [missedName, h.1]
  exact if_pos h.2.2

namespace UnknownCall

variable (h : UnknownCall p.skip name size)
include h

theorem numberRun_none : Reader.numberRun p = none := Grammar.numberRun_none fun _ _ => h.not_numeral

theorem groupOf_none (reader : Reader) : Reader.groupOf reader p = none :=
  Grammar.groupOf_none fun _ _ => h.not_mark (by decide)

theorem callOf_none (reader : Reader) : Reader.callOf reader p = none :=
  Grammar.callOf_none fun _ _ => h.not_name

/-- No expression starts with the name of an unknown function. -/
theorem expression_none (depth : Nat) : (Course.expressionWithin depth).reader p = none := by
  rw [Course.reader_expressionWithin]
  cases depth with
  | zero => rfl
  | succ depth =>
    have hoperand : Reader.operandOf (Reader.expressionWithin depth) p = none := by
      rw [Reader.operandOf_eq, h.numberRun_none, h.groupOf_none, h.callOf_none]
      rfl
    show Reader.expressionOf (Reader.expressionWithin depth) p = none
    exact Reader.followed_none hoperand

/-- Where an expression is tried the name is noted. -/
theorem mem_misses (depth : Nat) :
    unknownCall p.skip name size ∈ (Course.expressionWithin (depth + 1)).misses p := by
  have hnone : Course.name.reader p = none := finds_nameWord?.reader_none fun _ _ => h.not_name
  have hmissed : missedName p.skip ∈ Course.name.misses p := Course.mem_missed missedName hnone
  rw [missedName_of_unknownCall h] at hmissed
  have hcall : unknownCall p.skip name size ∈
      (Course.callOf (.expressionWithin depth)).misses p := Course.misses_first _ _ p hmissed
  have hgroup : (Course.groupOf (.expressionWithin depth)).reader p = none := h.groupOf_none _
  have hrun : Course.numberRun.reader p = none := h.numberRun_none
  exact Course.misses_operand _ p (Course.misses_alternative hrun
    (Course.misses_alternative hgroup (Course.misses_option _ _ p hcall)))

end UnknownCall

end UnknownCall

/-! ## Settled diagnostics -/

/-- Wherever one diagnostic is in the list, the other one is behind it. -/
def Settled (first second : Diagnostic) : List Diagnostic → Prop
  | [] => True
  | entry :: entries => (entry = first → second ∈ entries) ∧ Settled first second entries

section Settled

variable {first second : Diagnostic} {front back : List Diagnostic}

theorem Settled.append (hfront : Settled first second front ∨ second ∈ back)
    (hback : Settled first second back) : Settled first second (front ++ back) := by
  induction front with
  | nil => exact hback
  | cons entry front ih =>
    refine ⟨fun hentry => ?_, ih (hfront.imp_left And.right)⟩
    rcases hfront with hsettled | hmem
    · exact List.mem_append_left _ (hsettled.1 hentry)
    · exact List.mem_append_right _ hmem

theorem Settled.of_not_mem (h : first ∉ front) : Settled first second front := by
  induction front with
  | nil => exact True.intro
  | cons entry front ih =>
    obtain ⟨hne, hrest⟩ := not_or.1 (mt List.mem_cons.2 h)
    exact ⟨fun heq => absurd heq.symm hne, ih hrest⟩

theorem Settled.mem (h : Settled first second (front ++ first :: back)) : second ∈ back := by
  induction front with
  | nil => exact h.1 rfl
  | cons _ _ ih => exact ih h.2

variable {course : Course} {courses : List Course} {p : Place}

theorem Settled.inOrder (hfirst : Settled first second (course.misses p))
    (hrest : ∀ {words q}, course.reader p = some (words, q) →
      Settled first second (Course.missesInOrder courses q)) :
    Settled first second (Course.missesInOrder (course :: courses) p) := by
  refine .append (Or.inl hfirst) ?_
  cases hread : course.reader p with
  | none => exact True.intro
  | some found => exact hrest hread

theorem Settled.firstOf (hfirst : Settled first second (course.misses p))
    (hrest : Settled first second (Course.missesOfFirst courses p)) :
    Settled first second (Course.missesOfFirst (course :: courses) p) := by
  refine .append (Or.inl hfirst) ?_
  split
  · exact True.intro
  · exact hrest

theorem Settled.rounds {fuel : Nat} (hround : Settled first second (course.misses p))
    (hnext : ∀ {words q}, course.reader p = some (words, q) → q.offset ≠ p.offset →
      Settled first second (Course.missesWithin course fuel q)) :
    Settled first second (Course.missesWithin course (fuel + 1) p) := by
  refine .append (Or.inl hround) ?_
  cases hread : course.reader p with
  | none => exact True.intro
  | some found =>
    dsimp only
    split
    · exact True.intro
    · next hmoved => exact hnext hread hmoved

theorem Settled.within (Holds : Place → Prop)
    (hround : ∀ p, Holds p → Settled first second (course.misses p))
    (hnext : ∀ p words q, Holds p → course.reader p = some (words, q) → Holds q) (fuel : Nat)
    (h : Holds p) : Settled first second (Course.missesWithin course fuel p) := by
  induction fuel generalizing p with
  | zero => exact True.intro
  | succ fuel ih => exact .rounds (hround p h) fun hread _ => ih (hnext p _ _ h hread)

end Settled

/-! ## Behind a comma -/

theorem endsInComma_snoc {front : List Word} {word : Word} :
    EndsInComma (front ++ [word]) ↔ IsComma word := by
  simp [EndsInComma]

/-- Paths to the place behind the longest viable tokens end there alike. -/
theorem Longest.at_stop {source : Text} {words more : List Word} {c d : Stance} {q r : Place}
    (h : Longest source words q) (hpath : Path .initial (.start source) words c q)
    (hmore : Path .initial (.start source) more d r) (hoffset : r.skip.offset = q.skip.offset) :
    r = q ∧ ((more = words ∧ d = c) ∨ (EndsInComma words ∧ EndsInComma more)) := by
  obtain ⟨same, rest, m, rfl, hrest, hend⟩ := h.compare hpath hmore
  cases rest with
  | nil =>
    cases hrest
    rw [List.append_nil]
    exact ⟨rfl, hend.imp_left fun hsame => ⟨hsame.1.symm, hsame.2.symm⟩⟩
  | cons =>
    have hlt := hrest.skip_lt (by simp)
    omega

section Comma

variable {source : Text} {words : List Word} {s : List Bracket} {q : Place} {name : Text}
  {size : Nat}

/-- An unknown function behind a comma. -/
structure BehindComma (source : Text) (words : List Word) (s : List Bracket) (q : Place)
    (name : Text) (size : Nat) : Prop where
  longest : Longest source words q
  path : Path .initial (.start source) words ⟨.operand, s⟩ q
  unknown : UnknownCall q.skip name size
  comma : EndsInComma words

/-- Whenever the name has been noted, the missing `)` is noted later. -/
def Quiet (q : Place) (name : Text) (size : Nat) : List Diagnostic → Prop :=
  Settled (unknownCall q.skip name size) (missingClose q)

theorem quiet_token {find : Text → Nat → Option Word} (miss : Place → Diagnostic) {p : Place}
    (h : miss p.skip ≠ unknownCall q.skip name size) :
    Quiet q name size ((Course.token find miss).misses p) := by
  refine .of_not_mem ?_
  show _ ∉ if (find p.skip.rest p.skip.offset).isSome then [] else [miss p.skip]
  split
  · exact List.not_mem_nil
  · exact fun hmem => h (List.mem_singleton.1 hmem).symm

theorem expected_ne_unknownCall (expectation : Expectation) (offset : Nat) (forced : Bool)
    (p : Place) : Log.expected expectation offset forced ≠ unknownCall p name size :=
  fun heq => by cases congrArg Diagnostic.turn heq

theorem quiet_mark (symbol : Char) (kind : WordKind) (expectation : Expectation) (forced : Bool)
    (p : Place) : Quiet q name size ((Course.mark symbol kind expectation forced).misses p) :=
  quiet_token (fun p => Log.expected expectation p.offset forced)
    (expected_ne_unknownCall _ _ _ _)

theorem start_missedName (p : Place) : (missedName p).span.start = p.offset := by
  unfold missedName
  split
  · split <;> rfl
  · rfl

theorem quiet_name {p : Place} (hne : p.skip.offset ≠ q.skip.offset) :
    Quiet q name size (Course.name.misses p) :=
  quiet_token missedName fun heq =>
    hne ((start_missedName p.skip).symm.trans (congrArg (fun d => d.span.start) heq))

theorem quiet_numeral (p : Place) : Quiet q name size (Course.numeral.misses p) :=
  quiet_token (fun p => Log.expected .number p.offset false) (expected_ne_unknownCall _ _ _ _)

theorem quiet_sign (p : Place) : Quiet q name size (Course.sign.misses p) :=
  quiet_token (fun p => Log.expected .operator p.offset false) (expected_ne_unknownCall _ _ _ _)

theorem quiet_numberRun (p : Place) : Quiet q name size (Course.numberRun.misses p) := by
  have hround : ∀ p, Quiet q name size
      ((Course.inOrder [Course.sign, Course.numeral]).misses p) := fun p =>
    .inOrder (quiet_sign p) fun {_ r} _ => .inOrder (quiet_numeral r) fun _ => True.intro
  refine .inOrder (quiet_numeral p) fun {_ r} _ => .inOrder ?_ fun _ => True.intro
  exact .within (fun _ => True) (fun p _ => hround p) (fun _ _ _ _ _ => True.intro) _ True.intro

variable (h : BehindComma source words s q name size)
include h

/-- A path to the place of the name ends in a comma. -/
theorem BehindComma.endsInComma {more : List Word} {d : Stance} {r : Place}
    (hmore : Path .initial (.start source) more d r) (hoffset : r.skip.offset = q.skip.offset) :
    r = q ∧ EndsInComma more := by
  obtain ⟨hplace, ⟨rfl, -⟩ | ⟨-, hcomma⟩⟩ := h.longest.at_stop h.path hmore hoffset
  · exact ⟨hplace, h.comma⟩
  · exact ⟨hplace, hcomma⟩

theorem BehindComma.ne_of_move {more : List Word} {d d' : Stance} {r r' : Place} {word : Word}
    (hmore : Path .initial (.start source) more d r) (hmove : Move d r word d' r')
    (hword : ¬ IsComma word) : r'.skip.offset ≠ q.skip.offset := fun hoffset =>
  hword (endsInComma_snoc.1 (h.endsInComma (hmore.snoc hmove) hoffset).2)

/-! ## Rules behind tokens of a source -/

/-- Expressions that are tried elsewhere keep the name settled. -/
def QuietExpression (source : Text) (q : Place) (name : Text) (size : Nat) (e : Course) : Prop :=
  ∀ {more : List Word} {s : List Bracket} {r : Place},
    Path .initial (.start source) more ⟨.operand, s⟩ r → r.skip.offset ≠ q.skip.offset →
      Quiet q name size (e.misses r)

variable {e : Course} {more : List Word} {t : List Bracket} {r : Place}

theorem BehindComma.quiet_groupOf (hquiet : QuietExpression source q name size e)
    (hmore : Path .initial (.start source) more ⟨.operand, t⟩ r) :
    Quiet q name size ((Course.groupOf e).misses r) := by
  refine .inOrder (quiet_mark ..) fun hopen => .inOrder ?_ fun _ =>
    .inOrder (quiet_mark ..) fun _ => True.intro
  obtain ⟨word, rfl, htoken⟩ := (finds_markWord? '(' .leftParen).reader_iff.1 hopen
  have hword : ¬ IsComma word := by simp [IsComma, htoken.spelled.1]
  exact hquiet (hmore.snoc (.group htoken)) (h.ne_of_move hmore (.group htoken) hword)

theorem BehindComma.quiet_signed (hruns : Course.RunsExpression e)
    (hquiet : QuietExpression source q name size e)
    (hmore : Path .initial (.start source) more ⟨.operator, t⟩ r) :
    Quiet q name size ((Course.repetition (.inOrder [.sign, e])).misses r) := by
  refine .within (fun r => ∃ more, Path .initial (.start source) more ⟨.operator, t⟩ r)
    ?_ ?_ _ ⟨more, hmore⟩
  · rintro r ⟨more, hmore⟩
    refine .inOrder (quiet_sign r) fun hsign => .inOrder ?_ fun _ => True.intro
    obtain ⟨word, rfl, htoken⟩ := finds_signWord?.reader_iff.1 hsign
    have hword : ¬ IsComma word := by simp [IsComma, htoken.spelled.1]
    exact hquiet (hmore.snoc (.sign htoken)) (h.ne_of_move hmore (.sign htoken) hword)
  · rintro r found r' ⟨more, hmore⟩ hread
    obtain ⟨_, rfl, hpath⟩ := (Course.runs_signed hruns).reads hread
    exact ⟨_, hmore.append hpath⟩

/-- Arguments behind commas keep the name settled, or the repetition of them ends before the
comma in front of the name. -/
theorem BehindComma.quiet_separated (hruns : Course.RunsExpression e)
    (hquiet : QuietExpression source q name size e) (hnone : e.reader q = none) (fuel : Nat)
    (hmore : Path .initial (.start source) more ⟨.operator, .call :: t⟩ r) :
    Quiet q name size (Course.missesWithin (.inOrder [.comma, e]) fuel r) ∨
      ∃ count found r' comma, Reader.repeatWithin (Course.inOrder [.comma, e]).reader fuel r =
        (count, found, r') ∧ Token (Mark ',' .comma) r' comma q := by
  induction fuel generalizing more r with
  | zero => exact Or.inl True.intro
  | succ fuel ih =>
    have hmiss : Quiet q name size (Course.comma.misses r) := quiet_mark ..
    cases hcomma : Course.comma.reader r with
    | none =>
      have hround : (Course.inOrder [.comma, e]).reader r = none := Reader.inOrder_none hcomma
      refine Or.inl (.rounds (.inOrder hmiss fun hread => ?_) fun hread => ?_)
      · rw [hcomma] at hread
        cases hread
      · rw [hround] at hread
        cases hread
    | some found =>
      obtain ⟨_, r'⟩ := found
      obtain ⟨comma, rfl, htoken⟩ := (finds_markWord? ',' .comma).reader_iff.1 hcomma
      have hpath := hmore.snoc (.comma htoken)
      by_cases hoffset : r'.skip.offset = q.skip.offset
      · -- The comma stands in front of the name: this round reads nothing.
        obtain ⟨rfl, -⟩ := h.endsInComma hpath hoffset
        have hround : (Course.inOrder [.comma, e]).reader r = none :=
          Reader.inOrder_none_of hcomma (Reader.inOrder_none hnone)
        exact Or.inr ⟨0, [], r, comma, Reader.repeatWithin_none hround _, htoken⟩
      · have hinner : Quiet q name size ((Course.inOrder [.comma, e]).misses r) := by
          refine .inOrder hmiss fun hread => .inOrder ?_ fun _ => True.intro
          obtain ⟨-, rfl⟩ := Prod.mk.inj (Option.some.inj (hcomma.symm.trans hread))
          exact hquiet hpath hoffset
        by_cases hrest : ∀ {first r''}, (Course.inOrder [.comma, e]).reader r = some (first, r'') →
            r''.offset ≠ r.offset →
              Quiet q name size (Course.missesWithin (.inOrder [.comma, e]) fuel r'')
        · exact Or.inl (.rounds hinner hrest)
        · -- The comma in front of the name stands behind this round.
          simp only [not_forall] at hrest
          obtain ⟨first, r'', hround, hmoved, hrest⟩ := hrest
          obtain ⟨_, rfl, hnext⟩ := (Course.runs_separated hruns).reads hround
          obtain ⟨count, others, z, last, hrun, hlast⟩ :=
            (ih (hmore.append hnext)).resolve_left hrest
          exact Or.inr ⟨count + 1, first ++ others, z, last,
            Reader.repeatWithin_succ hround hmoved hrun, hlast⟩

/-- A list of arguments keeps the name settled, or is read up to the name. -/
theorem BehindComma.quiet_argumentsOf (hruns : Course.RunsExpression e)
    (hquiet : QuietExpression source q name size e) (hnone : e.reader q = none)
    (hmore : Path .initial (.start source) more ⟨.operand, .call :: t⟩ r)
    (hne : r.skip.offset ≠ q.skip.offset) :
    Quiet q name size ((Course.argumentsOf e).misses r) ∨
      ∃ found, (Course.argumentsOf e).reader r = some (found, q) := by
  have hfirst : Quiet q name size (e.misses r) := hquiet hmore hne
  cases hread : e.reader r with
  | none =>
    refine Or.inl (.inOrder hfirst fun hsome => ?_)
    rw [hread] at hsome
    cases hsome
  | some found =>
    obtain ⟨found, r'⟩ := found
    obtain ⟨_, rfl, hpath⟩ := (hruns (.call :: t)).reads hread
    rcases h.quiet_separated hruns hquiet hnone (Text.byteSize r'.rest + 1) (hmore.append hpath)
      with hrounds | ⟨count, others, r'', comma, hrun, hcomma⟩
    · refine Or.inl (.inOrder hfirst fun hsome => .inOrder ?_ fun _ =>
        .inOrder (quiet_mark ..) fun _ => True.intro)
      obtain ⟨-, rfl⟩ := Prod.mk.inj (Option.some.inj (hread.symm.trans hsome))
      exact hrounds
    · obtain ⟨listed, hlisted, -⟩ := Reader.repetition_of hrun
      have htrailing : Reader.mark ',' .trailingComma r'' =
          some ([{ comma with kind := .trailingComma }], q) :=
        (finds_markWord? ',' .trailingComma).reader_iff.2 ⟨_, rfl,
          hcomma.text, hcomma.offset, hcomma.stop, rfl, hcomma.spelled.2⟩
      have hrest : Reader.asFarAs [Reader.repetition (Course.inOrder [.comma, e]).reader,
          Reader.mark ',' .trailingComma] r' =
            (listed ++ [{ comma with kind := .trailingComma }], q) := by
        simp [Reader.asFarAs, hlisted, htrailing]
      refine Or.inr ⟨found ++ (listed ++ [{ comma with kind := .trailingComma }]), ?_⟩
      show Reader.followed e.reader [Reader.repetition (Course.inOrder [.comma, e]).reader,
        Reader.mark ',' .trailingComma] r = _
      rw [Reader.followed, hread]
      simp [hrest]

theorem BehindComma.quiet_callOf (hruns : Course.RunsExpression e)
    (hquiet : QuietExpression source q name size e) (hnone : e.reader q = none)
    (hmore : Path .initial (.start source) more ⟨.operand, t⟩ r)
    (hne : r.skip.offset ≠ q.skip.offset) : Quiet q name size ((Course.callOf e).misses r) := by
  refine .inOrder (quiet_name hne) fun hread => .inOrder (quiet_mark ..) fun hread' => ?_
  obtain ⟨word, rfl, hname⟩ := finds_nameWord?.reader_iff.1 hread
  obtain ⟨opening, rfl, hopen⟩ := (finds_markWord? '(' .leftParen).reader_iff.1 hread'
  have hnamed := hmore.snoc (.name hname)
  have hword : ¬ IsComma opening := by simp [IsComma, hopen.spelled.1]
  have hopened := h.ne_of_move hnamed (.call hopen) hword
  rcases h.quiet_argumentsOf hruns hquiet hnone (hnamed.snoc (.call hopen)) hopened with
    harguments | ⟨found, hfound⟩
  · exact .inOrder harguments fun _ => .inOrder (quiet_mark ..) fun _ => True.intro
  · -- The arguments end at the name, so the `)` is missed there.
    have hclose : missingClose q ∈ Course.rightParen.misses q :=
      Course.mem_missed (fun p => Log.expected .rightParen p.offset true)
        ((finds_markWord? ')' .rightParen).reader_none fun _ _ => h.unknown.not_mark (by decide))
    refine .append (Or.inr ?_) ?_
    · rw [hfound]
      exact Course.misses_first _ _ q hclose
    · rw [hfound]
      exact .inOrder (quiet_mark ..) fun _ => True.intro

theorem BehindComma.quiet_expressionWithin (depth : Nat) :
    QuietExpression source q name size (.expressionWithin depth) := by
  induction depth with
  | zero => exact fun _ _ => True.intro
  | succ depth ih =>
    intro more t r hmore hne
    have hruns := Course.runs_expressionWithin depth
    have hnone := h.unknown.expression_none depth
    have hoperand : Quiet q name size ((Course.operandOf (.expressionWithin depth)).misses r) :=
      .firstOf (quiet_numberRun r) (.firstOf (h.quiet_groupOf ih hmore)
        (.firstOf (h.quiet_callOf hruns ih hnone hmore hne) True.intro))
    refine .inOrder hoperand fun hread => .inOrder ?_ fun _ => True.intro
    obtain ⟨_, rfl, hpath⟩ := (Course.runs_operandOf hruns).reads hread
    exact h.quiet_signed hruns ih (hmore.append hpath)

/-- Reading the source keeps the name settled. -/
theorem BehindComma.quiet_missesOf : Quiet q name size (missesOf source) := by
  refine h.quiet_expressionWithin _ .nil fun hoffset => ?_
  obtain ⟨-, comma, hlast, -⟩ := h.endsInComma .nil hoffset
  cases hlast

end Comma

end Grammar
end DeskCalc
