import DeskCalc.Proofs.Diagnosis.Attempt
import DeskCalc.Proofs.Reading.Completeness
import DeskCalc.Proofs.Reading.Pending

/-
Every place that tokens lead to is tried.

`Tries p q` says that reading an expression at one place makes all the attempts that
reading one at the other place makes.  It holds wherever an operand is due
(`Pending.tries`).  So something is noted at every place that tokens lead to, or further
to the right (`Stands.covers`).
-/
namespace DeskCalc
namespace Grammar

namespace Course

variable {course : Course} {courses : List Course} {p q : Place} {words : List Word}

/-! ## Attempts of combined courses -/

theorem misses_first (course : Course) (courses : List Course) (p : Place) :
    course.misses p ⊆ missesInOrder (course :: courses) p :=
  List.subset_append_left _ _

theorem misses_rest (h : course.reader p = some (words, q)) :
    missesInOrder courses q ⊆ missesInOrder (course :: courses) p := by
  rw [missesInOrder, h]
  exact List.subset_append_right _ _

theorem misses_option (course : Course) (courses : List Course) (p : Place) :
    course.misses p ⊆ missesOfFirst (course :: courses) p :=
  List.subset_append_left _ _

theorem misses_alternative (h : course.reader p = none) :
    missesOfFirst courses p ⊆ missesOfFirst (course :: courses) p := by
  rw [missesOfFirst, h]
  exact List.subset_append_right _ _

theorem misses_round (course : Course) (p : Place) :
    course.misses p ⊆ (repetition course).misses p :=
  List.subset_append_left _ _

theorem misses_next {fuel : Nat} (h : course.reader p = some (words, q)) (hmoved : p.Before q) :
    missesWithin course fuel q ⊆ missesWithin course (fuel + 1) p := by
  have hne : q.offset ≠ p.offset := Nat.ne_of_gt hmoved.2
  rw [missesWithin, h]
  dsimp only
  rw [if_neg hne]
  exact List.subset_append_right _ _

theorem missesWithin_mono (course : Course) {fuel fuel' : Nat} (h : fuel ≤ fuel') (p : Place) :
    missesWithin course fuel p ⊆ missesWithin course fuel' p := by
  induction fuel generalizing fuel' p with
  | zero => exact List.nil_subset _
  | succ fuel ih =>
    obtain ⟨fuel', rfl⟩ : ∃ n, fuel' = n + 1 := ⟨fuel' - 1, by omega⟩
    have hle : fuel ≤ fuel' := by omega
    intro entry hentry
    rcases List.mem_append.1 hentry with hmem | hmem
    · exact List.mem_append_left _ hmem
    · refine List.mem_append_right _ ?_
      cases hread : course.reader p with
      | none =>
        rw [hread] at hmem
        cases hmem
      | some found =>
        rw [hread] at hmem
        dsimp only at hmem ⊢
        split at hmem
        · cases hmem
        · next hne =>
          rw [if_neg hne]
          exact ih hle _ hmem

theorem mem_missed {find : Text → Nat → Option Word} (miss : Place → Diagnostic)
    (h : Reader.token find p = none) : miss p.skip ∈ (token find miss).misses p := by
  have hnone : find p.skip.rest p.skip.offset = none := Option.map_eq_none_iff.1 h
  show _ ∈ if (find p.skip.rest p.skip.offset).isSome then [] else [miss p.skip]
  rw [hnone]
  exact List.mem_singleton_self _

theorem misses_found {find : Text → Nat → Option Word} {miss : Place → Diagnostic}
    (h : Reader.token find p = some (words, q)) : (token find miss).misses p = [] := by
  obtain ⟨word, hfind, -⟩ := Option.map_eq_some_iff.1 h
  show (if (find p.skip.rest p.skip.offset).isSome then [] else [miss p.skip]) = []
  rw [hfind, Option.isSome_some, if_pos rfl]

end Course

/-! ## Rounds that move on -/

/-- A reader that is over where it started finds nothing. -/
def Moves (reader : Reader) : Prop :=
  ∀ {p q : Place} {words : List Word}, reader p = some (words, q) → p.Before q

theorem Reader.repeatWithin_fuel {reader : Reader} (hmoves : Moves reader) {fuel fuel' : Nat}
    {p : Place} (h : Text.byteSize p.rest < fuel) (h' : Text.byteSize p.rest < fuel') :
    repeatWithin reader fuel p = repeatWithin reader fuel' p := by
  induction fuel generalizing fuel' p with
  | zero => exact absurd h (Nat.not_lt_zero _)
  | succ fuel ih =>
    obtain ⟨fuel', rfl⟩ : ∃ n, fuel' = n + 1 := ⟨fuel' - 1, by omega⟩
    cases hread : reader p with
    | none => rw [repeatWithin_none hread, repeatWithin_none hread]
    | some found =>
      obtain ⟨words, q⟩ := found
      have hmoved := hmoves hread
      have hsame : repeatWithin reader fuel q = repeatWithin reader fuel' q :=
        ih (by have := hmoved.1; omega) (by have := hmoved.1; omega)
      rw [repeatWithin, repeatWithin, hread]
      dsimp only
      rw [hsame]

theorem moves_signedNumeral : Moves (Reader.inOrder [Reader.sign, Reader.numeral]) := by
  intro p q words hread
  obtain ⟨_, r, _, hsign, hrest, rfl⟩ := Reader.inOrder_cons hread
  obtain ⟨_, t, _, hnumeral, hnil, rfl⟩ := Reader.inOrder_cons hrest
  obtain ⟨-, rfl⟩ := Reader.inOrder_nil hnil
  obtain ⟨sign, -, hsigned⟩ := finds_signWord?.reader_iff.1 hsign
  obtain ⟨word, -, hnumber⟩ := finds_operandWord?.reader_iff.1 hnumeral
  exact hsigned.sign_before.trans (hnumber.before hnumber.spelled.ne_nil)

/-! ## Attempts behind a part of an expression -/

namespace Course

variable {e : Course} {p q r : Place} {word : Word} {words : List Word}

theorem misses_operand (e : Course) (p : Place) :
    (operandOf e).misses p ⊆ (expressionOf e).misses p :=
  misses_first _ _ p

theorem misses_run (e : Course) (p : Place) : numberRun.misses p ⊆ (expressionOf e).misses p :=
  fun _ h => misses_operand e p (misses_option _ _ p h)

/-- Behind a `(` an expression is tried. -/
theorem misses_group (hopen : Token (Mark '(' .leftParen) p word q) :
    e.misses q ⊆ (expressionOf e).misses p := by
  intro entry h
  have hrun : numberRun.reader p = none :=
    numberRun_none fun _ _ => hopen.not_numeral_of_mark (by decide)
  have hread : leftParen.reader p = some ([word], q) :=
    (finds_markWord? '(' .leftParen).reader_iff.2 ⟨word, rfl, hopen⟩
  have hgroup : entry ∈ (groupOf e).misses p := misses_rest hread (misses_first _ _ q h)
  exact misses_operand e p (misses_alternative hrun (misses_option _ _ p hgroup))

/-- Behind a name its `(` and the arguments are tried. -/
theorem misses_call (hname : Token BuiltinName p word q) :
    missesInOrder [leftParen, argumentsOf e, rightParen] q ⊆ (expressionOf e).misses p := by
  intro entry h
  have hrun : numberRun.reader p = none := numberRun_none fun _ _ => hname.not_numeral_of_name
  have hgroup : (groupOf e).reader p = none :=
    groupOf_none fun _ _ hopen => hopen.not_name_of_mark (by decide) hname
  have hread : name.reader p = some ([word], q) := finds_nameWord?.reader_iff.2 ⟨word, rfl, hname⟩
  have hcall : entry ∈ (callOf e).misses p := misses_rest hread h
  exact misses_operand e p (misses_alternative hrun (misses_alternative hgroup
    (misses_option _ _ p hcall)))

theorem misses_arguments {opening : Word} (hname : Token BuiltinName p word q)
    (hopen : Token (Mark '(' .leftParen) q opening r) :
    (argumentsOf e).misses r ⊆ (expressionOf e).misses p := by
  intro entry h
  have hread : leftParen.reader q = some ([opening], r) :=
    (finds_markWord? '(' .leftParen).reader_iff.2 ⟨opening, rfl, hopen⟩
  exact misses_call hname (misses_rest hread (misses_first _ _ r h))

/-- Behind an operand and a sign another expression is tried. -/
theorem misses_signed (hread : (operandOf e).reader p = some (words, q))
    (hsign : Token Sign q word r) : e.misses r ⊆ (expressionOf e).misses p := by
  intro entry h
  have hreadSign : sign.reader q = some ([word], r) :=
    finds_signWord?.reader_iff.2 ⟨word, rfl, hsign⟩
  have hround : entry ∈ (inOrder [sign, e]).misses q := misses_rest hreadSign (misses_first _ _ r h)
  exact misses_rest hread (misses_first _ _ q (misses_round _ q hround))

/-- Behind an operand a sign is tried. -/
theorem misses_sign (hread : (operandOf e).reader p = some (words, q)) (hended : q.Ended) :
    Log.expected .operator q.skip.offset false ∈ (expressionOf e).misses p := by
  have hmissed : Log.expected .operator q.skip.offset false ∈ sign.misses q :=
    mem_missed _ (finds_signWord?.reader_none hended)
  have hround : Log.expected .operator q.skip.offset false ∈ (inOrder [sign, e]).misses q :=
    misses_first _ _ q hmissed
  exact misses_rest hread (misses_first _ _ q (misses_round _ q hround))

/-! ## Runs of numbers -/

/-- A run that goes on with a sign and a number goes on like the run that starts there. -/
theorem numberRun_signed {number next : Word} {t : Place} (hnumber : Token Numeral p number q)
    (hsign : Token Sign q word r) (hnext : Token Numeral r next t) :
    (∃ words more u, numberRun.reader p = some (words, u) ∧
      numberRun.reader r = some (more, u)) ∧ numberRun.misses r ⊆ numberRun.misses p := by
  have hread : Reader.numeral p = some ([number], q) :=
    finds_operandWord?.reader_iff.2 ⟨number, rfl, hnumber⟩
  have hreadSign : Reader.sign q = some ([word], r) :=
    finds_signWord?.reader_iff.2 ⟨word, rfl, hsign⟩
  have hreadNext : Reader.numeral r = some ([next], t) :=
    finds_operandWord?.reader_iff.2 ⟨next, rfl, hnext⟩
  have hround : Reader.inOrder [Reader.sign, Reader.numeral] q =
      some ([word] ++ ([next] ++ []), t) :=
    Reader.inOrder_of hreadSign (Reader.inOrder_of hreadNext rfl)
  have hbefore := moves_signedNumeral hround
  have hsize : Text.byteSize t.rest + 1 ≤ Text.byteSize q.rest := hbefore.1
  constructor
  · match hrun : Reader.repeatWithin (Reader.inOrder [Reader.sign, Reader.numeral])
        (Text.byteSize t.rest + 1) t with
    | (count, found, u) =>
      have hrun' := Reader.repeatWithin_fuel moves_signedNumeral (Nat.lt_succ_self _)
        (Nat.lt_of_succ_le hsize)
      obtain ⟨more, hmore, -⟩ := Reader.repetition_of hrun
      obtain ⟨words, hwords, -⟩ := Reader.repetition_of
        (Reader.repeatWithin_succ hround hbefore.offset_ne (hrun'.symm.trans hrun))
      exact ⟨_, _, u, Reader.followed_of hread hwords, Reader.followed_of hreadNext hmore⟩
  · intro entry hentry
    have hmem : entry ∈ missesInOrder [repetition (inOrder [sign, numeral])] t := by
      change entry ∈ missesInOrder [numeral, _] r at hentry
      rw [missesInOrder, show numeral.reader r = some ([next], t) from hreadNext,
        show numeral.misses r = [] from misses_found hreadNext] at hentry
      exact hentry
    have hrounds : entry ∈ missesWithin (inOrder [sign, numeral]) (Text.byteSize t.rest + 1) t := by
      rcases List.mem_append.1 hmem with hmem | hmem
      · exact hmem
      · split at hmem <;> cases hmem
    have hnextRound : entry ∈ (repetition (inOrder [sign, numeral])).misses q :=
      misses_next hround hbefore (missesWithin_mono _ hsize t hrounds)
    have hfirst : numeral.reader p = some ([number], q) := hread
    exact misses_rest hfirst (misses_first _ _ q hnextRound)

/-- A run ends in front of a sign with no number behind it. -/
theorem numberRun_single {number : Word} (hnumber : Token Numeral p number q)
    (hstop : Reader.inOrder [Reader.sign, Reader.numeral] q = none) :
    ∃ words, numberRun.reader p = some (words, q) := by
  have hread : Reader.numeral p = some ([number], q) :=
    finds_operandWord?.reader_iff.2 ⟨number, rfl, hnumber⟩
  obtain ⟨found, hfound, -⟩ := Reader.repetition_of (Reader.repeatWithin_none hstop _)
  exact ⟨_, Reader.followed_of hread hfound⟩

/-- A run of numbers is an operand, and nothing else is tried for it. -/
theorem operandOf_run (e : Course) (h : numberRun.reader p = some (words, q)) :
    (operandOf e).reader p = some (words, q) ∧ (operandOf e).misses p = numberRun.misses p := by
  constructor
  · show (numberRun.reader p).or _ = _
    rw [h, Option.some_or]
  · show numberRun.misses p ++ (if (numberRun.reader p).isSome then [] else _) = _
    rw [h, Option.isSome_some, if_pos rfl, List.append_nil]

end Course

/-! ## Expressions that are tried -/

/-- Reading an expression at the first place makes the attempts of reading one at the
second. -/
def Tries (p q : Place) : Prop :=
  ∀ depth, Text.byteSize p.rest < depth → ∃ depth', Text.byteSize q.rest < depth' ∧
    (Course.expressionWithin depth').misses q ⊆ (Course.expressionWithin depth).misses p

variable {p q r : Place} {word : Word} {words : List Word}

theorem Tries.refl (p : Place) : Tries p p :=
  fun depth hdepth => ⟨depth, hdepth, List.Subset.refl _⟩

theorem Tries.trans (h : Tries p q) (h' : Tries q r) : Tries p r := by
  intro depth hdepth
  obtain ⟨depth', hdepth', hsubset⟩ := h depth hdepth
  obtain ⟨depth'', hdepth'', hsubset'⟩ := h' depth' hdepth'
  exact ⟨depth'', hdepth'', List.Subset.trans hsubset' hsubset⟩

/-- What is tried by the expressions nested once is tried. -/
theorem Tries.of_nested (hbefore : p.Before q)
    (h : ∀ depth, Text.byteSize p.rest ≤ depth → (Course.expressionWithin depth).misses q ⊆
      (Course.expressionOf (Course.expressionWithin depth)).misses p) : Tries p q := by
  intro depth hdepth
  obtain ⟨depth, rfl⟩ : ∃ n, depth = n + 1 := ⟨depth - 1, by omega⟩
  have hsize : Text.byteSize p.rest ≤ depth := by omega
  exact ⟨depth, Nat.lt_of_lt_of_le hbefore.1 hsize, h depth hsize⟩

theorem complete_course (depth : Nat) : Complete (Course.expressionWithin depth).reader depth ∧
    StopsAtClose (Course.expressionWithin depth).reader := by
  rw [Course.reader_expressionWithin]
  exact complete_expressionWithin depth

/-- An operand is read to its end, a number if no other one follows behind a sign. -/
theorem operandOf_reads {depth : Nat} (hoperand : Derives .operand p words q)
    (hstop : (∃ number, Token Numeral p number q) →
      Reader.inOrder [Reader.sign, Reader.numeral] q = none)
    (hsize : Text.byteSize p.rest ≤ depth) :
    ∃ found, (Course.operandOf (Course.expressionWithin depth)).reader p = some (found, q) := by
  obtain ⟨hcomplete, hclose⟩ := complete_course depth
  cases hoperand with
  | numeral hnumber =>
    obtain ⟨found, hfound⟩ := Course.numberRun_single hnumber (hstop ⟨_, hnumber⟩)
    refine ⟨found, (Reader.operandOf_eq _ p).trans ?_⟩
    rw [show Reader.numberRun p = some (found, q) from hfound, Option.some_or]
  | group hopen hinner hclosed =>
    obtain ⟨found, hfound, -⟩ := complete_groupOf hcomplete hsize hopen hinner hclosed
    exact ⟨found, hfound⟩
  | call hname hopen hinner hcomma hclosed =>
    obtain ⟨found, hfound, -⟩ :=
      complete_callOf hcomplete hclose hsize hname hopen hinner hcomma hclosed
    exact ⟨found, hfound⟩

/-- Behind an operand and a sign another expression is tried. -/
theorem tries_signed (hoperand : Derives .operand p words q) (hsign : Token Sign q word r) :
    Tries p r := by
  have hbefore := hoperand.before.trans hsign.sign_before
  by_cases hrun : (∃ number, Token Numeral p number q) → ∀ next t, ¬ Token Numeral r next t
  · refine .of_nested hbefore fun depth hsize => ?_
    have hstop : (∃ number, Token Numeral p number q) →
        Reader.inOrder [Reader.sign, Reader.numeral] q = none := fun hnumber =>
      Reader.inOrder_none_of (finds_signWord?.reader_iff.2 ⟨word, rfl, hsign⟩)
        (Reader.inOrder_none (finds_operandWord?.reader_none (hrun hnumber)))
    obtain ⟨found, hfound⟩ := operandOf_reads hoperand hstop hsize
    exact Course.misses_signed hfound hsign
  · -- The run of numbers takes the sign and the number behind it with it.
    push Not at hrun
    obtain ⟨⟨number, hnumber⟩, next, t, hnext⟩ := hrun
    obtain ⟨⟨found, more, u, hfound, hmore⟩, hsubset⟩ :=
      Course.numberRun_signed hnumber hsign hnext
    intro depth hdepth
    obtain ⟨depth, rfl⟩ : ∃ n, depth = n + 1 := ⟨depth - 1, by omega⟩
    refine ⟨depth + 1, Nat.lt_trans hbefore.1 hdepth, fun entry hentry => ?_⟩
    obtain ⟨hread, -⟩ := Course.operandOf_run (.expressionWithin depth) hfound
    obtain ⟨hreadNext, hmisses⟩ := Course.operandOf_run (.expressionWithin depth) hmore
    rcases List.mem_append.1 hentry with hmem | hmem
    · rw [hmisses] at hmem
      exact Course.misses_run _ p (hsubset hmem)
    · rw [hreadNext] at hmem
      exact Course.misses_rest hread hmem

theorem tries_group (hopen : Token (Mark '(' .leftParen) p word q) : Tries p q :=
  .of_nested hopen.mark_before fun _ _ => Course.misses_group hopen

theorem tries_call {opening : Word} (hname : Token BuiltinName p word q)
    (hopen : Token (Mark '(' .leftParen) q opening r) : Tries p r :=
  .of_nested (hname.name_before.trans hopen.mark_before) fun _ _ =>
    List.Subset.trans (Course.misses_first _ _ r) (Course.misses_arguments hname hopen)

/-- In front of a list or of a comma no sign goes on. -/
theorem ContinuesList.ended_of_comma {separator : Word} (h : ContinuesList p words q)
    (hcomma : Token (Mark ',' .comma) q separator r) : p.Ended := by
  rcases h with ⟨rfl, -⟩ | ⟨_, _, _, hnext, -, -⟩
  · exact hcomma.ended (by decide)
  · exact hnext.ended (by decide)

/-- Behind the arguments of a list and a comma another argument is tried. -/
theorem misses_listed {depth fuel : Nat} {t u : Place} {separator : Word}
    (hfuel : Text.byteSize r.rest < fuel) (hsize : Text.byteSize r.rest ≤ depth)
    (hcontinues : ContinuesList r words t) (hcomma : Token (Mark ',' .comma) t separator u) :
    (Course.expressionWithin depth).misses u ⊆
      Course.missesWithin (.inOrder [.comma, .expressionWithin depth]) fuel r := by
  induction fuel generalizing r words with
  | zero => exact absurd hfuel (Nat.not_lt_zero _)
  | succ fuel ih =>
    have hread : ∀ {p q : Place} {word : Word}, Token (Mark ',' .comma) p word q →
        Course.comma.reader p = some ([word], q) := fun h =>
      (finds_markWord? ',' .comma).reader_iff.2 ⟨_, rfl, h⟩
    intro entry hentry
    rcases hcontinues with ⟨rfl, rfl⟩ | ⟨comma, v, more, hseparated, hlist, rfl⟩
    · exact List.mem_append_left _
        (Course.misses_rest (hread hcomma) (Course.misses_first _ _ u hentry))
    · obtain ⟨first, w, rest, hfirst, hrest, rfl⟩ := hlist.expression_first
      have hbefore := hseparated.mark_before
      have hround := hbefore.trans hfirst.before
      obtain ⟨found, hfound, -⟩ := (complete_course depth).1
        (Nat.lt_of_lt_of_le hbefore.1 hsize) hfirst (hrest.ended_of_comma hcomma)
      have hreadRound : (Course.inOrder [.comma, .expressionWithin depth]).reader r =
          some ([comma] ++ (found ++ []), w) :=
        Reader.inOrder_of (hread hseparated) (Reader.inOrder_of hfound rfl)
      have hnext := ih (Nat.lt_of_lt_of_le hround.1 (Nat.le_of_lt_succ hfuel))
        (Nat.le_trans (Nat.le_of_lt hround.1) hsize) hrest hentry
      exact Course.misses_next hreadRound hround hnext

theorem tries_argument {t u : Place} {opening separator : Word}
    (hname : Token BuiltinName p word q) (hopen : Token (Mark '(' .leftParen) q opening r)
    (hlist : Derives .list r words t) (hcomma : Token (Mark ',' .comma) t separator u) :
    Tries p u := by
  have hbefore := hname.name_before.trans hopen.mark_before
  refine .of_nested (hbefore.trans (hlist.before.trans hcomma.mark_before))
    fun depth hsize entry hentry => ?_
  obtain ⟨first, w, rest, hfirst, hrest, rfl⟩ := hlist.expression_first
  have hlt := Nat.lt_of_lt_of_le hbefore.1 hsize
  obtain ⟨found, hfound, -⟩ := (complete_course depth).1 hlt hfirst
    (hrest.ended_of_comma hcomma)
  have hrounds : entry ∈
      (Course.repetition (.inOrder [.comma, .expressionWithin depth])).misses w :=
    misses_listed (Nat.lt_succ_self _) (Nat.le_of_lt (Nat.lt_trans hfirst.before.1 hlt)) hrest
      hcomma hentry
  have harguments : entry ∈ (Course.argumentsOf (.expressionWithin depth)).misses r :=
    Course.misses_rest hfound (Course.misses_first _ _ w hrounds)
  exact Course.misses_arguments hname hopen harguments

/-- Wherever an operand is due an expression is tried. -/
theorem Pending.tries {start : Place} {s : List Bracket} (h : Pending start s p q) :
    Tries start q := by
  induction h with
  | start => exact .refl start
  | sign _ hoperand hsign ih => exact ih.trans (tries_signed hoperand hsign)
  | group _ hopen ih => exact ih.trans (tries_group hopen)
  | call _ hname hopen ih => exact ih.trans (tries_call hname hopen)
  | argument _ hname hopen hlist hcomma ih =>
    exact ih.trans (tries_argument hname hopen hlist hcomma)

/-! ## Places that are covered -/

/-- Reading an expression at the first place notes something at the second or further to
the right. -/
def Covers (p q : Place) : Prop :=
  ∀ depth, Text.byteSize p.rest < depth →
    ∃ entry ∈ (Course.expressionWithin depth).misses p, q.skip.offset ≤ entry.span.start

theorem Tries.covers (h : Tries p q) (h' : Covers q r) : Covers p r := by
  intro depth hdepth
  obtain ⟨depth', hdepth', hsubset⟩ := h depth hdepth
  obtain ⟨entry, hentry, hle⟩ := h' depth' hdepth'
  exact ⟨entry, hsubset hentry, hle⟩

theorem Covers.of_le (h : Covers p r) (hle : q.skip.offset ≤ r.skip.offset) : Covers p q := by
  intro depth hdepth
  obtain ⟨entry, hentry, hstart⟩ := h depth hdepth
  exact ⟨entry, hentry, Nat.le_trans hle hstart⟩

theorem Token.skip_le {Spelled : Word → Text → Prop} (h : Token Spelled p word q) :
    p.skip.offset ≤ q.skip.offset := by
  have hstop := h.stop
  have hskip : q.offset ≤ q.skip.offset := Nat.le_add_right _ _
  omega

/-- Where an operand is over, a sign is missed. -/
theorem covers_ended (hoperand : Derives .operand p words q) (hended : q.Ended) :
    Covers p q := by
  intro depth hdepth
  obtain ⟨depth, rfl⟩ : ∃ n, depth = n + 1 := ⟨depth - 1, by omega⟩
  obtain ⟨found, hfound⟩ :=
    operandOf_reads hoperand (fun _ => sign_none hended) (Nat.le_of_lt_succ hdepth)
  exact ⟨_, Course.misses_sign hfound hended, Nat.le_refl _⟩

/-- Something is noted where an expression is tried, or further to the right. -/
theorem covers_refl (p : Place) : Covers p p := by
  induction hsize : Text.byteSize p.rest using Nat.strong_induction_on generalizing p with
  | _ size ih =>
    cases hread : Reader.numeral p with
    | none =>
      intro depth hdepth
      obtain ⟨depth, rfl⟩ : ∃ n, depth = n + 1 := ⟨depth - 1, by omega⟩
      have hmissed : Log.expected .number p.skip.offset false ∈ Course.numeral.misses p :=
        Course.mem_missed _ hread
      exact ⟨_, Course.misses_run _ p (Course.misses_first _ _ p hmissed), Nat.le_refl _⟩
    | some found =>
      obtain ⟨_, q⟩ := found
      obtain ⟨number, -, hnumber⟩ := finds_operandWord?.reader_iff.1 hread
      have hle := hnumber.skip_le
      by_cases hended : q.Ended
      · exact (covers_ended (.numeral hnumber) hended).of_le hle
      · simp only [Place.Ended, not_forall, not_not] at hended
        obtain ⟨sign, r, hsign⟩ := hended
        have hbefore := (hnumber.before hnumber.spelled.ne_nil).trans hsign.sign_before
        have hcovers := ih _ (hsize ▸ hbefore.1) r rfl
        exact ((tries_signed (.numeral hnumber) hsign).covers hcovers).of_le
          (Nat.le_trans hle hsign.skip_le)

theorem covers_operand (hoperand : Derives .operand p words q) : Covers p q := by
  by_cases hended : q.Ended
  · exact covers_ended hoperand hended
  · simp only [Place.Ended, not_forall, not_not] at hended
    obtain ⟨sign, r, hsign⟩ := hended
    exact ((tries_signed hoperand hsign).covers (covers_refl r)).of_le hsign.skip_le

theorem covers_name (hname : Token BuiltinName p word q) : Covers p q := by
  by_cases hopen : ∃ opening r, Token (Mark '(' .leftParen) q opening r
  · obtain ⟨opening, r, hopen⟩ := hopen
    exact ((tries_call hname hopen).covers (covers_refl r)).of_le hopen.skip_le
  · simp only [not_exists] at hopen
    intro depth hdepth
    obtain ⟨depth, rfl⟩ : ∃ n, depth = n + 1 := ⟨depth - 1, by omega⟩
    have hmissed : Log.expected .leftParen q.skip.offset false ∈ Course.leftParen.misses q :=
      Course.mem_missed (fun p => Log.expected .leftParen p.offset false)
        ((finds_markWord? '(' .leftParen).reader_none hopen)
    exact ⟨_, Course.misses_call hname (Course.misses_first _ _ q hmissed), Nat.le_refl _⟩

/-- Something is noted at every place that tokens lead to, or further to the right. -/
theorem Stands.covers {start : Place} {c : Stance} (h : Stands start c q) : Covers start q := by
  match c, h with
  | ⟨.operand, _⟩, ⟨_, hpending⟩ => exact hpending.tries.covers (covers_refl q)
  | ⟨.arguments, _⟩, ⟨_, _, _, hpending, hname⟩ => exact hpending.tries.covers (covers_name hname)
  | ⟨.operator, _⟩, ⟨_, _, _, hpending, hoperand⟩ =>
    exact hpending.tries.covers (covers_operand hoperand)
  | ⟨.closing, _⟩, ⟨_, _, t, _, comma, hpending, hoperand, htrailing⟩ =>
    -- The comma is also tried as one that separates arguments.
    obtain ⟨_, _, _, _, _, _, _, houter, hname, hopen, hlist⟩ := hpending.listed hoperand
    have hcomma : Token (Mark ',' .comma) t { comma with kind := .comma } q :=
      ⟨htrailing.text, htrailing.offset, htrailing.stop, rfl, htrailing.spelled.2⟩
    exact (houter.tries.trans (tries_argument hname hopen hlist hcomma)).covers (covers_refl q)

theorem exists_mem_missesOf {source : Text} {c : Stance} {q : Place} {words : List Word}
    (h : Path .initial (.start source) words c q) :
    ∃ entry ∈ missesOf source, q.skip.offset ≤ entry.span.start :=
  (Stands.of_path h).covers _ (Nat.lt_succ_self _)

end Grammar
end DeskCalc
