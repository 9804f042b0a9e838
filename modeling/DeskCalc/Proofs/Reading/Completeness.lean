import DeskCalc.Proofs.Reading.Expression

/-
The readers of expressions find every phrase of the grammar.

The rules are greedy and do not come back to a choice, so a phrase is found where it
is over: behind it stands no sign.  Inside a sentence this holds of every phrase,
because a `)`, a comma or the end of the source follows.
-/
namespace DeskCalc
namespace Grammar

/-! ## Readers of given phrases -/

section Found

variable {reader rounds : Reader} {readers : List Reader} {p q r : Place}
  {first more : List Word}

theorem Reader.inOrder_of (hfirst : reader p = some (first, q))
    (hmore : Reader.inOrder readers q = some (more, r)) :
    Reader.inOrder (reader :: readers) p = some (first ++ more, r) := by
  simp [Reader.inOrder, hfirst, hmore]

theorem Reader.inOrder_none (h : reader p = none) : Reader.inOrder (reader :: readers) p = none := by
  simp [Reader.inOrder, h]

theorem Reader.inOrder_none_of (hfirst : reader p = some (first, q))
    (hmore : Reader.inOrder readers q = none) : Reader.inOrder (reader :: readers) p = none := by
  simp [Reader.inOrder, hfirst, hmore]

theorem Reader.followed_none (h : reader p = none) : Reader.followed reader readers p = none := by
  simp [Reader.followed, h]

theorem Reader.followed_of (hfirst : reader p = some (first, q))
    (hmore : Reader.repetition rounds q = some (more, r)) :
    Reader.followed reader [Reader.repetition rounds] p = some (first ++ more, r) := by
  simp [Reader.followed, Reader.asFarAs, hfirst, hmore]

theorem Place.Before.offset_ne (h : p.Before q) : q.offset ≠ p.offset := Nat.ne_of_gt h.2

theorem Reader.repeatWithin_none (h : reader p = none) (fuel : Nat) :
    Reader.repeatWithin reader fuel p = (0, [], p) := by
  cases fuel <;> simp [Reader.repeatWithin, h]

/-- A round that moves on is followed by the other rounds. -/
theorem Reader.repeatWithin_succ {count fuel : Nat} (hfirst : reader p = some (first, q))
    (hmoved : q.offset ≠ p.offset) (hmore : Reader.repeatWithin reader fuel q = (count, more, r)) :
    Reader.repeatWithin reader (fuel + 1) p = (count + 1, first ++ more, r) := by
  simp [Reader.repeatWithin, hfirst, hmoved, hmore]

theorem Reader.repetition_of {count : Nat} {words : List Word}
    (h : Reader.repeatWithin reader (Text.byteSize p.rest + 1) p = (count, words, q)) :
    ∃ found, Reader.repetition reader p = some (found, q) ∧ spoken found = spoken words := by
  obtain ⟨found, q', hfound, count', words', h', hspoken⟩ := Reader.repetition_eq_some reader p
  obtain ⟨-, rfl, rfl⟩ : count = count' ∧ words = words' ∧ q = q' := by
    simpa only [Prod.mk.injEq] using h.symm.trans h'
  exact ⟨found, hfound, hspoken⟩

end Found

/-! ## What follows an operand -/

/-- Nothing, or a sign and an expression. -/
def Continues (p : Place) (words : List Word) (q : Place) : Prop :=
  (p = q ∧ words = []) ∨
    ∃ sign r more, Token Sign p sign r ∧ Derives .expression r more q ∧ words = sign :: more

theorem Derives.operand_first {p q : Place} {words : List Word}
    (h : Derives .expression p words q) :
    ∃ first r more, Derives .operand p first r ∧ Continues r more q ∧ words = first ++ more := by
  cases h with
  | single hfirst => exact ⟨_, _, _, hfirst, Or.inl ⟨rfl, rfl⟩, (List.append_nil _).symm⟩
  | chain hfirst hsign hrest => exact ⟨_, _, _, hfirst, Or.inr ⟨_, _, _, hsign, hrest, rfl⟩, rfl⟩

/-- The reader finds every expression that is over and starts with fewer bytes than
`bound` left. -/
def Complete (reader : Reader) (bound : Nat) : Prop :=
  ∀ {p q : Place} {words : List Word}, Text.byteSize p.rest < bound →
    Derives .expression p words q → q.Ended →
      ∃ found, reader p = some (found, q) ∧ spoken found = words

theorem sign_none {reader : Reader} {p : Place} (h : p.Ended) :
    Reader.inOrder [Reader.sign, reader] p = none :=
  Reader.inOrder_none (finds_signWord?.reader_none h)

variable {reader : Reader} {bound : Nat}

theorem complete_signs (h : Complete reader bound) {p q : Place} {words : List Word}
    (hsize : Text.byteSize p.rest ≤ bound) (hcontinues : Continues p words q)
    (hended : q.Ended) :
    ∃ found, Reader.repetition (Reader.inOrder [Reader.sign, reader]) p = some (found, q) ∧
      spoken found = words := by
  rcases hcontinues with ⟨rfl, rfl⟩ | ⟨sign, r, more, hsign, hrest, rfl⟩
  · exact Reader.repetition_of (Reader.repeatWithin_none (sign_none hended) _)
  · have hbefore := hsign.sign_before
    obtain ⟨found, hfound, hspoken⟩ := h (Nat.lt_of_lt_of_le hbefore.1 hsize) hrest hended
    have hround : Reader.inOrder [Reader.sign, reader] p = some ([sign] ++ (found ++ []), q) :=
      Reader.inOrder_of (finds_signWord?.reader_iff.2 ⟨sign, rfl, hsign⟩)
        (Reader.inOrder_of hfound rfl)
    obtain ⟨words, hwords, hwords'⟩ := Reader.repetition_of
      (Reader.repeatWithin_succ hround (hbefore.trans hrest.before).offset_ne
        (Reader.repeatWithin_none (sign_none hended) _))
    refine ⟨words, hwords, ?_⟩
    rw [hwords', List.append_nil, List.append_nil, List.singleton_append,
      hsign.spelled.spoken, hspoken]

/-! ## Operands -/

/-- A run of numbers goes on as far as signs and numbers alternate.  What is left of the
expression then starts with a sign and another operand, or is nothing. -/
theorem complete_run {p q : Place} {words : List Word} (fuel : Nat)
    (hfuel : Text.byteSize p.rest < fuel) (hcontinues : Continues p words q)
    (hended : q.Ended) :
    ∃ count found r more,
      Reader.repeatWithin (Reader.inOrder [Reader.sign, Reader.numeral]) fuel p =
        (count, found, r) ∧
      Continues r more q ∧ words = spoken found ++ more ∧
        Text.byteSize r.rest ≤ Text.byteSize p.rest := by
  induction fuel generalizing p words with
  | zero => exact absurd hfuel (Nat.not_lt_zero _)
  | succ fuel ih =>
    rcases hcontinues with ⟨rfl, rfl⟩ | ⟨sign, s, rest, hsign, hrest, rfl⟩
    · exact ⟨0, [], p, [], Reader.repeatWithin_none (sign_none hended) _, Or.inl ⟨rfl, rfl⟩, rfl,
        Nat.le_refl _⟩
    · have hread := finds_signWord?.reader_iff.2 ⟨sign, rfl, hsign⟩
      cases hnumeral : Reader.numeral s with
      | none =>
        refine ⟨0, [], p, sign :: rest, Reader.repeatWithin_none ?_ _,
          Or.inr ⟨sign, s, rest, hsign, hrest, rfl⟩, rfl, Nat.le_refl _⟩
        exact Reader.inOrder_none_of hread (Reader.inOrder_none hnumeral)
      | some found =>
        obtain ⟨found, t⟩ := found
        obtain ⟨number, rfl, hnumber⟩ := finds_operandWord?.reader_iff.1 hnumeral
        obtain ⟨first, t', more, hfirst, hmore, rfl⟩ := hrest.operand_first
        -- An operand that starts where a number stands is that number.
        have hsame : first = [number] ∧ t' = t := by
          cases hfirst with
          | numeral hnumber' =>
            have heq := finds_operandWord?.reader_iff.2 ⟨_, rfl, hnumber'⟩
            exact Prod.mk.inj (Option.some.inj (heq.symm.trans hnumeral))
          | group hopen _ _ => exact absurd hnumber (hopen.not_numeral_of_mark (by decide))
          | call hname _ _ _ _ => exact absurd hnumber hname.not_numeral_of_name
        obtain ⟨rfl, rfl⟩ := hsame
        have hbefore := hsign.sign_before.trans (hnumber.before hnumber.spelled.ne_nil)
        have hround : Reader.inOrder [Reader.sign, Reader.numeral] p =
            some ([sign] ++ ([number] ++ []), t') :=
          Reader.inOrder_of hread (Reader.inOrder_of hnumeral rfl)
        obtain ⟨count, found, r, left, hrun, hleft, rfl, hsize⟩ :=
          ih (Nat.lt_of_lt_of_le hbefore.1 (Nat.le_of_lt_succ hfuel)) hmore
        refine ⟨count + 1, _, r, left, Reader.repeatWithin_succ hround hbefore.offset_ne hrun, hleft, ?_,
          Nat.le_of_lt (Nat.lt_of_le_of_lt hsize hbefore.1)⟩
        simp [hsign.spelled.spoken, hnumber.spelled.spoken]

/-- Nothing is found in front of a `)`. -/
def StopsAtClose (reader : Reader) : Prop :=
  ∀ {p q : Place} {word : Word}, Token (Mark ')' .rightParen) p word q → reader p = none

/-- Where a list is over, a trailing comma may stand, and then a `)`. -/
theorem comma_none (hstop : StopsAtClose reader) {p q r : Place} {closing : Word}
    (hcomma : OptionalComma p q) (hclose : Token (Mark ')' .rightParen) q closing r) :
    Reader.inOrder [Reader.mark ',' .comma, reader] p = none := by
  rcases hcomma with rfl | ⟨comma, htrailing⟩
  · refine Reader.inOrder_none ((finds_markWord? ',' .comma).reader_none fun word s hcomma => ?_)
    exact absurd (hclose.mark_unique hcomma) (by decide)
  · have htoken : Token (Mark ',' .comma) p { comma with kind := .comma } q :=
      ⟨htrailing.text, htrailing.offset, htrailing.stop, rfl, htrailing.spelled.2⟩
    exact Reader.inOrder_none_of ((finds_markWord? ',' .comma).reader_iff.2 ⟨_, rfl, htoken⟩)
      (Reader.inOrder_none (hstop hclose))

/-- The end of a list is the end of its last expression. -/
theorem OptionalComma.ended {p q r : Place} {closing : Word} (hcomma : OptionalComma p q)
    (hclose : Token (Mark ')' .rightParen) q closing r) : p.Ended := by
  rcases hcomma with rfl | ⟨comma, htrailing⟩
  · exact hclose.ended (by decide)
  · exact htrailing.ended (by decide)

/-- Nothing, or a comma and another list. -/
def ContinuesList (p : Place) (words : List Word) (q : Place) : Prop :=
  (p = q ∧ words = []) ∨
    ∃ comma r more, Token (Mark ',' .comma) p comma r ∧ Derives .list r more q ∧
      words = comma :: more

theorem Derives.expression_first {p q : Place} {words : List Word}
    (h : Derives .list p words q) :
    ∃ first r more, Derives .expression p first r ∧ ContinuesList r more q ∧
      words = first ++ more := by
  cases h with
  | last hfirst => exact ⟨_, _, _, hfirst, Or.inl ⟨rfl, rfl⟩, (List.append_nil _).symm⟩
  | more hfirst hcomma hrest =>
    exact ⟨_, _, _, hfirst, Or.inr ⟨_, _, _, hcomma, hrest, rfl⟩, rfl⟩

theorem ContinuesList.ended {p q r s : Place} {words : List Word} {closing : Word}
    (h : ContinuesList p words q) (hcomma : OptionalComma q r)
    (hclose : Token (Mark ')' .rightParen) r closing s) : p.Ended := by
  rcases h with ⟨rfl, -⟩ | ⟨comma, t, more, hseparated, -, -⟩
  · exact hcomma.ended hclose
  · exact hseparated.ended (by decide)

theorem complete_commas (h : Complete reader bound) (hstop : StopsAtClose reader)
    {q r s : Place} {closing : Word} (hcomma : OptionalComma q r)
    (hclose : Token (Mark ')' .rightParen) r closing s) (fuel : Nat) {p : Place}
    {words : List Word} (hfuel : Text.byteSize p.rest < fuel)
    (hsize : Text.byteSize p.rest ≤ bound) (hcontinues : ContinuesList p words q) :
    ∃ count found, Reader.repeatWithin (Reader.inOrder [Reader.mark ',' .comma, reader]) fuel p =
      (count, found, q) ∧ spoken found = words := by
  induction fuel generalizing p words with
  | zero => exact absurd hfuel (Nat.not_lt_zero _)
  | succ fuel ih =>
    rcases hcontinues with ⟨rfl, rfl⟩ | ⟨comma, t, more, hseparated, hrest, rfl⟩
    · exact ⟨0, [], Reader.repeatWithin_none (comma_none hstop hcomma hclose) _, rfl⟩
    · obtain ⟨first, u, rest, hfirst, hmore, rfl⟩ := hrest.expression_first
      have hbefore := hseparated.mark_before
      have hround := hbefore.trans hfirst.before
      obtain ⟨found, hfound, hspoken⟩ :=
        h (Nat.lt_of_lt_of_le hbefore.1 hsize) hfirst (hmore.ended hcomma hclose)
      obtain ⟨count, others, hothers, hspoken'⟩ :=
        ih (Nat.lt_of_lt_of_le hround.1 (Nat.le_of_lt_succ hfuel))
          (Nat.le_trans (Nat.le_of_lt hround.1) hsize) hmore
      refine ⟨count + 1, _, Reader.repeatWithin_succ (Reader.inOrder_of
        ((finds_markWord? ',' .comma).reader_iff.2 ⟨comma, rfl, hseparated⟩)
        (Reader.inOrder_of hfound rfl)) hround.offset_ne hothers, ?_⟩
      rw [List.singleton_append, List.append_nil, List.cons_append,
        hseparated.spelled.spoken rfl, spoken_append, hspoken, hspoken']

theorem complete_argumentsOf (h : Complete reader bound) (hstop : StopsAtClose reader)
    {p q r s : Place} {words : List Word} {closing : Word} (hsize : Text.byteSize p.rest < bound)
    (hlist : Derives .list p words q) (hcomma : OptionalComma q r)
    (hclose : Token (Mark ')' .rightParen) r closing s) :
    ∃ found, Reader.argumentsOf reader p = some (found, r) ∧ spoken found = words := by
  obtain ⟨first, t, more, hfirst, hmore, rfl⟩ := hlist.expression_first
  obtain ⟨found, hfound, hspoken⟩ := h hsize hfirst (hmore.ended hcomma hclose)
  obtain ⟨count, others, hothers, hspoken'⟩ := complete_commas h hstop hcomma hclose
    (Text.byteSize t.rest + 1) (Nat.lt_succ_self _)
    (Nat.le_of_lt (Nat.lt_trans hfirst.before.1 hsize)) hmore
  obtain ⟨listed, hlisted, hspoken''⟩ := Reader.repetition_of hothers
  rcases hcomma with rfl | ⟨comma, htrailing⟩
  · have hnone : Reader.mark ',' .trailingComma q = none :=
      (finds_markWord? ',' .trailingComma).reader_none fun word s htrailing =>
        absurd (hclose.mark_unique htrailing) (by decide)
    refine ⟨found ++ listed, ?_, by rw [spoken_append, hspoken, hspoken'', hspoken']⟩
    simp [Reader.argumentsOf, Reader.followed, Reader.asFarAs, hfound, hlisted, hnone]
  · have hsome : Reader.mark ',' .trailingComma q = some ([comma], r) :=
      (finds_markWord? ',' .trailingComma).reader_iff.2 ⟨comma, rfl, htrailing⟩
    refine ⟨found ++ (listed ++ [comma]), ?_, ?_⟩
    · simp [Reader.argumentsOf, Reader.followed, Reader.asFarAs, hfound, hlisted, hsome]
    · rw [spoken_append, spoken_append, htrailing.spelled.spoken_trailing, List.append_nil,
        hspoken, hspoken'', hspoken']

/-! ## Expressions -/

theorem numberRun_none {p : Place} (h : ∀ word q, ¬ Token Numeral p word q) :
    Reader.numberRun p = none :=
  Reader.followed_none (finds_operandWord?.reader_none h)

theorem groupOf_none {p : Place} (h : ∀ word q, ¬ Token (Mark '(' .leftParen) p word q) :
    Reader.groupOf reader p = none :=
  Reader.inOrder_none ((finds_markWord? '(' .leftParen).reader_none h)

theorem callOf_none {p : Place} (h : ∀ word q, ¬ Token BuiltinName p word q) :
    Reader.callOf reader p = none :=
  Reader.inOrder_none (finds_nameWord?.reader_none h)

theorem stopsAtClose_expressionOf : StopsAtClose (Reader.expressionOf reader) := by
  intro p q word hclose
  refine Reader.followed_none ?_
  rw [Reader.operandOf_eq, numberRun_none, groupOf_none, callOf_none]
  · rfl
  · exact fun _ _ => hclose.not_name_of_mark (by decide)
  · exact fun _ _ hopen => absurd (hclose.mark_unique hopen) (by decide)
  · exact fun _ _ => hclose.not_numeral_of_mark (by decide)

theorem complete_groupOf (h : Complete reader bound) {p q r s : Place} {opening closing : Word}
    {words : List Word} (hsize : Text.byteSize p.rest ≤ bound)
    (hopen : Token (Mark '(' .leftParen) p opening q) (hinner : Derives .expression q words r)
    (hclose : Token (Mark ')' .rightParen) r closing s) :
    ∃ found, Reader.operandOf reader p = some (found, s) ∧
      spoken found = opening :: (words ++ [closing]) := by
  obtain ⟨found, hfound, hspoken⟩ :=
    h (Nat.lt_of_lt_of_le hopen.mark_before.1 hsize) hinner (hclose.ended (by decide))
  have hgroup : Reader.groupOf reader p = some ([opening] ++ (found ++ ([closing] ++ [])), s) :=
    Reader.inOrder_of ((finds_markWord? '(' .leftParen).reader_iff.2 ⟨opening, rfl, hopen⟩)
      (Reader.inOrder_of hfound
        (Reader.inOrder_of ((finds_markWord? ')' .rightParen).reader_iff.2 ⟨closing, rfl, hclose⟩)
          rfl))
  refine ⟨[opening] ++ (found ++ ([closing] ++ [])), ?_, ?_⟩
  · rw [Reader.operandOf_eq, numberRun_none, hgroup, Option.none_or, Option.some_or]
    exact fun _ _ => hopen.not_numeral_of_mark (by decide)
  · rw [List.singleton_append, hopen.spelled.spoken rfl, spoken_append, hspoken, List.append_nil,
      hclose.spelled.spoken rfl, spoken_nil]

theorem complete_callOf (h : Complete reader bound) (hstop : StopsAtClose reader)
    {p q r s t u : Place} {name opening closing : Word} {words : List Word}
    (hsize : Text.byteSize p.rest ≤ bound) (hname : Token BuiltinName p name q)
    (hopen : Token (Mark '(' .leftParen) q opening r) (hinner : Derives .list r words s)
    (hcomma : OptionalComma s t) (hclose : Token (Mark ')' .rightParen) t closing u) :
    ∃ found, Reader.operandOf reader p = some (found, u) ∧
      spoken found = name :: opening :: (words ++ [closing]) := by
  have hbefore := hname.name_before.trans hopen.mark_before
  obtain ⟨found, hfound, hspoken⟩ := complete_argumentsOf h hstop
    (Nat.lt_of_lt_of_le hbefore.1 hsize) hinner hcomma hclose
  have hcall : Reader.callOf reader p =
      some ([name] ++ ([opening] ++ (found ++ ([closing] ++ []))), u) :=
    Reader.inOrder_of (finds_nameWord?.reader_iff.2 ⟨name, rfl, hname⟩)
      (Reader.inOrder_of ((finds_markWord? '(' .leftParen).reader_iff.2 ⟨opening, rfl, hopen⟩)
        (Reader.inOrder_of hfound
          (Reader.inOrder_of
            ((finds_markWord? ')' .rightParen).reader_iff.2 ⟨closing, rfl, hclose⟩) rfl)))
  refine ⟨[name] ++ ([opening] ++ (found ++ ([closing] ++ []))), ?_, ?_⟩
  · rw [Reader.operandOf_eq, numberRun_none, groupOf_none, hcall, Option.none_or, Option.none_or]
    · exact fun _ _ hopen' => hopen'.not_name_of_mark (by decide) hname
    · exact fun _ _ => hname.not_numeral_of_name
  · rw [List.singleton_append, hname.spelled.spoken, List.singleton_append,
      hopen.spelled.spoken rfl, spoken_append, hspoken, List.append_nil,
      hclose.spelled.spoken rfl, spoken_nil]

theorem complete_expressionOf (h : Complete reader bound) (hstop : StopsAtClose reader) :
    Complete (Reader.expressionOf reader) (bound + 1) := by
  intro p q words hsize hwords hended
  have hsize := Nat.le_of_lt_succ hsize
  obtain ⟨first, r, more, hfirst, hmore, rfl⟩ := hwords.operand_first
  -- A number may take signs and numbers of the rest with it; the other operands do not.
  obtain ⟨taken, s, left, htaken, hleft, hsplit, hbound⟩ :
      ∃ taken s left, Reader.operandOf reader p = some (taken, s) ∧ Continues s left q ∧
        first ++ more = spoken taken ++ left ∧ Text.byteSize s.rest ≤ bound := by
    cases hfirst with
    | @numeral _ _ number hnumber =>
      have hbefore := hnumber.before hnumber.spelled.ne_nil
      obtain ⟨count, found, s, left, hrun, hleft, rfl, hs⟩ :=
        complete_run (Text.byteSize r.rest + 1) (Nat.lt_succ_self _) hmore hended
      obtain ⟨listed, hlisted, hspoken⟩ := Reader.repetition_of hrun
      have htaken : Reader.numberRun p = some ([number] ++ listed, s) :=
        Reader.followed_of (finds_operandWord?.reader_iff.2 ⟨number, rfl, hnumber⟩) hlisted
      refine ⟨_, s, left, by rw [Reader.operandOf_eq, htaken, Option.some_or], hleft,
        ?_, Nat.le_trans hs (Nat.le_trans (Nat.le_of_lt hbefore.1) hsize)⟩
      rw [List.singleton_append, List.singleton_append, hnumber.spelled.spoken, hspoken,
        List.cons_append]
    | group hopen hinner hclose =>
      obtain ⟨taken, htaken, hspoken⟩ := complete_groupOf h hsize hopen hinner hclose
      exact ⟨taken, r, more, htaken, hmore, by rw [hspoken], Nat.le_trans (Nat.le_of_lt
        (Derives.group hopen hinner hclose).before.1) hsize⟩
    | call hname hopen hinner hcomma hclose =>
      obtain ⟨taken, htaken, hspoken⟩ :=
        complete_callOf h hstop hsize hname hopen hinner hcomma hclose
      exact ⟨taken, r, more, htaken, hmore, by rw [hspoken], Nat.le_trans (Nat.le_of_lt
        (Derives.call hname hopen hinner hcomma hclose).before.1) hsize⟩
  obtain ⟨found, hfound, hspoken⟩ := complete_signs h hbound hleft hended
  refine ⟨taken ++ found, Reader.followed_of htaken hfound, ?_⟩
  rw [spoken_append, hspoken, hsplit]

theorem complete_expressionWithin (depth : Nat) :
    Complete (Reader.expressionWithin depth) depth ∧
      StopsAtClose (Reader.expressionWithin depth) := by
  induction depth with
  | zero => exact ⟨fun hsize => absurd hsize (Nat.not_lt_zero _), fun _ => rfl⟩
  | succ depth ih =>
    refine ⟨fun hsize hwords hended => ?_, fun hclose => ?_⟩
    · exact complete_expressionOf ih.1 ih.2 hsize hwords hended
    · exact stopsAtClose_expressionOf hclose

theorem complete_expression {p q : Place} {words : List Word}
    (h : Derives .expression p words q) (hended : q.Ended) :
    ∃ found, Reader.expression p = some (found, q) ∧ spoken found = words :=
  (complete_expressionWithin _).1 (Nat.lt_succ_self _) h hended

end Grammar
end DeskCalc
