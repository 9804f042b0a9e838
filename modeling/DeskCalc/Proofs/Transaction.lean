import DeskCalc.Proofs.Reading.Pattern
import DeskCalc.Proofs.Tiling

/-
Rules are transactions: all of what they read, or nothing.

Going back to a snapshot undoes a cursor and a count of words, and every way of combining rules
takes its snapshots at other points.  What they have in common is `Transactional`: a rule that
fails leaves the words alone and the cursor behind blanks, and one that matches adds words along
a stretch of the source.  The combinations keep it one by one, so every pattern has it if
expressions have it (`Pattern.transactional`), and expressions have it by induction on their
depth.
-/
namespace DeskCalc
namespace Grammar

/-! ## Words along a stretch -/

/-- From a place to a later one, along words that stand in the text between them.  Other text
may be left out on the way, and virtual words may stand anywhere. -/
inductive Passes : Place → List Word → Place → Prop where
  | stay (p : Place) : Passes p [] p
  | skip {p q r : Place} {words : List Word} {part : Text} (text : p.rest = part ++ q.rest)
      (stop : q.offset = p.offset + part.byteSize) (rest : Passes q words r) : Passes p words r
  | virtual {p q : Place} {word : Word} {words : List Word} (virtual : word.isVirtual = true)
      (rest : Passes p words q) : Passes p (word :: words) q
  | word {p q r : Place} {word : Word} {words : List Word} (text : p.rest = word.text ++ q.rest)
      (offset : word.offset = p.offset) (stop : q.offset = word.stop) (rest : Passes q words r) :
      Passes p (word :: words) r

theorem mem_spoken_cons {word other : Word} {words : List Word}
    (h : other ∈ spoken (word :: words)) : other = word ∨ other ∈ spoken words := by
  obtain ⟨hmem, hspoken⟩ := List.mem_filter.1 h
  exact (List.mem_cons.1 hmem).imp_right fun hmem => List.mem_filter.2 ⟨hmem, hspoken⟩

section Passes

variable {p q r : Place} {words more : List Word}

theorem Passes.trans (h : Passes p words q) (h' : Passes q more r) :
    Passes p (words ++ more) r := by
  induction h with
  | stay => exact h'
  | skip text stop _ ih => exact .skip text stop (ih h')
  | virtual hvirtual _ ih => exact .virtual hvirtual (ih h')
  | word text offset stop _ ih => exact .word text offset stop (ih h')

/-- The text between the two places. -/
theorem Passes.part (h : Passes p words q) :
    ∃ part, p.rest = part ++ q.rest ∧ q.offset = p.offset + Text.byteSize part := by
  induction h with
  | stay p => exact ⟨[], rfl, rfl⟩
  | @skip p q r words part text stop _ ih =>
    obtain ⟨behind, hbehind, hoffset⟩ := ih
    refine ⟨part ++ behind, by rw [text, hbehind, List.append_assoc], ?_⟩
    rw [Text.byteSize_append]
    omega
  | virtual _ _ ih => exact ih
  | @word p q r word words text offset stop _ ih =>
    obtain ⟨behind, hbehind, hoffset⟩ := ih
    refine ⟨word.text ++ behind, by rw [text, hbehind, List.append_assoc], ?_⟩
    rw [Text.byteSize_append]
    rw [Word.stop] at stop
    omega

theorem Passes.le (h : Passes p words q) : p.offset ≤ q.offset := by
  obtain ⟨part, -, hoffset⟩ := h.part
  omega

theorem Passes.at (h : Passes p words q) {state : State} (hat : state.At p) (log : Log) :
    (state.extend words q log).At q := by
  obtain ⟨part, hrest, hoffset⟩ := h.part
  refine ⟨?_, rfl⟩
  rw [State.extend, hoffset, ← hat.cursor]
  exact Text.dropBytes_add (hrest ▸ hat.cut)

/-- The words that count stand between the two places. -/
theorem Passes.bounds (h : Passes p words q) :
    ∀ word ∈ spoken words, p.offset ≤ word.offset ∧ word.stop ≤ q.offset := by
  induction h with
  | stay => simp
  | skip _ stop _ ih =>
    intro word hword
    have hbounds := ih word hword
    omega
  | virtual hvirtual _ ih => simpa [spoken, hvirtual] using ih
  | @word p q r word words text offset stop hrest ih =>
    have hle := hrest.le
    have hword : word.offset ≤ word.stop := Nat.le_add_right _ _
    intro other hother
    rcases mem_spoken_cons hother with rfl | hother
    · omega
    · have hbounds := ih other hother
      omega

/-- The words that count are the parts of the source that they cover. -/
theorem Passes.covers (h : Passes p words q) {before : Text}
    (hbefore : before.byteSize = p.offset) :
    ∀ word ∈ spoken words, word.span.Covers (before ++ p.rest) word.text := by
  induction h generalizing before with
  | stay => simp
  | @skip p q r words part text stop _ ih =>
    rw [text, ← List.append_assoc]
    exact ih (by rw [Text.byteSize_append, hbefore, stop])
  | virtual hvirtual _ ih => simpa [spoken, hvirtual] using ih hbefore
  | @word p q r word words text offset stop _ ih =>
    intro other hother
    rcases mem_spoken_cons hother with rfl | hother
    · exact ⟨before, q.rest, by rw [text], by rw [hbefore, ← offset]; rfl, rfl⟩
    · have hsize : Text.byteSize (before ++ word.text) = q.offset := by
        rw [Text.byteSize_append, hbefore, stop, ← offset, Word.stop]
      rw [text, ← List.append_assoc]
      exact ih hsize other hother

/-- The words that count stand one behind the other. -/
theorem Passes.ordered (h : Passes p words q) :
    (spoken words).Pairwise fun a b => a.stop ≤ b.offset := by
  induction h with
  | stay => exact List.Pairwise.nil
  | skip _ _ _ ih => exact ih
  | virtual hvirtual _ ih => simpa [spoken, hvirtual] using ih
  | @word p q r word words text offset stop hrest ih =>
    by_cases hvirtual : word.isVirtual = true
    · simpa [spoken, hvirtual] using ih
    · rw [spoken_of_kind (Bool.not_eq_true _ ▸ hvirtual)]
      refine List.pairwise_cons.2 ⟨fun other hother => ?_, ih⟩
      exact stop ▸ (hrest.bounds other hother).1

/-- A token stands behind blanks. -/
theorem Token.passes {Spelled : Word → Text → Prop} {word : Word} (h : Token Spelled p word q) :
    Passes p [word] q := by
  have hskip : p.rest = p.rest.takeWhile Text.isBlank ++ p.skip.rest :=
    List.takeWhile_append_dropWhile.symm
  exact .skip hskip rfl (.word h.text h.offset (by rw [h.stop, Word.stop, h.offset]) (.stay q))

end Passes

/-! ## Transactional rules -/

/-- What a rule leaves behind that starts at a place: a state with the words that were there, or
one with words added up to another place. -/
inductive Leaves (state : State) (p : Place) : Bool × State → Prop where
  | failed {blanks rest : Text} (text : p.rest = blanks ++ rest) (blank : blanks.Blank)
      (log : Log) :
      Leaves state p (false, { state with cursor := p.offset + blanks.byteSize, log })
  | matched {words : List Word} {q : Place} (passes : Passes p words q) (log : Log) :
      Leaves state p (true, state.extend words q log)

def Transactional (rule : Rule) : Prop :=
  ∀ ⦃state : State⦄ ⦃p : Place⦄, state.At p → Leaves state p (rule state)

section Leaves

variable {state : State} {p q : Place} {outcome : Bool × State}

theorem Leaves.still (h : state.At p) (log : Log) : Leaves state p (false, { state with log }) := by
  have hfailed : Leaves state p _ := .failed (List.nil_append p.rest).symm
    (fun c hc => absurd hc List.not_mem_nil) log
  rw [Text.byteSize, Nat.add_zero, ← h.cursor] at hfailed
  exact hfailed

/-- The log makes no difference. -/
theorem Leaves.of_log {log : Log} (h : Leaves { state with log } p outcome) :
    Leaves state p outcome := by
  cases h with
  | failed text blank log' => exact .failed text blank log'
  | matched passes log' => exact .matched passes log'

/-- Words that were added before. -/
theorem Leaves.behind {words more : List Word} {r : Place} {log : Log} (h : Passes p words q)
    (h' : Passes q more r) (log' : Log) :
    Leaves state p (true, (state.extend words q log).extend more r log') := by
  rw [Reads.extend_extend]
  exact .matched (h.trans h') log'

end Leaves

namespace Transactional

variable {rule : Rule} {rules : List Rule} {state : State} {p : Place}

/-! ## Sequences -/

/-- Rules in order add words up to a place, or they leave words that still have to go. -/
theorem inOrder (h : ∀ rule ∈ rules, Transactional rule) (hat : state.At p) :
    (∃ words q log, Rule.inOrder rules state = (true, state.extend words q log) ∧
        Passes p words q) ∨
      ∃ cursor words log, Rule.inOrder rules state =
        (false, ⟨state.source, cursor, state.words ++ words, log⟩) := by
  induction rules generalizing state p with
  | nil =>
    refine Or.inl ⟨[], p, state.log, ?_, .stay p⟩
    rw [Rule.inOrder, Reads.extend_nil hat]
  | cons rule rules ih =>
    obtain ⟨hrule, hrules⟩ := List.forall_mem_cons.1 h
    have hfirst := hrule hat
    rw [Rule.inOrder]
    generalize rule state = outcome at hfirst ⊢
    cases hfirst with
    | failed text blank log => exact Or.inr ⟨_, [], log, by rw [List.append_nil]⟩
    | @matched words q passes log =>
      dsimp only
      rcases ih hrules (passes.at hat log) with
        ⟨more, r, log', hrun, hmore⟩ | ⟨cursor, more, log', hrun⟩
      · exact Or.inl ⟨words ++ more, r, log', by rw [hrun, Reads.extend_extend],
          passes.trans hmore⟩
      · refine Or.inr ⟨cursor, words ++ more, log', ?_⟩
        rw [hrun, State.extend, List.append_assoc]

theorem sequence (h : ∀ rule ∈ rules, Transactional rule) :
    Transactional (Rule.sequence rules) := by
  intro state p hat
  rw [Rule.sequence]
  rcases inOrder h hat with ⟨words, q, log, hrun, passes⟩ | ⟨cursor, words, log, hrun⟩
  · rw [hrun]
    exact .matched passes log
  · rw [hrun]
    dsimp only
    rw [State.restore_snapshot]
    exact .still hat log

/-! ## Alternatives -/

theorem alternative (h : ∀ rule ∈ rules, Transactional rule) :
    Transactional (Rule.alternative rules) := by
  intro state p hat
  -- Each is tried from the one snapshot, with a log that grows.
  suffices hfrom : ∀ log, Leaves state p (Rule.firstFrom state.snapshot rules { state with log })
    from hfrom state.log
  induction rules with
  | nil => exact fun log => .still hat log
  | cons rule rules ih =>
    obtain ⟨hrule, hrules⟩ := List.forall_mem_cons.1 h
    intro log
    have hfirst := (hrule (hat.with_log log)).of_log
    rw [Rule.firstFrom]
    generalize rule { state with log } = outcome at hfirst ⊢
    cases hfirst with
    | failed text blank log' =>
      dsimp only
      rw [State.restore_failed]
      exact ih hrules log'
    | matched passes log' => exact .matched passes log'

/-! ## Sequences that may stop -/

theorem asFarAs (h : ∀ rule ∈ rules, Transactional rule) (hat : state.At p) :
    ∃ words q log, Rule.asFarAs true rules state = (true, state.extend words q log) ∧
      Passes p words q := by
  induction rules generalizing state p with
  | nil => exact ⟨[], p, state.log, by rw [Rule.asFarAs, Reads.extend_nil hat], .stay p⟩
  | cons rule rules ih =>
    obtain ⟨hrule, hrules⟩ := List.forall_mem_cons.1 h
    have hfirst := hrule hat
    rw [Rule.asFarAs]
    generalize rule state = outcome at hfirst ⊢
    cases hfirst with
    | failed text blank log =>
      refine ⟨[], p, log, ?_, .stay p⟩
      dsimp only
      rw [State.restore_failed, Reads.extend_nil hat]
    | @matched words q passes log =>
      obtain ⟨more, r, log', hrun, hmore⟩ := ih hrules (passes.at hat log)
      refine ⟨words ++ more, r, log', ?_, passes.trans hmore⟩
      dsimp only
      rw [hrun, Reads.extend_extend]

theorem optionalSequence (h : ∀ rule ∈ rules, Transactional rule) :
    Transactional (Rule.optionalSequence rules) := by
  intro state p hat
  rw [Rule.optionalSequence]
  cases rules with
  | nil => exact .still hat state.log
  | cons rule rules =>
    obtain ⟨hrule, hrules⟩ := List.forall_mem_cons.1 h
    have hfirst := hrule hat
    rw [Rule.asFarAs]
    generalize rule state = outcome at hfirst ⊢
    cases hfirst with
    | failed text blank log =>
      dsimp only
      rw [State.restore_failed]
      exact .still hat log
    | matched passes log =>
      obtain ⟨more, r, log', hrun, hmore⟩ := asFarAs hrules (passes.at hat log)
      dsimp only
      rw [hrun]
      exact .behind passes hmore log'

/-! ## Repetitions -/

/-- Rounds without a match leave the words alone. -/
theorem repeatWithin (h : Transactional rule) (fuel : Nat) (hat : state.At p) :
    (∃ log, Rule.repeatWithin rule fuel state = (0, { state with log })) ∨
      ∃ count words q log, Rule.repeatWithin rule fuel state =
        (count + 1, state.extend words q log) ∧ Passes p words q := by
  induction fuel generalizing state p with
  | zero => exact Or.inl ⟨state.log, rfl⟩
  | succ fuel ih =>
    have hround := h hat
    rw [Rule.repeatWithin]
    generalize rule state = outcome at hround ⊢
    cases hround with
    | failed text blank log =>
      refine Or.inl ⟨log, ?_⟩
      dsimp only
      rw [State.restore_failed]
    | @matched words q passes log =>
      refine Or.inr ?_
      dsimp only
      split
      · exact ⟨0, words, q, log, rfl, passes⟩
      · rcases ih (passes.at hat log) with ⟨log', hrun⟩ | ⟨count, more, r, log', hrun, hmore⟩
        · exact ⟨0, words, q, log', by rw [hrun]; rfl, passes⟩
        · exact ⟨count + 1, words ++ more, r, log', by rw [hrun, Reads.extend_extend],
            passes.trans hmore⟩

theorem repetition (h : Transactional rule) (atLeastOnce : Bool) :
    Transactional (Rule.repetition rule atLeastOnce) := by
  intro state p hat
  rw [Rule.repetition]
  rcases repeatWithin h (state.remaining + 1) hat with
    ⟨log, hrun⟩ | ⟨count, words, q, log, hrun, passes⟩
  · rw [hrun]
    cases atLeastOnce with
    | true => exact .still hat log
    | false =>
      have hplaceholder : Passes p [.placeholder state.cursor] p := .virtual rfl (.stay p)
      have hmatched : Leaves state p _ := .matched hplaceholder log
      rw [State.extend, ← hat.cursor] at hmatched
      exact hmatched
  · rw [hrun]
    exact .matched passes log

end Transactional

/-! ## Every pattern -/

/-- The rule of a token finds a word of its kind, or it moves behind the blanks. -/
theorem TokenRule.takes (t : TokenRule) {state : State} {p : Place} (hat : state.At p) :
    (∃ word q, Token Recognized p word q ∧ t.rule state = (true, state.extend [word] q state.log)) ∨
      ∃ log, t.rule state = (false, { state.skipBlanks with log }) := by
  suffices hfinds : ∃ find Spelled noted, Finds find Spelled ∧ Takes t.rule find noted ∧
      ∀ word after, Spelled word after → Recognized word after by
    obtain ⟨find, Spelled, noted, hfinds, htakes, hrecognized⟩ := hfinds
    rcases hfinds.takes htakes hat with ⟨word, q, htoken, hrun, -⟩ | ⟨-, hmissing⟩
    · exact Or.inl ⟨word, q, htoken.imp (hrecognized word q.rest), hrun⟩
    · exact Or.inr hmissing
  cases t with
  | number => exact ⟨_, _, _, finds_operandWord?, takes_number, fun _ _ h => h.recognized⟩
  | operator => exact ⟨_, _, _, finds_signWord?, takes_operator, fun _ _ h => h.recognized⟩
  | functionName => exact ⟨_, _, _, finds_nameWord?, takes_functionName, fun _ _ h => h.recognized⟩
  | leftParen | rightParen | comma | trailingComma =>
    exact ⟨_, _, _, finds_markWord? _ _, takes_punctuation _ _ _ _,
      fun _ _ h => h.recognized (by decide)⟩

theorem TokenRule.transactional (t : TokenRule) : Transactional t.rule := by
  intro state p hat
  rcases t.takes hat with ⟨word, q, htoken, hrun⟩ | ⟨log, hrun⟩
  · rw [hrun]
    exact .matched htoken.passes state.log
  · have hskip : p.rest = p.rest.takeWhile Text.isBlank ++ p.skip.rest :=
      List.takeWhile_append_dropWhile.symm
    have hfailed : Leaves state p _ := .failed hskip (fun c => List.mem_takeWhile_imp) log
    rw [hrun]
    rw [← hat.cursor, ← hat.rest] at hfailed
    exact hfailed

theorem Pattern.transactional {nested : Rule} (hnested : Transactional nested)
    (pattern : Pattern) : Transactional (pattern.rule nested) := by
  induction pattern with
  | token t => exact t.transactional
  | expression => exact hnested
  | sequence parts ih => exact .sequence (forall_mem_rules ih)
  | alternative parts ih => exact .alternative (forall_mem_rules ih)
  | optionalSequence parts ih => exact .optionalSequence (forall_mem_rules ih)
  | repetition part atLeastOnce ih => exact .repetition ih atLeastOnce

theorem transactional_expressionWithin (depth : Nat) :
    Transactional (expressionWithin depth) := by
  induction depth with
  | zero => exact fun state _ hat => .still hat state.log
  | succ depth ih => exact fun _ _ hat => expressionPattern.transactional ih hat

theorem transactional_expression : Transactional expression :=
  fun _ _ hat => transactional_expressionWithin _ hat

/-- What a rule does to a state: nothing but a move over blanks, or words added that stand in
the source between the old cursor and the new one. -/
structure Transaction (before : State) (outcome : Bool × State) : Prop where
  source : outcome.2.source = before.source
  failed : outcome.1 = false → outcome.2.words = before.words ∧
    ∃ blanks rest : Text, before.source.dropBytes before.cursor = some (blanks ++ rest) ∧
      blanks.Blank ∧ outcome.2.cursor = before.cursor + blanks.byteSize
  matched : outcome.1 = true → before.cursor ≤ outcome.2.cursor ∧
    (before.source.dropBytes outcome.2.cursor).isSome = true ∧
    ∃ added, outcome.2.words = before.words ++ added ∧
      (∀ word ∈ spoken added, before.cursor ≤ word.offset ∧ word.stop ≤ outcome.2.cursor ∧
        word.span.Covers before.source word.text) ∧
      (spoken added).Pairwise fun a b => a.stop ≤ b.offset

theorem Leaves.transaction {state : State} {p : Place} {outcome : Bool × State}
    (h : Leaves state p outcome) (hat : state.At p) : Transaction state outcome := by
  cases h with
  | @failed blanks rest text blank log =>
    refine ⟨rfl, fun _ => ⟨rfl, blanks, rest, ?_, blank, ?_⟩, nofun⟩
    · rw [hat.cut, text]
    · rw [hat.cursor]
  | @matched words q passes log =>
    refine ⟨rfl, nofun, fun _ => ⟨?_, ?_, words, rfl, fun word hword => ?_,
      passes.ordered⟩⟩
    · exact hat.cursor ▸ passes.le
    · exact Option.isSome_of_eq_some (passes.at hat log).cut
    · obtain ⟨before, hsource, hsize⟩ := Text.dropBytes_eq_some_iff.1 hat.cut
      obtain ⟨hstart, hstop⟩ := passes.bounds word hword
      refine ⟨hat.cursor ▸ hstart, hstop, ?_⟩
      rw [hsource]
      exact passes.covers (hsize.trans hat.cursor) word hword

end Grammar

open Grammar

/-- Every rule that can be built is a transaction in every state whose cursor stands between two
characters. -/
theorem rules_are_transactions (pattern : Pattern) {state : State} {rest : Text}
    (h : state.source.dropBytes state.cursor = some rest) :
    Transaction state (pattern.rule expression state) :=
  have hat : state.At ⟨rest, state.cursor⟩ := ⟨h, rfl⟩
  (pattern.transactional transactional_expression hat).transaction hat

/-- A bracket and two expressions, behind a bracket that was read before. -/
theorem rules_are_transactions_in_brackets :
    Transaction ⟨"((1 + x)".toList, 1, [.plain ['('] .leftParen 0], {}⟩
      (Pattern.rule expression (.repetition (.alternative [groupPattern, .token .number]) true)
        ⟨"((1 + x)".toList, 1, [.plain ['('] .leftParen 0], {}⟩) :=
  rules_are_transactions (.repetition (.alternative [groupPattern, .token .number]) true)
    (show Text.dropBytes "((1 + x)".toList 1 = some "(1 + x)".toList from rfl)

end DeskCalc
