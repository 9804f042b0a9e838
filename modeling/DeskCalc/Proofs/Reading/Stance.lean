import DeskCalc.Proofs.Reading.Expression

/-
Reading token by token.

A stance says what may come next and which brackets are open.  A `Path` goes from stance
to stance by tokens that the stances admit, and so reads the opening of an expression
without knowing how it goes on.

Two paths from one place go the same way (`Path.compare`).  The one choice is how to take
a comma in a call, and if both ways are tried, one of them ends there.
-/
namespace DeskCalc
namespace Grammar

/-! ## Tokens of any kind -/

/-- The word is spelled as its kind wants it. -/
def Recognized (word : Word) (after : Text) : Prop :=
  match word.kind with
  | .number | .register | .registerRange => Numeral word after
  | .operator => Sign word after
  | .functionName => BuiltinName word after
  | .leftParen => Mark '(' .leftParen word after
  | .rightParen => Mark ')' .rightParen word after
  | .comma => Mark ',' .comma word after
  | .trailingComma => Mark ',' .trailingComma word after
  | .placeholder => False

theorem Numeral.recognized {word : Word} {after : Text} (h : Numeral word after) :
    Recognized word after := by
  have hkind := h.kind
  unfold Recognized
  cases hk : word.kind <;> rw [hk] at hkind <;> first | exact h | cases hkind

theorem Sign.recognized {word : Word} {after : Text} (h : Sign word after) :
    Recognized word after := by
  rw [Recognized, h.1]
  exact h

theorem BuiltinName.recognized {word : Word} {after : Text} (h : BuiltinName word after) :
    Recognized word after := by
  rw [Recognized, h.1]
  exact h

theorem Recognized.ne_nil {word : Word} {after : Text} (h : Recognized word after) :
    word.text ≠ [] := by
  unfold Recognized at h
  split at h
  all_goals first | exact h.ne_nil | cases h

theorem Mark.recognized {symbol : Char} {kind : WordKind} {word : Word} {after : Text}
    (h : Mark symbol kind word after) (hkind : (symbol, kind) ∈ [('(', .leftParen),
      (')', .rightParen), (',', .comma), (',', WordKind.trailingComma)]) :
    Recognized word after := by
  simp only [List.mem_cons, List.not_mem_nil, or_false, Prod.mk.injEq] at hkind
  rcases hkind with ⟨rfl, rfl⟩ | ⟨rfl, rfl⟩ | ⟨rfl, rfl⟩ | ⟨rfl, rfl⟩ <;>
    rwa [Recognized, h.1]

/-- The rules for single tokens. -/
def tokenRules : List Rule :=
  [number, operator, leftParen, rightParen, comma, trailingComma, functionName]

section Rules

variable {state : State} {p q : Place} {word : Word}

theorem Token.imp {Spelled Spelled' : Word → Text → Prop} (h : Token Spelled p word q)
    (himp : Spelled word q.rest → Spelled' word q.rest) : Token Spelled' p word q :=
  ⟨h.text, h.offset, h.stop, himp h.spelled⟩

/-- The rule takes the word and moves behind it. -/
def TakesWord (rule : Rule) (state : State) (word : Word) (q : Place) : Prop :=
  ∃ log, rule state = (true, state.extend [word] q log) ∧ (state.extend [word] q log).At q

theorem takesWord_iff {rule : Rule} {find : Text → Nat → Option Word}
    {Spelled : Word → Text → Prop} (hreads : Reads rule (Reader.token find))
    (hfinds : Finds find Spelled) (hat : state.At p) :
    TakesWord rule state word q ↔ Token Spelled p word q := by
  constructor
  · rintro ⟨log, hrun, hq⟩
    cases hread : Reader.token find p with
    | none =>
      obtain ⟨cursor, log', hfail⟩ := hreads.failed hat hread
      rw [hrun] at hfail
      cases (Prod.mk.inj hfail).1
    | some found =>
      obtain ⟨words, q'⟩ := found
      obtain ⟨log', hrun', hq'⟩ := hreads.matched hat hread
      rw [hrun] at hrun'
      obtain ⟨-, hoffset, hwords, -⟩ := State.mk.inj (Prod.mk.inj hrun').2
      have hrest : q.rest = q'.rest := by
        have hcut := hq.cut
        rw [State.extend, hoffset] at hcut
        exact Option.some.inj (hcut.symm.trans hq'.cut)
      obtain ⟨word', rfl, htoken⟩ := hfinds.reader_iff.1 hread
      obtain rfl : word = word' := (List.cons.inj (List.append_cancel_left hwords)).1
      obtain ⟨rest, offset⟩ := q
      obtain ⟨rest', offset'⟩ := q'
      dsimp only at hrest hoffset
      rwa [hrest, hoffset]
  · intro htoken
    exact hreads.matched hat (hfinds.reader_iff.2 ⟨word, rfl, htoken⟩)

/-- The recognized words at a place are those that a token rule takes there. -/
theorem exists_takesWord_iff (hat : state.At p) :
    (∃ rule ∈ tokenRules, TakesWord rule state word q) ↔ Token Recognized p word q := by
  have hnumber := @takesWord_iff _ _ q word _ _ _ reads_number finds_operandWord? hat
  have hsign := @takesWord_iff _ _ q word _ _ _ reads_operator finds_signWord? hat
  have hname := @takesWord_iff _ _ q word _ _ _ reads_functionName finds_nameWord? hat
  have hmark := fun symbol kind expectation forced => @takesWord_iff _ _ q word _ _ _
    (reads_punctuation symbol kind expectation forced) (finds_markWord? symbol kind) hat
  constructor
  · rintro ⟨rule, hrule, htakes⟩
    simp only [tokenRules, List.mem_cons, List.not_mem_nil, or_false] at hrule
    rcases hrule with rfl | rfl | rfl | rfl | rfl | rfl | rfl
    · exact (hnumber.1 htakes).imp Numeral.recognized
    · exact (hsign.1 htakes).imp Sign.recognized
    · exact ((hmark ..).1 htakes).imp fun h => h.recognized (by decide)
    · exact ((hmark ..).1 htakes).imp fun h => h.recognized (by decide)
    · exact ((hmark ..).1 htakes).imp fun h => h.recognized (by decide)
    · exact ((hmark ..).1 htakes).imp fun h => h.recognized (by decide)
    · exact (hname.1 htakes).imp BuiltinName.recognized
  · intro htoken
    have hspelled := htoken.spelled
    unfold Recognized at hspelled
    split at hspelled
    all_goals first
      | exact ⟨number, by simp [tokenRules], hnumber.2 (htoken.imp fun _ => hspelled)⟩
      | exact ⟨operator, by simp [tokenRules], hsign.2 (htoken.imp fun _ => hspelled)⟩
      | exact ⟨functionName, by simp [tokenRules], hname.2 (htoken.imp fun _ => hspelled)⟩
      | exact ⟨leftParen, by simp [tokenRules], (hmark ..).2 (htoken.imp fun _ => hspelled)⟩
      | exact ⟨rightParen, by simp [tokenRules], (hmark ..).2 (htoken.imp fun _ => hspelled)⟩
      | exact ⟨comma, by simp [tokenRules], (hmark ..).2 (htoken.imp fun _ => hspelled)⟩
      | exact ⟨trailingComma, by simp [tokenRules], (hmark ..).2 (htoken.imp fun _ => hspelled)⟩
      | cases hspelled

end Rules

/-! ## Stances -/

inductive Bracket where
  | group
  | call
  deriving DecidableEq, Repr

inductive Demand where
  | operand
  /-- The `(` behind a name. -/
  | arguments
  /-- A sign, or what ends the contents of the innermost bracket. -/
  | operator
  /-- The `)` behind a trailing comma, which leaves the other brackets open. -/
  | closing
  deriving DecidableEq, Repr

/-- What may come next, and the open brackets, the innermost first. -/
structure Stance where
  demand : Demand
  opened : List Bracket
  deriving DecidableEq, Repr

/-- Nothing is read yet. -/
def Stance.initial : Stance := ⟨.operand, []⟩

/-- An expression is complete. -/
def Stance.complete : Stance := ⟨.operator, []⟩

/-- A stance admits the token at a place, and another stance is taken behind it. -/
inductive Move : Stance → Place → Word → Stance → Place → Prop where
  | numeral {s : List Bracket} {p q : Place} {word : Word} (token : Token Numeral p word q) :
      Move ⟨.operand, s⟩ p word ⟨.operator, s⟩ q
  | group {s : List Bracket} {p q : Place} {word : Word}
      (token : Token (Mark '(' .leftParen) p word q) :
      Move ⟨.operand, s⟩ p word ⟨.operand, .group :: s⟩ q
  | name {s : List Bracket} {p q : Place} {word : Word} (token : Token BuiltinName p word q) :
      Move ⟨.operand, s⟩ p word ⟨.arguments, s⟩ q
  | call {s : List Bracket} {p q : Place} {word : Word}
      (token : Token (Mark '(' .leftParen) p word q) :
      Move ⟨.arguments, s⟩ p word ⟨.operand, .call :: s⟩ q
  | sign {s : List Bracket} {p q : Place} {word : Word} (token : Token Sign p word q) :
      Move ⟨.operator, s⟩ p word ⟨.operand, s⟩ q
  | close {bracket : Bracket} {s : List Bracket} {p q : Place} {word : Word}
      (token : Token (Mark ')' .rightParen) p word q) :
      Move ⟨.operator, bracket :: s⟩ p word ⟨.operator, s⟩ q
  | comma {s : List Bracket} {p q : Place} {word : Word}
      (token : Token (Mark ',' .comma) p word q) :
      Move ⟨.operator, .call :: s⟩ p word ⟨.operand, .call :: s⟩ q
  | trailing {s : List Bracket} {p q : Place} {word : Word}
      (token : Token (Mark ',' .trailingComma) p word q) :
      Move ⟨.operator, .call :: s⟩ p word ⟨.closing, s⟩ q
  | last {s : List Bracket} {p q : Place} {word : Word}
      (token : Token (Mark ')' .rightParen) p word q) :
      Move ⟨.closing, s⟩ p word ⟨.operator, s⟩ q

inductive Path : Stance → Place → List Word → Stance → Place → Prop where
  | nil {c : Stance} {p : Place} : Path c p [] c p
  | cons {c d e : Stance} {p q r : Place} {word : Word} {words : List Word}
      (first : Move c p word d q) (rest : Path d q words e r) : Path c p (word :: words) e r

section Moves

variable {c d d' : Stance} {p p' q q' : Place} {word word' : Word}

theorem Move.token (h : Move c p word d q) : Token Recognized p word q := by
  cases h with
  | numeral h => exact h.imp Numeral.recognized
  | sign h => exact h.imp Sign.recognized
  | name h => exact h.imp BuiltinName.recognized
  | group h | call h | close h | last h | comma h | trailing h =>
    exact h.imp fun hspelled => hspelled.recognized (by decide)

/-- Only the kind of a token decides whether a stance admits it. -/
theorem Move.of_kind (h : Move c p word d q) (htoken : Token Recognized p' word' q')
    (hkind : word'.kind = word.kind) : Move c p' word' d q' := by
  unfold Recognized at htoken
  cases h with
  | numeral h =>
    have hoperand := h.spelled.kind
    refine .numeral (htoken.imp fun hspelled => ?_)
    rw [hkind] at hspelled
    cases hk : word.kind <;> rw [hk] at hspelled hoperand <;>
      first | exact hspelled | cases hoperand
  | sign h => exact .sign (htoken.imp fun hspelled => by rwa [hkind, h.spelled.1] at hspelled)
  | name h => exact .name (htoken.imp fun hspelled => by rwa [hkind, h.spelled.1] at hspelled)
  | group h => exact .group (htoken.imp fun hspelled => by rwa [hkind, h.spelled.1] at hspelled)
  | call h => exact .call (htoken.imp fun hspelled => by rwa [hkind, h.spelled.1] at hspelled)
  | close h => exact .close (htoken.imp fun hspelled => by rwa [hkind, h.spelled.1] at hspelled)
  | last h => exact .last (htoken.imp fun hspelled => by rwa [hkind, h.spelled.1] at hspelled)
  | comma h => exact .comma (htoken.imp fun hspelled => by rwa [hkind, h.spelled.1] at hspelled)
  | trailing h =>
    exact .trailing (htoken.imp fun hspelled => by rwa [hkind, h.spelled.1] at hspelled)

/-! ## At most one way to go -/

theorem Finds.unique {find : Text → Nat → Option Word} {Spelled : Word → Text → Prop}
    (hfinds : Finds find Spelled) (h : Token Spelled p word q) (h' : Token Spelled p word' q') :
    word = word' ∧ q = q' := by
  have hread := hfinds.reader_iff.2 ⟨word, rfl, h⟩
  rw [hfinds.reader_iff.2 ⟨word', rfl, h'⟩] at hread
  obtain ⟨hwords, hplace⟩ := Prod.mk.inj (Option.some.inj hread)
  exact ⟨(List.cons.inj hwords).1.symm, hplace.symm⟩

/-- A mark is cut off in the same way, whatever it is taken for. -/
theorem Token.mark_stop {symbol : Char} {kind kind' : WordKind}
    (h : Token (Mark symbol kind) p word q) (h' : Token (Mark symbol kind') p word' q') :
    q = q' := by
  have hrest : q.rest = q'.rest := (List.cons.inj (h.mark_rest.symm.trans h'.mark_rest)).2
  have hoffset : q.offset = q'.offset := by
    rw [h.stop, h'.stop, h.spelled.2.2, h'.spelled.2.2]
  cases q
  cases q'
  exact congrArg₂ Place.mk hrest hoffset

/-- A comma in a call, taken in either way. -/
def IsComma (word : Word) : Prop := word.kind = .comma ∨ word.kind = .trailingComma

/-- There is no place where both stances admit something. -/
def Clash (c d : Stance) : Prop :=
  ∀ {p q q' : Place} {word word' : Word} {c' d' : Stance}, Move c p word c' q →
    Move d p word' d' q' → False

theorem clash_closing (s s' : List Bracket) : Clash ⟨.operand, s⟩ ⟨.closing, s'⟩ := by
  intro p q q' word word' c' d' h h'
  cases h' with
  | last hclose =>
    cases h with
    | numeral h => exact hclose.not_numeral_of_mark (by decide) h
    | group h => exact absurd (hclose.mark_unique h) (by decide)
    | name h => exact hclose.not_name_of_mark (by decide) h

theorem Clash.symm (h : Clash c d) : Clash d c := fun hd hc => h hc hd

/-- A stance admits at most one token at a place, a comma perhaps in two ways. -/
theorem Move.unique (h : Move c p word d q) (h' : Move c p word' d' q') :
    q = q' ∧ ((word = word' ∧ d = d') ∨ (IsComma word ∧ IsComma word' ∧ Clash d d')) := by
  have hsame : word = word' ∧ q = q' → d = d' →
      q = q' ∧ ((word = word' ∧ d = d') ∨ (IsComma word ∧ IsComma word' ∧ Clash d d')) :=
    fun hwords hd => ⟨hwords.2, Or.inl ⟨hwords.1, hd⟩⟩
  cases h with
  | numeral h =>
    cases h' with
    | numeral h' => exact hsame (finds_operandWord?.unique h h') rfl
    | group h' => exact absurd h (h'.not_numeral_of_mark (by decide))
    | name h' => exact absurd h h'.not_numeral_of_name
  | group h =>
    cases h' with
    | numeral h' => exact absurd h' (h.not_numeral_of_mark (by decide))
    | group h' => exact hsame ((finds_markWord? ..).unique h h') rfl
    | name h' => exact absurd h' (h.not_name_of_mark (by decide))
  | name h =>
    cases h' with
    | numeral h' => exact absurd h' h.not_numeral_of_name
    | group h' => exact absurd h (h'.not_name_of_mark (by decide))
    | name h' => exact hsame (finds_nameWord?.unique h h') rfl
  | call h =>
    cases h' with
    | call h' => exact hsame ((finds_markWord? ..).unique h h') rfl
  | sign h =>
    cases h' with
    | sign h' => exact hsame (finds_signWord?.unique h h') rfl
    | close h' => exact absurd h (h'.not_sign_of_mark (by decide))
    | comma h' => exact absurd h (h'.not_sign_of_mark (by decide))
    | trailing h' => exact absurd h (h'.not_sign_of_mark (by decide))
  | close h =>
    cases h' with
    | sign h' => exact absurd h' (h.not_sign_of_mark (by decide))
    | close h' => exact hsame ((finds_markWord? ..).unique h h') rfl
    | comma h' => exact absurd (h.mark_unique h') (by decide)
    | trailing h' => exact absurd (h.mark_unique h') (by decide)
  | comma h =>
    cases h' with
    | sign h' => exact absurd h' (h.not_sign_of_mark (by decide))
    | close h' => exact absurd (h.mark_unique h') (by decide)
    | comma h' => exact hsame ((finds_markWord? ..).unique h h') rfl
    | trailing h' =>
      exact ⟨h.mark_stop h', Or.inr ⟨Or.inl h.spelled.1, Or.inr h'.spelled.1, clash_closing _ _⟩⟩
  | trailing h =>
    cases h' with
    | sign h' => exact absurd h' (h.not_sign_of_mark (by decide))
    | close h' => exact absurd (h.mark_unique h') (by decide)
    | comma h' =>
      exact ⟨h.mark_stop h', Or.inr ⟨Or.inr h.spelled.1, Or.inl h'.spelled.1,
        Clash.symm (clash_closing _ _)⟩⟩
    | trailing h' => exact hsame ((finds_markWord? ..).unique h h') rfl
  | last h =>
    cases h' with
    | last h' => exact hsame ((finds_markWord? ..).unique h h') rfl

theorem Move.before (h : Move c p word d q) : p.Before q := by
  cases h with
  | numeral h => exact h.before h.spelled.ne_nil
  | sign h => exact h.sign_before
  | name h => exact h.name_before
  | group h | call h | close h | last h | comma h | trailing h => exact h.mark_before

end Moves

/-! ## Paths -/

section Paths

variable {c d e : Stance} {p q r : Place} {word : Word} {words more : List Word}

theorem Path.append (h : Path c p words d q) (h' : Path d q more e r) :
    Path c p (words ++ more) e r := by
  induction h with
  | nil => exact h'
  | cons hmove _ ih => exact .cons hmove (ih h')

theorem Path.single (h : Move c p word d q) : Path c p [word] d q := .cons h .nil

theorem Path.snoc (h : Path c p words d q) (hmove : Move d q word e r) :
    Path c p (words ++ [word]) e r :=
  h.append (.single hmove)

theorem Path.split (h : Path c p (words ++ more) e r) :
    ∃ d q, Path c p words d q ∧ Path d q more e r := by
  induction words generalizing c p with
  | nil => exact ⟨c, p, .nil, h⟩
  | cons word words ih =>
    cases h with
    | cons hmove hrest =>
      obtain ⟨d, q, hfirst, hmore⟩ := ih hrest
      exact ⟨d, q, .cons hmove hfirst, hmore⟩

/-- The blanks before a place do not reach behind the tokens that follow. -/
theorem Path.skip_le (h : Path c p words d q) : p.skip.offset ≤ q.skip.offset := by
  induction h with
  | nil => exact Nat.le_refl _
  | @cons c d e p q r word words hmove _ ih =>
    have hstop := hmove.token.stop
    have hskip : q.offset ≤ q.skip.offset := Nat.le_add_right _ _
    omega

theorem Path.skip_lt (h : Path c p words d q) (hne : words ≠ []) :
    p.skip.offset < q.skip.offset := by
  cases h with
  | nil => exact absurd rfl hne
  | @cons _ d' _ _ q' _ word words hmove hrest =>
    have hstop := hmove.token.stop
    have hpos := Text.byteSize_pos (Recognized.ne_nil hmove.token.spelled)
    have hskip : q'.offset ≤ q'.skip.offset := Nat.le_add_right _ _
    have hle := hrest.skip_le
    omega

/-- The last token is a comma in a call. -/
def EndsInComma (words : List Word) : Prop := ∃ word, words.getLast? = some word ∧ IsComma word

theorem EndsInComma.cons (h : EndsInComma words) (word : Word) : EndsInComma (word :: words) := by
  obtain ⟨comma, hlast, hcomma⟩ := h
  exact ⟨comma, by rw [List.getLast?_cons, hlast, Option.getD_some], hcomma⟩

/-- Two paths from one place go the same way, as far as the shorter one goes. -/
theorem Path.compare (h : Path c p words d q) (h' : Path c p more e r)
    (hlength : words.length ≤ more.length) :
    ∃ same rest d', more = same ++ rest ∧ same.length = words.length ∧ Path c p same d' q ∧
      Path d' q rest e r ∧ ((same = words ∧ d' = d) ∨ (EndsInComma same ∧ EndsInComma words)) := by
  induction h generalizing more with
  | nil => exact ⟨[], more, _, rfl, rfl, .nil, h', Or.inl ⟨rfl, rfl⟩⟩
  | @cons c d' _ p q' _ word words hmove hpath ih =>
    cases h' with
    | nil => cases hlength
    | @cons _ d'' _ _ q'' _ word' more hmove' hpath' =>
      have hle : words.length ≤ more.length := Nat.le_of_succ_le_succ hlength
      obtain ⟨rfl, ⟨rfl, rfl⟩ | ⟨hcomma, hcomma', hclash⟩⟩ := hmove.unique hmove'
      · obtain ⟨same, rest, m, rfl, hlen, hsame, hrest, hend⟩ := ih hpath' hle
        refine ⟨word :: same, rest, m, rfl, congrArg (· + 1) hlen, .cons hmove' hsame, hrest, ?_⟩
        rcases hend with ⟨rfl, hm⟩ | ⟨hsame, hwords⟩
        · exact Or.inl ⟨rfl, hm⟩
        · exact Or.inr ⟨hsame.cons word, hwords.cons word⟩
      -- Behind a comma that is taken in two ways, one of the paths is over.
      · cases hpath with
        | nil =>
          exact ⟨[word'], more, d'', rfl, rfl, .single hmove', hpath',
            Or.inr ⟨⟨word', rfl, hcomma'⟩, ⟨word, rfl, hcomma⟩⟩⟩
        | cons hnext _ =>
          cases hpath' with
          | nil => cases hle
          | cons hnext' _ => exact absurd hnext' (hclash hnext)

end Paths
end Grammar
end DeskCalc
