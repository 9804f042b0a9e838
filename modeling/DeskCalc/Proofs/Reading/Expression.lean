import DeskCalc.Grammar.Expression
import DeskCalc.Proofs.Reading.Derivation

/-
The readers of expressions, and that they find only phrases of the grammar.

`reads_expression` ties the rule to its reader.  `sound_expression` says that the words
found, the virtual ones left out, are derived between the places.
-/
namespace DeskCalc
namespace Grammar

/-! ## Readers -/

namespace Reader

def numeral : Reader := token operandWord?

def sign : Reader := token signWord?

def mark (symbol : Char) (kind : WordKind) : Reader := token (markWord? symbol kind)

def name : Reader := token nameWord?

def numberRun : Reader := followed numeral [repetition (inOrder [sign, numeral])]

def groupOf (expression : Reader) : Reader :=
  inOrder [mark '(' .leftParen, expression, mark ')' .rightParen]

def argumentsOf (expression : Reader) : Reader :=
  followed expression
    [repetition (inOrder [mark ',' .comma, expression]), mark ',' .trailingComma]

def callOf (expression : Reader) : Reader :=
  inOrder [name, mark '(' .leftParen, argumentsOf expression, mark ')' .rightParen]

def operandOf (expression : Reader) : Reader :=
  firstOf [numberRun, groupOf expression, callOf expression]

theorem operandOf_eq (expression : Reader) (p : Place) : operandOf expression p =
    (numberRun p).or ((groupOf expression p).or (callOf expression p)) := by
  simp only [operandOf, firstOf, Option.or_none]

def expressionOf (expression : Reader) : Reader :=
  followed (operandOf expression) [repetition (inOrder [sign, expression])]

def expressionWithin : Nat → Reader
  | 0, _ => none
  | depth + 1, p => expressionOf (expressionWithin depth) p

def expression : Reader := fun p => expressionWithin (Text.byteSize p.rest + 1) p

end Reader

section Rules

variable {rule : Rule} {reader : Reader}

theorem reads_numberRun : Reads numberRun Reader.numberRun :=
  .optionalSequence reads_number
    (.cons (.repetition (.sequence (.cons reads_operator (.cons reads_number .nil)))) .nil)

theorem reads_groupOf (h : Reads rule reader) : Reads (groupOf rule) (Reader.groupOf reader) :=
  .sequence (.cons (reads_punctuation ..) (.cons h (.cons (reads_punctuation ..) .nil)))

theorem reads_argumentsOf (h : Reads rule reader) :
    Reads (argumentsOf rule) (Reader.argumentsOf reader) :=
  .optionalSequence h
    (.cons (.repetition (.sequence (.cons (reads_punctuation ..) (.cons h .nil))))
      (.cons (reads_punctuation ..) .nil))

theorem reads_callOf (h : Reads rule reader) : Reads (callOf rule) (Reader.callOf reader) :=
  .sequence (.cons reads_functionName (.cons (reads_punctuation ..)
    (.cons (reads_argumentsOf h) (.cons (reads_punctuation ..) .nil))))

theorem reads_operandOf (h : Reads rule reader) :
    Reads (operandOf rule) (Reader.operandOf reader) :=
  .alternative (.cons reads_numberRun (.cons (reads_groupOf h) (.cons (reads_callOf h) .nil)))

theorem reads_expressionOf (h : Reads rule reader) :
    Reads (expressionOf rule) (Reader.expressionOf reader) :=
  .optionalSequence (reads_operandOf h)
    (.cons (.repetition (.sequence (.cons reads_operator (.cons h .nil)))) .nil)

theorem reads_expressionWithin (depth : Nat) :
    Reads (expressionWithin depth) (Reader.expressionWithin depth) := by
  induction depth with
  | zero =>
    refine ⟨fun _ hread => ?_, fun {state _} _ _ => ⟨state.cursor, state.log, rfl⟩⟩
    cases hread
  | succ depth ih => exact ⟨(reads_expressionOf ih).matched, (reads_expressionOf ih).failed⟩

theorem reads_expression : Reads expression Reader.expression where
  matched {state _ _ _} hat hread := by
    rw [expression, hat.remaining]
    exact (reads_expressionWithin _).matched hat hread
  failed {state _} hat hread := by
    rw [expression, hat.remaining]
    exact (reads_expressionWithin _).failed hat hread

end Rules

/-! ## Words that count -/

/-- The words without the virtual ones. -/
def spoken (words : List Word) : List Word := words.filter fun word => !word.isVirtual

@[simp] theorem spoken_nil : spoken [] = [] := rfl

@[simp] theorem spoken_append (words more : List Word) :
    spoken (words ++ more) = spoken words ++ spoken more :=
  List.filter_append words more

@[simp] theorem spoken_placeholder (offset : Nat) : spoken [.placeholder offset] = [] := rfl

theorem spoken_of_kind {word : Word} (h : word.kind.isVirtual = false) (words : List Word) :
    spoken (word :: words) = word :: spoken words := by
  simp [spoken, Word.isVirtual, h]

theorem Sign.spoken {word : Word} {after : Text} (h : Sign word after) (words : List Word) :
    spoken (word :: words) = word :: Grammar.spoken words :=
  spoken_of_kind (by rw [h.1]; rfl) words

theorem Mark.spoken {symbol : Char} {kind : WordKind} {word : Word} {after : Text}
    (h : Mark symbol kind word after) (hkind : kind.isVirtual = false) (words : List Word) :
    spoken (word :: words) = word :: Grammar.spoken words :=
  spoken_of_kind (by rw [h.1, hkind]) words

theorem Mark.spoken_trailing {word : Word} {after : Text}
    (h : Mark ',' .trailingComma word after) : Grammar.spoken [word] = [] := by
  simp [Grammar.spoken, Word.isVirtual, h.1, WordKind.isVirtual]

theorem BuiltinName.spoken {word : Word} {after : Text} (h : BuiltinName word after)
    (words : List Word) : spoken (word :: words) = word :: Grammar.spoken words :=
  spoken_of_kind (by rw [h.1]; rfl) words

theorem Numeral.kind {word : Word} {after : Text} (h : Numeral word after) :
    word.kind.isOperand = true := by
  obtain ⟨lexeme, -, hkind, -⟩ := h
  unfold operandOf? at hkind
  split at hkind
  all_goals first
    | rw [← (Prod.mk.inj (Option.some.inj hkind)).1]; rfl
    | cases hkind

theorem Numeral.spoken {word : Word} {after : Text} (h : Numeral word after)
    (words : List Word) : spoken (word :: words) = word :: Grammar.spoken words := by
  refine spoken_of_kind ?_ words
  have hkind := h.kind
  cases hk : word.kind <;> rw [hk] at hkind <;> first | rfl | cases hkind

/-! ## Soundness -/

/-- Whatever the reader finds is a phrase of the category. -/
def Sound (reader : Reader) (category : Category) : Prop :=
  ∀ {p q : Place} {words : List Word}, reader p = some (words, q) →
    Derives category p (spoken words) q

variable {reader : Reader}

theorem Reader.inOrder_cons {readers : List Reader} {p s : Place} {words : List Word}
    (h : Reader.inOrder (reader :: readers) p = some (words, s)) :
    ∃ first q more, reader p = some (first, q) ∧ Reader.inOrder readers q = some (more, s) ∧
      words = first ++ more := by
  simp only [Reader.inOrder, Option.bind_eq_bind, Option.bind_eq_some_iff] at h
  obtain ⟨⟨first, q⟩, hfirst, ⟨more, s'⟩, hmore, heq⟩ := h
  obtain ⟨rfl, rfl⟩ := Prod.mk.inj (Option.some.inj heq)
  exact ⟨first, q, more, hfirst, hmore, rfl⟩

theorem Reader.inOrder_nil {p s : Place} {words : List Word}
    (h : Reader.inOrder [] p = some (words, s)) : words = [] ∧ s = p := by
  obtain ⟨rfl, rfl⟩ := Prod.mk.inj (Option.some.inj h)
  exact ⟨rfl, rfl⟩

theorem Reader.followed_eq_some {readers : List Reader} {p s : Place} {words : List Word}
    (h : Reader.followed reader readers p = some (words, s)) :
    ∃ first q more, reader p = some (first, q) ∧ Reader.asFarAs readers q = (more, s) ∧
      words = first ++ more := by
  simp only [Reader.followed, Option.bind_eq_bind, Option.bind_eq_some_iff] at h
  obtain ⟨⟨first, q⟩, hfirst, heq⟩ := h
  obtain ⟨rfl, rfl⟩ := Prod.mk.inj (Option.some.inj heq)
  exact ⟨first, q, _, hfirst, rfl, rfl⟩

theorem Reader.repetition_eq_some (reader : Reader) (p : Place) :
    ∃ words q, Reader.repetition reader p = some (words, q) ∧
      ∃ count found, Reader.repeatWithin reader (Text.byteSize p.rest + 1) p = (count, found, q) ∧
        spoken words = spoken found := by
  match h : Reader.repeatWithin reader (Text.byteSize p.rest + 1) p with
  | (0, found, q) =>
    refine ⟨_, _, by rw [Reader.repetition, h], 0, found, rfl, ?_⟩
    rw [spoken_append, spoken_placeholder, List.append_nil]
  | (count + 1, found, q) => exact ⟨_, _, by rw [Reader.repetition, h], count + 1, found, rfl, rfl⟩

theorem sound_numeral : Sound Reader.numeral .operand := by
  intro p q words h
  obtain ⟨word, rfl, hnumber⟩ := finds_operandWord?.reader_iff.1 h
  rw [hnumber.spelled.spoken, spoken_nil]
  exact .numeral hnumber

/-- What holds of the words before a repetition and is kept by each round holds of the
words behind it. -/
theorem sound_repeat {Holds : List Word → Place → Prop}
    (hround : ∀ {words found : List Word} {q r : Place}, Holds words q →
      reader q = some (found, r) → Holds (words ++ spoken found) r)
    (fuel : Nat) {words more : List Word} {q r : Place} {count : Nat} (hstart : Holds words q)
    (hread : Reader.repeatWithin reader fuel q = (count, more, r)) :
    Holds (words ++ spoken more) r := by
  induction fuel generalizing q words more count with
  | zero =>
    simp only [Reader.repeatWithin, Prod.mk.injEq] at hread
    obtain ⟨-, rfl, rfl⟩ := hread
    rwa [spoken_nil, List.append_nil]
  | succ fuel ih =>
    cases hone : reader q with
    | none =>
      simp only [Reader.repeatWithin, hone, Prod.mk.injEq] at hread
      obtain ⟨-, rfl, rfl⟩ := hread
      rwa [spoken_nil, List.append_nil]
    | some found =>
      obtain ⟨found, s⟩ := found
      have hnext := hround hstart hone
      simp only [Reader.repeatWithin, hone] at hread
      split at hread
      · obtain ⟨-, rfl, rfl⟩ := hread
        exact hnext
      · obtain ⟨-, rfl, rfl⟩ := hread
        rw [spoken_append, ← List.append_assoc]
        exact ih hnext rfl

theorem sound_repetition {Holds : List Word → Place → Prop}
    (hround : ∀ {words found : List Word} {q r : Place}, Holds words q →
      reader q = some (found, r) → Holds (words ++ spoken found) r)
    {words more : List Word} {q r : Place} (hstart : Holds words q)
    (hread : Reader.repetition reader q = some (more, r)) : Holds (words ++ spoken more) r := by
  obtain ⟨words', r', hrun, count, found, hrepeat, hspoken⟩ :=
    Reader.repetition_eq_some reader q
  obtain ⟨rfl, rfl⟩ := Prod.mk.inj (Option.some.inj (hread.symm.trans hrun))
  rw [hspoken]
  exact sound_repeat hround _ hstart hrepeat

/-- A sign and an expression prolong an expression. -/
theorem sound_sign (h : Sound reader .expression) {p q r : Place} {words found : List Word}
    (hfirst : Derives .expression p words q)
    (hread : Reader.inOrder [Reader.sign, reader] q = some (found, r)) :
    Derives .expression p (words ++ spoken found) r := by
  obtain ⟨signWords, q', rest, hsign, hrest, rfl⟩ := Reader.inOrder_cons hread
  obtain ⟨operands, s, none, hoperands, hnil, rfl⟩ := Reader.inOrder_cons hrest
  obtain ⟨rfl, rfl⟩ := Reader.inOrder_nil hnil
  obtain ⟨sign, rfl, hsigned⟩ := finds_signWord?.reader_iff.1 hsign
  rw [List.append_nil, List.singleton_append, hsigned.spelled.spoken]
  exact hfirst.append hsigned (h hoperands)

/-- A comma and an expression prolong a list. -/
theorem sound_comma (h : Sound reader .expression) {p q r : Place} {words found : List Word}
    (hfirst : Derives .list p words q)
    (hread : Reader.inOrder [Reader.mark ',' .comma, reader] q = some (found, r)) :
    Derives .list p (words ++ spoken found) r := by
  obtain ⟨commaWords, q', rest, hcomma, hrest, rfl⟩ := Reader.inOrder_cons hread
  obtain ⟨operands, s, none, hoperands, hnil, rfl⟩ := Reader.inOrder_cons hrest
  obtain ⟨rfl, rfl⟩ := Reader.inOrder_nil hnil
  obtain ⟨comma, rfl, hseparated⟩ := (finds_markWord? ',' .comma).reader_iff.1 hcomma
  rw [List.append_nil, List.singleton_append, hseparated.spelled.spoken rfl]
  exact hfirst.append_list hseparated (.last (h hoperands))

/-- A phrase and a repetition behind it. -/
theorem Reader.followed_repetition {rounds : Reader} {p r : Place} {words : List Word}
    (h : Reader.followed reader [Reader.repetition rounds] p = some (words, r)) :
    ∃ first q more, reader p = some (first, q) ∧ Reader.repetition rounds q = some (more, r) ∧
      words = first ++ more := by
  obtain ⟨first, q, more, hfirst, hmore, rfl⟩ := Reader.followed_eq_some h
  obtain ⟨found, s, hrun, -⟩ := Reader.repetition_eq_some rounds q
  simp only [Reader.asFarAs, hrun, List.append_nil, Prod.mk.injEq] at hmore
  obtain ⟨rfl, rfl⟩ := hmore
  exact ⟨first, q, found, hfirst, hrun, rfl⟩

theorem sound_numberRun : Sound Reader.numberRun .expression := by
  intro p q words h
  obtain ⟨first, s, more, hfirst, hmore, rfl⟩ := Reader.followed_repetition h
  rw [spoken_append]
  exact sound_repetition (sound_sign fun hread => .single (sound_numeral hread))
    (.single (sound_numeral hfirst)) hmore

theorem sound_groupOf (h : Sound reader .expression) : Sound (Reader.groupOf reader) .operand := by
  intro p q words hread
  obtain ⟨_, q', _, hopen, hrest, rfl⟩ := Reader.inOrder_cons hread
  obtain ⟨inner, q'', _, hinner, hrest', rfl⟩ := Reader.inOrder_cons hrest
  obtain ⟨_, q''', _, hclose, hnil, rfl⟩ := Reader.inOrder_cons hrest'
  obtain ⟨rfl, rfl⟩ := Reader.inOrder_nil hnil
  obtain ⟨opening, rfl, hopened⟩ := (finds_markWord? '(' .leftParen).reader_iff.1 hopen
  obtain ⟨closing, rfl, hclosed⟩ := (finds_markWord? ')' .rightParen).reader_iff.1 hclose
  rw [List.singleton_append, hopened.spelled.spoken rfl, spoken_append, List.append_nil,
    hclosed.spelled.spoken rfl]
  exact .group hopened (h hinner) hclosed

/-- The arguments are a list, and perhaps a trailing comma. -/
theorem sound_argumentsOf (h : Sound reader .expression) {p r : Place} {words : List Word}
    (hread : Reader.argumentsOf reader p = some (words, r)) :
    ∃ q, Derives .list p (spoken words) q ∧ OptionalComma q r := by
  obtain ⟨first, q, more, hfirst, hmore, rfl⟩ := Reader.followed_eq_some hread
  obtain ⟨found, s, hrun, -⟩ := Reader.repetition_eq_some
    (Reader.inOrder [Reader.mark ',' .comma, reader]) q
  have hlist : Derives .list p (spoken first ++ spoken found) s :=
    sound_repetition (sound_comma h) (.last (h hfirst)) hrun
  simp only [Reader.asFarAs, hrun, Prod.mk.injEq] at hmore
  obtain ⟨rfl, rfl⟩ := hmore
  refine ⟨s, ?_⟩
  cases hcomma : Reader.mark ',' .trailingComma s with
  | none => simpa using ⟨hlist, Or.inl rfl⟩
  | some last =>
    obtain ⟨last, t⟩ := last
    obtain ⟨comma, rfl, htoken⟩ := (finds_markWord? ',' .trailingComma).reader_iff.1 hcomma
    refine ⟨?_, Or.inr ⟨comma, htoken⟩⟩
    simpa [htoken.spelled.spoken_trailing] using hlist

theorem sound_callOf (h : Sound reader .expression) : Sound (Reader.callOf reader) .operand := by
  intro p q words hread
  obtain ⟨_, q', _, hname, hrest, rfl⟩ := Reader.inOrder_cons hread
  obtain ⟨_, q'', _, hopen, hrest', rfl⟩ := Reader.inOrder_cons hrest
  obtain ⟨inner, q''', _, hinner, hrest'', rfl⟩ := Reader.inOrder_cons hrest'
  obtain ⟨_, r, _, hclose, hnil, rfl⟩ := Reader.inOrder_cons hrest''
  obtain ⟨rfl, rfl⟩ := Reader.inOrder_nil hnil
  obtain ⟨name, rfl, hnamed⟩ := finds_nameWord?.reader_iff.1 hname
  obtain ⟨opening, rfl, hopened⟩ := (finds_markWord? '(' .leftParen).reader_iff.1 hopen
  obtain ⟨closing, rfl, hclosed⟩ := (finds_markWord? ')' .rightParen).reader_iff.1 hclose
  obtain ⟨s, hlist, hcomma⟩ := sound_argumentsOf h hinner
  rw [List.singleton_append, hnamed.spelled.spoken, List.singleton_append,
    hopened.spelled.spoken rfl, spoken_append, List.append_nil, hclosed.spelled.spoken rfl]
  exact .call hnamed hopened hlist hcomma hclosed

theorem sound_operandOf (h : Sound reader .expression) :
    Sound (Reader.operandOf reader) .expression := by
  intro p q words hread
  rw [Reader.operandOf_eq, Option.or_eq_some_iff, Option.or_eq_some_iff] at hread
  rcases hread with hrun | ⟨-, hgroup | ⟨-, hcall⟩⟩
  · exact sound_numberRun hrun
  · exact .single (sound_groupOf h hgroup)
  · exact .single (sound_callOf h hcall)

theorem sound_expressionOf (h : Sound reader .expression) :
    Sound (Reader.expressionOf reader) .expression := by
  intro p q words hread
  obtain ⟨first, s, more, hfirst, hmore, rfl⟩ := Reader.followed_repetition hread
  rw [spoken_append]
  exact sound_repetition (sound_sign h) (sound_operandOf h hfirst) hmore

theorem sound_expressionWithin (depth : Nat) :
    Sound (Reader.expressionWithin depth) .expression := by
  induction depth with
  | zero => exact fun hread => by cases hread
  | succ depth ih => exact fun hread => sound_expressionOf ih hread

theorem sound_expression : Sound Reader.expression .expression :=
  fun hread => sound_expressionWithin _ hread

end Grammar
end DeskCalc
