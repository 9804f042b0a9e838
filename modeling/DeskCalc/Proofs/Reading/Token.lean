import DeskCalc.Grammar.Token
import DeskCalc.Operator
import DeskCalc.Proofs.Reading.Lexeme
import DeskCalc.Proofs.Reading.Reader

/-
Tokens: what a single word of a source looks like, and the rules that find them.

The kinds of tokens are stated as conditions on a word and on the text behind it.
Each token rule reads exactly the tokens of its kind.
-/
namespace DeskCalc
namespace Grammar

/-! ## Kinds of tokens -/

/-- A word behind the blanks at a place, spelled as a condition wants it. -/
structure Token (Spelled : Word → Text → Prop) (p : Place) (word : Word) (q : Place) : Prop where
  text : p.skip.rest = word.text ++ q.rest
  offset : word.offset = p.skip.offset
  stop : q.offset = p.skip.offset + word.text.byteSize
  spelled : Spelled word q.rest

/-- The longest lexeme, of a kind that stands for a value, and not running into a
letter, a digit or a low line. -/
def Numeral (word : Word) (after : Text) : Prop :=
  ∃ lexeme, Lexeme.first? (word.text ++ after) = some (lexeme, word.text.length) ∧
    operandOf? lexeme = some (word.kind, word.value) ∧ Lexeme.atWordBoundary after = true

/-- One of the signs of the arithmetic operators. -/
def Sign (word : Word) (_after : Text) : Prop :=
  word.kind = .operator ∧ word.value = word.text ∧ ∃ op : Arithmetic, word.text = [op.symbol]

/-- A single character. -/
def Mark (symbol : Char) (kind : WordKind) (word : Word) (_after : Text) : Prop :=
  word.kind = kind ∧ word.value = word.text ∧ word.text = [symbol]

/-- The longest lexeme, a name, and that of a builtin. -/
def BuiltinName (word : Word) (after : Text) : Prop :=
  word.kind = .functionName ∧ word.value = word.text ∧
    Lexeme.first? (word.text ++ after) = some (.identifier word.text, word.text.length) ∧
    (Builtin.ofName? word.text).isSome = true

/-! ## Finding a token -/

/-- A function finds exactly the words of a kind that open a text. -/
structure Finds (find : Text → Nat → Option Word) (Spelled : Word → Text → Prop) : Prop where
  iff : ∀ {text : Text} {offset : Nat} {word : Word}, find text offset = some word ↔
    word.offset = offset ∧ ∃ after, text = word.text ++ after ∧ Spelled word after

/-- The reader of the token that a function finds. -/
def Reader.token (find : Text → Nat → Option Word) : Reader := fun p =>
  (find p.skip.rest p.skip.offset).map fun word =>
    ([word], ⟨p.skip.rest.drop word.text.length, p.skip.offset + word.text.byteSize⟩)

variable {find : Text → Nat → Option Word} {Spelled : Word → Text → Prop}

theorem Finds.reader_iff (h : Finds find Spelled) {p q : Place} {words : List Word} :
    Reader.token find p = some (words, q) ↔ ∃ word, words = [word] ∧ Token Spelled p word q := by
  constructor
  · intro hread
    obtain ⟨word, hfind, heq⟩ := Option.map_eq_some_iff.1 hread
    obtain ⟨rfl, rfl⟩ := Prod.mk.inj heq
    obtain ⟨hoffset, after, htext, hspelled⟩ := h.iff.1 hfind
    have hafter : p.skip.rest.drop word.text.length = after := by
      rw [htext, List.drop_left]
    exact ⟨word, rfl, by rw [hafter, htext], hoffset, rfl, hafter.symm ▸ hspelled⟩
  · rintro ⟨word, rfl, htoken⟩
    have hfind : find p.skip.rest p.skip.offset = some word :=
      h.iff.2 ⟨htoken.offset, q.rest, htoken.text, htoken.spelled⟩
    rw [Reader.token, hfind, Option.map_some, htoken.text, List.drop_left, ← htoken.stop]

theorem Finds.token (h : Finds find Spelled) {p q : Place} {word : Word}
    (hread : Reader.token find p = some ([word], q)) : Token Spelled p word q := by
  obtain ⟨_, hword, htoken⟩ := h.reader_iff.1 hread
  obtain rfl := (List.cons.inj hword).1
  exact htoken

theorem Finds.reader_none (h : Finds find Spelled) {p : Place}
    (hno : ∀ word q, ¬ Token Spelled p word q) : Reader.token find p = none := by
  cases hread : Reader.token find p with
  | none => rfl
  | some found =>
    obtain ⟨words, q⟩ := found
    obtain ⟨word, -, htoken⟩ := h.reader_iff.1 hread
    exact absurd htoken (hno word q)

/-- A token rule skips blanks and takes what its function finds there.  If that is nothing, it
notes something in the log. -/
def Takes (rule : Rule) (find : Text → Nat → Option Word) (noted : State → Log) : Prop :=
  ∀ state : State, rule state =
    match find state.skipBlanks.rest state.skipBlanks.cursor with
    | some word => Grammar.found word state.skipBlanks
    | none => (false, { state.skipBlanks with log := noted state.skipBlanks })

theorem Finds.takes {rule : Rule} {noted : State → Log} (h : Finds find Spelled)
    (htakes : Takes rule find noted) {state : State} {p : Place} (hat : state.At p) :
    (∃ word q, Token Spelled p word q ∧ rule state = (true, state.extend [word] q state.log) ∧
        (state.extend [word] q state.log).At q) ∨
      Reader.token find p = none ∧ ∃ log, rule state = (false, { state.skipBlanks with log }) := by
  have hskip := hat.skipBlanks
  have hfind : find state.skipBlanks.rest state.skipBlanks.cursor =
      find p.skip.rest p.skip.offset := by rw [hskip.rest, hskip.cursor]
  cases hread : Reader.token find p with
  | none =>
    have hnone := hfind.trans (Option.map_eq_none_iff.1 hread)
    exact Or.inr ⟨rfl, _, by rw [htakes state, hnone]⟩
  | some found =>
    obtain ⟨words, q⟩ := found
    obtain ⟨word, rfl, htoken⟩ := h.reader_iff.1 hread
    have hsome : find p.skip.rest p.skip.offset = some word :=
      h.iff.2 ⟨htoken.offset, q.rest, htoken.text, htoken.spelled⟩
    obtain ⟨hrun, hq⟩ := hskip.found htoken.text htoken.stop
    refine Or.inl ⟨word, q, htoken, ?_, hq⟩
    rw [htakes state, hfind.trans hsome]
    dsimp only
    rw [Grammar.found, hrun]
    rfl

theorem Finds.reads {rule : Rule} {noted : State → Log} (h : Finds find Spelled)
    (htakes : Takes rule find noted) : Reads rule (Reader.token find) where
  matched {state p q words} hat hread := by
    rcases h.takes htakes hat with ⟨word, q', htoken, hrun, hq⟩ | ⟨hnone, -⟩
    · have heq := h.reader_iff.2 ⟨word, rfl, htoken⟩
      obtain ⟨rfl, rfl⟩ := Prod.mk.inj (Option.some.inj (hread.symm.trans heq))
      exact ⟨state.log, hrun, hq⟩
    · rw [hnone] at hread
      cases hread
  failed {state p} hat hread := by
    rcases h.takes htakes hat with ⟨word, q, htoken, -⟩ | ⟨-, log, hrun⟩
    · rw [h.reader_iff.2 ⟨word, rfl, htoken⟩] at hread
      cases hread
    · exact ⟨state.skipBlanks.cursor, log, hrun⟩

/-! ## The token rules -/

/-- The log with the note that something is missing at the cursor. -/
def notedMissing (expectation : Expectation) (forced : Bool) (state : State) : Log :=
  (state.expect expectation forced).log

theorem finds_operandWord? : Finds operandWord? Numeral := by
  refine ⟨fun {text offset word} => ⟨?_, ?_⟩⟩
  · intro h
    simp only [operandWord?, Option.bind_eq_bind, Option.bind_eq_some_iff] at h
    obtain ⟨⟨lexeme, size⟩, hfirst, ⟨kind, value⟩, hkind, h⟩ := h
    dsimp only at hkind h
    split at h
    · next hboundary =>
      obtain rfl := Option.some.inj h
      have hlength : (text.take size).length = size :=
        List.length_take_of_le (Lexeme.fits_first hfirst).le
      refine ⟨rfl, text.drop size, (List.take_append_drop size text).symm, lexeme, ?_, hkind,
        hboundary⟩
      dsimp only
      rw [List.take_append_drop, hlength, hfirst]
    · cases h
  · rintro ⟨rfl, after, rfl, lexeme, hfirst, hkind, hboundary⟩
    simp [operandWord?, hfirst, hkind, hboundary]

theorem takes_number : Takes number operandWord? (notedMissing .number false) := by
  intro state
  rw [number]
  cases operandWord? state.skipBlanks.rest state.skipBlanks.cursor <;> rfl

theorem reads_number : Reads number (Reader.token operandWord?) :=
  finds_operandWord?.reads takes_number

/-- The sign at the start of a text. -/
def signWord? (text : Text) (offset : Nat) : Option Word :=
  match text with
  | c :: _ => if isOperatorSymbol c then some (.plain [c] .operator offset) else none
  | [] => none

theorem isOperatorSymbol_iff {c : Char} :
    isOperatorSymbol c = true ↔ ∃ op : Arithmetic, op.symbol = c := by
  constructor
  · intro h
    simp only [isOperatorSymbol, List.contains_cons, List.contains_nil, Bool.or_false,
      Bool.or_eq_true, beq_iff_eq] at h
    rcases h with rfl | rfl | rfl | rfl | rfl
    · exact ⟨.add, rfl⟩
    · exact ⟨.sub, rfl⟩
    · exact ⟨.mul, rfl⟩
    · exact ⟨.div, rfl⟩
    · exact ⟨.pow, rfl⟩
  · rintro ⟨op, rfl⟩
    cases op <;> decide

theorem finds_signWord? : Finds signWord? Sign := by
  refine ⟨fun {text offset word} => ⟨?_, ?_⟩⟩
  · intro h
    match text with
    | [] => cases h
    | c :: rest =>
      rw [signWord?] at h
      split at h
      · next hc =>
        obtain rfl := Option.some.inj h
        obtain ⟨op, rfl⟩ := isOperatorSymbol_iff.1 hc
        exact ⟨rfl, rest, rfl, rfl, rfl, op, rfl⟩
      · cases h
  · rintro ⟨rfl, after, rfl, hkind, hvalue, op, htext⟩
    obtain ⟨text, value, kind, offset⟩ := word
    dsimp only at hkind hvalue htext
    subst hkind hvalue htext
    rw [List.singleton_append, signWord?, if_pos (isOperatorSymbol_iff.2 ⟨op, rfl⟩), Word.plain]

theorem takes_operator : Takes operator signWord? (notedMissing .operator false) := by
  intro state
  rw [operator]
  cases state.skipBlanks.rest with
  | nil => rfl
  | cons c rest =>
    dsimp only
    by_cases hc : isOperatorSymbol c = true
    · rw [if_pos hc, signWord?, if_pos hc]
    · rw [if_neg hc, signWord?, if_neg hc]
      rfl

theorem reads_operator : Reads operator (Reader.token signWord?) :=
  finds_signWord?.reads takes_operator

/-- The single character at the start of a text. -/
def markWord? (symbol : Char) (kind : WordKind) (text : Text) (offset : Nat) : Option Word :=
  if text.head? = some symbol then some (.plain [symbol] kind offset) else none

theorem finds_markWord? (symbol : Char) (kind : WordKind) :
    Finds (markWord? symbol kind) (Mark symbol kind) := by
  refine ⟨fun {text offset word} => ⟨?_, ?_⟩⟩
  · intro h
    unfold markWord? at h
    split at h
    · next hhead =>
      obtain rfl := Option.some.inj h
      obtain ⟨rest, rfl⟩ := List.head?_eq_some_iff.1 hhead
      exact ⟨rfl, rest, rfl, rfl, rfl, rfl⟩
    · cases h
  · rintro ⟨rfl, after, rfl, hkind, hvalue, htext⟩
    obtain ⟨text, value, kind', offset⟩ := word
    dsimp only at hkind hvalue htext
    subst hkind hvalue htext
    exact if_pos rfl

theorem takes_punctuation (symbol : Char) (kind : WordKind) (expectation : Expectation)
    (forced : Bool) : Takes (punctuation symbol kind expectation forced) (markWord? symbol kind)
      (notedMissing expectation forced) := by
  intro state
  rw [punctuation, markWord?]
  split <;> rfl

theorem reads_punctuation (symbol : Char) (kind : WordKind) (expectation : Expectation)
    (forced : Bool) :
    Reads (punctuation symbol kind expectation forced) (Reader.token (markWord? symbol kind)) :=
  (finds_markWord? symbol kind).reads (takes_punctuation symbol kind expectation forced)

/-- The name of a builtin at the start of a text. -/
def nameWord? (text : Text) (offset : Nat) : Option Word :=
  match Lexeme.first? text with
  | some (.identifier name, _) =>
      if (Builtin.ofName? name).isSome then some (.plain name .functionName offset) else none
  | _ => none

theorem finds_nameWord? : Finds nameWord? BuiltinName := by
  refine ⟨fun {text offset word} => ⟨?_, ?_⟩⟩
  · intro h
    unfold nameWord? at h
    split at h
    · next name size hfirst =>
      split at h
      · next hname =>
        obtain rfl := Option.some.inj h
        obtain ⟨hsize, htext, -⟩ := (Lexeme.fits_first hfirst).name name rfl
        refine ⟨rfl, text.drop size, htext, rfl, rfl, ?_, hname⟩
        rw [Word.plain, ← htext, ← hsize, hfirst]
      · cases h
    · cases h
  · rintro ⟨rfl, after, rfl, hkind, hvalue, hfirst, hname⟩
    obtain ⟨text, value, kind, offset⟩ := word
    dsimp only at hkind hvalue hfirst hname
    subst hkind hvalue
    simp only [nameWord?, hfirst, hname, if_true]
    rfl

/-- The log with the note that no builtin is named at the cursor.  Another name with a `(` behind
it is noted as such. -/
def notedName (state : State) : Log :=
  match Lexeme.first? state.rest with
  | some (.identifier name, size) =>
      if (Text.trimStart (state.rest.drop size)).head? = some '(' then
        (state.report s!"unknown function '{String.ofList name}'"
          ⟨state.cursor, state.cursor + size⟩ true).log
      else notedMissing .functionName false state
  | _ => notedMissing .functionName false state

theorem takes_functionName : Takes functionName nameWord? notedName := by
  intro state
  rw [functionName, nameWord?, notedName]
  dsimp only
  generalize Lexeme.first? state.skipBlanks.rest = first
  rcases first with _ | ⟨lexeme, size⟩
  · rfl
  · cases lexeme with
    | identifier name =>
      dsimp only
      by_cases hname : (Builtin.ofName? name).isSome = true
      · rw [if_pos hname, if_pos hname]
      · rw [if_neg hname, if_neg hname]
        dsimp only
        split <;> rfl
    | _ => rfl

theorem reads_functionName : Reads functionName (Reader.token nameWord?) :=
  finds_nameWord?.reads takes_functionName

end Grammar
end DeskCalc
