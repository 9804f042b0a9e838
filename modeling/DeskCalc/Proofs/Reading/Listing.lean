import DeskCalc.Proofs.Evaluation
import DeskCalc.Proofs.Reading.Completion
import DeskCalc.Proofs.Reading.Literal
import Mathlib.Data.List.Induction

/-
Rows of literals as sources.

A row of decimal literals is written as the arguments of a call, or with the sign of one operator
between each two.  Both are sentences.  The arguments are listed from the front and the chain
grows at its end, as the grammar and the left-associative operators have it.
-/
namespace DeskCalc

/-! ## Trees over a row of items -/

/-- The arguments are leaves that stand for these items. -/
inductive Arguments.Lists {α β : Type} (Item : α → β → Prop) : Arguments α → List β → Prop where
  | last {operand : α} {item : β} (is : Item operand item) :
      Lists Item (.last (.leaf operand)) [item]
  | more {operand : α} {item : β} {comma : Word} {rest : Arguments α} {items : List β}
      (is : Item operand item) (separated : comma.kind = .comma) (others : Lists Item rest items) :
      Lists Item (.more (.leaf operand) comma rest) (item :: items)

/-- One operator joins leaves that stand for these items. -/
inductive Tree.Chains {α β : Type} (op : Arithmetic) (Item : α → β → Prop) :
    Tree α → List β → Prop where
  | single {operand : α} {item : β} (is : Item operand item) :
      Chains op Item (.leaf operand) [item]
  | append {left : Tree α} {items : List β} {sign : Word} {operand : α} {item : β}
      (front : Chains op Item left items)
      (signed : sign.kind = .operator ∧ Arithmetic.ofSymbol? sign.value = some op)
      (is : Item operand item) :
      Chains op Item (.binary op sign left (.leaf operand)) (items ++ [item])

section Rows

variable {α β γ ε : Type} {Item : α → β → Prop} {Item' : γ → β → Prop} {op : Arithmetic}
  {arguments : Arguments α} {tree : Tree α} {items : List β} {read : α → Except ε γ}

theorem Arguments.Lists.graded (h : arguments.Lists Item items) : arguments.Graded := by
  induction h with
  | last is => trivial
  | more is separated others ih => exact ⟨trivial, ih⟩

theorem Tree.Chains.rank_le (h : tree.Chains op Item items) : op.rank ≤ tree.rank := by
  cases h with
  | single is => exact op.rank_lt_four.le
  | append front signed is => exact le_rfl

theorem Tree.Chains.graded (h : tree.Chains op Item items) : tree.Graded := by
  induction h with
  | single is => trivial
  | append front signed is ih => exact ⟨front.rank_le, op.rank_lt_four, ih, trivial⟩

theorem Arguments.Lists.spelled {Leaf : Word → Prop} {Item : Word → β → Prop}
    {arguments : Arguments Word} (h : arguments.Lists Item items)
    (hleaf : ∀ word item, Item word item → Leaf word) : arguments.Spelled Leaf := by
  induction h with
  | last is => exact hleaf _ _ is
  | more is separated others ih => exact ⟨separated, hleaf _ _ is, ih⟩

theorem Tree.Chains.spelled {Leaf : Word → Prop} {Item : Word → β → Prop} {tree : Tree Word}
    (h : tree.Chains op Item items) (hleaf : ∀ word item, Item word item → Leaf word) :
    tree.Spelled Leaf := by
  induction h with
  | single is => exact hleaf _ _ is
  | append front signed is ih => exact ⟨signed, ih, hleaf _ _ is⟩

/-- Leaves that can all be read are read one by one. -/
theorem Arguments.Lists.traverse (h : arguments.Lists Item items)
    (hread : ∀ operand item, Item operand item →
      ∃ operand', read operand = .ok operand' ∧ Item' operand' item) :
    ∃ arguments', arguments.traverse read = .ok arguments' ∧ arguments'.Lists Item' items := by
  induction h with
  | last is =>
    obtain ⟨operand, hoperand, hitem⟩ := hread _ _ is
    refine ⟨.last (.leaf operand), ?_, .last hitem⟩
    rw [Arguments.traverse, Tree.traverse, hoperand]
    rfl
  | @more _ _ comma _ _ is separated others ih =>
    obtain ⟨operand, hoperand, hitem⟩ := hread _ _ is
    obtain ⟨rest, hrest, hothers⟩ := ih
    refine ⟨.more (.leaf operand) comma rest, ?_, .more hitem separated hothers⟩
    rw [Arguments.traverse, Tree.traverse, hoperand, hrest]
    rfl

theorem Tree.Chains.traverse (h : tree.Chains op Item items)
    (hread : ∀ operand item, Item operand item →
      ∃ operand', read operand = .ok operand' ∧ Item' operand' item) :
    ∃ tree', tree.traverse read = .ok tree' ∧ tree'.Chains op Item' items := by
  induction h with
  | single is =>
    obtain ⟨operand, hoperand, hitem⟩ := hread _ _ is
    refine ⟨.leaf operand, ?_, .single hitem⟩
    rw [Tree.traverse, hoperand]
    rfl
  | @append _ _ sign _ _ front signed is ih =>
    obtain ⟨left, hleft, hfront⟩ := ih
    obtain ⟨operand, hoperand, hitem⟩ := hread _ _ is
    refine ⟨.binary op sign left (.leaf operand), ?_, .append hfront signed hitem⟩
    rw [Tree.traverse, Tree.traverse, hleft, hoperand]
    rfl

end Rows

/-! ## Their texts -/

/-- A call of these arguments. -/
def callText (builtin : Builtin) (arguments : List Text) : Text :=
  builtin.name.toList ++ '(' :: ([',', ' '].intercalate arguments ++ [')'])

/-- These operands with the sign of an operator between each two. -/
def chainText (op : Arithmetic) (operands : List Text) : Text :=
  [' ', op.symbol, ' '].intercalate operands

theorem intercalate_concat {α : Type} {separator : List α} {rows : List (List α)} (row : List α)
    (h : rows ≠ []) :
    separator.intercalate (rows ++ [row]) = separator.intercalate rows ++ separator ++ row := by
  induction rows with
  | nil => exact absurd rfl h
  | cons first rows ih =>
    by_cases hrows : rows = []
    · simp [hrows, List.intercalate_cons_cons]
    · rw [List.cons_append, List.intercalate_cons_of_ne_nil (by simp), ih hrows,
        List.intercalate_cons_of_ne_nil hrows]
      simp only [List.append_assoc]

theorem byteSize_intercalate (separator row : Text) (rows : List Text) :
    Text.byteSize (separator.intercalate (row :: rows)) =
      Text.byteSize (row :: rows).flatten + rows.length * Text.byteSize separator := by
  induction rows generalizing row with
  | nil => simp
  | cons next rows ih =>
    have hflat : Text.byteSize (row :: next :: rows).flatten =
        Text.byteSize row + Text.byteSize (next :: rows).flatten := Text.byteSize_append _ _
    rw [List.intercalate_cons_cons, Text.byteSize_append, Text.byteSize_append, ih, hflat,
      List.length_cons, Nat.succ_mul]
    omega

theorem byteSize_perm {text text' : Text} (h : text.Perm text') :
    Text.byteSize text = Text.byteSize text' := by
  induction h with
  | nil => rfl
  | cons c h ih => rw [Text.byteSize, Text.byteSize, ih]
  | swap c d text =>
    simp only [Text.byteSize]
    omega
  | trans h h' ih ih' => exact ih.trans ih'

/-- The size of a call does not depend on the order of its arguments. -/
theorem byteSize_callText_perm (builtin : Builtin) {arguments arguments' : List Text}
    (h : arguments.Perm arguments') :
    Text.byteSize (callText builtin arguments) = Text.byteSize (callText builtin arguments') := by
  have hlength := h.length_eq
  have hjoined : Text.byteSize ([',', ' '].intercalate arguments) =
      Text.byteSize ([',', ' '].intercalate arguments') := by
    cases arguments with
    | nil => rw [h.nil_eq]
    | cons first rest =>
      cases arguments' with
      | nil => cases hlength
      | cons first' rest' =>
        rw [byteSize_intercalate, byteSize_intercalate, byteSize_perm h.flatten,
          Nat.succ.inj hlength]
  simp only [callText, Text.byteSize_append, Text.byteSize, hjoined]

/-- The source has the words of this tree, which stand for single values at its leaves. -/
structure Tree.ReadFrom (tree : Tree Word) (source : Text) : Prop where
  sentence : Grammar.Sentence source tree.words
  single : tree.Spelled Word.IsSingle
  graded : tree.Graded

namespace Grammar

open Lexeme Text

/-! ## Tokens of a literal, a separator and a name -/

/-- The word of a decimal literal. -/
def literalWord (literal : Text) (offset : ℕ) : Word :=
  ⟨literal, normalDecimal literal, .number, offset⟩

/-- The word reads like a literal, wherever it stands. -/
def IsLiteral (word : Word) (literal : Text) : Prop :=
  ∃ offset, word = literalWord literal offset

theorem IsLiteral.isSingle {word : Word} {literal : Text} (h : IsLiteral word literal) :
    word.IsSingle := by
  obtain ⟨offset, rfl⟩ := h
  exact Or.inl rfl

/-- The sign of an operator. -/
theorem Mark.sign {op : Arithmetic} {word : Word} {after : Text}
    (h : Mark op.symbol .operator word after) : Sign word after :=
  ⟨h.1, h.2.1, op, h.2.2⟩

theorem Mark.names_operator {op : Arithmetic} {word : Word} {after : Text}
    (h : Mark op.symbol .operator word after) :
    word.kind = .operator ∧ Arithmetic.ofSymbol? word.value = some op := by
  refine ⟨h.1, ?_⟩
  rw [h.2.1, h.2.2]
  cases op <;> rfl

theorem no_blank : ∀ c ∈ ([] : Text), isBlank c = true := List.forall_mem_nil _

theorem blank_space : ∀ c ∈ [' '], isBlank c = true := List.forall_mem_singleton.2 (by decide)

theorem symbol_not_blank (op : Arithmetic) : isBlank op.symbol = false := by
  cases op <;> decide

theorem detached_delimiter {symbol : Char} (h : symbol ∈ delimiters) (after : Text) :
    Detached (symbol :: after) := by
  simp only [delimiters, List.mem_cons, List.not_mem_nil, or_false] at h
  rcases h with rfl | rfl | rfl <;> exact ⟨rfl, by simp⟩

section Tokens

variable (blanks after : Text) (offset : ℕ) {stop : ℕ}

/-- A symbol behind blanks. -/
theorem token_symbol {symbol : Char} (kind : WordKind) (hblanks : ∀ c ∈ blanks, isBlank c = true)
    (hsymbol : isBlank symbol = false)
    (hstop : stop = offset + byteSize blanks + symbol.utf8Size) :
    ∃ word, Token (Mark symbol kind) ⟨blanks ++ symbol :: after, offset⟩ word ⟨after, stop⟩ := by
  have hmark : Mark symbol kind (.plain [symbol] kind (offset + byteSize blanks)) after :=
    ⟨rfl, rfl, rfl⟩
  refine ⟨_, token_behind_blanks hblanks ?_ (List.cons_ne_nil _ _) rfl hstop hmark⟩
  rintro c ⟨⟩
  exact hsymbol

/-- A literal behind blanks. -/
theorem token_literal {literal : Text} (h : DecimalLiteral literal)
    (hblanks : ∀ c ∈ blanks, isBlank c = true) (hafter : Detached after)
    (hstop : stop = offset + byteSize blanks + byteSize literal) :
    ∃ word, Token Numeral ⟨blanks ++ (literal ++ after), offset⟩ word ⟨after, stop⟩ ∧
      IsLiteral word literal := by
  have halone : Numeral (literalWord literal (offset + byteSize blanks)) [] := by
    refine ⟨.decimal (normalDecimal literal), ?_, rfl, rfl⟩
    rw [List.append_nil]
    exact h.first?
  refine ⟨_, token_behind_blanks hblanks ?_ h.ne_nil rfl hstop (halone.change_after hafter),
    _, rfl⟩
  intro c hc
  obtain ⟨first, rest, hliteral, -, -, hblank⟩ := h.head
  obtain rfl : first = c := by
    rw [literalWord, hliteral] at hc
    exact Option.some.inj hc
  exact hblank

end Tokens

/-- The name of a builtin at the start of a source. -/
theorem token_builtin (builtin : Builtin) (after : Text) :
    Token BuiltinName (.start (builtin.name.toList ++ '(' :: after))
      (.plain builtin.name.toList .functionName 0)
      ⟨'(' :: after, byteSize builtin.name.toList⟩ := by
  have halone : BuiltinName (.plain builtin.name.toList .functionName 0) [] := by
    refine ⟨rfl, rfl, ?_, ?_⟩
    · cases builtin <;> decide
    · rw [Word.plain, Builtin.ofName?_name]
      rfl
  have hhead : ∀ c, builtin.name.toList.head? = some c → isBlank c = false := by
    cases builtin <;> rintro c ⟨⟩ <;> decide
  refine token_behind_blanks no_blank hhead ?_ rfl ?_ (halone.change_after ?_)
  · cases builtin <;> decide
  · show byteSize builtin.name.toList = 0 + 0 + byteSize builtin.name.toList
    omega
  · rintro c ⟨⟩
    decide

/-! ## Rows as phrases -/

section Phrases

variable {β : Type} {text : β → Text} {items : List β} {blanks after : Text} {stop : ℕ}
  (hliterals : ∀ item ∈ items, DecimalLiteral (text item)) (hitems : items ≠ [])

include hliterals hitems

/-- Literals with commas between them are a list. -/
theorem derives_list (offset : ℕ) (hblanks : ∀ c ∈ blanks, isBlank c = true)
    (hafter : Detached after)
    (hstop : stop = offset + byteSize (blanks ++ [',', ' '].intercalate (items.map text))) :
    ∃ arguments : Arguments Word,
      Derives .list ⟨blanks ++ ([',', ' '].intercalate (items.map text) ++ after), offset⟩
        arguments.words ⟨after, stop⟩ ∧
      arguments.Lists (fun word item => IsLiteral word (text item)) items := by
  induction items generalizing blanks offset with
  | nil => exact absurd rfl hitems
  | cons item items ih =>
    obtain ⟨hliteral, hliterals⟩ := List.forall_mem_cons.1 hliterals
    rw [byteSize_append] at hstop
    by_cases hrest : items = []
    · subst hrest
      rw [List.map_singleton, List.intercalate_singleton] at hstop ⊢
      obtain ⟨word, htoken, hword⟩ := token_literal blanks after offset hliteral hblanks hafter
        (hstop.trans (Nat.add_assoc _ _ _).symm)
      exact ⟨.last (.leaf word), .last (.single (.numeral htoken)), .last hword⟩
    · have hmap : items.map text ≠ [] := by simpa using hrest
      rw [List.map_cons, List.intercalate_cons_of_ne_nil hmap] at hstop ⊢
      generalize hjoined : [',', ' '].intercalate (items.map text) = joined at hstop ih ⊢
      have hcommaSize : byteSize [',', ' '] = 2 := by decide
      have hblankSize : byteSize [' '] = 1 := by decide
      have hbehind : Detached (',' :: ' ' :: (joined ++ after)) :=
        detached_delimiter (by decide) _
      obtain ⟨word, hfirst, hword⟩ := token_literal blanks _ offset hliteral hblanks hbehind rfl
      obtain ⟨comma, hcomma⟩ : ∃ comma, Token (Mark ',' .comma)
          ⟨',' :: ' ' :: (joined ++ after), offset + byteSize blanks + byteSize (text item)⟩ comma
          ⟨' ' :: (joined ++ after), offset + byteSize blanks + byteSize (text item) + 1⟩ :=
        token_symbol [] _ _ .comma no_blank (by decide) rfl
      have hjoinedStop : stop = offset + byteSize blanks + byteSize (text item) + 1 +
          byteSize ([' '] ++ joined) := by
        simp only [byteSize_append, hcommaSize, hblankSize] at hstop ⊢
        omega
      obtain ⟨rest, hderives, hlists⟩ := ih hliterals hrest _ blank_space hjoinedStop
      refine ⟨.more (.leaf word) comma rest, ?_, .more hword hcomma.spelled.1 hlists⟩
      rw [List.append_assoc, List.append_assoc]
      exact .more (.single (.numeral hfirst)) hcomma hderives

/-- Literals with the sign of an operator between them are an expression. -/
theorem derives_chain (op : Arithmetic) (offset : ℕ) (hafter : Detached after)
    (hstop : stop = offset + byteSize (chainText op (items.map text))) :
    ∃ tree : Tree Word,
      Derives .expression ⟨chainText op (items.map text) ++ after, offset⟩ tree.words
        ⟨after, stop⟩ ∧
      tree.Chains op (fun word item => IsLiteral word (text item)) items := by
  induction items using List.reverseRecOn generalizing after stop with
  | nil => exact absurd rfl hitems
  | append_singleton items item ih =>
    obtain ⟨hliterals, hliteral⟩ := List.forall_mem_append.1 hliterals
    have hliteral := hliteral item (List.mem_singleton_self item)
    by_cases hfront : items = []
    · subst hfront
      have hjoined : chainText op (([] ++ [item]).map text) = text item :=
        List.intercalate_singleton
      rw [hjoined] at hstop ⊢
      obtain ⟨word, htoken, hword⟩ := token_literal [] after offset hliteral no_blank hafter hstop
      exact ⟨.leaf word, .single (.numeral htoken), .single hword⟩
    · have hmap : items.map text ≠ [] := by simpa using hfront
      have hjoined : chainText op ((items ++ [item]).map text) =
          chainText op (items.map text) ++ [' ', op.symbol, ' '] ++ text item := by
        rw [chainText, List.map_append, List.map_singleton, intercalate_concat _ hmap, chainText]
      have hsignSize : byteSize [' ', op.symbol, ' '] = 3 := by cases op <;> decide
      have hblankSize : byteSize [' '] = 1 := by decide
      have hsymbolSize : op.symbol.utf8Size = 1 := by cases op <;> rfl
      rw [hjoined, byteSize_append, byteSize_append, hsignSize] at hstop
      have hbehind : Detached ([' '] ++ op.symbol :: ([' '] ++ (text item ++ after))) :=
        detached_of_isBlank (by decide)
      obtain ⟨left, hleft, hchains⟩ := ih hliterals hfront hbehind rfl
      obtain ⟨sign, hsign⟩ := token_symbol [' '] ([' '] ++ (text item ++ after))
        (offset + byteSize (chainText op (items.map text))) .operator blank_space
        (symbol_not_blank op) rfl
      have hlastStop : stop = offset + byteSize (chainText op (items.map text)) +
          byteSize [' '] + op.symbol.utf8Size + byteSize [' '] + byteSize (text item) := by
        omega
      obtain ⟨word, htoken, hword⟩ :=
        token_literal [' '] after _ hliteral blank_space hafter hlastStop
      refine ⟨.binary op sign left (.leaf word), ?_,
        .append hchains hsign.spelled.names_operator hword⟩
      rw [hjoined, List.append_assoc, List.append_assoc]
      exact hleft.append (hsign.imp fun h => h.sign) (.single (.numeral htoken))

/-! ## Rows as sources -/

/-- A call of literals is a source, and it covers all of it. -/
theorem call_readFrom (builtin : Builtin) :
    ∃ name opening arguments closing,
      (Tree.call builtin name opening arguments closing).ReadFrom
        (callText builtin (items.map text)) ∧
      (∀ words, Word.spanOf (name :: opening :: (words ++ [closing])) =
        ⟨0, byteSize (callText builtin (items.map text))⟩) ∧
      arguments.Lists (fun word item => IsLiteral word (text item)) items := by
  generalize hjoined : [',', ' '].intercalate (items.map text) = joined
  have hsource : callText builtin (items.map text) =
      builtin.name.toList ++ '(' :: (joined ++ [')']) := by
    rw [callText, hjoined]
  have hsize : byteSize (callText builtin (items.map text)) =
      byteSize builtin.name.toList + '('.utf8Size + byteSize joined + ')'.utf8Size := by
    rw [hsource, byteSize_append, byteSize, byteSize_append]
    simp only [byteSize]
    omega
  obtain ⟨opening, hopening⟩ := token_symbol [] (joined ++ [')']) (byteSize builtin.name.toList)
    .leftParen no_blank (by decide : isBlank '(' = false) rfl
  obtain ⟨arguments, harguments, hlists⟩ := derives_list hliterals hitems
    (byteSize builtin.name.toList + '('.utf8Size) no_blank
    (detached_delimiter (by decide : ')' ∈ delimiters) []) rfl
  obtain ⟨closing, hclosing⟩ := token_symbol [] []
    (byteSize builtin.name.toList + '('.utf8Size + byteSize joined) .rightParen no_blank
    (by decide : isBlank ')' = false) hsize
  have hname := token_builtin builtin (joined ++ [')'])
  rw [hjoined] at harguments
  rw [← hsource] at hname
  refine ⟨_, opening, arguments, closing, ⟨⟨_, .single (.call hname hopening harguments
    (Or.inl rfl) hclosing), by simp [Place.Blank]⟩, ?_, hlists.graded⟩, ?_, hlists⟩
  · exact ⟨⟨rfl, builtin.ofName?_name⟩, hopening.spelled.1, hclosing.spelled.1,
      hlists.spelled fun word item h => h.isSingle⟩
  · intro words
    have hstop : closing.stop = byteSize (callText builtin (items.map text)) := by
      rw [Word.stop, hclosing.offset]
      exact hclosing.stop.symm
    rw [Word.spanOf, Word.spanOf?, ← List.cons_append, ← List.cons_append, List.getLast?_concat,
      ← hstop]
    rfl

/-- A chain of literals is a source. -/
theorem chain_readFrom (op : Arithmetic) :
    ∃ tree : Tree Word, tree.ReadFrom (chainText op (items.map text)) ∧
      tree.Chains op (fun word item => IsLiteral word (text item)) items := by
  obtain ⟨tree, htree, hchains⟩ := derives_chain hliterals hitems op 0 detached_nil rfl
  rw [List.append_nil] at htree
  refine ⟨tree, ⟨⟨_, htree, by simp [Place.Blank]⟩, ?_, hchains.graded⟩, hchains⟩
  exact hchains.spelled fun word item h => h.isSingle

end Phrases
end Grammar
end DeskCalc
