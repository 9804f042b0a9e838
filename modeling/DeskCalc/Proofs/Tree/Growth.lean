import DeskCalc.Proofs.Reading.Derivation
import DeskCalc.Proofs.Reading.Expression
import DeskCalc.Proofs.Tree.Syntax

/-
Every phrase of the grammar is the writing of a graded tree.

The grammar derives an expression from its first operand on, so the tree grows on its
right: an operator goes in above the operators that bind at least as tightly.
-/
namespace DeskCalc

variable {α : Type}

namespace Tree

/-- The tree with an operator and an operand behind it. -/
def attach (tree : Tree α) (op : Arithmetic) (sign : Word) (operand : Tree α) : Tree α :=
  match tree with
  | .binary op' sign' left right =>
      if op.rank ≤ op'.rank then .binary op sign (.binary op' sign' left right) operand
      else .binary op' sign' left (right.attach op sign operand)
  | tree => .binary op sign tree operand

theorem words_attach (tree : Tree Word) (op : Arithmetic) (sign : Word) (operand : Tree Word) :
    (tree.attach op sign operand).words = tree.words ++ sign :: operand.words := by
  fun_induction attach tree op sign operand with
  | case1 => rfl
  | case2 op' sign' left right _ ih => rw [words, ih, words, List.append_assoc, List.cons_append]
  | case3 => rfl

theorem spelled_attach {Leaf : Word → Prop} {op : Arithmetic} {sign : Word}
    {operand tree : Tree Word}
    (hsign : sign.kind = .operator ∧ Arithmetic.ofSymbol? sign.value = some op)
    (hoperand : operand.Spelled Leaf) (htree : tree.Spelled Leaf) :
    (tree.attach op sign operand).Spelled Leaf := by
  fun_induction attach tree op sign operand with
  | case1 => exact ⟨hsign, htree, hoperand⟩
  | case2 op' sign' left right _ ih => exact ⟨htree.1, htree.2.1, ih htree.2.2⟩
  | case3 => exact ⟨hsign, htree, hoperand⟩

/-- An operator that is put in does not bind looser than the looser of the two. -/
theorem le_rank_attach (tree : Tree α) (op : Arithmetic) (sign : Word) (operand : Tree α) :
    min op.rank tree.rank ≤ (tree.attach op sign operand).rank := by
  fun_induction attach tree op sign operand with
  | case1 => exact Nat.min_le_left _ _
  | case2 => exact Nat.min_le_right _ _
  | case3 => exact Nat.min_le_left _ _

theorem graded_attach {op : Arithmetic} {sign : Word} {operand tree : Tree α}
    (hrank : op.rank < operand.rank) (hoperand : operand.Graded) (htree : tree.Graded) :
    (tree.attach op sign operand).Graded := by
  fun_induction attach tree op sign operand with
  | case1 op' sign' left right hle => exact ⟨hle, hrank, htree, hoperand⟩
  | case2 op' sign' left right hle ih =>
    obtain ⟨hleft, hright, hgraded, hgraded'⟩ := htree
    have hlow := right.le_rank_attach op sign operand
    exact ⟨hleft, by omega, hgraded, ih hgraded'⟩
  | case3 tree hne =>
    refine ⟨?_, hrank, htree, hoperand⟩
    cases tree with
    | binary op' sign' left right => exact absurd rfl (hne op' sign' left right)
    | _ => exact Nat.le_of_lt op.rank_lt_four

/-- A well-spelled tree of ordinary precedence with these words. -/
structure Writes (tree : Tree Word) (words : List Word) : Prop where
  spelled : tree.Spelled Word.IsOperand
  graded : tree.Graded
  words : tree.words = words

theorem Writes.attach {front operand : Tree Word} {words more : List Word} {op : Arithmetic}
    {sign : Word} (hfront : front.Writes words)
    (hsign : sign.kind = .operator ∧ Arithmetic.ofSymbol? sign.value = some op)
    (hoperand : operand.Writes more) (hrank : operand.rank = 4) :
    (front.attach op sign operand).Writes (words ++ sign :: more) where
  spelled := spelled_attach hsign hoperand.spelled hfront.spelled
  graded := graded_attach (hrank ▸ op.rank_lt_four) hoperand.graded hfront.graded
  words := by rw [words_attach, hfront.words, hoperand.words]

end Tree

namespace Grammar

theorem Sign.names {word : Word} {after : Text} (h : Sign word after) :
    ∃ op, word.kind = .operator ∧ Arithmetic.ofSymbol? word.value = some op := by
  obtain ⟨hkind, hvalue, op, htext⟩ := h
  refine ⟨op, hkind, ?_⟩
  rw [hvalue, htext]
  cases op <;> rfl

theorem BuiltinName.names {word : Word} {after : Text} (h : BuiltinName word after) :
    ∃ builtin, word.kind = .functionName ∧ Builtin.ofName? word.value = some builtin := by
  obtain ⟨hkind, hvalue, -, hname⟩ := h
  obtain ⟨builtin, hbuiltin⟩ := Option.isSome_iff_exists.1 hname
  exact ⟨builtin, hkind, by rw [hvalue, hbuiltin]⟩

/-- What the words of a phrase are the writing of.  An expression also goes on from any
tree and operator in front of it. -/
def Category.Grows : Category → List Word → Prop
  | .expression, words =>
      (∃ tree : Tree Word, tree.Writes words) ∧
        ∀ {front : Tree Word} {before : List Word} {op : Arithmetic} {sign : Word},
          front.Writes before →
            sign.kind = .operator ∧ Arithmetic.ofSymbol? sign.value = some op →
              ∃ tree : Tree Word, tree.Writes (before ++ sign :: words)
  | .operand, words => ∃ tree : Tree Word, tree.Writes words ∧ tree.rank = 4
  | .list, words =>
      ∃ arguments : Arguments Word, arguments.Spelled Word.IsOperand ∧ arguments.Graded ∧
        arguments.words = words

theorem Derives.grows {category : Category} {p q : Place} {words : List Word}
    (h : Derives category p words q) : category.Grows words := by
  induction h with
  | single _ ih =>
    obtain ⟨operand, hoperand, hrank⟩ := ih
    refine ⟨⟨operand, hoperand⟩, ?_⟩
    intro front before op sign hfront hnames
    exact ⟨_, hfront.attach hnames hoperand hrank⟩
  | chain _ hsign _ ih ih' =>
    obtain ⟨operand, hoperand, hrank⟩ := ih
    obtain ⟨-, hmore⟩ := ih'
    obtain ⟨op, hnames⟩ := hsign.spelled.names
    refine ⟨hmore hoperand hnames, ?_⟩
    intro front before op' sign' hfront hnames'
    -- The first operand goes in behind the front, and the rest behind both.
    have hjoined := hfront.attach hnames' hoperand hrank
    have htree := hmore hjoined hnames
    rwa [List.append_assoc, List.cons_append] at htree
  | numeral hnumber =>
    exact ⟨.leaf _, ⟨hnumber.spelled.kind, trivial, rfl⟩, rfl⟩
  | group hopen _ hclose ih =>
    obtain ⟨⟨inner, hinner⟩, -⟩ := ih
    refine ⟨.group _ inner _, ⟨⟨hopen.spelled.1, hclose.spelled.1, hinner.spelled⟩,
      hinner.graded, ?_⟩, rfl⟩
    rw [Tree.words, hinner.words]
  | call hname hopen _ _ hclose ih =>
    obtain ⟨arguments, hspelled, hgraded, hwords⟩ := ih
    obtain ⟨builtin, hnames⟩ := hname.spelled.names
    refine ⟨.call builtin _ _ arguments _, ⟨⟨hnames, hopen.spelled.1, hclose.spelled.1, hspelled⟩,
      hgraded, ?_⟩, rfl⟩
    rw [Tree.words, hwords]
  | last _ ih =>
    obtain ⟨⟨only, honly⟩, -⟩ := ih
    exact ⟨.last only, honly.spelled, honly.graded, honly.words⟩
  | more _ hcomma _ ih ih' =>
    obtain ⟨⟨first, hfirst⟩, -⟩ := ih
    obtain ⟨rest, hspelled, hgraded, hwords⟩ := ih'
    refine ⟨.more first _ rest, ⟨hcomma.spelled.1, hfirst.spelled, hspelled⟩,
      ⟨hfirst.graded, hgraded⟩, ?_⟩
    rw [Arguments.words, hfirst.words, hwords]

/-- The words of a sentence are the writing of a graded tree. -/
theorem Sentence.writes {source : Text} {words : List Word} (h : Sentence source words) :
    ∃ tree : Tree Word, tree.Writes words := by
  obtain ⟨stop, hderives, -⟩ := h
  exact hderives.grows.1

end Grammar
end DeskCalc
