import DeskCalc.Chain.Build
import DeskCalc.Proofs.Tree.Value

/-
The row of a tree, and that chains are built as rows of trees.

A tree lies in a row from left to right.  A parenthesis leaves no other trace of its
nesting than the base that lifts the weights between it and its mate.
-/
namespace DeskCalc

variable {α β : Type}

/-! ## Rows -/

/-- An operator inside parentheses that lift by `base`. -/
def Operator.lifted (kind : OperatorKind) (base : Int) (word : Word) : Operator :=
  ⟨kind, kind.weight + base, [word]⟩

@[simp] theorem Operator.kind_lifted (kind : OperatorKind) (base : Int) (word : Word) :
    (Operator.lifted kind base word).kind = kind := rfl

@[simp] theorem Operator.weight_lifted (kind : OperatorKind) (base : Int) (word : Word) :
    (Operator.lifted kind base word).weight = kind.weight + base := rfl

@[simp] theorem Operator.words_lifted (kind : OperatorKind) (base : Int) (word : Word) :
    (Operator.lifted kind base word).words = [word] := rfl

namespace Row

def join (left : Row) (operator : Operator) (right : Row) : Row :=
  ⟨left.first, left.links ++ ⟨operator, right.first⟩ :: right.links⟩

/-- The `)` behind what the parentheses enclose. -/
def closingLink (base : Int) (closing : Word) : Link :=
  ⟨.lifted .closeParen (base + OperatorKind.groupWeight) closing, .placeholder⟩

/-- A row between parentheses, with the placeholders beside them. -/
def enclose (base : Int) (opening : Word) (inner : Row) (closing : Word) : Row :=
  ⟨.placeholder, ⟨.lifted .openParen base opening, inner.first⟩ ::
    (inner.links ++ [closingLink base closing])⟩

/-- Several operands, with commas that no word stands for. -/
def list (base : Int) (first : Number) (rest : List Number) : Row :=
  ⟨first, rest.map fun number => ⟨⟨.comma, OperatorKind.comma.weight + base, []⟩, number⟩⟩

end Row

mutual

/-- The row of a tree inside parentheses that lift by `base`, given the rows of its
leaves. -/
def Tree.row (leaf : Int → α → Row) (base : Int) : Tree α → Row
  | .leaf operand => leaf base operand
  | .binary op sign left right =>
      (left.row leaf base).join (.lifted (.arithmetic op) base sign) (right.row leaf base)
  | .group opening inner closing =>
      (inner.row leaf (base + OperatorKind.groupWeight)).enclose base opening closing
  | .call builtin name opening arguments closing =>
      ((arguments.row leaf (base + OperatorKind.groupWeight)).enclose base opening closing).attach
        .placeholder (.lifted (.call builtin) base name)

def Arguments.row (leaf : Int → α → Row) (base : Int) : Arguments α → Row
  | .last only => only.row leaf base
  | .more first comma rest =>
      (first.row leaf base).join (.lifted .comma base comma) (rest.row leaf base)

end

mutual

theorem Tree.row_map (f : α → β) (leaf : Int → β → Row) (tree : Tree α) (base : Int) :
    (tree.map f).row leaf base = tree.row (fun base operand => leaf base (f operand)) base := by
  match tree with
  | .leaf _ => rfl
  | .binary op sign left right =>
    rw [Tree.map, Tree.row, left.row_map f leaf, right.row_map f leaf, Tree.row]
  | .group opening inner closing => rw [Tree.map, Tree.row, inner.row_map f leaf, Tree.row]
  | .call builtin name opening arguments closing =>
    rw [Tree.map, Tree.row, arguments.row_map f leaf, Tree.row]

theorem Arguments.row_map (f : α → β) (leaf : Int → β → Row) (arguments : Arguments α)
    (base : Int) : (arguments.map f).row leaf base =
      arguments.row (fun base operand => leaf base (f operand)) base := by
  match arguments with
  | .last only => rw [Arguments.map, Arguments.row, only.row_map f leaf, Arguments.row]
  | .more first comma rest =>
    rw [Arguments.map, Arguments.row, first.row_map f leaf, rest.row_map f leaf, Arguments.row]

end

namespace Chain
namespace Assembly

/-! ## Assembling a row -/

/-- The operands of a row with the operators behind them; the last one is left. -/
def pairsOf : Number → List Link → List (Number × Operator)
  | _, [] => []
  | first, link :: links => (first, link.operator) :: pairsOf link.right links

def lastOf : Number → List Link → Number
  | first, [] => first
  | _, link :: links => lastOf link.right links

theorem toRow_pairsOf (first : Number) (links : List Link) :
    toRow (pairsOf first links) (lastOf first links) = ⟨first, links⟩ := by
  induction links generalizing first with
  | nil => rfl
  | cons link links ih => rw [pairsOf, lastOf, toRow, ih, Row.attach]

theorem pairsOf_append (first : Number) (links more : List Link) :
    pairsOf first (links ++ more) =
      pairsOf first links ++ pairsOf (lastOf first links) more := by
  induction links generalizing first with
  | nil => rfl
  | cons link links ih => rw [List.cons_append, pairsOf, ih, pairsOf, lastOf, List.cons_append]

theorem lastOf_append (first : Number) (links more : List Link) :
    lastOf first (links ++ more) = lastOf (lastOf first links) more := by
  induction links generalizing first with
  | nil => rfl
  | cons link links ih => rw [List.cons_append, lastOf, ih, lastOf]

/-- The assembly with a row behind it. -/
def append (assembly : Assembly) (row : Row) : Assembly :=
  { assembly with
    pairs := assembly.pairs ++ pairsOf row.first row.links
    last := some (lastOf row.first row.links) }

variable {assembly : Assembly}

/-- Two rows with an operator between them are one row. -/
theorem append_join (left right : Row) (kind : OperatorKind) (word : Word) :
    ((assembly.append left).pushOperator kind [word]).append right =
      assembly.append (left.join (.lifted kind assembly.base word) right) := by
  simp [append, pushOperator, Row.join, pairsOf_append, lastOf_append, pairsOf, lastOf,
    Operator.lifted]

theorem append_enclose (h : assembly.last = none) (inner : Row) (opening closing : Word) :
    ((assembly.openGroup opening).append inner).closeGroup closing =
      assembly.append (inner.enclose assembly.base opening closing) := by
  simp [append, openGroup, closeGroup, pushOperator, pushOperand, Row.enclose, Row.closingLink,
    pairsOf_append, lastOf_append, pairsOf, lastOf, Operator.lifted, h, OperatorKind.groupWeight]

theorem append_attach (h : assembly.last = none) (row : Row) (kind : OperatorKind)
    (word : Word) : (assembly.pushOperator kind [word]).append row =
      assembly.append (row.attach .placeholder (.lifted kind assembly.base word)) := by
  simp [append, pushOperator, Row.attach, pairsOf, lastOf, Operator.lifted, h]

theorem pushList_cons (assembly : Assembly) (first : Number) (rest : List Number) :
    assembly.pushList (first :: rest) = assembly.append (.list assembly.base first rest) := by
  induction rest generalizing assembly first with
  | nil => simp [pushList, pushOperand, append, Row.list, pairsOf, lastOf]
  | cons second rest ih =>
    rw [pushList, ih]
    · simp [append, pushOperand, pushOperator, Row.list, pairsOf, lastOf]
    · simp

end Assembly

/-! ## Taking in words -/

section Words

variable {context : Context} {register : Option Register} {assembly : Assembly} {word : Word}

theorem take_operand (hlast : assembly.last = none) (hkind : word.kind.isOperand = true) :
    take context register assembly word =
      (inEvaluation (wordValues context register word)).map fun values =>
        assembly.pushList (values.map (operand word)) := by
  have hplace : place context register assembly word =
      (inEvaluation (wordValues context register word)).map fun values =>
        assembly.pushList (values.map (operand word)) := by
    rw [place]
    split <;> simp_all [WordKind.isOperand]
  rw [take, if_pos, hplace]
  simp [fits, Assembly.wantsOperand, hlast, hkind]

theorem take_sign {op : Arithmetic} (hlast : assembly.last.isSome = true)
    (hkind : word.kind = .operator) (hop : Arithmetic.ofSymbol? word.value = some op) :
    take context register assembly word =
      .ok (assembly.pushOperator (.arithmetic op) [word]) := by
  simp [take, fits, place, Assembly.wantsOperand, hkind, hop, WordKind.isVirtual,
    WordKind.isOperand, WordKind.isOpening, Option.isNone_eq_false_iff.2 hlast]

theorem take_comma (hlast : assembly.last.isSome = true) (hkind : word.kind = .comma) :
    take context register assembly word = .ok (assembly.pushOperator .comma [word]) := by
  simp [take, fits, place, Assembly.wantsOperand, hkind, WordKind.isVirtual,
    WordKind.isOperand, WordKind.isOpening, Option.isNone_eq_false_iff.2 hlast]

theorem take_opening (hlast : assembly.last = none) (hkind : word.kind = .leftParen) :
    take context register assembly word = .ok (assembly.openGroup word) := by
  simp [take, fits, place, Assembly.wantsOperand, hkind, hlast, WordKind.isVirtual,
    WordKind.isOperand, WordKind.isOpening]

theorem take_closing (hlast : assembly.last.isSome = true) (hkind : word.kind = .rightParen)
    (hbase : OperatorKind.groupWeight ≤ assembly.base) :
    take context register assembly word = .ok (assembly.closeGroup word) := by
  have hopen : ¬ (assembly.closeGroup word).base < 0 := by
    show ¬ assembly.base - OperatorKind.groupWeight < 0
    omega
  simp [take, fits, place, Assembly.wantsOperand, hkind, hopen, WordKind.isVirtual,
    WordKind.isOperand, WordKind.isOpening, Option.isNone_eq_false_iff.2 hlast]

theorem take_name {builtin : Builtin} (hlast : assembly.last = none)
    (hkind : word.kind = .functionName) (hname : Builtin.ofName? word.value = some builtin) :
    take context register assembly word = .ok (assembly.pushOperator (.call builtin) [word]) := by
  simp [take, fits, place, Assembly.wantsOperand, hkind, hlast, hname, WordKind.isVirtual,
    WordKind.isOperand, WordKind.isOpening]

end Words

/-! ## Taking in a tree -/

section Trees

variable {context : Context} {register : Option Register} {Leaf : Word → Prop}
  {read : Word → Except EvalError β} {leaf : Int → β → Row}

/-- The words of these leaves are taken in as the rows of what they are read as. -/
def TakesLeaves (context : Context) (register : Option Register) (Leaf : Word → Prop)
    (read : Word → Except EvalError β) (leaf : Int → β → Row) : Prop :=
  ∀ word assembly, Leaf word → assembly.last = none →
    take context register assembly word =
      (inEvaluation (read word)).map fun operand => assembly.append (leaf assembly.base operand)

mutual

/-- The words of a tree are taken in as the row of the tree, if its leaves can be read. -/
theorem take_tree (h : TakesLeaves context register Leaf read leaf) (tree : Tree Word)
    (hspelled : tree.Spelled Leaf) (assembly : Assembly) (hlast : assembly.last = none)
    (hbase : 0 ≤ assembly.base) :
    tree.words.foldlM (take context register) assembly =
      (inEvaluation (tree.traverse read)).map fun t =>
        assembly.append (t.row leaf assembly.base) := by
  match tree with
  | .leaf word =>
    rw [Tree.words, List.foldlM_cons, h word assembly hspelled hlast, Tree.traverse]
    cases read word <;> rfl
  | .binary op sign left right =>
    obtain ⟨hsign, hleft, hright⟩ := hspelled
    rw [Tree.words, List.foldlM_append, take_tree h left hleft assembly hlast hbase,
      Tree.traverse]
    cases left.traverse read with
    | error _ => rfl
    | ok left' =>
      show List.foldlM _ (assembly.append _) _ = _
      rw [List.foldlM_cons, take_sign rfl hsign.1 hsign.2]
      show List.foldlM _ ((assembly.append _).pushOperator _ _) _ = _
      rw [take_tree h right hright ((assembly.append _).pushOperator _ _) rfl hbase]
      cases right.traverse read with
      | error _ => rfl
      | ok right' => exact congrArg Except.ok (Assembly.append_join _ _ _ _)
  | .group opening inner closing =>
    obtain ⟨hopening, hclosing, hinner⟩ := hspelled
    have hlifted : 0 ≤ (assembly.openGroup opening).base :=
      Int.add_nonneg hbase (by decide)
    rw [Tree.words, List.foldlM_cons, take_opening hlast hopening]
    show List.foldlM _ (assembly.openGroup opening) _ = _
    rw [List.foldlM_append, take_tree h inner hinner _ rfl hlifted, Tree.traverse]
    cases inner.traverse read with
    | error _ => rfl
    | ok inner' =>
      show List.foldlM _ ((assembly.openGroup opening).append _) _ = _
      rw [List.foldlM_cons, take_closing rfl hclosing (Int.le_add_of_nonneg_left hbase)]
      exact congrArg Except.ok (Assembly.append_enclose hlast _ _ _)
  | .call builtin name opening arguments closing =>
    obtain ⟨hname, hopening, hclosing, harguments⟩ := hspelled
    have hlifted : 0 ≤ ((assembly.pushOperator (.call builtin) [name]).openGroup opening).base :=
      Int.add_nonneg hbase (by decide)
    rw [Tree.words, List.foldlM_cons, take_name hlast hname.1 hname.2]
    show List.foldlM _ (assembly.pushOperator (.call builtin) [name]) _ = _
    rw [List.foldlM_cons, take_opening rfl hopening]
    show List.foldlM _ ((assembly.pushOperator (.call builtin) [name]).openGroup opening) _ = _
    rw [List.foldlM_append, take_arguments h arguments harguments _ rfl hlifted, Tree.traverse]
    cases arguments.traverse read with
    | error _ => rfl
    | ok arguments' =>
      show List.foldlM _ (((assembly.pushOperator _ _).openGroup opening).append _) _ = _
      rw [List.foldlM_cons, take_closing rfl hclosing (Int.le_add_of_nonneg_left hbase)]
      refine congrArg Except.ok ?_
      rw [Assembly.append_enclose rfl, Assembly.append_attach hlast]
      rfl

theorem take_arguments (h : TakesLeaves context register Leaf read leaf)
    (arguments : Arguments Word) (hspelled : arguments.Spelled Leaf) (assembly : Assembly)
    (hlast : assembly.last = none) (hbase : 0 ≤ assembly.base) :
    arguments.words.foldlM (take context register) assembly =
      (inEvaluation (arguments.traverse read)).map fun t =>
        assembly.append (t.row leaf assembly.base) := by
  match arguments with
  | .last only =>
    rw [Arguments.words, take_tree h only hspelled assembly hlast hbase, Arguments.traverse]
    cases only.traverse read <;> rfl
  | .more first comma rest =>
    obtain ⟨hcomma, hfirst, hrest⟩ := hspelled
    rw [Arguments.words, List.foldlM_append, take_tree h first hfirst assembly hlast hbase,
      Arguments.traverse]
    cases first.traverse read with
    | error _ => rfl
    | ok first' =>
      show List.foldlM _ (assembly.append _) _ = _
      rw [List.foldlM_cons, take_comma rfl hcomma]
      show List.foldlM _ ((assembly.append _).pushOperator _ _) _ = _
      rw [take_arguments h rest hrest ((assembly.append _).pushOperator _ _) rfl hbase]
      cases rest.traverse read with
      | error _ => rfl
      | ok rest' => exact congrArg Except.ok (Assembly.append_join _ _ _ _)

end

/-- The chain of the words of a tree is its row. -/
theorem ofWords_tree (h : TakesLeaves context register Leaf read leaf) (tree : Tree Word)
    (hspelled : tree.Spelled Leaf) :
    ofWords tree.words register context =
      (inEvaluation (tree.traverse read)).map fun t =>
        { t.row leaf 0 with inexact := false } := by
  rw [ofWords, take_tree h tree hspelled {} rfl (Int.le_refl 0)]
  generalize (tree.words.getLast?.map Word.stop).getD 0 = stop
  cases tree.traverse read with
  | error _ => rfl
  | ok t =>
    show finish (Assembly.append {} (t.row leaf 0)) stop = _
    simp [finish, Assembly.append, inEvaluation, Except.map, Assembly.toRow_pairsOf]

end Trees
end Chain
end DeskCalc
