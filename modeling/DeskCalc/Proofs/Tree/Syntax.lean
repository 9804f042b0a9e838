import DeskCalc.Operator

/-
Expression trees.

A tree has operands at its leaves and keeps the words of its signs, parentheses, names
and commas.  `Tree.Graded` is ordinary precedence with every level left-associative, and
`Tree.words` writes the tree out again.
-/
namespace DeskCalc

/-- How tightly an operator binds. -/
def Arithmetic.rank : Arithmetic → Nat
  | add | sub => 1
  | mul | div => 2
  | pow => 3

theorem Arithmetic.weight_eq (op : Arithmetic) : op.weight = 10 * (op.rank : Int) := by
  cases op <;> rfl

mutual

inductive Tree (α : Type) where
  | leaf (operand : α)
  | binary (op : Arithmetic) (sign : Word) (left right : Tree α)
  | group (opening : Word) (inner : Tree α) (closing : Word)
  | call (builtin : Builtin) (name opening : Word) (arguments : Arguments α) (closing : Word)

/-- The arguments of a call with the commas between them. -/
inductive Arguments (α : Type) where
  | last (only : Tree α)
  | more (first : Tree α) (comma : Word) (rest : Arguments α)

end

variable {α β : Type}

/-- Calls, parentheses and leaves bind tighter than every operator. -/
def Tree.rank : Tree α → Nat
  | binary op _ _ _ => op.rank
  | _ => 4

theorem Arithmetic.rank_pos (op : Arithmetic) : 0 < op.rank := by
  cases op <;> decide

theorem Arithmetic.rank_lt_four (op : Arithmetic) : op.rank < 4 := by
  cases op <;> decide

theorem Tree.rank_pos (tree : Tree α) : 0 < tree.rank := by
  cases tree with
  | binary op _ _ _ => exact op.rank_pos
  | _ => exact Nat.succ_pos 3

mutual

/-- What binds looser than an operator stands on neither side of it, and what binds
equally only on its left. -/
def Tree.Graded : Tree α → Prop
  | .leaf _ => True
  | .binary op _ left right =>
      op.rank ≤ left.rank ∧ op.rank < right.rank ∧ left.Graded ∧ right.Graded
  | .group _ inner _ => inner.Graded
  | .call _ _ _ arguments _ => arguments.Graded

def Arguments.Graded : Arguments α → Prop
  | .last only => only.Graded
  | .more first _ rest => first.Graded ∧ rest.Graded

end

mutual

def Tree.map (f : α → β) : Tree α → Tree β
  | .leaf operand => .leaf (f operand)
  | .binary op sign left right => .binary op sign (left.map f) (right.map f)
  | .group opening inner closing => .group opening (inner.map f) closing
  | .call builtin name opening arguments closing =>
      .call builtin name opening (arguments.map f) closing

def Arguments.map (f : α → β) : Arguments α → Arguments β
  | .last only => .last (only.map f)
  | .more first comma rest => .more (first.map f) comma (rest.map f)

end

mutual

/-- The tree with every leaf read, from left to right. -/
def Tree.traverse {ε : Type} (read : α → Except ε β) : Tree α → Except ε (Tree β)
  | .leaf operand => do
      let operand ← read operand
      .ok (.leaf operand)
  | .binary op sign left right => do
      let left ← left.traverse read
      let right ← right.traverse read
      .ok (.binary op sign left right)
  | .group opening inner closing => do
      let inner ← inner.traverse read
      .ok (.group opening inner closing)
  | .call builtin name opening arguments closing => do
      let arguments ← arguments.traverse read
      .ok (.call builtin name opening arguments closing)

def Arguments.traverse {ε : Type} (read : α → Except ε β) :
    Arguments α → Except ε (Arguments β)
  | .last only => do
      let only ← only.traverse read
      .ok (.last only)
  | .more first comma rest => do
      let first ← first.traverse read
      let rest ← rest.traverse read
      .ok (.more first comma rest)

end

section Results

variable {ε α β : Type} {result : Except ε α} {b : β} {e : ε}

theorem map_eq_ok {f : α → β} (h : result.map f = .ok b) : ∃ a, result = .ok a ∧ f a = b := by
  cases result with
  | error _ => cases h
  | ok a => exact ⟨a, rfl, Except.ok.inj h⟩

theorem bind_eq_ok {f : α → Except ε β} (h : result >>= f = .ok b) :
    ∃ a, result = .ok a ∧ f a = .ok b := by
  cases result with
  | error _ => cases h
  | ok a => exact ⟨a, rfl, h⟩

theorem map_eq_error {f : α → β} (h : result.map f = .error e) : result = .error e := by
  cases result with
  | error _ => exact congrArg Except.error (Except.error.inj h)
  | ok a => cases h

theorem bind_eq_error {f : α → Except ε β} (h : result >>= f = .error e) :
    result = .error e ∨ ∃ a, result = .ok a ∧ f a = .error e := by
  cases result with
  | error _ => exact Or.inl (congrArg Except.error (Except.error.inj h))
  | ok a => exact Or.inr ⟨a, rfl, h⟩

/-- What every input keeps holds at the end. -/
theorem foldlM_keeps {I : β → Prop} {f : β → α → Except ε β} {inputs : List α} {start final : β}
    (hstart : I start) (hkeeps : ∀ input ∈ inputs, ∀ b b', I b → f b input = .ok b' → I b')
    (h : inputs.foldlM f start = .ok final) : I final := by
  induction inputs generalizing start with
  | nil =>
    obtain rfl := Except.ok.inj h
    exact hstart
  | cons input inputs ih =>
    obtain ⟨hinput, hrest⟩ := List.forall_mem_cons.1 hkeeps
    rw [List.foldlM_cons] at h
    obtain ⟨next, hnext, h⟩ := bind_eq_ok h
    exact ih (hinput start next hstart hnext) hrest h

end Results

mutual

theorem Tree.graded_map (f : α → β) (tree : Tree α) (h : tree.Graded) : (tree.map f).Graded := by
  match tree with
  | .leaf _ => trivial
  | .binary op sign left right =>
    obtain ⟨hleft, hright, hgraded, hgraded'⟩ := h
    refine ⟨?_, ?_, left.graded_map f hgraded, right.graded_map f hgraded'⟩
    · cases left <;> exact hleft
    · cases right <;> exact hright
  | .group _ inner _ => exact inner.graded_map f h
  | .call _ _ _ arguments _ => exact arguments.graded_map f h

theorem Arguments.graded_map (f : α → β) (arguments : Arguments α) (h : arguments.Graded) :
    (arguments.map f).Graded := by
  match arguments with
  | .last only => exact only.graded_map f h
  | .more first comma rest => exact ⟨first.graded_map f h.1, rest.graded_map f h.2⟩

end

section Traverse

variable {ε : Type} {read : α → Except ε β}

theorem Tree.rank_traverse {tree : Tree α} {tree' : Tree β}
    (h : tree.traverse read = .ok tree') : tree'.rank = tree.rank := by
  cases tree with
  | leaf operand =>
    obtain ⟨_, -, h⟩ := bind_eq_ok h
    obtain rfl := Except.ok.inj h
    rfl
  | binary op sign left right =>
    obtain ⟨_, -, h⟩ := bind_eq_ok h
    obtain ⟨_, -, h⟩ := bind_eq_ok h
    obtain rfl := Except.ok.inj h
    rfl
  | group opening inner closing =>
    obtain ⟨_, -, h⟩ := bind_eq_ok h
    obtain rfl := Except.ok.inj h
    rfl
  | call builtin name opening arguments closing =>
    obtain ⟨_, -, h⟩ := bind_eq_ok h
    obtain rfl := Except.ok.inj h
    rfl

mutual

theorem Tree.graded_traverse {tree : Tree α} {tree' : Tree β}
    (h : tree.traverse read = .ok tree') (hgraded : tree.Graded) : tree'.Graded := by
  match tree with
  | .leaf operand =>
    obtain ⟨_, -, h⟩ := bind_eq_ok h
    obtain rfl := Except.ok.inj h
    trivial
  | .binary op sign left right =>
    obtain ⟨left', hleft, h⟩ := bind_eq_ok h
    obtain ⟨right', hright, h⟩ := bind_eq_ok h
    obtain rfl := Except.ok.inj h
    obtain ⟨hrank, hrank', hgraded, hgraded'⟩ := hgraded
    exact ⟨(Tree.rank_traverse hleft).symm ▸ hrank, (Tree.rank_traverse hright).symm ▸ hrank',
      Tree.graded_traverse hleft hgraded, Tree.graded_traverse hright hgraded'⟩
  | .group opening inner closing =>
    obtain ⟨inner', hinner, h⟩ := bind_eq_ok h
    obtain rfl := Except.ok.inj h
    show inner'.Graded
    exact Tree.graded_traverse hinner hgraded
  | .call builtin name opening arguments closing =>
    obtain ⟨arguments', harguments, h⟩ := bind_eq_ok h
    obtain rfl := Except.ok.inj h
    exact Arguments.graded_traverse harguments hgraded

theorem Arguments.graded_traverse {arguments : Arguments α} {arguments' : Arguments β}
    (h : arguments.traverse read = .ok arguments') (hgraded : arguments.Graded) :
    arguments'.Graded := by
  match arguments with
  | .last only =>
    obtain ⟨only', honly, h⟩ := bind_eq_ok h
    obtain rfl := Except.ok.inj h
    exact Tree.graded_traverse honly hgraded
  | .more first comma rest =>
    obtain ⟨first', hfirst, h⟩ := bind_eq_ok h
    obtain ⟨rest', hrest, h⟩ := bind_eq_ok h
    obtain rfl := Except.ok.inj h
    exact ⟨Tree.graded_traverse hfirst hgraded.1, Arguments.graded_traverse hrest hgraded.2⟩

end

mutual

theorem Tree.traverse_error {P : ε → Prop} (hread : ∀ {a e}, read a = .error e → P e) {tree : Tree α} {e : ε}
    (h : tree.traverse read = .error e) : P e := by
  match tree with
  | .leaf operand =>
    rcases bind_eq_error h with h | ⟨_, -, h⟩
    · exact hread h
    · cases h
  | .binary op sign left right =>
    rcases bind_eq_error h with h | ⟨_, -, h⟩
    · exact Tree.traverse_error hread h
    · rcases bind_eq_error h with h | ⟨_, -, h⟩
      · exact Tree.traverse_error hread h
      · cases h
  | .group opening inner closing =>
    rcases bind_eq_error h with hinner | ⟨_, -, h⟩
    · exact inner.traverse_error hread hinner
    · cases h
  | .call builtin name opening arguments closing =>
    rcases bind_eq_error h with h | ⟨_, -, h⟩
    · exact Arguments.traverse_error hread h
    · cases h

theorem Arguments.traverse_error {P : ε → Prop} (hread : ∀ {a e}, read a = .error e → P e)
    {arguments : Arguments α} {e : ε} (h : arguments.traverse read = .error e) : P e := by
  match arguments with
  | .last only =>
    rcases bind_eq_error h with h | ⟨_, -, h⟩
    · exact Tree.traverse_error hread h
    · cases h
  | .more first comma rest =>
    rcases bind_eq_error h with h | ⟨_, -, h⟩
    · exact Tree.traverse_error hread h
    · rcases bind_eq_error h with h | ⟨_, -, h⟩
      · exact Arguments.traverse_error hread h
      · cases h

end

end Traverse

/-! ## Trees of words -/

mutual

/-- The words of a tree from left to right. -/
def Tree.words : Tree Word → List Word
  | .leaf word => [word]
  | .binary _ sign left right => left.words ++ sign :: right.words
  | .group opening inner closing => opening :: (inner.words ++ [closing])
  | .call _ name opening arguments closing =>
      name :: opening :: (arguments.words ++ [closing])

def Arguments.words : Arguments Word → List Word
  | .last only => only.words
  | .more first comma rest => first.words ++ comma :: rest.words

end

mutual

/-- The words are of the kinds that their places ask for, and name the operators and
builtins of the tree. -/
def Tree.Spelled (Leaf : Word → Prop) : Tree Word → Prop
  | .leaf word => Leaf word
  | .binary op sign left right =>
      (sign.kind = .operator ∧ Arithmetic.ofSymbol? sign.value = some op) ∧
        left.Spelled Leaf ∧ right.Spelled Leaf
  | .group opening inner closing =>
      opening.kind = .leftParen ∧ closing.kind = .rightParen ∧ inner.Spelled Leaf
  | .call builtin name opening arguments closing =>
      (name.kind = .functionName ∧ Builtin.ofName? name.value = some builtin) ∧
        opening.kind = .leftParen ∧ closing.kind = .rightParen ∧ arguments.Spelled Leaf

def Arguments.Spelled (Leaf : Word → Prop) : Arguments Word → Prop
  | .last only => only.Spelled Leaf
  | .more first comma rest =>
      comma.kind = .comma ∧ first.Spelled Leaf ∧ rest.Spelled Leaf

end

mutual

theorem Tree.Spelled.imp {Leaf Leaf' : Word → Prop} (tree : Tree Word)
    (h : ∀ word ∈ tree.words, Leaf word → Leaf' word) (hspelled : tree.Spelled Leaf) :
    tree.Spelled Leaf' := by
  match tree with
  | .leaf word => exact h word List.mem_cons_self hspelled
  | .binary op sign left right =>
    obtain ⟨hsign, hleft, hright⟩ := hspelled
    refine ⟨hsign, Tree.Spelled.imp left (fun word hword => h word ?_) hleft,
      Tree.Spelled.imp right (fun word hword => h word ?_) hright⟩
    · exact List.mem_append_left _ hword
    · exact List.mem_append_right _ (List.mem_cons_of_mem _ hword)
  | .group opening inner closing =>
    obtain ⟨hopening, hclosing, hinner⟩ := hspelled
    refine ⟨hopening, hclosing, Tree.Spelled.imp inner (fun word hword => h word ?_) hinner⟩
    exact List.mem_cons_of_mem _ (List.mem_append_left _ hword)
  | .call builtin name opening arguments closing =>
    obtain ⟨hname, hopening, hclosing, harguments⟩ := hspelled
    refine ⟨hname, hopening, hclosing,
      Arguments.Spelled.imp arguments (fun word hword => h word ?_) harguments⟩
    exact List.mem_cons_of_mem _ (List.mem_cons_of_mem _ (List.mem_append_left _ hword))

theorem Arguments.Spelled.imp {Leaf Leaf' : Word → Prop} (arguments : Arguments Word)
    (h : ∀ word ∈ arguments.words, Leaf word → Leaf' word)
    (hspelled : arguments.Spelled Leaf) : arguments.Spelled Leaf' := by
  match arguments with
  | .last only => exact Tree.Spelled.imp only h hspelled
  | .more first comma rest =>
    obtain ⟨hcomma, hfirst, hrest⟩ := hspelled
    refine ⟨hcomma, Tree.Spelled.imp first (fun word hword => h word ?_) hfirst,
      Arguments.Spelled.imp rest (fun word hword => h word ?_) hrest⟩
    · exact List.mem_append_left _ hword
    · exact List.mem_append_right _ (List.mem_cons_of_mem _ hword)

end

/-- The word stands for a value. -/
def Word.IsOperand (word : Word) : Prop := word.kind.isOperand = true

end DeskCalc
