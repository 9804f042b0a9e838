import DeskCalc.Proofs.Tree.Piece

/-
One step of a reduction on the row of a tree.

The step applies the operator of the greatest weight, the first of several.  In the row
of a graded tree this is a node whose operands are values, and the row that is left is
the row of the tree with that node replaced by its value.
-/
namespace DeskCalc

/-! ## What a step may change -/

/-- What a tree, or the arguments of a call, come to. -/
structure Meaning (ρ : Type) where
  value : Except EvalError ρ
  raises : EvalError → Prop
  events : List Event

/-- At most one event happens, the first one of the greatest weight. -/
def Happens (weight : Int) : Option Effect → List Event → List Event → Prop
  | none, events, left => left = events
  | some effect, events, left =>
      ∃ before after, events = before ++ ⟨weight, effect⟩ :: after ∧ left = before ++ after ∧
        (∀ other ∈ before, other.weight < weight) ∧ ∀ other ∈ after, other.weight ≤ weight

section Happens

variable {weight : Int} {effect : Option Effect} {events left : List Event}

theorem Happens.behind {before : List Event} (h : Happens weight effect events left)
    (hbefore : ∀ other ∈ before, other.weight < weight) :
    Happens weight effect (before ++ events) (before ++ left) := by
  cases effect with
  | none => exact congrArg (before ++ ·) h
  | some effect =>
    obtain ⟨b, a, rfl, rfl, hb, ha⟩ := h
    refine ⟨before ++ b, a, by simp, by simp, fun other hother => ?_, ha⟩
    exact (List.mem_append.1 hother).elim (hbefore other) (hb other)

theorem Happens.ahead {after : List Event} (h : Happens weight effect events left)
    (hafter : ∀ other ∈ after, other.weight ≤ weight) :
    Happens weight effect (events ++ after) (left ++ after) := by
  cases effect with
  | none => exact congrArg (· ++ after) h
  | some effect =>
    obtain ⟨b, a, rfl, rfl, hb, ha⟩ := h
    refine ⟨b, a ++ after, by simp, by simp, hb, fun other hother => ?_⟩
    exact (List.mem_append.1 hother).elim (ha other) (hafter other)

theorem Happens.alone {effect : Effect} : Happens weight (some effect) [⟨weight, effect⟩] [] :=
  ⟨[], [], rfl, rfl, by simp, by simp⟩

/-- The mark of lost digits after an event, if there is one. -/
def changed (effect : Option Effect) (inexact : Bool) : Bool :=
  match effect with
  | none => inexact
  | some effect => effect.apply inexact

theorem Happens.marked (h : Happens weight effect events left) {inexact : Bool} :
    Marked inexact events ↔ Marked (changed effect inexact) left := by
  cases effect with
  | none =>
    obtain rfl : left = events := h
    exact Iff.rfl
  | some effect =>
    obtain ⟨before, after, rfl, rfl, hbefore, hafter⟩ := h
    exact marked_iff hbefore hafter

end Happens

/-- A step keeps the value, raises no new error, and makes at most one event happen. -/
structure Advance {ρ : Type} (weight : Int) (effect : Option Effect) (before after : Meaning ρ) :
    Prop where
  value : after.value = before.value
  raises : ∀ error, after.raises error → before.raises error
  events : Happens weight effect before.events after.events

def Tree.meaning (context : Context) (base : Int) (tree : Tree Piece) : Meaning Quantity where
  value := (tree.map Piece.quantity).eval context
  raises error := (tree.map Piece.quantity).Raises context error
  events := (tree.map Piece.quantity).events context base

def Arguments.meaning (context : Context) (base : Int) (arguments : Arguments Piece) :
    Meaning Spread where
  value := (arguments.map Piece.quantity).eval context
  raises error := (arguments.map Piece.quantity).Raises context error
  events := (arguments.map Piece.quantity).events context base

/-! ## Steps inside a tree -/

namespace Advance

variable {context : Context} {base weight : Int} {effect : Option Effect}

/-- An operation whose own weight and whose right side allow it lets its left side
advance. -/
theorem left {op : Arithmetic} {sign : Word} {left left' right : Tree Piece}
    (h : Advance weight effect (left.meaning context base) (left'.meaning context base))
    (hop : op.weight + base ≤ weight)
    (hright : ∀ link ∈ (right.row Piece.row base).links, link.operator.weight ≤ weight) :
    Advance weight effect ((Tree.binary op sign left right).meaning context base)
      ((Tree.binary op sign left' right).meaning context base) := by
  have hvalue : (left'.map Piece.quantity).eval context = (left.map Piece.quantity).eval context :=
    h.value
  refine ⟨?_, ?_, ?_⟩
  · simp only [Tree.meaning, Tree.map, Tree.eval, hvalue]
  · intro error hraises
    simp only [Tree.meaning, Tree.map, Tree.Raises, hvalue] at hraises ⊢
    exact hraises.imp_left (h.raises error)
  · simp only [Tree.meaning, Tree.map, Tree.events, hvalue]
    refine h.events.ahead fun other hother => ?_
    rcases List.mem_append.1 hother with hown | hother
    · rw [Event.mem_ofResult hown]
      exact hop
    · exact right.events_weight (· ≤ weight) context base hright other hother

theorem right {op : Arithmetic} {sign : Word} {left right right' : Tree Piece}
    (h : Advance weight effect (right.meaning context base) (right'.meaning context base))
    (hop : op.weight + base < weight)
    (hleft : ∀ link ∈ (left.row Piece.row base).links, link.operator.weight < weight) :
    Advance weight effect ((Tree.binary op sign left right).meaning context base)
      ((Tree.binary op sign left right').meaning context base) := by
  have hvalue : (right'.map Piece.quantity).eval context =
      (right.map Piece.quantity).eval context := h.value
  refine ⟨?_, ?_, ?_⟩
  · simp only [Tree.meaning, Tree.map, Tree.eval, hvalue]
  · intro error hraises
    simp only [Tree.meaning, Tree.map, Tree.Raises, hvalue] at hraises ⊢
    exact hraises.imp_right (Or.imp_left (h.raises error))
  · simp only [Tree.meaning, Tree.map, Tree.events, hvalue]
    refine Happens.behind (Happens.behind h.events fun other hown => ?_) fun other hother => ?_
    · rw [Event.mem_ofResult hown]
      exact hop
    · exact left.events_weight (· < weight) context base hleft other hother

theorem group {opening closing : Word} {inner inner' : Tree Piece}
    (h : Advance weight effect (inner.meaning context (base + OperatorKind.groupWeight))
      (inner'.meaning context (base + OperatorKind.groupWeight))) :
    Advance weight effect ((Tree.group opening inner closing).meaning context base)
      ((Tree.group opening inner' closing).meaning context base) := by
  have hvalue : (inner'.map Piece.quantity).eval context =
      (inner.map Piece.quantity).eval context := h.value
  refine ⟨?_, h.raises, h.events⟩
  simp only [Tree.meaning, Tree.map, Tree.eval, hvalue]

theorem call {builtin : Builtin} {name opening closing : Word}
    {arguments arguments' : Arguments Piece}
    (h : Advance weight effect (arguments.meaning context (base + OperatorKind.groupWeight))
      (arguments'.meaning context (base + OperatorKind.groupWeight)))
    (hname : OperatorKind.groupWeight + base < weight) :
    Advance weight effect ((Tree.call builtin name opening arguments closing).meaning context base)
      ((Tree.call builtin name opening arguments' closing).meaning context base) := by
  have hvalue : (arguments'.map Piece.quantity).eval context =
      (arguments.map Piece.quantity).eval context := h.value
  refine ⟨?_, ?_, ?_⟩
  · simp only [Tree.meaning, Tree.map, Tree.eval, hvalue]
  · intro error hraises
    simp only [Tree.meaning, Tree.map, Tree.Raises, hvalue] at hraises ⊢
    exact hraises.imp_left (h.raises error)
  · simp only [Tree.meaning, Tree.map, Tree.events, hvalue]
    refine Happens.behind h.events fun other hown => ?_
    rw [Event.mem_ofResult hown]
    exact hname

theorem last {only only' : Tree Piece}
    (h : Advance weight effect (only.meaning context base) (only'.meaning context base)) :
    Advance weight effect ((Arguments.last only).meaning context base)
      ((Arguments.last only').meaning context base) := by
  have hvalue : (only'.map Piece.quantity).eval context = (only.map Piece.quantity).eval context :=
    h.value
  refine ⟨?_, h.raises, h.events⟩
  simp only [Arguments.meaning, Arguments.map, Arguments.eval, hvalue]

theorem first {first first' : Tree Piece} {comma : Word} {rest : Arguments Piece}
    (h : Advance weight effect (first.meaning context base) (first'.meaning context base))
    (hrest : ∀ link ∈ (rest.row Piece.row base).links, link.operator.weight ≤ weight) :
    Advance weight effect ((Arguments.more first comma rest).meaning context base)
      ((Arguments.more first' comma rest).meaning context base) := by
  have hvalue : (first'.map Piece.quantity).eval context =
      (first.map Piece.quantity).eval context := h.value
  refine ⟨?_, fun error => Or.imp_left (h.raises error), ?_⟩
  · simp only [Arguments.meaning, Arguments.map, Arguments.eval, hvalue]
  · exact h.events.ahead (rest.events_weight (· ≤ weight) context base hrest)

theorem rest {first : Tree Piece} {comma : Word} {rest rest' : Arguments Piece}
    (h : Advance weight effect (rest.meaning context base) (rest'.meaning context base))
    (hfirst : ∀ link ∈ (first.row Piece.row base).links, link.operator.weight < weight) :
    Advance weight effect ((Arguments.more first comma rest).meaning context base)
      ((Arguments.more first comma rest').meaning context base) := by
  have hvalue : (rest'.map Piece.quantity).eval context =
      (rest.map Piece.quantity).eval context := h.value
  refine ⟨?_, fun error => Or.imp_right (h.raises error), ?_⟩
  · simp only [Arguments.meaning, Arguments.map, Arguments.eval, hvalue]
  · exact h.events.behind (first.events_weight (· < weight) context base hfirst)

end Advance

namespace Row

/-- The row with links behind it. -/
def append (row : Row) (links : List Link) : Row := ⟨row.first, row.links ++ links⟩

theorem append_cons (left right : Row) (operator : Operator) (suffix : List Link) :
    left.append (⟨operator, right.first⟩ :: (right.links ++ suffix)) =
      (left.join operator right).append suffix := by
  simp [append, join]

theorem join_append (left right : Row) (operator : Operator) (suffix : List Link) :
    left.join operator (right.append suffix) = (left.join operator right).append suffix := by
  simp [append, join]

theorem attach_append (left : Number) (operator : Operator) (row : Row) (suffix : List Link) :
    Row.attach left operator (row.append suffix) =
      (Row.attach left operator row).append suffix := rfl

/-- A row with its `(` in front and its `)` behind it. -/
theorem attach_closing (base : Int) (opening closing : Word) (inner : Row) (suffix : List Link) :
    Row.attach .placeholder (.lifted .openParen base opening)
        (inner.append (closingLink base closing :: suffix)) =
      (inner.enclose base opening closing).append suffix := by
  simp [append, enclose, attach]

end Row

namespace Chain

/-- What becomes of the row of a tree, with a suffix behind it: the row of a tree that
has advanced, or an error of the tree. -/
inductive Steps (context : Context) (base weight : Int) (inexact : Bool) (suffix : List Link)
    (tree : Tree Piece) : Reduction → Prop where
  | advances (tree' : Tree Piece) (effect : Option Effect) (graded : tree'.Graded)
      (rank : tree.rank ≤ tree'.rank)
      (advance : Advance weight effect (tree.meaning context base) (tree'.meaning context base)) :
      Steps context base weight inexact suffix tree
        (.done ((tree'.row Piece.row base).append suffix) (changed effect inexact))
  | raises {error : EvalError} {row : Row} {mark : Bool}
      (h : (tree.meaning context base).raises error) :
      Steps context base weight inexact suffix tree (.failed error row mark)

inductive StepsArguments (context : Context) (base weight : Int) (inexact : Bool)
    (suffix : List Link) (arguments : Arguments Piece) : Reduction → Prop where
  | advances (arguments' : Arguments Piece) (effect : Option Effect)
      (graded : arguments'.Graded)
      (advance : Advance weight effect (arguments.meaning context base)
        (arguments'.meaning context base)) :
      StepsArguments context base weight inexact suffix arguments
        (.done ((arguments'.row Piece.row base).append suffix) (changed effect inexact))
  | raises {error : EvalError} {row : Row} {mark : Bool}
      (h : (arguments.meaning context base).raises error) :
      StepsArguments context base weight inexact suffix arguments (.failed error row mark)

/-! ## Where a step takes place -/

variable {context : Context} {inexact : Bool}

/-- What stands before the operator is passed over. -/
theorem reduceAt_join (links mid more : List Link) (first : Number) (link : Link) :
    reduceAt context inexact (links ++ link :: mid).length first (links ++ link :: more) =
      (reduceAt context inexact mid.length link.right more).mapRow
        (Row.join ⟨first, links⟩ link.operator) := by
  induction links generalizing first with
  | nil => exact reduceAt_succ ..
  | cons other links ih =>
    rw [List.cons_append, List.cons_append, List.length_cons, reduceAt_succ, ih]
    cases reduceAt context inexact mid.length link.right more <;> rfl

/-- An operator in a row between parentheses is the `(`, or stands in the inner row, or
has something of its weight before it. -/
theorem enclose_split {base : Int} {opening closing : Word} {inner : Row} {before after : List Link}
    {link : Link} (h : before ++ link :: after = (inner.enclose base opening closing).links) :
    (before = [] ∧ link = ⟨.lifted .openParen base opening, inner.first⟩ ∧
        after = inner.links ++ [Row.closingLink base closing]) ∨
      (∃ more mid, before = ⟨.lifted .openParen base opening, inner.first⟩ :: more ∧
        inner.links = more ++ link :: mid ∧ after = mid ++ [Row.closingLink base closing]) ∨
      ∃ other ∈ before, other.operator.weight = link.operator.weight := by
  cases before with
  | nil =>
    obtain ⟨rfl, rfl⟩ := List.cons.inj h
    exact Or.inl ⟨rfl, rfl, rfl⟩
  | cons other more =>
    obtain ⟨rfl, hmore⟩ := List.cons.inj h
    rcases split_append hmore with ⟨mid, hinner, hafter⟩ | ⟨mid, -, hclosing⟩
    · exact Or.inr (Or.inl ⟨more, mid, rfl, hinner, hafter⟩)
    · obtain ⟨rfl, rfl, rfl⟩ : mid = [] ∧ _ = link ∧ [] = after := by
        cases mid with
        | nil => exact ⟨rfl, List.cons.inj hclosing⟩
        | cons _ mid => simp at hclosing
      refine Or.inr (Or.inr ⟨_, List.mem_cons_self, ?_⟩)
      show OperatorKind.groupWeight + base = 0 + (base + OperatorKind.groupWeight)
      omega

/-! ## Applying an operator to values -/

theorem conclude_eq (outcome : Except EvalError Outcome) (words : List Word) (left : Number)
    (links : List Link) :
    conclude context inexact outcome words left links =
      match (outcome >>= Outcome.settled context words) with
      | .ok (quantity, effect) => .done ⟨quantity.number, links⟩ (effect.apply inexact)
      | .error error => .failed error ⟨left, links⟩ (failedMark inexact outcome) := by
  cases outcome with
  | error _ => rfl
  | ok outcome =>
    simp only [conclude, Except.bind, bind, settle, Outcome.settled]
    cases context.settle outcome.value with
    | none => rfl
    | some settled =>
      obtain ⟨value, lost⟩ := settled
      cases hprecision : outcome.precision <;> simp [Effect.apply, Quantity.number, Precision.mark]

/-- An operator between two values does what the operation on them does. -/
theorem applyArithmetic_eq (inexact : Bool) (op : Arithmetic) (base : Int) (sign : Word)
    (x y : Quantity) (rest : List Link) :
    ∃ mark, applyArithmetic context inexact op x.number
        ⟨.lifted (.arithmetic op) base sign, y.number⟩ rest =
      match operate context op sign x y with
      | .ok (quantity, effect) => .done ⟨quantity.number, rest⟩ (effect.apply inexact)
      | .error error => .failed error ⟨.placeholder, rest⟩ mark := by
  rw [applyArithmetic_eq_conclude, conclude_eq]
  simp only [compute_eq, Quantity.number, Operator.words_lifted, operate, Number.span?,
    Word.spanOf, List.append_assoc, List.singleton_append]
  exact ⟨_, rfl⟩

/-- The links do not start with a delimiter of this weight. -/
def Clear (weight : Int) (links : List Link) : Prop :=
  ∀ link ∈ links.head?, belongsTo weight link = false

theorem takeWhile_clear {weight : Int} {own suffix : List Link}
    (hown : ∀ link ∈ own, belongsTo weight link = true) (hsuffix : Clear weight suffix) :
    (own ++ suffix).takeWhile (belongsTo weight) = own := by
  rw [List.takeWhile_append_of_pos hown]
  cases suffix with
  | nil => rw [List.takeWhile_nil, List.append_nil]
  | cons link suffix =>
    rw [List.takeWhile_cons_of_neg (by simp [hsuffix link rfl]), List.append_nil]

/-- The row of the arguments of a call, once all of them are values. -/
structure Ready (base : Int) (row : Row) (arguments : Spread) : Prop where
  operands : row.operands = arguments.values.map Quantity.number
  words : row.words = arguments.words
  commas : ∀ link ∈ row.links, belongsTo base link = true

/-- A call takes its delimiters in and does what the builtin does. -/
theorem applyCall_eq {base : Int} {row : Row} {arguments : Spread}
    (h : Ready (base + OperatorKind.groupWeight) row arguments) (builtin : Builtin)
    (name opening closing : Word) (left : Number) {suffix : List Link}
    (hsuffix : Clear (base + OperatorKind.groupWeight) suffix) :
    ∃ mark, applyCall context inexact builtin left
        ⟨.lifted (.call builtin) base name, .placeholder⟩
        ((row.enclose base opening closing).links ++ suffix) =
      match invoke context builtin name opening arguments closing with
      | .ok (quantity, effect) => .done ⟨quantity.number, suffix⟩ (effect.apply inexact)
      | .error error => .failed error ⟨left, suffix⟩ mark := by
  have hown : ∀ link ∈ (row.enclose base opening closing).links,
      belongsTo (base + OperatorKind.groupWeight) link = true := by
    intro link hlink
    simp only [Row.enclose, List.mem_cons, List.mem_append, List.not_mem_nil, or_false] at hlink
    rcases hlink with rfl | hlink | rfl
    · simp [belongsTo, OperatorKind.isDelimiter, OperatorKind.weight, Int.add_comm]
    · exact h.commas link hlink
    · simp [belongsTo, Row.closingLink, OperatorKind.isDelimiter, OperatorKind.weight]
  have hwords : (row.enclose base opening closing).links.flatMap
      (fun link => link.operator.words ++ link.right.words) =
        opening :: (arguments.words ++ [closing]) := by
    rw [← h.words]
    simp [Row.enclose, Row.closingLink, Row.words, Number.placeholder]
  have harguments : ((row.enclose base opening closing).links.map Link.right).filter
      (fun n => !n.isPlaceholder) = arguments.values.map Quantity.number := by
    have hright : (row.enclose base opening closing).links.map Link.right =
        arguments.values.map Quantity.number ++ [.placeholder] := by
      rw [← h.operands]
      simp [Row.enclose, Row.closingLink, Row.operands]
    rw [hright, List.filter_append, List.filter_eq_self.2]
    · exact List.append_nil _
    · intro n hn
      obtain ⟨quantity, -, rfl⟩ := List.mem_map.1 hn
      rfl
  have hweight : (Operator.lifted (.call builtin) base name).weight =
      base + OperatorKind.groupWeight := Int.add_comm _ _
  rw [applyCall_eq_conclude, hweight, takeWhile_clear hown hsuffix, conclude_eq]
  simp only [hwords, Operator.words_lifted, List.drop_left, List.filter_cons, harguments]
  exact ⟨_, rfl⟩

theorem Arguments.ready (context : Context) (arguments : Arguments Piece)
    (h : arguments.Graded) (base : Int)
    (hle : ∀ link ∈ (arguments.row Piece.row base).links, link.operator.weight ≤ base) :
    ∃ spread, (arguments.meaning context base).value = .ok spread ∧
      (arguments.meaning context base).events = [] ∧
        Ready base (arguments.row Piece.row base) spread := by
  match arguments with
  | .last only =>
    obtain ⟨quantity, rfl⟩ := Tree.eq_value_of_le h hle
    refine ⟨⟨[quantity], quantity.words⟩, rfl, rfl, rfl, List.append_nil _, ?_⟩
    exact fun link hlink => absurd hlink List.not_mem_nil
  | .more first comma rest =>
    obtain ⟨quantity, rfl⟩ := Tree.eq_value_of_le h.1
      (fun link hlink => hle link (List.mem_append_left _ hlink))
    obtain ⟨spread, hvalue, hevents, hready⟩ := Arguments.ready context rest h.2 base
      (fun link hlink => hle link (List.mem_append_right _ (List.mem_cons_of_mem _ hlink)))
    refine ⟨⟨quantity :: spread.values, quantity.words ++ comma :: spread.words⟩, ?_, hevents, ?_,
      ?_, ?_⟩
    · have hrest : (rest.map Piece.quantity).eval context = .ok spread := hvalue
      simp only [Arguments.meaning, Arguments.map, Tree.map, Arguments.eval, Tree.eval, hrest]
      rfl
    · rw [List.map_cons, ← hready.operands]
      rfl
    · rw [← hready.words]
      simp [Arguments.row, Tree.row, Piece.row, Row.join, Row.words, Quantity.number]
    · intro link hlink
      rcases List.mem_cons.1 hlink with rfl | hlink
      · simp [belongsTo, OperatorKind.isDelimiter, OperatorKind.weight]
      · exact hready.commas link hlink

end Chain
end DeskCalc
