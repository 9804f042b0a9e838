import DeskCalc.Proofs.Calculation
import DeskCalc.Proofs.Location.Row
import DeskCalc.Proofs.Progress

/-
A result remembers its source.

A step takes words from the operands and operators it removes and gives them to the
operand it leaves.  Two kinds of operators could lose some: a comma drops what stands on
its right, and a call what stands on its left.  In the row of a tree neither happens,
because a call has an empty placeholder on its left and a comma never comes before the
call that it belongs to.
-/
namespace DeskCalc

/-! ## Words of composed rows -/

namespace Row

theorem words_attach (left : Number) (operator : Operator) (row : Row) :
    (row.attach left operator).words = left.words ++ operator.words ++ row.words :=
  words_cons left ⟨operator, row.first⟩ row.links

theorem words_join (left right : Row) (operator : Operator) :
    (left.join operator right).words = left.words ++ operator.words ++ right.words := by
  simp [join, words]

theorem words_enclose (base : Int) (opening closing : Word) (inner : Row) :
    (inner.enclose base opening closing).words = opening :: (inner.words ++ [closing]) := by
  simp [enclose, closingLink, words, Number.placeholder]

end Row

theorem Tree.words_ne_nil (tree : Tree Word) : tree.words ≠ [] := by
  cases tree with
  | binary op sign left right => simp [Tree.words]
  | _ => exact List.cons_ne_nil _ _

section Read

variable {context : Context} {register : Option Register}

theorem Quantity.words_read {word : Word} {quantity : Quantity}
    (h : Quantity.read context register word = .ok quantity) : quantity.words = [word] := by
  obtain ⟨value, -, rfl⟩ := map_eq_ok h
  rfl

mutual

/-- The row of a tree that was read has the words of the tree. -/
theorem Tree.words_row {tree : Tree Word} {operands : Tree Quantity} (base : Int)
    (h : tree.traverse (Quantity.read context register) = .ok operands) :
    ((operands.map Piece.value).row Piece.row base).words = tree.words := by
  match tree with
  | .leaf word =>
    obtain ⟨quantity, hquantity, h⟩ := bind_eq_ok h
    obtain rfl := Except.ok.inj h
    show quantity.words ++ [] = [word]
    rw [List.append_nil, Quantity.words_read hquantity]
  | .binary op sign left right =>
    obtain ⟨left', hleft, h⟩ := bind_eq_ok h
    obtain ⟨right', hright, h⟩ := bind_eq_ok h
    obtain rfl := Except.ok.inj h
    rw [Tree.map, Tree.row, Row.words_join, Tree.words_row base hleft,
      Tree.words_row base hright, Operator.words_lifted, Tree.words, List.append_assoc]
    rfl
  | .group opening inner closing =>
    obtain ⟨inner', hinner, h⟩ := bind_eq_ok h
    obtain rfl := Except.ok.inj h
    rw [Tree.map, Tree.row, Row.words_enclose, Tree.words_row _ hinner, Tree.words]
  | .call builtin name opening arguments closing =>
    obtain ⟨arguments', harguments, h⟩ := bind_eq_ok h
    obtain rfl := Except.ok.inj h
    rw [Tree.map, Tree.row, Row.words_attach, Row.words_enclose, Arguments.words_row _ harguments,
      Operator.words_lifted, Tree.words]
    rfl

theorem Arguments.words_row {arguments : Arguments Word} {operands : Arguments Quantity}
    (base : Int) (h : arguments.traverse (Quantity.read context register) = .ok operands) :
    ((operands.map Piece.value).row Piece.row base).words = arguments.words := by
  match arguments with
  | .last only =>
    obtain ⟨only', honly, h⟩ := bind_eq_ok h
    obtain rfl := Except.ok.inj h
    rw [Arguments.map, Arguments.row, Tree.words_row base honly, Arguments.words]
  | .more first comma rest =>
    obtain ⟨first', hfirst, h⟩ := bind_eq_ok h
    obtain ⟨rest', hrest, h⟩ := bind_eq_ok h
    obtain rfl := Except.ok.inj h
    rw [Arguments.map, Arguments.row, Row.words_join, Tree.words_row base hfirst,
      Arguments.words_row base hrest, Operator.words_lifted, Arguments.words, List.append_assoc]
    rfl

end

end Read

/-! ## Rows that lose no words -/

namespace Chain

/-- An operand in front of a call has no words, and every comma has an operator of at
least its weight before it, which may be one of those seen. -/
def Retentive : List Int → Number → List Link → Prop
  | _, _, [] => True
  | seen, left, link :: rest =>
      (link.operator.kind.isCall = true → left.words = []) ∧
        (link.operator.kind = .comma → ∃ weight ∈ seen, link.operator.weight ≤ weight) ∧
          Retentive (link.operator.weight :: seen) link.right rest

/-- What stands behind a part of a row loses no words, whatever that part adds to the
weights seen. -/
def RetentiveAfter (seen : List Int) (suffix : List Link) : Prop :=
  ∀ left seen', seen ⊆ seen' → Retentive seen' left suffix

theorem RetentiveAfter.mono {seen seen' : List Int} {suffix : List Link}
    (h : RetentiveAfter seen suffix) (hseen : seen ⊆ seen') : RetentiveAfter seen' suffix :=
  fun left more hmore => h left more (List.Subset.trans hseen hmore)

/-- Behind an operator that is neither a call nor a comma. -/
theorem RetentiveAfter.cons {seen : List Int} {link : Link} {suffix : List Link}
    (h : ∀ seen', seen ⊆ seen' → Retentive (link.operator.weight :: seen') link.right suffix)
    (hcall : link.operator.kind.isCall = false) (hcomma : link.operator.kind ≠ .comma) :
    RetentiveAfter seen (link :: suffix) := by
  intro left seen' hseen
  refine ⟨fun hkind => ?_, fun hkind => absurd hkind hcomma, h seen' hseen⟩
  rw [hcall] at hkind
  cases hkind

mutual

theorem retentive_tree (tree : Tree Piece) (base : Int) {seen : List Int} {suffix : List Link}
    (h : RetentiveAfter seen suffix) :
    Retentive seen (tree.row Piece.row base).first
      ((tree.row Piece.row base).links ++ suffix) := by
  match tree with
  | .leaf (.value quantity) => exact h _ _ (List.Subset.refl _)
  | .leaf (.closing quantity word) =>
    refine RetentiveAfter.cons (fun seen' hseen => ?_) rfl (by simp [Row.closingLink]) _ _
      (List.Subset.refl _)
    exact h _ _ (List.subset_cons_of_subset _ hseen)
  | .binary op sign left right =>
    have hright : RetentiveAfter seen
        (⟨.lifted (.arithmetic op) base sign, (right.row Piece.row base).first⟩ ::
          ((right.row Piece.row base).links ++ suffix)) :=
      .cons (fun seen' hseen => retentive_tree right base
        (h.mono (List.subset_cons_of_subset _ hseen))) rfl (by simp)
    show Retentive seen _ ((_ ++ _ :: _) ++ suffix)
    rw [List.append_assoc]
    exact retentive_tree left base hright
  | .group opening inner closing =>
    have hclosing : RetentiveAfter seen (Row.closingLink base closing :: suffix) :=
      .cons (fun seen' hseen => h _ _ (List.subset_cons_of_subset _ hseen)) rfl
        (by simp [Row.closingLink])
    show Retentive seen _ (_ :: ((_ ++ [_]) ++ suffix))
    rw [List.append_assoc]
    refine RetentiveAfter.cons (fun seen' hseen => ?_) rfl (by simp) _ _ (List.Subset.refl _)
    exact retentive_tree inner _ (hclosing.mono (List.subset_cons_of_subset _ hseen))
  | .call builtin name opening arguments closing =>
    have hclosing : RetentiveAfter seen (Row.closingLink base closing :: suffix) :=
      .cons (fun seen' hseen => h _ _ (List.subset_cons_of_subset _ hseen)) rfl
        (by simp [Row.closingLink])
    refine ⟨fun _ => rfl, fun hkind => (by cases hkind), ?_⟩
    show Retentive _ _ (_ :: ((_ ++ [_]) ++ suffix))
    rw [List.append_assoc]
    refine RetentiveAfter.cons (fun seen' hseen => ?_) rfl (by simp) _ _ (List.Subset.refl _)
    -- The name of the call is seen and weighs as much as the commas between the arguments.
    refine retentive_arguments arguments _ ⟨(Operator.lifted (.call builtin) base name).weight,
      List.mem_cons_of_mem _ (hseen List.mem_cons_self), ?_⟩
      (hclosing.mono (List.Subset.trans (List.subset_cons_self _ _)
        (List.subset_cons_of_subset _ hseen)))
    exact Int.le_of_eq (Int.add_comm _ _)

theorem retentive_arguments (arguments : Arguments Piece) (base : Int) {seen : List Int}
    {suffix : List Link} (hseen : ∃ weight ∈ seen, base ≤ weight)
    (h : RetentiveAfter seen suffix) :
    Retentive seen (arguments.row Piece.row base).first
      ((arguments.row Piece.row base).links ++ suffix) := by
  match arguments with
  | .last only => exact retentive_tree only base h
  | .more first comma rest =>
    obtain ⟨weight, hweight, hle⟩ := hseen
    have hrest : RetentiveAfter seen
        (⟨.lifted .comma base comma, (rest.row Piece.row base).first⟩ ::
          ((rest.row Piece.row base).links ++ suffix)) := by
      intro left seen' hmore
      refine ⟨fun hkind => (by cases hkind), fun _ => ⟨weight, hmore hweight, ?_⟩, ?_⟩
      · show 0 + base ≤ weight
        omega
      · have hmore := List.subset_cons_of_subset (0 + base) hmore
        exact retentive_arguments rest base ⟨weight, hmore hweight, hle⟩ (h.mono hmore)
    show Retentive seen _ ((_ ++ _ :: _) ++ suffix)
    rw [List.append_assoc]
    exact retentive_tree first base hrest

end

theorem retentive_ofTree (tree : Tree Piece) (mark : Bool) :
    Retentive [] (ofTree tree mark).first (ofTree tree mark).links := by
  have hnil : RetentiveAfter [] [] := fun _ _ _ => trivial
  have h := retentive_tree tree 0 hnil
  rwa [List.append_nil] at h

/-! ## Steps keep the words -/

/-- A reduction that succeeds leaves a row with these words. -/
def Reduction.Preserves (words : List Word) : Reduction → Prop
  | .done row _ => row.words = words
  | .failed _ _ _ => True

section Steps

variable {context : Context} {inexact : Bool} {left number : Number} {link : Link}
  {rest : List Link} {words more : List Word} {seen : List Int}

theorem preserves_conclude {outcome : Except EvalError Outcome}
    (h : words ++ rest.flatMap (fun link => link.operator.words ++ link.right.words) = more) :
    (conclude context inexact outcome words left rest).Preserves more := by
  unfold conclude
  split
  · next result mark hok =>
    obtain ⟨_, -, hsettle⟩ := bind_eq_ok hok
    show Row.words ⟨result, rest⟩ = more
    rw [Row.words, words_settle hsettle, h]
  · trivial

theorem preserves_passThrough {kept : Number} (h : kept.value.isSome = true) :
    Reduction.Preserves (Row.words ⟨left, link :: rest⟩)
      (.done ⟨passThrough left link.operator kept link.right, rest⟩ inexact) := by
  obtain ⟨value, hvalue⟩ := Option.isSome_iff_exists.1 h
  show Row.words _ = _
  simp [passThrough, hvalue, Row.words]

/-- A call takes the words of its delimiters and arguments along, in their order. -/
theorem preserves_applyCall (builtin : Builtin) (h : left.words = []) :
    (applyCall context inexact builtin left link rest).Preserves
      (Row.words ⟨left, link :: rest⟩) := by
  have hsplit : rest.takeWhile (belongsTo link.operator.weight) ++
      rest.drop (rest.takeWhile (belongsTo link.operator.weight)).length = rest :=
    List.prefix_iff_eq_append.1 (List.takeWhile_prefix _)
  rw [applyCall_eq_conclude]
  dsimp only
  generalize rest.takeWhile (belongsTo link.operator.weight) = inner at hsplit
  refine preserves_conclude ?_
  rw [Row.words_cons, Row.words, h]
  conv_rhs => rw [← hsplit]
  simp

/-- The operator of the greatest weight, the first of several, passes all words on: what it
takes a value from is not a placeholder, and it is not a comma. -/
theorem preserves_applyLink {before : Option Operator}
    (haligned : Aligned before left (link :: rest)) (hwords : Retentive seen left (link :: rest))
    (hseen : ∀ weight ∈ seen, weight < link.operator.weight)
    (hbefore : ∀ other ∈ before, other.weight < link.operator.weight)
    (hrest : ∀ other ∈ rest, other.operator.weight ≤ link.operator.weight) :
    (applyLink context inexact left link rest).Preserves (Row.words ⟨left, link :: rest⟩) := by
  obtain ⟨hleft, hright⟩ := haligned
  obtain ⟨hcall, hcomma, -⟩ := hwords
  rw [applyLink_eq]
  split
  · next hkind =>
    obtain ⟨weight, hmem, hle⟩ := hcomma hkind
    have hlt := hseen weight hmem
    omega
  · next hkind =>
    refine preserves_passThrough (hright.guarded.isSome_right (by rw [hkind]; rfl)
      (by simp [hkind]) fun other hother => ?_)
    obtain ⟨next, hnext, rfl⟩ := Option.map_eq_some_iff.1 hother
    exact hrest next (List.mem_of_mem_head? hnext)
  · next hkind => exact preserves_passThrough (hleft.isSome_left (by rw [hkind]; rfl) hbefore)
  · next builtin hkind => exact preserves_applyCall builtin (hcall (by rw [hkind]; rfl))
  · next op hkind =>
    rw [applyArithmetic_eq_conclude]
    refine preserves_conclude ?_
    rw [Row.words_cons, Row.words]
    simp

/-- The words in front of the applied operator stay where they are. -/
theorem preserves_reduceAt {before : Option Operator} {links : List Link}
    (haligned : Aligned before left (links ++ link :: rest))
    (hwords : Retentive seen left (links ++ link :: rest))
    (hseen : ∀ weight ∈ seen, weight < link.operator.weight)
    (hbefore : ∀ other ∈ before, other.weight < link.operator.weight)
    (hlinks : ∀ other ∈ links, other.operator.weight < link.operator.weight)
    (hrest : ∀ other ∈ rest, other.operator.weight ≤ link.operator.weight) :
    (reduceAt context inexact links.length left (links ++ link :: rest)).Preserves
      (Row.words ⟨left, links ++ link :: rest⟩) := by
  induction links generalizing before left seen with
  | nil => exact preserves_applyLink haligned hwords hseen hbefore hrest
  | cons other links ih =>
    obtain ⟨hother, hlinks⟩ := List.forall_mem_cons.1 hlinks
    have hpreserves := ih haligned.2 hwords.2.2 (List.forall_mem_cons.2 ⟨hother, hseen⟩)
      (by simpa using hother) hlinks
    rw [List.length_cons, List.cons_append, reduceAt_succ, Row.words_cons]
    generalize reduceAt context inexact links.length other.right (links ++ link :: rest) =
      reduction at hpreserves
    cases reduction with
    | failed error row mark => trivial
    | done row mark =>
      show (row.attach left other.operator).words = _
      rw [Row.words_attach, show row.words = _ from hpreserves]

end Steps

section Runs

variable {context : Context} {chain after : Chain}

theorem words_step (haligned : Aligned none chain.first chain.links)
    (hwords : Retentive [] chain.first chain.links)
    (hstep : chain.step context = .reduced after) : after.words = chain.words := by
  rw [step_eq] at hstep
  split at hstep
  · cases hstep
  · next i hnext =>
    obtain ⟨links, link, rest, hlinks, rfl, hbefore, hrest⟩ := next?_eq_some hnext
    have hpreserves : Reduction.Preserves (Row.words ⟨chain.first, links ++ link :: rest⟩)
        (reduceAt context chain.inexact links.length chain.first (links ++ link :: rest)) := by
      rw [← hlinks] at haligned hwords
      exact preserves_reduceAt haligned hwords (by simp) (by simp) hbefore hrest
    rw [hlinks] at hpreserves
    generalize reduceAt context chain.inexact links.length chain.first chain.links =
      reduction at hstep hpreserves
    cases reduction with
    | done row mark =>
      cases hstep
      exact hpreserves
    | failed error row mark => cases hstep

/-- The chain of a tree is reduced to chains of trees. -/
theorem Leads.eq_ofTree {tree : Tree Piece} {mark : Bool} (hgraded : tree.Graded)
    (h : Leads context (ofTree tree mark) after) :
    ∃ tree' mark', tree'.Graded ∧ after = ofTree tree' mark' := by
  induction h with
  | refl => exact ⟨tree, mark, hgraded, rfl⟩
  | tail _ hstep ih =>
    obtain ⟨tree', mark', hgraded', rfl⟩ := ih
    have hsteps : StepsTo context tree' mark' _ := step_ofTree tree' hgraded' mark'
    rw [hstep] at hsteps
    cases hsteps with
    | reduced weight effect next graded advance => exact ⟨next, _, graded, rfl⟩

/-- Every chain that the chain of a tree leads to has its words. -/
theorem Leads.words {tree : Tree Piece} {mark : Bool} (hgraded : tree.Graded)
    (haligned : Aligned none (ofTree tree mark).first (ofTree tree mark).links)
    (h : Leads context (ofTree tree mark) after) : after.words = (ofTree tree mark).words := by
  induction h with
  | refl => rfl
  | tail hleads hstep ih =>
    obtain ⟨tree', mark', -, rfl⟩ := Leads.eq_ofTree hgraded hleads
    have haligned' := Leads.aligned hleads haligned
    rw [words_step haligned' (retentive_ofTree tree' mark') hstep, ih]

/-- The words of a source without register ranges stay in its chain. -/
theorem words_of_leads {words : List Word} {tree : Tree Word} {register : Option Register}
    (hwrites : tree.Writes words) (hranges : ∀ word ∈ words, word.kind ≠ .registerRange)
    (hchain : ofWords words register context = .ok chain) (h : Leads context chain after) :
    after.words = words := by
  have haligned := aligned_ofWords hchain
  obtain ⟨operands, hread, hgraded, rfl⟩ := Chain.eq_ofTree hwrites hranges hchain
  rw [h.words (operands.graded_map Piece.value hgraded) haligned]
  show ((operands.map Piece.value).row Piece.row 0).words = words
  rw [Tree.words_row 0 hread, hwrites.words]

/-- The words of a result are those of the chain that it was reduced from. -/
theorem words_evaluate {number : Number} (haligned : Aligned none chain.first chain.links)
    (h : chain.evaluate context = .ok number) :
    ∃ final, Leads context chain final ∧ number.words = final.words := by
  rw [evaluate_eq] at h
  obtain ⟨final, hrun, hresult⟩ := bind_eq_ok h
  obtain ⟨hleads, hexhausted⟩ :=
    (Leads.of_run context (Nat.le_refl chain.links.length)).1 final hrun
  obtain ⟨hlinks, value, -, hvalue⟩ := result_of_exhausted (hleads.aligned haligned) hexhausted
  obtain rfl := Except.ok.inj (hvalue.symm.trans hresult)
  refine ⟨final, hleads, ?_⟩
  rw [Row.words, hlinks, List.flatMap_nil, List.append_nil]

end Runs
end Chain

/-- While the chain of a source without register ranges is reduced, its operands and
operators read from left to right give the words of the source, and so does the result:
it remembers the text of every token and covers the source from the first token to the
last. -/
theorem result_remembers_source (calculator : Calculator) (source : Text)
    (register : Option Register) (log : Log) (words : List Word)
    (hparse : (parse source log).1 = .ok words)
    (hranges : ∀ word ∈ words, word.kind ≠ .registerRange) :
    (∀ chain after, Chain.ofWords words register calculator.context = .ok chain →
      Chain.Leads calculator.context chain after → after.words = words) ∧
    ∀ number, (calculator.evaluate source register).1 = .ok number →
      number.words = words ∧ number.source = words.flatMap Word.text ∧
        ∃ first last, words.head? = some first ∧ words.getLast? = some last ∧
          number.span? = some ⟨first.offset, last.stop⟩ := by
  obtain ⟨tree, hwrites⟩ := (Grammar.parse_eq_ok_iff.1 hparse).writes
  have hleads : ∀ chain after, Chain.ofWords words register calculator.context = .ok chain →
      Chain.Leads calculator.context chain after → after.words = words :=
    fun chain after hchain h => Chain.words_of_leads hwrites hranges hchain h
  refine ⟨hleads, fun number hnumber => ?_⟩
  have hsource : (parse source {}).1 = .ok words :=
    Grammar.parse_eq_ok_iff.2 (Grammar.parse_eq_ok_iff.1 hparse)
  rw [evaluate_of_parse hsource, Calculator.evaluateWords_eq] at hnumber
  obtain ⟨chain, hchain, hevaluate⟩ := bind_eq_ok hnumber
  obtain ⟨final, hfinal, hwords⟩ := Chain.words_evaluate (Chain.aligned_ofWords hchain)
    (Chain.inEvaluation_eq_ok hevaluate)
  rw [hleads chain final hchain hfinal] at hwords
  have hne : words ≠ [] := hwrites.words ▸ tree.words_ne_nil
  refine ⟨hwords, by rw [Number.source, hwords], words.head hne, words.getLast hne,
    List.head?_eq_some_head hne, List.getLast?_eq_some_getLast hne, ?_⟩
  rw [Number.span?, hwords]
  exact Word.spanOf?_of_ends (List.head?_eq_some_head hne) (List.getLast?_eq_some_getLast hne)

/-- The words of `1 + (2*max(3, 4))`, whose blanks no word covers. -/
def spacedWords : List Word :=
  [.plain ['1'] .number 0, .plain ['+'] .operator 2, .plain ['('] .leftParen 4,
    .plain ['2'] .number 5, .plain ['*'] .operator 6, .plain "max".toList .functionName 7,
    .plain ['('] .leftParen 10, .plain ['3'] .number 11, .plain [','] .comma 12,
    .plain ['4'] .number 14, .plain [')'] .rightParen 15, .plain [')'] .rightParen 16]

theorem result_remembers_group_and_call :
    ∃ number : Number, (parse "1 + (2*max(3, 4))".toList {}).1 = .ok spacedWords ∧
      (∀ word ∈ spacedWords, word.kind ≠ .registerRange) ∧
        (Calculator.evaluate {} "1 + (2*max(3, 4))".toList none).1 = .ok number ∧
          number.words = spacedWords ∧ number.source = "1+(2*max(3,4))".toList ∧
            number.span? = some ⟨0, 17⟩ := by
  have hparse : (parse "1 + (2*max(3, 4))".toList {}).1 = .ok spacedWords := by decide +kernel
  have hranges : ∀ word ∈ spacedWords, word.kind ≠ .registerRange := by decide
  have hok : (Calculator.evaluate {} "1 + (2*max(3, 4))".toList none).1.isOk = true := by
    decide +kernel
  cases hnumber : (Calculator.evaluate {} "1 + (2*max(3, 4))".toList none).1 with
  | error error =>
    rw [hnumber] at hok
    cases hok
  | ok number =>
    obtain ⟨hwords, hsource, first, last, hfirst, hlast, hspan⟩ :=
      (result_remembers_source {} _ none {} spacedWords hparse hranges).2 number hnumber
    obtain rfl := Option.some.inj hfirst
    obtain rfl := Option.some.inj hlast
    exact ⟨number, hparse, hranges, rfl, hwords, hsource.trans (by decide), hspan⟩

end DeskCalc
