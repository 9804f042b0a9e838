import DeskCalc.Proofs.Layout

/-
A register range is short for its filled slots.

A range stands for the values of the filled slots between its bounds, with commas between
them.  Spelled out, these are the same values between the same commas at the same depth, so
the two chains only differ in their words, and words do not matter for the steps.
-/
namespace DeskCalc

open Chain

/-! ## Chains in lock-step -/

/-- The chain after this many steps, if so many succeed. -/
def Chain.stepped? (context : Context) : ℕ → Chain → Option Chain
  | 0, chain => some chain
  | n + 1, chain =>
      match chain.step context with
      | .reduced next => stepped? context n next
      | _ => none

/-- The same number of steps succeeds on both chains, and after each of them they have the
same weights and the same operator to apply next. -/
def Chain.InLockStep (context : Context) (chain chain' : Chain) : Prop :=
  ∀ n, (chain'.stepped? context n).map (fun after => (after.weights, after.next?)) =
    (chain.stepped? context n).map fun after => (after.weights, after.next?)

theorem Chain.stepped?_wordless (context : Context) (n : ℕ) {chain chain' : Chain}
    (h : chain'.wordless = chain.wordless) :
    (chain'.stepped? context n).map wordless = (chain.stepped? context n).map wordless := by
  induction n generalizing chain chain' with
  | zero => exact congrArg some h
  | succ n ih =>
    have hstep : (chain'.step context).wordless = (chain.step context).wordless := by
      rw [← step_wordless, h, step_wordless]
    rw [stepped?, stepped?]
    generalize chain'.step context = step' at hstep ⊢
    generalize chain.step context = step at hstep ⊢
    cases step with
    | reduced next =>
      cases step' with
      | reduced next' => exact ih (Step.reduced.inj hstep)
      | exhausted | failed _ _ => cases hstep
    | exhausted | failed _ _ =>
      cases step' with
      | reduced _ => cases hstep
      | exhausted | failed _ _ => rfl

theorem Chain.inLockStep_of_wordless (context : Context) {chain chain' : Chain}
    (h : chain'.wordless = chain.wordless) : InLockStep context chain chain' := by
  intro n
  have hshown : (fun after : Chain => (after.weights, after.next?)) =
      (fun after : Chain => (after.weights, after.next?)) ∘ wordless := by
    funext after
    have hweights : after.wordless.weights = after.weights := after.toRow.weights_wordless
    rw [Function.comp_apply, next?, next?, hweights]
  rw [hshown, ← Option.map_map, ← Option.map_map, stepped?_wordless context n h]

/-! ## Spelling a range out -/

namespace Register.Queue

/-- The filled slots from one slot to another, in letter order. -/
def filledBetween (queue : Queue) (low high : Slot) : List Slot :=
  queue.filled.filter fun slot => low ≤ slot && slot ≤ high

/-- The slot is filled with this value. -/
def Keeps (queue : Queue) (slot : Slot) (x : Decimal) : Prop :=
  ∃ number, queue.get? slot = some number ∧ number.value = some x

variable {queue : Queue}

theorem read_slotName {slot : Slot} {number : Number} (h : queue.get? slot = some number) :
    queue.read [slotName slot] = .ok number := by
  have hname : ∀ slot, [slotName slot] ≠ lastKey := by decide
  rw [read, if_neg (hname slot), slot?_slotName, Option.bind_some, h]

theorem exists_values {slots : List Slot} (h : ∀ slot ∈ slots, ∃ x, queue.Keeps slot x) :
    ∃ values, List.Forall₂ queue.Keeps slots values := by
  induction slots with
  | nil => exact ⟨[], .nil⟩
  | cons slot slots ih =>
    obtain ⟨⟨x, hx⟩, hrest⟩ := List.forall_mem_cons.1 h
    obtain ⟨values, hvalues⟩ := ih hrest
    exact ⟨x :: values, .cons hx hvalues⟩

theorem between_eq (queue : Queue) (low high : Slot) :
    queue.between low high = (queue.filledBetween low high).filterMap queue.get? := by
  rw [between, filledBetween, filled, List.filter_filter, List.filterMap_filter,
    List.filterMap_filter]
  refine List.filterMap_congr fun slot _ => ?_
  cases hslot : queue.get? slot <;> simp

/-- What is read from a range are the values of its filled slots. -/
theorem readRange_eq {first last : Text} {low high : Slot} {numbers : List Number}
    (hlow : slot? first = some low) (hhigh : slot? last = some high)
    (h : queue.readRange first last = .ok numbers) :
    numbers = (queue.filledBetween low high).filterMap queue.get? := by
  rw [readRange, hlow, hhigh] at h
  dsimp only at h
  split at h
  · cases h
  · rw [between_eq] at h
    split at h
    · cases h
    · exact (Except.ok.inj h).symm

end Register.Queue

/-- The words name these slots, with a comma between each two. -/
inductive SpellsOut : List Register.Slot → List Word → Prop
  | one {slot : Register.Slot} {word : Word} (hkind : word.kind = .register)
      (hkey : registerKey word = [Register.slotName slot]) : SpellsOut [slot] [word]
  | more {slot : Register.Slot} {slots : List Register.Slot} {word comma : Word}
      {words : List Word} (hkind : word.kind = .register)
      (hkey : registerKey word = [Register.slotName slot]) (hcomma : comma.kind = .comma)
      (hrest : SpellsOut slots words) : SpellsOut (slot :: slots) (word :: comma :: words)

namespace SpellsOut

variable {slots : List Register.Slot} {words : List Word}

theorem ne_nil (h : SpellsOut slots words) : slots ≠ [] := by
  cases h <;> exact List.cons_ne_nil _ _

theorem head (h : SpellsOut slots words) :
    ∃ word rest, words = word :: rest ∧ word.kind = .register := by
  cases h with
  | one hkind _ => exact ⟨_, _, rfl, hkind⟩
  | more hkind _ _ _ => exact ⟨_, _, rfl, hkind⟩

end SpellsOut

namespace Chain

open Register.Queue

variable {context : Context} {queue : Register.Queue} {assembly assembly' : Assembly}

theorem mapM_storedValue (word : Word) {slots : List Register.Slot} {values : List Decimal}
    (h : List.Forall₂ queue.Keeps slots values) :
    (slots.filterMap queue.get?).mapM (storedValue word) = .ok values := by
  induction h with
  | nil => rfl
  | cons hkeeps _ ih =>
    obtain ⟨number, hslot, hvalue⟩ := hkeeps
    rw [List.filterMap_cons_some hslot, List.mapM_cons, ih, storedValue, hvalue]
    rfl

theorem rangeValues_eq {range : Word} {first last : Text} {low high : Register.Slot}
    {numbers : List Number} {values : List Decimal}
    (hbounds : Text.splitAt? '_' (registerKey range) = some (first, last))
    (hlow : Register.slot? first = some low) (hhigh : Register.slot? last = some high)
    (hreadable : queue.readRange first last = .ok numbers)
    (hkeeps : List.Forall₂ queue.Keeps (queue.filledBetween low high) values) :
    rangeValues (some queue.reader) range = .ok values := by
  have hread : queue.reader.readRange first last = .ok numbers := hreadable
  rw [← mapM_storedValue range hkeeps, ← readRange_eq hlow hhigh hreadable, rangeValues,
    requireRegister, hbounds]
  show (atWord range (queue.reader.readRange first last)).bind _ = _
  rw [hread]
  rfl

theorem registerValue_eq {word : Word} {slot : Register.Slot} {x : Decimal}
    (hkey : registerKey word = [Register.slotName slot]) (hkeeps : queue.Keeps slot x) :
    registerValue (some queue.reader) word = .ok x := by
  obtain ⟨number, hslot, hvalue⟩ := hkeeps
  have hread : queue.reader.read (registerKey word) = .ok number := by
    rw [hkey]
    exact read_slotName hslot
  show (atWord word (queue.reader.read (registerKey word))).bind (storedValue word) = .ok x
  rw [hread]
  show storedValue word number = .ok x
  rw [storedValue, hvalue]

/-- A register word puts its value behind what has been built. -/
theorem take_register {word : Word} {slot : Register.Slot} {x : Decimal}
    (hlast : assembly.last = none) (hkind : word.kind = .register)
    (hkey : registerKey word = [Register.slotName slot]) (hkeeps : queue.Keeps slot x) :
    take context (some queue.reader) assembly word = .ok (assembly.pushOperand (operand word x)) := by
  have hvalues : wordValues context (some queue.reader) word = .ok [x] := by
    rw [wordValues, hkind]
    dsimp only
    rw [registerValue_eq hkey hkeeps]
    rfl
  rw [take_operand hlast (by rw [hkind]; rfl), hvalues]
  rfl

theorem pushOperand_alike (h : assembly'.wordless = assembly.wordless) (word word' : Word)
    (x : Decimal) : (assembly'.pushOperand (operand word x)).wordless =
      (assembly.pushOperand (operand word' x)).wordless :=
  Assembly.pushList_congr h (show [operand word x].map Number.wordless =
    [operand word' x].map Number.wordless from rfl)

/-- The words of the slots build what a list of their values does. -/
theorem foldlM_spelled {slots : List Register.Slot} {words : List Word} {values : List Decimal}
    (hspelled : SpellsOut slots words) (hkeeps : List.Forall₂ queue.Keeps slots values)
    (range : Word) (h : assembly'.wordless = assembly.wordless) (hlast : assembly'.last = none) :
    ∃ after, words.foldlM (take context (some queue.reader)) assembly' = .ok after ∧
      after.wordless = (assembly.pushList (values.map (operand range))).wordless := by
  induction hspelled generalizing values assembly assembly' with
  | @one slot word hkind hkey =>
    obtain ⟨x, _, hx, hnil, rfl⟩ := List.forall₂_cons_left_iff.1 hkeeps
    obtain rfl := List.forall₂_nil_left_iff.1 hnil
    refine ⟨_, ?_, pushOperand_alike h word range x⟩
    rw [List.foldlM_cons, take_register hlast hkind hkey hx]
    rfl
  | @more slot slots word comma words hkind hkey hcomma hrest ih =>
    obtain ⟨x, others, hx, hothers, rfl⟩ := List.forall₂_cons_left_iff.1 hkeeps
    obtain ⟨y, rest, rfl⟩ : ∃ y rest, others = y :: rest :=
      List.exists_cons_of_ne_nil fun hnil => hrest.ne_nil (List.forall₂_nil_right_iff.1 (hnil ▸ hothers))
    have hpushed := Assembly.pushOperator_congr (pushOperand_alike h word range x) .comma [] [comma]
    obtain ⟨after, hafter, hsame⟩ := ih hothers hpushed rfl
    refine ⟨after, ?_, hsame⟩
    rw [List.foldlM_cons, take_register hlast hkind hkey hx]
    show (comma :: words).foldlM (take context (some queue.reader))
      (assembly'.pushOperand (operand word x)) = .ok after
    rw [List.foldlM_cons, take_comma rfl hcomma]
    exact hafter

/-- A range and its slots spelled out are taken in alike, or both are out of place. -/
theorem foldlM_spelled_alike {range : Word} {words : List Word} {slots : List Register.Slot}
    {values : List Decimal} (hkind : range.kind = .registerRange)
    (hvalues : rangeValues (some queue.reader) range = .ok values)
    (hspelled : SpellsOut slots words) (hkeeps : List.Forall₂ queue.Keeps slots values)
    (assembly : Assembly) :
    apart Assembly.wordless (words.foldlM (take context (some queue.reader)) assembly) =
      apart Assembly.wordless (take context (some queue.reader) assembly range) := by
  cases hlast : assembly.last with
  | none =>
    have hlisted : wordValues context (some queue.reader) range = .ok values := by
      rw [wordValues, hkind]
      exact hvalues
    obtain ⟨after, hafter, hsame⟩ := foldlM_spelled hspelled hkeeps range rfl hlast
    rw [take_operand hlast (by rw [hkind]; rfl), hlisted, hafter]
    exact congrArg Except.ok hsame
  | some number =>
    have hmisplaced : ∀ word : Word, word.kind.isOperand = true → word.kind.isVirtual = false →
        take context (some queue.reader) assembly word = .error (misplaced false word.span) := by
      intro word hoperand hvirtual
      have hwants : assembly.wantsOperand = false := by rw [Assembly.wantsOperand, hlast]; rfl
      rw [take, hwants, if_neg (by simp [fits, hoperand, hvirtual])]
    have hrange := hmisplaced range (by rw [hkind]; rfl) (by rw [hkind]; rfl)
    obtain ⟨word, rest, rfl, hword⟩ := hspelled.head
    rw [List.foldlM_cons, hrange, hmisplaced word (by rw [hword]; rfl) (by rw [hword]; rfl)]
    rfl

/-- Words with a range in them build the same as with the slots spelled out. -/
theorem ofWords_spelled {range : Word} {words : List Word} {slots : List Register.Slot}
    {values : List Decimal} (hkind : range.kind = .registerRange)
    (hvalues : rangeValues (some queue.reader) range = .ok values)
    (hspelled : SpellsOut slots words) (hkeeps : List.Forall₂ queue.Keeps slots values)
    (before after : List Word) :
    apart wordless (ofWords (before ++ words ++ after) (some queue.reader) context) =
      apart wordless (ofWords (before ++ [range] ++ after) (some queue.reader) context) := by
  refine apart_bind ?_ fun _ _ hassembly => finish_wordless hassembly _ _
  rw [List.foldlM_append, List.foldlM_append, List.foldlM_append, List.foldlM_append]
  cases before.foldlM (take context (some queue.reader)) {} with
  | error _ => rfl
  | ok assembly =>
    refine apart_bind ?_ fun _ _ hnext => foldlM_unplaced context _ rfl hnext
    have hone : [range].foldlM (take context (some queue.reader)) assembly =
        take context (some queue.reader) assembly range := by
      rw [List.foldlM_cons]
      exact bind_pure _
    exact (foldlM_spelled_alike hkind hvalues hspelled hkeeps assembly).trans
      (congrArg (apart Assembly.wordless) hone.symm)

end Chain

/-! ## The same course -/

/-- Both are chains of the same weights that are reduced in lock-step, or both are errors of
the same kind and wording, which may point at different places. -/
def SameBuild (context : Context) : Except CalcError Chain → Except CalcError Chain → Prop
  | .ok chain, .ok chain' => chain'.weights = chain.weights ∧ InLockStep context chain chain'
  | .error error, .error error' =>
      error'.unplaced = error.unplaced ∧ error'.message = error.message
  | _, _ => False

/-- The words build chains that are reduced in lock-step or fail in the same way, and they
come to the same value, with the same display and mark of lost digits, or to errors of the
same kind and wording. -/
structure SameCourse (context : Context) (register : Option Register) (words words' : List Word) :
    Prop where
  build : SameBuild context (ofWords words register context) (ofWords words' register context)
  outcome : SameOutcome (Calculator.evaluateWords context words register)
    (Calculator.evaluateWords context words' register)
  reported : reported? context words' register = reported? context words register

theorem sameCourse_of_apart {context : Context} {register : Option Register}
    {words words' : List Word}
    (h : apart Chain.wordless (ofWords words' register context) =
      apart Chain.wordless (ofWords words register context)) :
    SameCourse context register words words' where
  build := by
    rcases apart_cases h with ⟨error, error', hbuild, hbuild', hunplaced⟩ |
      ⟨chain, chain', hbuild, hbuild', hwordless⟩
    · rw [hbuild, hbuild']
      refine ⟨hunplaced, ?_⟩
      rw [← error'.message_unplaced, hunplaced, error.message_unplaced]
    · rw [hbuild, hbuild']
      refine ⟨?_, inLockStep_of_wordless context hwordless⟩
      have hweights : chain'.wordless.weights = chain.wordless.weights := by rw [hwordless]
      exact (chain'.toRow.weights_wordless.symm.trans hweights).trans chain.toRow.weights_wordless
  outcome := sameOutcome_of_apart (Calculator.evaluateWords_congr context register h)
  reported := reported?_congr h

/-- A register range is short for its filled slots: with the range spelled out, in letter
order and with commas between the slots, any words take the same course. -/
theorem register_range_spelled_out (queue : Register.Queue) (context : Context)
    (before after spelled : List Word) (range : Word) (first last : Text)
    (low high : Register.Slot) (numbers : List Number)
    (hvalues : ∀ slot number, queue.get? slot = some number → number.value ≠ none)
    (hkind : range.kind = .registerRange)
    (hbounds : Text.splitAt? '_' (registerKey range) = some (first, last))
    (hlow : Register.slot? first = some low) (hhigh : Register.slot? last = some high)
    (hreadable : queue.readRange first last = .ok numbers)
    (hspelled : SpellsOut (queue.filledBetween low high) spelled) :
    SameCourse context (some queue.reader) (before ++ [range] ++ after)
      (before ++ spelled ++ after) := by
  have hslots : ∀ slot ∈ queue.filledBetween low high, ∃ x, queue.Keeps slot x := by
    intro slot hslot
    have hfilled : (queue.get? slot).isSome = true :=
      (List.mem_filter.1 (List.mem_filter.1 hslot).1).2
    obtain ⟨number, hnumber⟩ := Option.isSome_iff_exists.1 hfilled
    obtain ⟨x, hx⟩ := Option.ne_none_iff_exists'.1 (hvalues slot number hnumber)
    exact ⟨x, number, hnumber, hx⟩
  obtain ⟨values, hkeeps⟩ := Register.Queue.exists_values hslots
  have hread := rangeValues_eq hbounds hlow hhigh hreadable hkeeps
  exact sameCourse_of_apart (ofWords_spelled hkind hread hspelled hkeeps before after)

/-- A queue that has 2, 5 and 4 in its first three slots. -/
def threeStored : Register.Queue :=
  Register.Queue.empty.writeAll [.ofDecimal ⟨2, 0⟩, .ofDecimal ⟨5, 0⟩, .ofDecimal ⟨4, 0⟩]

/-- The words in front of the range in `max(@b_d,3)*2`. -/
def wordsBefore : List Word :=
  [.plain "max".toList .functionName 0, .plain ['('] .leftParen 3]

/-- The words behind the range in `max(@b_d,3)*2`. -/
def wordsAfter : List Word :=
  [.plain [','] .comma 8, .plain ['3'] .number 9, .plain [')'] .rightParen 10,
    .plain ['*'] .operator 11, .plain ['2'] .number 12]

/-- The fourth slot is empty, so `max(@b_d,3)*2` is short for `max(@b,@c,3)*2`. -/
theorem register_range_spelled_out_call :
    Calculator.evaluateWords {} (wordsBefore ++ [.plain "@b_d".toList .registerRange 4] ++ wordsAfter)
        (some threeStored.reader) = .ok
          { value := some ⟨10, 0⟩
            words := wordsBefore ++ [.plain "@b_d".toList .registerRange 4,
              .plain "@b_d".toList .registerRange 4] ++ wordsAfter } ∧
      SameCourse {} (some threeStored.reader)
        (wordsBefore ++ [.plain "@b_d".toList .registerRange 4] ++ wordsAfter)
        (wordsBefore ++ [.plain "@b".toList .register 4, .plain [','] .comma 6,
          .plain "@c".toList .register 7] ++ wordsAfter) := by
  have hfilled : threeStored.filledBetween 1 3 = [1, 2] := by decide +kernel
  have hvalues : ∀ slot number, threeStored.get? slot = some number → number.value ≠ none := by
    have hall : ∀ slot, (threeStored.get? slot).all (fun number => number.value.isSome) = true := by
      decide +kernel
    intro slot number hnumber
    have hsome := hall slot
    rw [hnumber] at hsome
    exact Option.isSome_iff_ne_none.1 hsome
  have hspelled : SpellsOut (threeStored.filledBetween 1 3) [.plain "@b".toList .register 4,
      .plain [','] .comma 6, .plain "@c".toList .register 7] := by
    rw [hfilled]
    exact .more rfl rfl rfl (.one rfl rfl)
  refine ⟨by decide +kernel, ?_⟩
  exact register_range_spelled_out threeStored {} wordsBefore wordsAfter _ _ ['b'] ['d'] 1 3
    [.ofDecimal ⟨5, 0⟩, .ofDecimal ⟨4, 0⟩] hvalues rfl (by decide) (by decide) (by decide)
    (by decide +kernel) hspelled

end DeskCalc
