import DeskCalc.Proofs.Progress.Operation
import DeskCalc.Proofs.Tree.Run
import Mathlib.Logic.Relation

/-
Steps of a chain whose placeholders are guarded.

Every placeholder belongs to a parenthesis or a function name, and that operator weighs
more than the one on the other side of the placeholder.  So the first operator of the
greatest weight has values where it needs them, and what it leaves is guarded again.
-/
namespace DeskCalc

/-- The kinds with a placeholder in front of them. -/
def OperatorKind.isOpening : OperatorKind → Bool
  | openParen | call _ => true
  | _ => false

def OperatorKind.isCall : OperatorKind → Bool
  | call _ => true
  | _ => false

theorem OperatorKind.weight_of_opening {kind : OperatorKind} (h : kind.isOpening = true) :
    kind.weight = groupWeight := by
  cases kind with
  | openParen => rfl
  | call _ => rfl
  | _ => cases h

theorem OperatorKind.weight_lt {kind : OperatorKind} (h : kind.isOpening = false) :
    kind.weight < groupWeight := by
  cases kind with
  | arithmetic op => cases op <;> decide
  | openParen => cases h
  | call _ => cases h
  | _ => decide

namespace Chain

/-! ## Placeholders and their operators -/

/-- An operand between two operators has a value, or one of the two owns it as a
placeholder and weighs more than the other.  A call does not wait for what stands behind
it. -/
def Guarded (left : Option Operator) (number : Number) (right : Option Operator) : Prop :=
  number.value.isSome = true ∨
    (∃ owner, right = some owner ∧ owner.kind.isOpening = true ∧
      ∀ other ∈ left, other.kind.isCall = true ∨ other.weight < owner.weight) ∨
    ∃ owner, left = some owner ∧ owner.kind = .closeParen ∧
      ∀ other ∈ right, other.weight < owner.weight

/-- Every operand from a position on is guarded by the operators beside it. -/
def Aligned : Option Operator → Number → List Link → Prop
  | left, number, [] => Guarded left number none
  | left, number, link :: rest =>
      Guarded left number (some link.operator) ∧ Aligned (some link.operator) link.right rest

section Aligned

variable {left left' : Option Operator} {number number' : Number} {links : List Link}
  {link : Link}

theorem Aligned.guarded (h : Aligned left number links) :
    Guarded left number (links.head?.map Link.operator) := by
  cases links with
  | nil => exact h
  | cons link rest => exact h.1

/-- A value may take the place of an operand, whatever operator is in front of it. -/
theorem Aligned.replace (h : Aligned left number links) (hvalue : number'.value.isSome = true) :
    Aligned left' number' links := by
  cases links with
  | nil => exact Or.inl hvalue
  | cons link rest => exact ⟨Or.inl hvalue, h.2⟩

theorem Aligned.drop (h : Aligned left number links) (hvalue : number'.value.isSome = true)
    (count : Nat) : Aligned left' number' (links.drop count) := by
  induction count generalizing left number links with
  | zero => exact h.replace hvalue
  | succ count ih =>
    cases links with
    | nil => exact Or.inl hvalue
    | cons link rest => exact ih h.2

/-- The operand in front of an operator that is applied next has a value, unless a
placeholder belongs there. -/
theorem Guarded.isSome_left (h : Guarded left number (some link.operator))
    (hkind : link.operator.kind.isOpening = false)
    (hleft : ∀ other ∈ left, other.weight < link.operator.weight) :
    number.value.isSome = true := by
  rcases h with hvalue | ⟨owner, howner, hopening, -⟩ | ⟨owner, howner, -, hright⟩
  · exact hvalue
  · obtain rfl := Option.some.inj howner
    rw [hkind] at hopening
    cases hopening
  · have hlt := hleft owner howner
    have hgt := hright link.operator rfl
    omega

/-- So does the operand behind it. -/
theorem Guarded.isSome_right {right : Option Operator}
    (h : Guarded (some link.operator) number right) (hcall : link.operator.kind.isCall = false)
    (hclose : link.operator.kind ≠ .closeParen)
    (hright : ∀ other ∈ right, other.weight ≤ link.operator.weight) :
    number.value.isSome = true := by
  rcases h with hvalue | ⟨owner, howner, -, hleft⟩ | ⟨owner, howner, hkind, -⟩
  · exact hvalue
  · have hle := hright owner howner
    rcases hleft link.operator rfl with h | h
    · rw [hcall] at h
      cases h
    · omega
  · obtain rfl := Option.some.inj howner
    exact absurd hkind hclose

end Aligned

/-! ## Steps -/

/-- A reduction that succeeds keeps the operands guarded, and one that fails does not fail
for want of an operand. -/
def Reduction.Keeps (left : Option Operator) : Reduction → Prop
  | .done row _ => Aligned left row.first row.links
  | .failed error _ _ => ¬ error.IsMissing

section Steps

variable {context : Context} {inexact : Bool} {left : Option Operator} {number : Number}
  {link : Link} {rest : List Link}

theorem keeps_conclude {outcome : Except EvalError Outcome} {words : List Word}
    {number' : Number} (h : Supplied outcome)
    (hrest : ∀ number : Number, number.value.isSome = true → Aligned left number rest) :
    (conclude context inexact outcome words number' rest).Keeps left := by
  have hsupplied : Supplied (outcome.bind fun outcome => settle context inexact outcome words) :=
    h.bind fun _ _ => supplied_settle ..
  unfold conclude
  split
  · next number mark hok =>
    obtain ⟨_, -, hsettle⟩ := bind_eq_ok hok
    exact hrest number (isSome_settle hsettle)
  · next error herror => exact hsupplied.not_missing error herror

/-- The operator of the greatest weight, the first of several, can be applied. -/
theorem keeps_applyLink (h : Aligned left number (link :: rest))
    (hleft : ∀ other ∈ left, other.weight < link.operator.weight)
    (hrest : ∀ other ∈ rest, other.operator.weight ≤ link.operator.weight) :
    (applyLink context inexact number link rest).Keeps left := by
  obtain ⟨hnumber, hright⟩ := h
  have hhead : ∀ other ∈ rest.head?.map Link.operator, other.weight ≤ link.operator.weight := by
    intro other hother
    obtain ⟨next, hnext, rfl⟩ := Option.map_eq_some_iff.1 hother
    exact hrest next (List.mem_of_mem_head? hnext)
  rw [applyLink_eq]
  split
  · next hkind =>
    have hvalue := hnumber.isSome_left (by rw [hkind]; rfl) hleft
    exact hright.replace hvalue
  · next hkind =>
    have hvalue := hright.guarded.isSome_right (by rw [hkind]; rfl) (by simp [hkind]) hhead
    obtain ⟨value, hvalue⟩ := Option.isSome_iff_exists.1 hvalue
    exact hright.replace (by simp [passThrough, hvalue])
  · next hkind =>
    have hvalue := hnumber.isSome_left (by rw [hkind]; rfl) hleft
    obtain ⟨value, hvalue⟩ := Option.isSome_iff_exists.1 hvalue
    exact hright.replace (by simp [passThrough, hvalue])
  · next builtin hkind =>
    rw [applyCall_eq_conclude]
    refine keeps_conclude (Builtin.supplied_call _ _ ?_ _) fun _ hvalue => hright.drop hvalue _
    intro argument hargument
    simpa using (List.mem_filter.1 hargument).2
  · next op hkind =>
    have hvalue := hnumber.isSome_left (by rw [hkind]; rfl) hleft
    have hvalue' := hright.guarded.isSome_right (by rw [hkind]; rfl) (by simp [hkind]) hhead
    obtain ⟨x, hx⟩ := Option.isSome_iff_exists.1 hvalue
    obtain ⟨y, hy⟩ := Option.isSome_iff_exists.1 hvalue'
    rw [applyArithmetic_eq_conclude, compute_eq, hx, hy]
    exact keeps_conclude (Arithmetic.supplied_eval ..) fun _ hvalue => hright.replace hvalue

/-- The operands in front of the applied operator stay as they are. -/
theorem keeps_reduceAt {before : List Link} (h : Aligned left number (before ++ link :: rest))
    (hleft : ∀ other ∈ left, other.weight < link.operator.weight)
    (hbefore : ∀ other ∈ before, other.operator.weight < link.operator.weight)
    (hrest : ∀ other ∈ rest, other.operator.weight ≤ link.operator.weight) :
    (reduceAt context inexact before.length number (before ++ link :: rest)).Keeps left := by
  induction before generalizing left number with
  | nil => exact keeps_applyLink h hleft hrest
  | cons other before ih =>
    obtain ⟨hother, hbefore⟩ := List.forall_mem_cons.1 hbefore
    obtain ⟨hnumber, hbehind⟩ := h
    have hkeeps := ih hbehind (by simpa using hother) hbefore
    rw [List.length_cons, List.cons_append, reduceAt_succ]
    generalize reduceAt context inexact before.length other.right (before ++ link :: rest) =
      reduction at hkeeps
    cases reduction with
    | done row mark => exact ⟨hnumber, hkeeps⟩
    | failed error row mark => exact hkeeps

end Steps

/-! ## What a step removes -/

/-- Operators from a position on are gone, and as many operands, behind one that is put in
their place. -/
structure Removes (before after : Row) (i count : Nat) : Prop where
  pos : 0 < count
  within : i + count ≤ before.operators.length
  operators : after.operators = before.operators.take i ++ before.operators.drop (i + count)
  operands : ∃ number, after.operands =
    before.operands.take i ++ number :: before.operands.drop (i + 1 + count)

theorem links_applyLink (context : Context) (inexact : Bool) (number : Number) (link : Link)
    (rest : List Link) : ∃ count ≤ rest.length,
      (applyLink context inexact number link rest).row.links = rest.drop count := by
  rw [applyLink_eq]
  split
  · exact ⟨0, Nat.zero_le _, rfl⟩
  · exact ⟨0, Nat.zero_le _, rfl⟩
  · exact ⟨0, Nat.zero_le _, rfl⟩
  · have hprefix := List.takeWhile_prefix (belongsTo link.operator.weight) (l := rest)
    rw [applyCall_eq_conclude]
    exact ⟨_, hprefix.length_le, conclude_links ..⟩
  · rw [applyArithmetic_eq_conclude]
    exact ⟨0, Nat.zero_le _, conclude_links ..⟩

theorem removes_reduceAt (context : Context) (inexact : Bool) (number : Number)
    {links : List Link} {i : Nat} (h : i < links.length) : ∃ count,
      Removes ⟨number, links⟩ (reduceAt context inexact i number links).row i count := by
  induction links generalizing i number with
  | nil => exact absurd h (Nat.not_lt_zero i)
  | cons link rest ih =>
    cases i with
    | zero =>
      obtain ⟨count, hcount, hlinks⟩ := links_applyLink context inexact number link rest
      refine ⟨count + 1, Nat.succ_pos _, ?_, ?_,
        (applyLink context inexact number link rest).row.first, ?_⟩
      · simpa [Row.operators] using hcount
      · show List.map Link.operator (applyLink context inexact number link rest).row.links = _
        rw [hlinks]
        simp [Row.operators]
      · show _ :: List.map Link.right (applyLink context inexact number link rest).row.links = _
        rw [hlinks, show 0 + 1 + (count + 1) = count + 2 by omega]
        simp [Row.operands, reduceAt_zero]
    | succ i =>
      obtain ⟨count, hpos, hwithin, hoperators, other, hoperands⟩ :=
        ih link.right (Nat.lt_of_succ_lt_succ h)
      have hattach : ∀ row : Row, (row.attach number link.operator).operators =
          link.operator :: row.operators ∧
            (row.attach number link.operator).operands = number :: row.operands :=
        fun _ => ⟨rfl, rfl⟩
      have hrow : (⟨number, link :: rest⟩ : Row) =
          Row.attach number link.operator ⟨link.right, rest⟩ := rfl
      rw [reduceAt_succ, Reduction.row_mapRow, hrow]
      refine ⟨count, hpos, ?_, ?_, other, ?_⟩
      · rw [(hattach _).1, List.length_cons]
        omega
      · rw [(hattach _).1, (hattach _).1, hoperators, Nat.add_right_comm]
        rfl
      · rw [(hattach _).2, (hattach _).2, hoperands, Nat.add_right_comm i 1 1,
          Nat.add_right_comm (i + 1) 1 count]
        rfl

/-- As many operands go as operators. -/
theorem Removes.length {before after : Row} {i count : Nat} (h : Removes before after i count)
    (hcount : before.operands.length = before.operators.length + 1) :
    after.operators.length < before.operators.length ∧
      after.operands.length = after.operators.length + 1 := by
  obtain ⟨hpos, hwithin, hoperators, number, hoperands⟩ := h
  have hlength := congrArg List.length hoperators
  have hlength' := congrArg List.length hoperands
  simp only [List.length_append, List.length_cons, List.length_take, List.length_drop]
    at hlength hlength'
  omega

/-- A step that does not find the chain exhausted leaves it without some operators,
whether it succeeds or not. -/
theorem removes_step {context : Context} {chain after : Chain}
    (h : chain.step context = .reduced after ∨ ∃ error, chain.step context = .failed error after) :
    ∃ i count, chain.next? = some i ∧ Removes chain.toRow after.toRow i count := by
  rw [step_eq] at h
  cases hnext : chain.next? with
  | none =>
    rw [hnext] at h
    rcases h with h | ⟨error, h⟩
    · cases h
    · cases h
  | some i =>
    obtain ⟨count, hremoves⟩ :=
      removes_reduceAt context chain.inexact chain.first (next?_lt hnext)
    refine ⟨i, count, rfl, ?_⟩
    simp only [hnext] at h
    generalize reduceAt context chain.inexact i chain.first chain.links = reduction at h hremoves
    cases reduction with
    | done row mark =>
      rcases h with h | ⟨error, h⟩
      · cases h
        exact hremoves
      · cases h
    | failed cause row mark =>
      rcases h with h | ⟨error, h⟩
      · cases h
      · cases h
        exact hremoves

/-! ## Runs -/

section Runs

variable {context : Context} {chain after : Chain}

/-- The reduction that a step consists of finds values where it needs them. -/
theorem keeps_next (context : Context) {i : Nat} (h : Aligned none chain.first chain.links)
    (hnext : chain.next? = some i) :
    (reduceAt context chain.inexact i chain.first chain.links).Keeps none := by
  obtain ⟨before, link, rest, hlinks, rfl, hbefore, hrest⟩ := next?_eq_some hnext
  rw [← hlinks] at h ⊢
  exact keeps_reduceAt h (by simp) hbefore hrest

theorem aligned_step (h : Aligned none chain.first chain.links)
    (hstep : chain.step context = .reduced after) : Aligned none after.first after.links := by
  rw [step_eq] at hstep
  split at hstep
  · cases hstep
  · next i hnext =>
    have hkeeps := keeps_next context h hnext
    generalize reduceAt context chain.inexact i chain.first chain.links = reduction at hstep hkeeps
    cases reduction with
    | done row mark =>
      cases hstep
      exact hkeeps
    | failed cause row mark => cases hstep

theorem supplied_step {error : EvalError} (h : Aligned none chain.first chain.links)
    (hstep : chain.step context = .failed error after) : ¬ error.IsMissing := by
  rw [step_eq] at hstep
  split at hstep
  · cases hstep
  · next i hnext =>
    have hkeeps := keeps_next context h hnext
    generalize reduceAt context chain.inexact i chain.first chain.links = reduction at hstep hkeeps
    cases reduction with
    | done row mark => cases hstep
    | failed cause row mark =>
      cases hstep
      exact hkeeps

/-- A chain without operators that is left holds a value. -/
theorem result_of_exhausted (h : Aligned none chain.first chain.links)
    (hstep : chain.step context = .exhausted) :
    chain.links = [] ∧ ∃ value, chain.first.value = some value ∧ chain.result context =
      .ok { chain.first with value := some (context.finalize value chain.inexact) } := by
  have hlinks : chain.links = [] := by
    rw [step_eq] at hstep
    split at hstep
    · next hnone => exact next?_eq_none hnone
    · next i _ =>
      cases hreduced : reduceAt context chain.inexact i chain.first chain.links with
      | done _ _ | failed _ _ _ =>
        rw [hreduced] at hstep
        cases hstep
  rw [hlinks] at h
  have hvalue : chain.first.value.isSome = true := by
    rcases h with h | ⟨_, h, -⟩ | ⟨_, h, -⟩
    · exact h
    · cases h
    · cases h
  obtain ⟨value, hsome⟩ := Option.isSome_iff_exists.1 hvalue
  exact ⟨hlinks, value, hsome, by simp only [result, hlinks, hsome]⟩

/-- The chains that successful steps lead to. -/
def Leads (context : Context) : Chain → Chain → Prop :=
  Relation.ReflTransGen fun before after => before.step context = .reduced after

theorem Leads.aligned (h : Leads context chain after)
    (hchain : Aligned none chain.first chain.links) : Aligned none after.first after.links := by
  induction h with
  | refl => exact hchain
  | tail _ hstep ih => exact aligned_step ih hstep

theorem Leads.length (h : Leads context chain after) :
    after.operands.length = after.operators.length + 1 := by
  induction h with
  | refl => exact chain.length_operands
  | tail _ hstep ih =>
    obtain ⟨i, count, -, hremoves⟩ := removes_step (Or.inl hstep)
    exact (hremoves.length ih).2

/-- With fuel for every operator, a run ends at a chain that is exhausted, or at one that
fails. -/
theorem Leads.of_run (context : Context) {fuel : Nat} (hfuel : chain.links.length ≤ fuel) :
    (∀ final, chain.run context fuel = .ok final →
      Leads context chain final ∧ final.step context = .exhausted) ∧
    ∀ error, chain.run context fuel = .error error →
      ∃ after left, Leads context chain after ∧ after.step context = .failed error left := by
  induction fuel generalizing chain with
  | zero =>
    have hlinks : chain.links = [] := List.length_eq_zero_iff.1 (Nat.le_zero.1 hfuel)
    refine ⟨fun final hrun => ?_, fun _ hrun => by cases hrun⟩
    obtain rfl := Except.ok.inj hrun
    refine ⟨.refl, ?_⟩
    simp [step_eq, next?, Row.weights, Row.operators, hlinks, firstGreatest]
  | succ fuel ih =>
    rw [run_succ]
    cases hstep : chain.step context with
    | exhausted =>
      refine ⟨fun final hrun => ?_, fun _ hrun => by cases hrun⟩
      obtain rfl := Except.ok.inj hrun
      exact ⟨.refl, hstep⟩
    | reduced next =>
      have hlength := length_step hstep
      have hnext : next.links.length ≤ fuel := by omega
      obtain ⟨hok, hfails⟩ := ih hnext
      refine ⟨fun final hrun => ?_, fun error hrun => ?_⟩
      · obtain ⟨hleads, hexhausted⟩ := hok final hrun
        exact ⟨.head hstep hleads, hexhausted⟩
      · obtain ⟨after, left, hleads, hfailed⟩ := hfails error hrun
        exact ⟨after, left, .head hstep hleads, hfailed⟩
    | failed error left =>
      refine ⟨fun _ hrun => (by cases hrun), fun other hrun => ?_⟩
      obtain rfl := Except.error.inj hrun
      exact ⟨chain, left, .refl, hstep⟩

end Runs

end Chain
end DeskCalc
