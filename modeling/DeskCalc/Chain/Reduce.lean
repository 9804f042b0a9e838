import DeskCalc.Arithmetic.Power
import DeskCalc.Builtin.Eval
import DeskCalc.Chain.Build

/-
Reducing a chain to its value.

A step applies the operator of the greatest weight, the first of several.  The
operator and the operand on its right go, and the result takes the place of the
operand on its left; a call takes its parentheses, commas and arguments along.
-/
namespace DeskCalc
namespace Chain

/-- What became of a row: the shorter row, or an error with the row as the failing
operation left it, and the new mark of lost digits. -/
inductive Reduction where
  | done (row : Row) (inexact : Bool)
  | failed (error : EvalError) (row : Row) (inexact : Bool)
  deriving DecidableEq, Repr

namespace Reduction

def row : Reduction → Row
  | done row _ => row
  | failed _ row _ => row

def mapRow (f : Row → Row) : Reduction → Reduction
  | done row inexact => done (f row) inexact
  | failed error row inexact => failed error (f row) inexact

theorem row_mapRow (f : Row → Row) (reduction : Reduction) :
    (reduction.mapRow f).row = f reduction.row := by
  cases reduction <;> rfl

end Reduction

/-- An outcome as an operand, rounded to the context, and the new mark of lost
digits. -/
def settle (context : Context) (inexact : Bool) (outcome : Outcome) (words : List Word) :
    Except EvalError (Number × Bool) :=
  match context.settle outcome.value with
  | none => .error (.domain .resultOutOfRange (Word.spanOf words))
  | some (value, lost) =>
      .ok ({ value := some value, words, display := outcome.display },
        outcome.precision.mark inexact || lost)

/-- The mark of lost digits that a failure leaves.  An outcome counts for it, also
if its value is out of range. -/
def failedMark (inexact : Bool) : Except EvalError Outcome → Bool
  | .ok outcome => outcome.precision.mark inexact
  | .error _ => inexact

/-- The row that an outcome leaves, or the error with what is left without it. -/
def conclude (context : Context) (inexact : Bool) (outcome : Except EvalError Outcome)
    (words : List Word) (left : Number) (links : List Link) : Reduction :=
  match outcome.bind fun outcome => settle context inexact outcome words with
  | .ok (number, inexact) => .done ⟨number, links⟩ inexact
  | .error error => .failed error ⟨left, links⟩ (failedMark inexact outcome)

theorem conclude_links (context : Context) (inexact : Bool)
    (outcome : Except EvalError Outcome) (words : List Word) (left : Number)
    (links : List Link) :
    (conclude context inexact outcome words left links).row.links = links := by
  unfold conclude
  split <;> rfl

/-- A parenthesis passes the operand on its inner side on; its words join those
of both operands. -/
def passThrough (left : Number) (operator : Operator) (kept : Number) (right : Number) : Number :=
  match kept.value with
  | some value =>
      { value := some value
        words := left.words ++ operator.words ++ right.words
        display := kept.display }
  | none => .placeholder

/-- The links that belong to a call: the delimiters of its weight that follow
it. -/
def belongsTo (weight : Int) (link : Link) : Bool :=
  link.operator.kind.isDelimiter && link.operator.weight == weight

/-- Calls a builtin with the operands of the delimiters that belong to it. -/
def applyCallM (context : Context) (inexact : Bool) (builtin : Builtin) (left : Number)
    (link : Link) (rest : List Link) : Checked Reduction := do
  let inner := rest.takeWhile (belongsTo link.operator.weight)
  let words := link.operator.words ++ link.right.words ++
    inner.flatMap fun link => link.operator.words ++ link.right.words
  let arguments := (link.right :: inner.map Link.right).filter fun n => !n.isPlaceholder
  let outcome ← builtin.callM context arguments (Word.spanOf words)
  pure (conclude context inexact outcome words left (rest.drop inner.length))

/-- What an operator computes from the operands on both sides, which must have
values. -/
def computeM (context : Context) (op : Arithmetic) (left : Number) (link : Link) :
    Checked (Except EvalError Outcome) :=
  match left.value, link.right.value with
  | some x, some y => op.evalM context x y (link.right.span?.getD {})
  | _, _ => pure (.error (.missingOperand link.operator.symbol (link.operator.span?.getD {})))

def applyArithmeticM (context : Context) (inexact : Bool) (op : Arithmetic) (left : Number)
    (link : Link) (rest : List Link) : Checked Reduction := do
  let words := left.words ++ link.operator.words ++ link.right.words
  let outcome ← computeM context op left link
  pure (conclude context inexact outcome words .placeholder rest)

def applyLinkM (context : Context) (inexact : Bool) (left : Number) (link : Link)
    (rest : List Link) : Checked Reduction :=
  match link.operator.kind with
  | .comma => pure (.done ⟨left, rest⟩ inexact)
  | .openParen => pure (.done ⟨passThrough left link.operator link.right link.right, rest⟩ inexact)
  | .closeParen => pure (.done ⟨passThrough left link.operator left link.right, rest⟩ inexact)
  | .call builtin => applyCallM context inexact builtin left link rest
  | .arithmetic op => applyArithmeticM context inexact op left link rest

/-- Applies the operator at a position that lies in the row. -/
def reduceAtM (context : Context) (inexact : Bool) :
    Nat → Number → List Link → Checked Reduction
  | _, left, [] => pure (.done ⟨left, []⟩ inexact)
  | 0, left, link :: rest => applyLinkM context inexact left link rest
  | i + 1, left, link :: rest => do
      let reduction ← reduceAtM context inexact i link.right rest
      pure (reduction.mapRow (Row.attach left link.operator))

inductive Step where
  /-- No operator is left. -/
  | exhausted
  | reduced (chain : Chain)
  /-- An operation failed; the chain is what it left behind. -/
  | failed (error : EvalError) (chain : Chain)
  deriving DecidableEq, Repr

/-- The step that a reduction of the row is. -/
def Reduction.step : Reduction → Step
  | done row inexact => .reduced { row with inexact }
  | failed error row inexact => .failed error { row with inexact }

def stepM (context : Context) (chain : Chain) : Checked Step :=
  match chain.next? with
  | none => pure .exhausted
  | some i => do
      let reduction ← reduceAtM context chain.inexact i chain.first chain.links
      pure reduction.step

/-- The operand of an exhausted chain, finalized for display. -/
def result (context : Context) (chain : Chain) : Except EvalError Number :=
  match chain.links, chain.first.value with
  | [], some value =>
      .ok { chain.first with value := some (context.finalize value chain.inexact) }
  | links, _ =>
      let operator := links.head?.map Link.operator
      .error (.missingOperand ((operator.map Operator.symbol).getD "")
        ((operator.bind Operator.span?).getD {}))

/-- Steps until the chain is exhausted, at most `fuel` of them. -/
def runM (context : Context) : Nat → Chain → Checked (Except EvalError Chain)
  | 0, chain => pure (.ok chain)
  | fuel + 1, chain => do
      match ← chain.stepM context with
      | .exhausted => pure (.ok chain)
      | .reduced chain => runM context fuel chain
      | .failed error _ => pure (.error error)

/-- The value of a chain.  By `length_step` there are no more steps than
operators. -/
def evaluateM (context : Context) (chain : Chain) : Checked (Except EvalError Number) := do
  let exhausted ← chain.runM context chain.links.length
  pure (exhausted >>= fun exhausted => exhausted.result context)

/-! ## Reduction with scales of any size -/

def applyCall (context : Context) (inexact : Bool) (builtin : Builtin) (left : Number)
    (link : Link) (rest : List Link) : Reduction :=
  (applyCallM context inexact builtin left link rest).value

def compute (context : Context) (op : Arithmetic) (left : Number) (link : Link) :
    Except EvalError Outcome :=
  (computeM context op left link).value

def applyArithmetic (context : Context) (inexact : Bool) (op : Arithmetic) (left : Number)
    (link : Link) (rest : List Link) : Reduction :=
  (applyArithmeticM context inexact op left link rest).value

def applyLink (context : Context) (inexact : Bool) (left : Number) (link : Link)
    (rest : List Link) : Reduction :=
  (applyLinkM context inexact left link rest).value

def reduceAt (context : Context) (inexact : Bool) (i : Nat) (left : Number)
    (links : List Link) : Reduction :=
  (reduceAtM context inexact i left links).value

def step (context : Context) (chain : Chain) : Step := (chain.stepM context).value

def run (context : Context) (fuel : Nat) (chain : Chain) : Except EvalError Chain :=
  (runM context fuel chain).value

def evaluate (context : Context) (chain : Chain) : Except EvalError Number :=
  (chain.evaluateM context).value

theorem applyCall_eq_conclude (context : Context) (inexact : Bool) (builtin : Builtin)
    (left : Number) (link : Link) (rest : List Link) :
    applyCall context inexact builtin left link rest =
      let inner := rest.takeWhile (belongsTo link.operator.weight)
      let words := link.operator.words ++ link.right.words ++
        inner.flatMap fun link => link.operator.words ++ link.right.words
      let arguments := (link.right :: inner.map Link.right).filter fun n => !n.isPlaceholder
      conclude context inexact (builtin.call context arguments (Word.spanOf words)) words left
        (rest.drop inner.length) :=
  Checked.value_bind ..

theorem compute_eq (context : Context) (op : Arithmetic) (left : Number) (link : Link) :
    compute context op left link =
      match left.value, link.right.value with
      | some x, some y => op.eval context x y (link.right.span?.getD {})
      | _, _ =>
          .error (.missingOperand link.operator.symbol (link.operator.span?.getD {})) := by
  unfold compute computeM
  split <;> rfl

theorem applyArithmetic_eq_conclude (context : Context) (inexact : Bool) (op : Arithmetic)
    (left : Number) (link : Link) (rest : List Link) :
    applyArithmetic context inexact op left link rest =
      conclude context inexact (compute context op left link)
        (left.words ++ link.operator.words ++ link.right.words) .placeholder rest :=
  Checked.value_bind ..

theorem applyLink_eq (context : Context) (inexact : Bool) (left : Number) (link : Link)
    (rest : List Link) :
    applyLink context inexact left link rest =
      match link.operator.kind with
      | .comma => .done ⟨left, rest⟩ inexact
      | .openParen => .done ⟨passThrough left link.operator link.right link.right, rest⟩ inexact
      | .closeParen => .done ⟨passThrough left link.operator left link.right, rest⟩ inexact
      | .call builtin => applyCall context inexact builtin left link rest
      | .arithmetic op => applyArithmetic context inexact op left link rest := by
  unfold applyLink applyLinkM
  split <;> rfl

theorem reduceAt_nil (context : Context) (inexact : Bool) (i : Nat) (left : Number) :
    reduceAt context inexact i left [] = .done ⟨left, []⟩ inexact := by
  cases i <;> rfl

theorem reduceAt_zero (context : Context) (inexact : Bool) (left : Number) (link : Link)
    (rest : List Link) : reduceAt context inexact 0 left (link :: rest) =
      applyLink context inexact left link rest := rfl

theorem reduceAt_succ (context : Context) (inexact : Bool) (i : Nat) (left : Number)
    (link : Link) (rest : List Link) :
    reduceAt context inexact (i + 1) left (link :: rest) =
      (reduceAt context inexact i link.right rest).mapRow (Row.attach left link.operator) :=
  Checked.value_bind ..

theorem step_eq (context : Context) (chain : Chain) :
    chain.step context =
      match chain.next? with
      | none => .exhausted
      | some i => (reduceAt context chain.inexact i chain.first chain.links).step := by
  unfold step stepM
  split
  · rfl
  · exact Checked.value_bind ..

theorem run_succ (context : Context) (fuel : Nat) (chain : Chain) :
    chain.run context (fuel + 1) =
      match chain.step context with
      | .exhausted => .ok chain
      | .reduced chain => chain.run context fuel
      | .failed error _ => .error error := by
  rw [run, runM, Checked.value_bind, ← step]
  cases chain.step context <;> rfl

theorem evaluate_eq (context : Context) (chain : Chain) :
    chain.evaluate context =
      chain.run context chain.links.length >>= fun exhausted => exhausted.result context :=
  Checked.value_bind ..

/-! ## Steps make a chain shorter -/

theorem length_applyLink (context : Context) (inexact : Bool) (left : Number) (link : Link)
    (rest : List Link) :
    (applyLink context inexact left link rest).row.links.length ≤ rest.length := by
  rw [applyLink_eq]
  split
  · exact Nat.le_refl _
  · exact Nat.le_refl _
  · exact Nat.le_refl _
  · rw [applyCall_eq_conclude, conclude_links, List.length_drop]
    exact Nat.sub_le _ _
  · exact Nat.le_of_eq (by rw [applyArithmetic_eq_conclude, conclude_links])

/-- Applying an operator removes it, and perhaps others. -/
theorem length_reduceAt (context : Context) (inexact : Bool) {i : Nat} {links : List Link}
    (h : i < links.length) (left : Number) :
    (reduceAt context inexact i left links).row.links.length < links.length := by
  induction links generalizing i left with
  | nil => exact absurd h (Nat.not_lt_zero i)
  | cons link rest ih =>
    cases i with
    | zero => exact Nat.lt_succ_of_le (length_applyLink context inexact left link rest)
    | succ i =>
      have hi : i < rest.length := Nat.lt_of_succ_lt_succ h
      rw [reduceAt_succ, Reduction.row_mapRow]
      exact Nat.succ_lt_succ (ih hi link.right)

theorem next?_lt {chain : Chain} {i : Nat} (h : chain.next? = some i) :
    i < chain.links.length := by
  unfold next? at h
  match hg : firstGreatest chain.weights with
  | none => rw [hg] at h; cases h
  | some (j, best) =>
    rw [hg] at h
    obtain rfl : j = i := Option.some.inj h
    have hj := (firstGreatest_bound hg).1
    obtain ⟨hlt, -⟩ := List.getElem?_eq_some_iff.1 hj
    simpa [Row.weights, Row.operators] using hlt

/-- Every step that succeeds leaves fewer operators. -/
theorem length_step {context : Context} {chain after : Chain}
    (h : chain.step context = .reduced after) : after.links.length < chain.links.length := by
  rw [step_eq] at h
  split at h
  · cases h
  · next i hi =>
    have hlen := length_reduceAt context chain.inexact (next?_lt hi) chain.first
    generalize reduceAt context chain.inexact i chain.first chain.links = reduction at h hlen
    cases reduction with
    | done row inexact =>
      cases h
      exact hlen
    | failed error row inexact => cases h

end Chain
end DeskCalc
