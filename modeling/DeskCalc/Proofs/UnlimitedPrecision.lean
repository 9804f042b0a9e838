import DeskCalc.Proofs.Calculation
import DeskCalc.Proofs.Decimal.Finalized
import DeskCalc.Proofs.ExactPower
import DeskCalc.Proofs.Tree.Exact

/-
Calculations that keep all digits.

With a precision of zero nothing is rounded when a result is settled, so sums, differences and
products are exact.  Powers are computed in a context of ten digits more, where the precision is
ten and not zero: each power is rounded to ten digits.  So a calculation gives its exact value
without a mark just if all its powers have that few digits.
-/
namespace DeskCalc

open Decimal

namespace Context

variable {context : Context} {x : Decimal}

/-- Without a precision an admitted value is settled as it stands. -/
theorem settle_of_admits (hprecision : context.precision = 0) (h : context.Admits x.toRat) :
    context.settle x = some (x, false) := by
  have hround : context.round x = (x, false) := by
    rw [round, if_pos (by simp [hprecision])]
  obtain ⟨hconfine, hsnapped⟩ := h.kept
  rw [settle, hround]
  dsimp only
  rw [hconfine, Option.map_some, hsnapped]

end Context

/-- A value in range that is short enough to be written down. -/
structure Bounded (context : Context) (x : Decimal) : Prop where
  admits : context.Admits x.toRat
  digits : x.digits ≤ writableDigits

theorem Bounded.sized {context : Context} {x : Decimal} (h : Bounded context x) :
    Sized x.digits (-10000) 10000 x := sized_of_admits h.admits fun _ => le_rfl

namespace Arithmetic

variable {context : Context} {x y : Decimal} {q : ℚ} {span : Span}

/-- A natural power is the power of the number with ten digits more than the precision, which
loses nothing just if the power has that few digits. -/
theorem integerPower_natural (hx : Bounded context x) (hroom : context.precision ≤ writableDigits)
    {n : ℕ} (hn : n ≤ maxIntegerExponent) (span : Span) :
    ∃ value lost, integerPower context x n span = .ok (.approximate value lost) ∧
      (lost = false ↔ InDigits (context.precision + 10) (x.toRat ^ n)) ∧
      (lost = false → value.toRat = x.toRat ^ n) := by
  have hmax : writableDigits = 1000000000000000 := rfl
  have hguarded := precision_guarded context
  have hpower := toRat_powerWith hx.sized x.digits_pos.ne' hn hx.digits
    (Or.inl (show (guarded context).precision ≤ 2 * writableDigits by omega)) (by omega)
  change _ = guardedPower context x.toRat n at hpower
  have hmark : (powerWith (guarded context).round x n).2 = (guardedPower context x.toRat n).2 :=
    congrArg Prod.snd hpower
  have hcomputed : integerPower context x n span =
      .ok (.approximate (powerWith (guarded context).round x n).1
        (powerWith (guarded context).round x n).2) := by
    have hsign : ¬ (n : ℤ) < 0 := by omega
    rw [integerPower_eq, if_neg (by simp), Int.natAbs_natCast]
    dsimp only
    rw [if_neg hsign]
    rfl
  refine ⟨_, _, hcomputed, ?_, toRat_powerWith_round⟩
  · rw [hmark]
    rcases Nat.eq_zero_or_pos n with rfl | hpos
    · have hone : InDigits (context.precision + 10) (x.toRat ^ 0) :=
        ⟨1, 0, by rw [abs_one]; exact one_lt_pow₀ (by norm_num) (by omega), by norm_num⟩
      exact iff_of_true rfl hone
    · exact guardedPower_kept_iff hpos

/-- Without a precision an operation gives its exact result, and a power does so just if it has at
most ten digits. -/
theorem eval_exact {op : Arithmetic} (hprecision : context.precision = 0)
    (hx : Bounded context x) (h : op.Exact x.toRat y.toRat q) :
    ∃ value lost, op.eval context x y span = .ok (.approximate value lost) ∧
      (lost = false ↔ (op = .pow → InDigits 10 q)) ∧ (lost = false → value.toRat = q) := by
  cases op with
  | add => exact ⟨x + y, false, rfl, iff_of_true rfl nofun, fun _ => by rw [toRat_add, h]⟩
  | sub => exact ⟨x - y, false, rfl, iff_of_true rfl nofun, fun _ => by rw [toRat_sub, h]⟩
  | mul => exact ⟨x * y, false, rfl, iff_of_true rfl nofun, fun _ => by rw [toRat_mul, h]⟩
  | div => exact h.elim
  | pow =>
    obtain ⟨n, hexponent, hn, rfl⟩ := h
    obtain ⟨value, lost, hpower, hlost, hvalue⟩ := integerPower_natural hx (by omega) hn span
    have hinteger : y.toRat = ((n : ℤ) : ℚ) := by rw [hexponent, Int.cast_natCast]
    rw [hprecision] at hlost
    refine ⟨value, lost, ?_, ?_, hvalue⟩
    · show power context x y span = _
      rw [power_of_integer hinteger (by rwa [Int.natAbs_natCast]), hpower]
    · rw [hlost]
      exact ⟨fun hfits _ => hfits, fun hfits => hfits rfl⟩

end Arithmetic

section Operate

variable {context : Context} {op : Arithmetic} {x y : Quantity} {q : ℚ}
  (hprecision : context.precision = 0) (hx : Bounded context x.value)
  (h : op.Exact x.value.toRat y.value.toRat q)

include hprecision hx h

/-- An operation whose result fits has the exact result, and nothing is lost. -/
theorem operate_of_fits (sign : Word) (hq : context.Admits q)
    (hfits : op = .pow → InDigits 10 q) :
    ∃ quantity, operate context op sign x y = .ok (quantity, ⟨false, false⟩) ∧
      quantity.value.toRat = q := by
  obtain ⟨value, lost, heval, hlost, hvalue⟩ := Arithmetic.eval_exact hprecision hx h
  obtain rfl := hlost.2 hfits
  have hsettle : context.settle value = some (value, false) :=
    Context.settle_of_admits hprecision (by rw [hvalue rfl]; exact hq)
  refine ⟨⟨value, x.words ++ sign :: y.words, none⟩, ?_, hvalue rfl⟩
  rw [operate, heval]
  show Outcome.settled _ _ _ = _
  rw [Outcome.settled]
  simp only [Outcome.approximate, hsettle]
  rfl

/-- A power that does not fit loses digits. -/
theorem fits_of_operate {sign : Word} {quantity : Quantity} {effect : Effect}
    (hoperate : operate context op sign x y = .ok (quantity, effect))
    (hkept : effect.loses = false) : op = .pow → InDigits 10 q := by
  obtain ⟨value, lost, heval, hlost, -⟩ := Arithmetic.eval_exact hprecision hx h
  rw [operate, heval] at hoperate
  change Outcome.settled _ _ _ = _ at hoperate
  rw [Outcome.settled] at hoperate
  split at hoperate
  · cases hoperate
  · obtain ⟨-, rfl⟩ := Prod.mk.inj (Except.ok.inj hoperate)
    refine hlost.1 ?_
    cases lost with
    | false => rfl
    | true => cases hkept

end Operate

namespace Tree
namespace Denotes

variable {context : Context} {register : Option Register} {tree : Tree Word}
  {operands : Tree Quantity} {q : ℚ} (hprecision : context.precision = 0)

include hprecision

/-- If all powers fit, the expression evaluates to its exact value, and nothing is lost. -/
theorem eval_of_fits (h : tree.Denotes context.Admits (InDigits 10) q)
    (hread : tree.traverse (Quantity.read context register) = .ok operands)
    (hwritable : operands.Writable context) :
    ∃ quantity, operands.eval context = .ok quantity ∧ quantity.value.toRat = q ∧
      ∀ base, Lossless (operands.events context base) := by
  induction h generalizing operands with
  | literal kind read inRange =>
    rw [traverse, read_literal kind read inRange] at hread
    obtain rfl := Except.ok.inj hread
    exact ⟨_, rfl, rfl, fun _ _ hevent => absurd hevent List.not_mem_nil⟩
  | @operation op left right _ _ _ sign onLeft onRight exact inRange fits ihLeft ihRight =>
    obtain ⟨left', hleft, hread⟩ := bind_eq_ok hread
    obtain ⟨right', hright, hread⟩ := bind_eq_ok hread
    obtain rfl := Except.ok.inj hread
    obtain ⟨-, hwritableLeft, hwritableRight⟩ := hwritable
    obtain ⟨x, hx, rfl, hkeptLeft⟩ := ihLeft hleft hwritableLeft
    obtain ⟨y, hy, rfl, hkeptRight⟩ := ihRight hright hwritableRight
    obtain ⟨quantity, hoperate, hvalue⟩ := operate_of_fits hprecision
      ⟨onLeft.value_inRange, Writable.digits hwritableLeft hx⟩ exact sign inRange fits
    have hoperated : operated context op sign (left'.eval context) (right'.eval context) =
        .ok (quantity, ⟨false, false⟩) := by
      rw [hx, hy]
      exact hoperate
    refine ⟨quantity, ?_, hvalue, fun base => ?_⟩
    · rw [Tree.eval, hoperated]
      rfl
    · rw [Tree.events, hoperated]
      refine List.forall_mem_append.2 ⟨hkeptLeft base,
        List.forall_mem_append.2 ⟨?_, hkeptRight base⟩⟩
      exact List.forall_mem_singleton.2 rfl
  | group opening closing _ ih =>
    obtain ⟨inner, hinner, hread⟩ := bind_eq_ok hread
    obtain rfl := Except.ok.inj hread
    obtain ⟨x, hx, hvalue, hkept⟩ := ih hinner hwritable.2
    refine ⟨x.enclose opening closing, ?_, hvalue, fun base => hkept _⟩
    rw [Tree.eval, hx]
    rfl

/-- If nothing is lost, all powers fit. -/
theorem fits_of_lossless (h : tree.Denotes context.Admits (fun _ => True) q)
    (hread : tree.traverse (Quantity.read context register) = .ok operands)
    (hwritable : operands.Writable context) {quantity : Quantity} {base : Int}
    (heval : operands.eval context = .ok quantity)
    (hkept : Lossless (operands.events context base)) :
    tree.Denotes context.Admits (InDigits 10) q := by
  induction h generalizing operands quantity base with
  | literal kind read inRange => exact .literal kind read inRange
  | @operation op left right _ _ _ sign _ _ exact inRange _ ihLeft ihRight =>
    obtain ⟨left', hleft, hread⟩ := bind_eq_ok hread
    obtain ⟨right', hright, hread⟩ := bind_eq_ok hread
    obtain rfl := Except.ok.inj hread
    obtain ⟨-, hwritableLeft, hwritableRight⟩ := hwritable
    obtain ⟨⟨_, effect⟩, hresult, rfl⟩ := map_eq_ok heval
    obtain ⟨x, y, hx, hy, hoperate⟩ := operated_eq_ok hresult
    obtain ⟨hkeptLeft, hrest⟩ := List.forall_mem_append.1 hkept
    obtain ⟨hown, hkeptRight⟩ := List.forall_mem_append.1 hrest
    have onLeft := ihLeft hleft hwritableLeft hx hkeptLeft
    have onRight := ihRight hright hwritableRight hy hkeptRight
    obtain ⟨x', hx', rfl, -⟩ := eval_of_fits hprecision onLeft hleft hwritableLeft
    obtain ⟨y', hy', rfl, -⟩ := eval_of_fits hprecision onRight hright hwritableRight
    obtain rfl := Except.ok.inj (hx.symm.trans hx')
    obtain rfl := Except.ok.inj (hy.symm.trans hy')
    refine .operation sign onLeft onRight exact inRange ?_
    refine fits_of_operate hprecision ⟨onLeft.value_inRange, Writable.digits hwritableLeft hx⟩
      exact hoperate ?_
    rw [hresult] at hown
    exact hown _ (List.mem_singleton_self _)
  | group opening closing _ ih =>
    obtain ⟨inner, hinner, hread⟩ := bind_eq_ok hread
    obtain rfl := Except.ok.inj hread
    obtain ⟨x, hx, -⟩ := map_eq_ok heval
    exact .group opening closing (ih hinner hwritable.2 hx hkept)

end Denotes
end Tree

/-- With a precision of zero, an expression of literals, sums, differences, products and natural
powers whose values are in range is calculated without a mark just if each of its powers has at
most ten digits, and then its exact value comes out.  (Numbers are those that can be written
down.) -/
theorem unlimited_precision_exact_iff (calculator : Calculator) (source : Text)
    (register : Option Register) (words : List Word) (tree : Tree Word) (q : ℚ)
    (hprecision : calculator.context.precision = 0)
    (hparse : (parse source {}).1 = .ok words) (hwrites : tree.Writes words)
    (hvalue : tree.Denotes calculator.context.Admits (fun _ => True) q)
    (hwritable : ∀ operands,
      tree.traverse (Quantity.read calculator.context register) = .ok operands →
        operands.Writable calculator.context) :
    ((∃ chain final, Chain.ofWords words register calculator.context = .ok chain ∧
      chain.run calculator.context chain.links.length = .ok final ∧ final.inexact = false) ↔
        tree.Denotes calculator.context.Admits (InDigits 10) q) ∧
    (tree.Denotes calculator.context.Admits (InDigits 10) q →
      ∃ number value, (calculator.evaluate source register).1 = .ok number ∧
        number.value = some value ∧ value.toRat = q) := by
  obtain ⟨operands, hread⟩ := hvalue.reads register
  obtain ⟨chain, hchain, hunmarked⟩ := hvalue.unmarked_iff hwrites hread
  have hexact : tree.Denotes calculator.context.Admits (InDigits 10) q →
      ∃ quantity : Quantity, quantity.value.toRat = q ∧
        chain.run calculator.context chain.links.length =
          .ok { first := quantity.number, links := [], inexact := false } := by
    intro hfits
    obtain ⟨quantity, heval, hnumber, hkept⟩ :=
      hfits.eval_of_fits hprecision hread (hwritable operands hread)
    obtain ⟨hrun, -⟩ := (hunmarked _).2 ⟨quantity, heval, hkept 0, rfl⟩
    exact ⟨quantity, hnumber, hrun⟩
  refine ⟨⟨?_, fun hfits => ?_⟩, fun hfits => ?_⟩
  · rintro ⟨chain', final, hchain', hrun, hinexact⟩
    obtain rfl := Except.ok.inj (hchain.symm.trans hchain')
    obtain ⟨quantity, heval, hkept, -⟩ := (hunmarked final).1 ⟨hrun, hinexact⟩
    exact hvalue.fits_of_lossless hprecision hread (hwritable operands hread) heval hkept
  · obtain ⟨quantity, -, hrun⟩ := hexact hfits
    exact ⟨chain, _, hchain, hrun, rfl⟩
  · obtain ⟨quantity, hnumber, hrun⟩ := hexact hfits
    have hevaluate : (calculator.evaluate source register).1 = .ok { quantity.number with
        value := some (calculator.context.finalize quantity.value false) } := by
      rw [evaluate_of_parse hparse, Calculator.evaluateWords_eq, hchain]
      show Chain.inEvaluation (chain.evaluate calculator.context) = _
      rw [Chain.evaluate_eq, hrun]
      rfl
    refine ⟨_, _, hevaluate, rfl, ?_⟩
    rw [Context.toRat_finalize_exact, hnumber]

/-- All digits are kept, and tiny results as well. -/
def unlimited : Context := { precision := 0, snap := false }

/-- The tree of `1.5^2`. -/
def squareTree : Tree Word :=
  .binary .pow (.plain ['^'] .operator 3) (.leaf (.plain "1.5".toList .number 0))
    (.leaf (.plain ['2'] .number 4))

/-- A square of three digits. -/
theorem unlimited_precision_exact_iff_square :
    (parse "1.5^2".toList {}).1 = .ok squareTree.words ∧
      squareTree.Denotes unlimited.Admits (InDigits 10) (toRat ⟨225, 2⟩) ∧
      ((∃ chain final, Chain.ofWords squareTree.words none unlimited = .ok chain ∧
        chain.run unlimited chain.links.length = .ok final ∧ final.inexact = false) ↔
          squareTree.Denotes unlimited.Admits (InDigits 10) (toRat ⟨225, 2⟩)) ∧
      ∃ number value, (Calculator.evaluate { context := unlimited } "1.5^2".toList none).1 =
        .ok number ∧ number.value = some value ∧ value.toRat = toRat ⟨225, 2⟩ := by
  have hparse : (parse "1.5^2".toList {}).1 = .ok squareTree.words := by decide +kernel
  have hwrites : squareTree.Writes squareTree.words := by
    refine ⟨?_, ?_, rfl⟩
    · simp only [squareTree, Tree.Spelled, Word.IsOperand]
      decide
    · simp only [squareTree, Tree.Graded]
      decide
  have hdenotes : ∀ power : ℚ → Prop, power (toRat ⟨225, 2⟩) →
      squareTree.Denotes unlimited.Admits power (toRat ⟨225, 2⟩) := by
    intro power hpower
    have hbase : unlimited.Admits (toRat ⟨15, 1⟩) :=
      Context.admits_of_leadingExponent (by decide) (by decide) (by decide) _
    have hexponent : unlimited.Admits (toRat ⟨2, 0⟩) :=
      Context.admits_of_leadingExponent (by decide) (by decide) (by decide) _
    have hresult : unlimited.Admits (toRat ⟨225, 2⟩) :=
      Context.admits_of_leadingExponent (by decide) (by decide) (by decide) _
    exact .operation _ (.literal rfl (by decide) hbase) (.literal rfl (by decide) hexponent)
      ⟨2, by norm_num [toRat], by decide, by norm_num [toRat]⟩ hresult fun _ => hpower
  have hfits := hdenotes (InDigits 10) ⟨225, -2, by norm_num, rfl⟩
  have hwritable : ∀ operands, squareTree.traverse (Quantity.read unlimited none) = .ok operands →
      operands.Writable unlimited := by decide +kernel
  obtain ⟨hunmarked, hexact⟩ := unlimited_precision_exact_iff { context := unlimited }
    "1.5^2".toList none squareTree.words squareTree (toRat ⟨225, 2⟩) rfl hparse hwrites
    (hdenotes _ trivial) hwritable
  exact ⟨hparse, hfits, hunmarked, hexact hfits⟩

/-- The tree of `99999^3`. -/
def cubeTree : Tree Word :=
  .binary .pow (.plain ['^'] .operator 5) (.leaf (.plain "99999".toList .number 0))
    (.leaf (.plain ['3'] .number 6))

/-- A cube of fifteen digits is rounded to ten although all digits are to be kept. -/
theorem cube_rounded_to_ten_digits :
    (parse "99999^3".toList {}).1 = .ok cubeTree.words ∧ cubeTree.Writes cubeTree.words ∧
      cubeTree.Denotes unlimited.Admits (fun _ => True) (toRat ⟨999970000299999, 0⟩) ∧
      ((Chain.ofWords cubeTree.words none unlimited).bind fun chain =>
        Chain.inEvaluation (chain.run unlimited chain.links.length)).map Chain.inexact =
          .ok true ∧
      (Calculator.evaluate { context := unlimited } "99999^3".toList none).1.map Number.value =
        .ok (some ⟨9999700003000000000000000, 10⟩) ∧
      toRat ⟨9999700003000000000000000, 10⟩ ≠ toRat ⟨999970000299999, 0⟩ := by
  refine ⟨by decide +kernel, ⟨?_, ?_, rfl⟩, ?_, by decide +kernel, by decide +kernel,
    by norm_num [toRat]⟩
  · simp only [cubeTree, Tree.Spelled, Word.IsOperand]
    decide
  · simp only [cubeTree, Tree.Graded]
    decide
  · have hbase : unlimited.Admits (toRat ⟨99999, 0⟩) :=
      Context.admits_of_leadingExponent (by decide) (by decide) (by decide) _
    have hexponent : unlimited.Admits (toRat ⟨3, 0⟩) :=
      Context.admits_of_leadingExponent (by decide) (by decide) (by decide) _
    have hresult : unlimited.Admits (toRat ⟨999970000299999, 0⟩) :=
      Context.admits_of_leadingExponent (by decide) (by decide) (by decide) _
    exact .operation _ (.literal rfl (by decide) hbase) (.literal rfl (by decide) hexponent)
      ⟨3, by norm_num [toRat], by decide, by norm_num [toRat]⟩ hresult fun _ => trivial

end DeskCalc
