import DeskCalc.Decimal.Exponential

/-
Loops of the series, without a count of their rounds.

The loops that run have fuel for their rounds, and where the fuel ran out they would stop all the
same.  `Rounds` is a loop that has none: it says that a loop ends, after how many rounds, and
where.  A loop that runs on at least that much fuel ends in the same place
(`runRounds_of_rounds`).
-/
namespace DeskCalc

section Loop

variable {σ : Type} {round : σ → Option σ} {s t : σ} {count fuel : Nat}

/-- The loop ends in a state after so many rounds.  A round that leads nowhere is the end. -/
inductive Rounds (round : σ → Option σ) : σ → Nat → σ → Prop where
  | done {s : σ} (h : round s = none) : Rounds round s 0 s
  | again {s t u : σ} {count : Nat} (h : round s = some t) (rest : Rounds round t count u) :
      Rounds round s (count + 1) u

/-- The loop on fuel, and the rounds that it took. -/
def runRounds (round : σ → Option σ) : Nat → σ → σ × Nat
  | 0, s => (s, 0)
  | fuel + 1, s =>
      match round s with
      | none => (s, 0)
      | some t =>
          let (u, count) := runRounds round fuel t
          (u, count + 1)

/-- Fuel for the rounds that a loop takes is enough. -/
theorem runRounds_of_rounds (h : Rounds round s count t) (hfuel : count ≤ fuel) :
    runRounds round fuel s = (t, count) := by
  induction h generalizing fuel with
  | done h =>
    cases fuel with
    | zero => rfl
    | succ fuel => rw [runRounds, h]
  | again h _ ih =>
    cases fuel with
    | zero => exact absurd hfuel (Nat.not_succ_le_zero _)
    | succ fuel =>
      rw [runRounds, h]
      dsimp only
      rw [ih (Nat.le_of_succ_le_succ hfuel)]

theorem runRounds_count_le (fuel : Nat) (s : σ) : (runRounds round fuel s).2 ≤ fuel := by
  induction fuel generalizing s with
  | zero => exact Nat.le_refl 0
  | succ fuel ih =>
    rw [runRounds]
    split
    · exact Nat.zero_le _
    · exact Nat.succ_le_succ (ih _)

/-- A loop that stopped before the fuel was spent, or at an end, has ended. -/
theorem rounds_runRounds (h : round (runRounds round fuel s).1 = none) :
    Rounds round s (runRounds round fuel s).2 (runRounds round fuel s).1 := by
  induction fuel generalizing s with
  | zero => exact .done h
  | succ fuel ih =>
    rw [runRounds] at h ⊢
    split at h
    · next hround => exact .done hround
    · next t hround => exact .again hround (ih h)

/-- A loop with so many rounds left at most ends, if each round leaves one less. -/
theorem exists_rounds {Left : Nat → σ → Prop} (hlast : ∀ s, Left 0 s → round s = none)
    (hround : ∀ left s t, Left (left + 1) s → round s = some t → Left left t) (left : Nat)
    (s : σ) (h : Left left s) : ∃ count t, count ≤ left ∧ Rounds round s count t := by
  induction left generalizing s with
  | zero => exact ⟨0, s, Nat.le_refl 0, .done (hlast s h)⟩
  | succ left ih =>
    cases hnext : round s with
    | none => exact ⟨0, s, Nat.zero_le _, .done hnext⟩
    | some t =>
      obtain ⟨count, u, hcount, hrest⟩ := ih t (hround left s t h hnext)
      exact ⟨count + 1, u, Nat.succ_le_succ hcount, .again hnext hrest⟩

end Loop

namespace Decimal

/-! ## The rounds -/

/-- A root, unless the decimal is near one. -/
def rootRound (working : Nat) (m : Decimal) : Option Decimal :=
  if m.nearOne then none else m.sqrt?.map fun root => root.withDigits working

/-- A half, unless the decimal is below 0.01. -/
def halveRound (x : Decimal) : Option Decimal :=
  if (⟨1, 2⟩ : Decimal) ≤ x.abs then some (x / ofInt 2) else none

/-- A series that is being summed: the number that the next term comes from, the sum so far, and
the count that the last term was divided by. -/
structure Summation where
  last : Decimal
  sum : Decimal
  n : Nat

/-- Another term of the inverse hyperbolic tangent, unless it is below the cutoff. -/
def atanhRound (working : Nat) (square : Decimal) (cutoff : Int) (s : Summation) :
    Option Summation :=
  let power := (s.last * square).withDigits working
  let term := (power / ofInt (s.n + 2)).withDigits working
  if term.isZero || decide (term.adjustedExponent < cutoff) then none
  else some ⟨power, s.sum + term, s.n + 2⟩

/-- Another term of the exponential, unless it is below the cutoff. -/
def taylorRound (working : Nat) (x : Decimal) (s : Summation) : Option Summation :=
  let term := (s.last * x / ofInt (s.n + 1)).withDigits working
  if term.isZero || decide (term.adjustedExponent < -(working : Int)) then none
  else some ⟨term, s.sum + term, s.n + 1⟩

theorem pullToOne_eq (working fuel : Nat) (m : Decimal) :
    pullToOne working fuel m = runRounds (rootRound working) fuel m := by
  induction fuel generalizing m with
  | zero => rfl
  | succ fuel ih =>
    rw [pullToOne, runRounds, rootRound]
    split
    · rfl
    · cases m.sqrt? with
      | none => rfl
      | some root =>
        dsimp only [Option.map_some]
        rw [ih]

theorem halveToSmall_eq (fuel : Nat) (x : Decimal) :
    halveToSmall fuel x = runRounds halveRound fuel x := by
  induction fuel generalizing x with
  | zero => rfl
  | succ fuel ih =>
    rw [halveToSmall, runRounds, halveRound]
    split
    · dsimp only
      rw [ih]
    · rfl

theorem atanhTerms_eq (working : Nat) (square : Decimal) (cutoff : Int) (fuel : Nat)
    (power sum : Decimal) (n : Nat) : atanhTerms working square cutoff fuel power sum n =
      (runRounds (atanhRound working square cutoff) fuel ⟨power, sum, n⟩).1.sum := by
  induction fuel generalizing power sum n with
  | zero => rfl
  | succ fuel ih =>
    rw [atanhTerms_succ, runRounds, atanhRound]
    dsimp only
    split
    · rfl
    · rw [ih]

theorem taylorTerms_eq (working : Nat) (x : Decimal) (fuel : Nat) (term sum : Decimal)
    (n : Nat) : taylorTerms working x fuel term sum n =
      (runRounds (taylorRound working x) fuel ⟨term, sum, n⟩).1.sum := by
  induction fuel generalizing term sum n with
  | zero => rfl
  | succ fuel ih =>
    rw [taylorTerms_succ, runRounds, taylorRound]
    dsimp only
    split
    · rfl
    · rw [ih]

end Decimal
end DeskCalc
