import DeskCalc.Proofs.Diagnosis.Coverage
import DeskCalc.Proofs.Reading.Acceptance
import DeskCalc.Proofs.Reading.Completion
import Mathlib.Data.Nat.Find

/-
Openings of accepted sources.

A row of tokens is viable if some accepted source starts with it.  For tokens that are
read from a source this is the same as going from stance to stance (`viable_iff_path`),
so the longest viable row is found by reading on until nothing is admitted.
-/
namespace DeskCalc
namespace Grammar

/-! ## Tokens of a source -/

/-- Tokens read one behind the other. -/
inductive Scans : Place → List Word → Place → Prop where
  | nil {p : Place} : Scans p [] p
  | cons {p q r : Place} {word : Word} {words : List Word} (first : Token Recognized p word q)
      (rest : Scans q words r) : Scans p (word :: words) r

/-- The tokens that reading a source has found, trailing commas included. -/
def tokensOf (source : Text) : List Word := tokens (expression { source }).2.words

def Accepted (source : Text) : Prop := ∃ words, (parse source {}).1 = .ok words

/-- What a token is, wherever it stands. -/
def face (word : Word) : WordKind × Text := (word.kind, word.text)

/-- The tokens are the first ones of some accepted source. -/
def Viable (words : List Word) : Prop :=
  ∃ source, Accepted source ∧ words.map face <+: (tokensOf source).map face

/-- The longest viable row of tokens at the start of a source, and the place behind it. -/
structure Longest (source : Text) (words : List Word) (stop : Place) : Prop where
  scans : Scans (.start source) words stop
  viable : Viable words
  longest : ∀ more q, Scans (.start source) more q → Viable more → more.length ≤ words.length

variable {source : Text} {c d : Stance} {p q r : Place} {word : Word} {words more : List Word}

theorem Path.scans (h : Path c p words d q) : Scans p words q := by
  induction h with
  | nil => exact .nil
  | cons hmove _ ih => exact .cons hmove.token ih

theorem Scans.snoc (h : Scans p words q) (htoken : Token Recognized q word r) :
    Scans p (words ++ [word]) r := by
  induction h with
  | nil => exact .cons htoken .nil
  | cons hfirst _ ih => exact .cons hfirst (ih htoken)

theorem Scans.length_le (h : Scans p words q) :
    words.length + Text.byteSize q.rest ≤ Text.byteSize p.rest := by
  induction h with
  | nil => simp
  | cons htoken _ ih =>
    have hbefore := (htoken.before (Recognized.ne_nil htoken.spelled)).1
    rw [List.length_cons]
    omega

/-- A path goes along any tokens of the same kinds. -/
theorem Path.of_kinds (h : Path c p words d q) {p' q' : Place} (hscans : Scans p' more q')
    (hkinds : more.map Word.kind = words.map Word.kind) : Path c p' more d q' := by
  induction h generalizing p' more with
  | nil =>
    obtain rfl : more = [] := List.map_eq_nil_iff.1 hkinds
    cases hscans
    exact .nil
  | cons hmove _ ih =>
    cases hscans with
    | nil => cases hkinds
    | cons htoken hrest =>
      obtain ⟨hkind, hkinds⟩ := List.cons.inj hkinds
      exact .cons (hmove.of_kind htoken hkind) (ih hrest hkinds)

/-! ## Accepted sources -/

/-- The tokens of an accepted source are a complete path over all of it. -/
theorem Accepted.path (h : Accepted source) : ∃ stop,
    Path .initial (.start source) (tokensOf source) .complete stop ∧ stop.Blank := by
  obtain ⟨words, hwords⟩ := h
  cases hread : Reader.expression (.start source) with
  | none => exact absurd hwords (parse_of_none hread)
  | some found =>
    obtain ⟨found, stop⟩ := found
    obtain ⟨log, hrun, -⟩ := reads_expression.matched (State.at_start source {}) hread
    have htokens : tokensOf source = tokens found := by
      rw [tokensOf, hrun]
      rfl
    rw [htokens]
    exact ⟨stop, path_of_expression hread, ((parse_of_some hread).1 hwords).2⟩

theorem Path.accepted (h : Path .initial (.start source) words .complete q) (hblank : q.Blank) :
    Accepted source := by
  obtain ⟨more, hderives⟩ := h.derives
  exact ⟨more, parse_eq_ok_iff.2 ⟨q, hderives, hblank⟩⟩

/-- A comma leaves an operand or a `)` to come. -/
theorem Move.demand_of_comma (h : Move c p word d q) (hcomma : IsComma word) :
    d.demand ≠ .operator := by
  have hkind : ∀ {kind}, word.kind = kind → kind = .comma ∨ kind = .trailingComma := by
    rintro _ rfl
    exact hcomma
  cases h with
  | numeral h =>
    have hoperand := h.spelled.kind
    rcases hcomma with hk | hk <;> rw [hk] at hoperand <;> cases hoperand
  | group h | call h | name h | sign h | comma h | trailing h => exact fun hd => by cases hd
  | close h | last h => exact absurd (hkind h.spelled.1) (by decide)

theorem Path.not_endsInComma (h : Path c p words ⟨.operator, []⟩ q) : ¬ EndsInComma words := by
  rintro ⟨comma, hlast, hcomma⟩
  obtain ⟨front, rfl⟩ := List.getLast?_eq_some_iff.1 hlast
  obtain ⟨e, r, -, hmove⟩ := h.split
  cases hmove with
  | cons hmove hrest =>
    cases hrest
    exact hmove.demand_of_comma hcomma rfl

/-- From one place there is at most one complete path to the end. -/
theorem Path.unique (h : Path c p words .complete q) (hq : q.Blank)
    (h' : Path c p more .complete r) (hr : r.Blank) : words = more := by
  have hshorter : ∀ {words more : List Word} {q r : Place}, Path c p words .complete q → q.Blank →
      Path c p more .complete r → words.length ≤ more.length → words = more := by
    intro words more q r h hq h' hle
    obtain ⟨same, rest, m, rfl, -, -, hrest, hend⟩ := h.compare h' hle
    cases hrest with
    | nil =>
      rw [List.append_nil] at h' ⊢
      rcases hend with ⟨rfl, -⟩ | ⟨-, hcomma⟩
      · rfl
      · exact absurd hcomma h.not_endsInComma
    | cons hmove _ =>
      have htoken := hmove.token
      exact absurd hq (htoken.not_blank (Recognized.ne_nil htoken.spelled))
  rcases Nat.le_total words.length more.length with hle | hle
  · exact hshorter h hq h' hle
  · exact (hshorter h' hr h hle).symm

/-! ## Viable tokens -/

/-- Tokens of the same kinds as viable ones lead somewhere in an accepted source. -/
theorem Viable.path (h : Viable words) : ∃ other same c q,
    Path .initial (.start other) same c q ∧ same.map Word.kind = words.map Word.kind := by
  obtain ⟨other, haccepted, rest, hrest⟩ := h
  obtain ⟨stop, hpath, -⟩ := haccepted.path
  obtain ⟨same, more, hsplit, hsame, -⟩ := List.map_eq_append_iff.1 hrest.symm
  rw [hsplit] at hpath
  obtain ⟨c, q, hfirst, -⟩ := hpath.split
  have hkinds := congrArg (List.map Prod.fst) hsame
  rw [List.map_map, List.map_map] at hkinds
  exact ⟨other, same, c, q, hfirst, hkinds⟩

/-- Tokens of a source are viable exactly if they lead from stance to stance. -/
theorem viable_iff_path (hscans : Scans (.start source) words q) :
    Viable words ↔ ∃ c, Path .initial (.start source) words c q := by
  constructor
  · intro hviable
    obtain ⟨_, _, c, _, hpath, hkinds⟩ := hviable.path
    exact ⟨c, hpath.of_kinds hscans hkinds.symm⟩
  · rintro ⟨c, hpath⟩
    obtain ⟨before, completion, more, stop, -, -, hcompleted, hblank⟩ := hpath.completed
    have haccepted := hcompleted.accepted hblank
    obtain ⟨stop', htokens, hblank'⟩ := haccepted.path
    refine ⟨_, haccepted, ?_⟩
    rw [htokens.unique hblank' hcompleted hblank, List.map_append]
    exact List.prefix_append _ _

/-- There is a longest viable row of tokens at the start of every source. -/
theorem exists_longest (source : Text) : ∃ words q, Longest source words q := by
  classical
  let P : Nat → Prop := fun n =>
    ∃ words q, Scans (.start source) words q ∧ Viable words ∧ words.length = n
  have hstart : Scans (.start source) [] (.start source) := .nil
  have hzero : P 0 := ⟨[], _, hstart, (viable_iff_path hstart).2 ⟨_, .nil⟩, rfl⟩
  obtain ⟨words, q, hscans, hviable, hlength⟩ :=
    Nat.findGreatest_spec (P := P) (Nat.zero_le (Text.byteSize source)) hzero
  refine ⟨words, q, hscans, hviable, fun more r hmore hviable' => ?_⟩
  have hbound := hmore.length_le
  rw [hlength]
  exact Nat.le_findGreatest (Nat.le_trans (Nat.le_add_right _ _) hbound)
    ⟨more, r, hmore, hviable', rfl⟩

end Grammar
end DeskCalc
