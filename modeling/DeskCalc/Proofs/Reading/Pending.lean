import DeskCalc.Proofs.Reading.Stance

/-
What the tokens read so far leave open.

`Pending` keeps, for every open bracket, the phrases that are complete inside it, so
that a closing token finds the phrase it completes.  Every path keeps such an account
(`Stands.of_path`), and one that leaves nothing open has read an expression
(`Path.derives`).
-/
namespace DeskCalc
namespace Grammar

/-- Behind the start an operand is due, inside the given brackets.  The first of the two
places is where the innermost expression starts, the second where the operand is due. -/
inductive Pending (start : Place) : List Bracket → Place → Place → Prop where
  | start : Pending start [] start start
  | sign {s : List Bracket} {p q r t : Place} {words : List Word} {word : Word}
      (outer : Pending start s p q) (operand : Derives .operand q words r)
      (signed : Token Sign r word t) : Pending start s p t
  | group {s : List Bracket} {p q r : Place} {word : Word} (outer : Pending start s p q)
      (opened : Token (Mark '(' .leftParen) q word r) : Pending start (.group :: s) r r
  | call {s : List Bracket} {p q r t : Place} {name word : Word} (outer : Pending start s p q)
      (named : Token BuiltinName q name r) (opened : Token (Mark '(' .leftParen) r word t) :
      Pending start (.call :: s) t t
  | argument {s : List Bracket} {p q r t u v : Place} {name word comma : Word}
      {words : List Word} (outer : Pending start s p q) (named : Token BuiltinName q name r)
      (opened : Token (Mark '(' .leftParen) r word t) (listed : Derives .list t words u)
      (separated : Token (Mark ',' .comma) u comma v) : Pending start (.call :: s) v v

section Pending

variable {start p q r t : Place} {s : List Bracket} {words : List Word}

theorem Pending.start_eq (h : Pending start [] p q) : p = start := by
  generalize hs : ([] : List Bracket) = s at h
  induction h with
  | start => rfl
  | sign _ _ _ ih => exact ih hs
  | _ => cases hs

/-- An operand completes the innermost expression. -/
theorem Pending.expression (h : Pending start s p q) (hoperand : Derives .operand q words r) :
    ∃ more, Derives .expression p more r := by
  induction h generalizing words r with
  | sign _ hfirst hsign ih =>
    obtain ⟨more, hmore⟩ := ih hfirst
    exact ⟨_, hmore.append hsign (.single hoperand)⟩
  | _ => exact ⟨words, .single hoperand⟩

theorem Pending.group_opened (h : Pending start (.group :: s) p q) :
    ∃ r t word, Pending start s r t ∧ Token (Mark '(' .leftParen) t word p := by
  generalize hs : Bracket.group :: s = s' at h
  induction h with
  | sign _ _ _ ih => exact ih hs
  | group houter hopen =>
    cases hs
    exact ⟨_, _, _, houter, hopen⟩
  | _ => cases hs

/-- The call whose arguments an expression is due in: its name, the `(`, and the list of
arguments before that expression, if there are any. -/
theorem Pending.call_opened (h : Pending start (.call :: s) p q) :
    ∃ r t u v name word, Pending start s r t ∧ Token BuiltinName t name u ∧
      Token (Mark '(' .leftParen) u word v ∧
      (v = p ∨ ∃ words w comma, Derives .list v words w ∧ Token (Mark ',' .comma) w comma p) := by
  generalize hs : Bracket.call :: s = s' at h
  induction h with
  | sign _ _ _ ih => exact ih hs
  | call houter hname hopen =>
    cases hs
    exact ⟨_, _, _, _, _, _, houter, hname, hopen, Or.inl rfl⟩
  | argument houter hname hopen hlist hcomma =>
    cases hs
    exact ⟨_, _, _, _, _, _, houter, hname, hopen, Or.inr ⟨_, _, _, hlist, hcomma⟩⟩
  | _ => cases hs

/-- An operand in a call completes a list of arguments. -/
theorem Pending.listed (h : Pending start (.call :: s) p q)
    (hoperand : Derives .operand q words r) :
    ∃ t u v w name word more, Pending start s t u ∧ Token BuiltinName u name v ∧
      Token (Mark '(' .leftParen) v word w ∧ Derives .list w more r := by
  obtain ⟨more, hexpression⟩ := h.expression hoperand
  obtain ⟨t, u, v, w, name, word, houter, hname, hopen, rfl | ⟨_, _, _, hlist, hcomma⟩⟩ :=
    h.call_opened
  · exact ⟨t, u, v, w, name, word, _, houter, hname, hopen, .last hexpression⟩
  · exact ⟨t, u, v, w, name, word, _, houter, hname, hopen,
      hlist.append_list hcomma (.last hexpression)⟩

/-- A `)` completes an operand outside of the bracket. -/
theorem Pending.closed {bracket : Bracket} {closing : Word} (h : Pending start (bracket :: s) p q)
    (hoperand : Derives .operand q words r)
    (hcomma : r = t ∨ bracket = .call ∧ OptionalComma r t) {u : Place}
    (hclose : Token (Mark ')' .rightParen) t closing u) :
    ∃ v w more, Pending start s v w ∧ Derives .operand w more u := by
  cases bracket with
  | group =>
    obtain rfl : r = t := by
      rcases hcomma with rfl | ⟨hcall, -⟩
      · rfl
      · cases hcall
    obtain ⟨v, w, word, houter, hopen⟩ := h.group_opened
    obtain ⟨more, hexpression⟩ := h.expression hoperand
    exact ⟨v, w, _, houter, .group hopen hexpression hclose⟩
  | call =>
    have hoptional : OptionalComma r t := hcomma.elim Or.inl And.right
    obtain ⟨v, w, _, _, _, _, _, houter, hname, hopen, hlist⟩ := h.listed hoperand
    exact ⟨v, w, _, houter, .call hname hopen hlist hoptional hclose⟩

end Pending

/-- What has been read up to a place, told by the stance that is taken there. -/
def Stands (start : Place) : Stance → Place → Prop
  | ⟨.operand, s⟩, q => ∃ p, Pending start s p q
  | ⟨.arguments, s⟩, q => ∃ p r name, Pending start s p r ∧ Token BuiltinName r name q
  | ⟨.operator, s⟩, q => ∃ p r words, Pending start s p r ∧ Derives .operand r words q
  | ⟨.closing, s⟩, q => ∃ p r t words comma, Pending start (.call :: s) p r ∧
      Derives .operand r words t ∧ Token (Mark ',' .trailingComma) t comma q

variable {start p q : Place} {c d : Stance} {word : Word} {words : List Word}

theorem Stands.move (h : Stands start c p) (hmove : Move c p word d q) : Stands start d q := by
  cases hmove with
  | numeral hnumber =>
    obtain ⟨r, hpending⟩ := h
    exact ⟨r, p, _, hpending, .numeral hnumber⟩
  | group hopen =>
    obtain ⟨r, hpending⟩ := h
    exact ⟨q, .group hpending hopen⟩
  | name hname =>
    obtain ⟨r, hpending⟩ := h
    exact ⟨r, p, _, hpending, hname⟩
  | call hopen =>
    obtain ⟨r, t, name, hpending, hname⟩ := h
    exact ⟨q, .call hpending hname hopen⟩
  | sign hsign =>
    obtain ⟨r, t, words, hpending, hoperand⟩ := h
    exact ⟨r, .sign hpending hoperand hsign⟩
  | close hclose =>
    obtain ⟨r, t, words, hpending, hoperand⟩ := h
    exact hpending.closed hoperand (Or.inl rfl) hclose
  | comma hcomma =>
    obtain ⟨r, t, words, hpending, hoperand⟩ := h
    obtain ⟨_, _, _, _, _, _, _, houter, hname, hopen, hlist⟩ := hpending.listed hoperand
    exact ⟨q, .argument houter hname hopen hlist hcomma⟩
  | trailing hcomma =>
    obtain ⟨r, t, words, hpending, hoperand⟩ := h
    exact ⟨r, t, p, words, _, hpending, hoperand, hcomma⟩
  | last hclose =>
    obtain ⟨r, t, u, words, comma, hpending, hoperand, hcomma⟩ := h
    exact hpending.closed hoperand (Or.inr ⟨rfl, Or.inr ⟨comma, hcomma⟩⟩) hclose

theorem Stands.path (h : Stands start c p) (hpath : Path c p words d q) : Stands start d q := by
  induction hpath with
  | nil => exact h
  | cons hmove _ ih => exact ih (h.move hmove)

theorem Stands.of_path (h : Path .initial start words c q) : Stands start c q :=
  Stands.path (c := .initial) ⟨start, .start⟩ h

/-- A path that leaves nothing open has read an expression. -/
theorem Path.derives (h : Path .initial start words .complete q) :
    ∃ more, Derives .expression start more q := by
  obtain ⟨p, r, more, hpending, hoperand⟩ := Stands.of_path h
  obtain ⟨all, hexpression⟩ := hpending.expression hoperand
  rw [hpending.start_eq] at hexpression
  exact ⟨all, hexpression⟩

end Grammar
end DeskCalc
