import DeskCalc.Proofs.Decimal.Plain
import DeskCalc.Proofs.Tiling
import Mathlib.Data.List.Induction

/-
How many digits a literal has.

A decimal literal has no more digits than characters.  One of another base has more, because
its word carries the decimal digits of its value, but not twice as many.
-/
namespace DeskCalc

open Text

/-! ## Reading digits -/

theorem Text.positional_lt {radix : ℕ} {digits : Text} (h : ∀ c ∈ digits, digitValue c < radix) :
    positional radix digits < radix ^ digits.length := by
  induction digits using List.reverseRecOn with
  | nil => exact Nat.one_pos
  | append_singleton digits c ih =>
    have hlead := ih fun d hd => h d (List.mem_append_left _ hd)
    have hlast := h c (List.mem_append_right _ (List.mem_singleton.2 rfl))
    rw [positional_snoc, List.length_append, List.length_singleton, pow_succ]
    calc positional radix digits * radix + digitValue c
        < (positional radix digits + 1) * radix := by rw [Nat.add_one_mul]; omega
      _ ≤ radix ^ digits.length * radix := Nat.mul_le_mul_right radix hlead

theorem Text.positional_digits_lt {digits : Text} (h : ∀ c ∈ digits, isDigit c = true) :
    positional 10 digits < 10 ^ digits.length := by
  refine positional_lt fun c hc => ?_
  have hdigit := h c hc
  have hrange := Lexeme.between_iff.1 hdigit
  have hnine : '9'.toNat = 57 := rfl
  rw [digitValue_of_isDigit hdigit]
  omega

theorem Text.unsigned?_lt {text : Text} {n : ℕ} (h : unsigned? text = some n) :
    text ≠ [] ∧ n < 10 ^ text.length := by
  unfold unsigned? at h
  split at h
  · cases h
  · split at h
    · cases h
    · dsimp only at h
      split at h
      · next hdigits =>
        obtain rfl := Option.some.inj h
        refine ⟨List.cons_ne_nil _ _, ?_⟩
        exact (positional_digits_lt (List.all_eq_true.1 hdigits)).trans_le
          (Nat.pow_le_pow_right (by decide) (List.length_filter_le _ _))
      · cases h

theorem Text.natural?_lt {text : Text} {n : ℕ} (h : natural? text = some n) :
    text ≠ [] ∧ n < 10 ^ text.length := by
  unfold natural? at h
  split at h
  · cases h
  · next rest =>
    refine ⟨List.cons_ne_nil _ _, (unsigned?_lt h).2.trans_le ?_⟩
    exact Nat.pow_le_pow_right (by decide) (Nat.le_succ _)
  · exact unsigned?_lt h

theorem Text.integer?_lt {text : Text} {n : ℤ} (h : integer? text = some n) :
    text ≠ [] ∧ n.natAbs < 10 ^ text.length := by
  unfold integer? at h
  split at h
  · cases h
  · next rest _ =>
    obtain ⟨_, hread, rfl⟩ := Option.map_eq_some_iff.1 h
    obtain ⟨m, hm, hcast⟩ := Option.bind_eq_some_iff.1 hread
    obtain rfl := Option.some.inj hcast
    refine ⟨List.cons_ne_nil _ _, ?_⟩
    rw [Int.natAbs_neg, Int.natAbs_natCast]
    exact (natural?_lt hm).2.trans_le (Nat.pow_le_pow_right (by decide) (Nat.le_succ _))
  · obtain ⟨_, hread, rfl⟩ := Option.map_eq_some_iff.1 h
    obtain ⟨m, hm, hcast⟩ := Option.bind_eq_some_iff.1 hread
    obtain rfl := Option.some.inj hcast
    exact natural?_lt hm

theorem Text.length_splitAt? {mark : Char} {text before behind : Text}
    (h : splitAt? mark text = some (before, behind)) :
    before.length + behind.length + 1 = text.length := by
  induction text generalizing before with
  | nil => cases h
  | cons c rest ih =>
    rw [splitAt?] at h
    split at h
    · obtain ⟨rfl, rfl⟩ := Prod.mk.inj (Option.some.inj h)
      simp
    · obtain ⟨⟨front, back⟩, hsplit, heq⟩ := Option.map_eq_some_iff.1 h
      obtain ⟨rfl, rfl⟩ := Prod.mk.inj heq
      have hrest := ih hsplit
      simp only [List.length_cons]
      omega

namespace Decimal

theorem length_splitPoint (base : Text) : (splitPoint base).1.length ≤ base.length := by
  unfold splitPoint
  split
  · exact le_rfl
  · next lead fraction hsplit =>
    have hlength := length_splitAt? hsplit
    rw [List.length_append]
    omega

/-- A decimal that is read has no more digits than its text has characters. -/
theorem digits_read? {text : Text} {x : Decimal} (h : read? text = some x) :
    x.digits ≤ text.length := by
  have hpart : ∀ {isPart : Char → Bool},
      (splitPoint (text.takeWhile isPart)).1.length ≤ text.length :=
    (length_splitPoint _).trans (List.takeWhile_prefix _).length_le
  have hchecked : ∀ {digits : Text} {scale : ℤ}, digits.length ≤ text.length →
      (if saturate scale = scale then do
        let mantissa ← integer? digits
        some ⟨mantissa, scale⟩
      else none) = some x → x.digits ≤ text.length := by
    intro digits scale hlength h
    split at h
    · obtain ⟨mantissa, hmantissa, h⟩ := Option.bind_eq_some_iff.1 h
      obtain rfl := Option.some.inj h
      obtain ⟨hne, hlt⟩ := integer?_lt hmantissa
      exact (digitCount_le hlt (List.length_pos_iff.2 hne)).trans hlength
    · cases h
  unfold read? at h
  dsimp only at h
  split at h
  · exact hchecked hpart h
  · obtain ⟨exponent, -, h⟩ := Option.bind_eq_some_iff.1 h
    exact hchecked hpart h

end Decimal

/-! ## The words of a source -/

namespace Lexeme

theorem length_normalDecimal (literal : Text) :
    (normalDecimal literal).length ≤ literal.length := by
  rw [normalDecimal, List.length_map]
  cases literal with
  | nil => exact le_rfl
  | cons c rest =>
    rw [after?]
    split
    · exact Nat.le_succ _
    · exact le_rfl

/-- Two decimal digits hold more than one digit of another base. -/
theorem length_radixDigits {isDigit : Char → Bool} {radix size : ℕ} {rest value : Text}
    (hradix : radix ≤ 16) (hdigits : ∀ c, isDigit c = true → digitValue c < radix)
    (h : radixDigits isDigit radix rest = some (value, size)) : value.length ≤ 2 * size := by
  unfold radixDigits at h
  split at h
  · cases h
  · obtain ⟨rfl, rfl⟩ := Prod.mk.inj (Option.some.inj h)
    generalize hrow : rest.takeWhile isDigit = row
    have hvalue : positional radix row < 10 ^ (2 * row.length) :=
      calc positional radix row
          < radix ^ row.length := positional_lt fun c hc =>
            hdigits c (List.mem_takeWhile_imp (hrow ▸ hc))
        _ ≤ (10 ^ 2) ^ row.length := Nat.pow_le_pow_left (hradix.trans (by decide)) _
        _ = 10 ^ (2 * row.length) := (pow_mul 10 2 row.length).symm
    rw [length_ofNat]
    exact digitCount_le (hvalue.trans_le (Nat.pow_le_pow_right (by decide) (by omega))) (by omega)

theorem digitValue_lt_of_isHexDigit {c : Char} (h : isHexDigit c = true) : digitValue c < 16 := by
  have hdigits : '0'.toNat = 48 ∧ '9'.toNat = 57 := ⟨rfl, rfl⟩
  have hlower : 'a'.toNat = 97 ∧ 'f'.toNat = 102 ∧ 'z'.toNat = 122 := ⟨rfl, rfl, rfl⟩
  have hupper : 'A'.toNat = 65 ∧ 'F'.toNat = 70 := ⟨rfl, rfl⟩
  simp only [isHexDigit, isDigit, Bool.or_eq_true, between_iff] at h
  simp only [digitValue, isDigit, between_iff]
  split
  · omega
  · split
    · omega
    · omega

theorem digitValue_lt_of_isOctalDigit {c : Char} (h : isOctalDigit c = true) :
    digitValue c < 8 := by
  have hrange := between_iff.1 h
  have hseven : '7'.toNat = 55 := rfl
  have hnine : '9'.toNat = 57 := rfl
  have hdigit : isDigit c = true := between_iff.2 (by omega)
  rw [digitValue_of_isDigit hdigit]
  omega

theorem length_numeric {text value : Text} {lexeme : Lexeme} {kind : WordKind} {size : ℕ}
    (h : numeric? text = some (lexeme, size))
    (hvalue : Grammar.operandOf? lexeme = some (kind, value)) : value.length ≤ 2 * size := by
  have hdecimal : ∀ {text : Text}, (takeDecimal? text).map decimalOf = some (lexeme, size) →
      value.length ≤ 2 * size := by
    intro text h
    obtain ⟨literal, -, heq⟩ := Option.map_eq_some_iff.1 h
    obtain ⟨rfl, rfl⟩ := Prod.mk.inj heq
    obtain ⟨-, rfl⟩ := Prod.mk.inj (Option.some.inj hvalue)
    have := length_normalDecimal literal
    omega
  unfold numeric? at h
  split at h
  · next mark rest =>
    dsimp only at h
    rcases Option.or_eq_some_iff.1 h with hmarked | ⟨-, h⟩
    · split at hmarked
      · obtain ⟨⟨digits, n⟩, hdigits, heq⟩ := Option.map_eq_some_iff.1 hmarked
        obtain ⟨rfl, rfl⟩ := Prod.mk.inj heq
        obtain ⟨-, rfl⟩ := Prod.mk.inj (Option.some.inj hvalue)
        exact length_radixDigits le_rfl (fun _ => digitValue_lt_of_isHexDigit) hdigits
      · split at hmarked
        · obtain ⟨⟨digits, n⟩, hdigits, heq⟩ := Option.map_eq_some_iff.1 hmarked
          obtain ⟨rfl, rfl⟩ := Prod.mk.inj heq
          obtain ⟨-, rfl⟩ := Prod.mk.inj (Option.some.inj hvalue)
          exact length_radixDigits (by decide) (fun _ => digitValue_lt_of_isOctalDigit) hdigits
        · cases hmarked
    · exact hdecimal h
  · exact hdecimal h

theorem length_register {text value : Text} {lexeme : Lexeme} {kind : WordKind} {size : ℕ}
    (h : register? text = some (lexeme, size))
    (hvalue : Grammar.operandOf? lexeme = some (kind, value)) : value.length = size := by
  unfold register? at h
  split at h
  · split at h
    · obtain ⟨rfl, rfl⟩ := Prod.mk.inj (Option.some.inj h)
      obtain ⟨-, rfl⟩ := Prod.mk.inj (Option.some.inj hvalue)
      rfl
    · split at h
      · obtain ⟨rfl, rfl⟩ := Prod.mk.inj (Option.some.inj h)
        obtain ⟨-, rfl⟩ := Prod.mk.inj (Option.some.inj hvalue)
        rfl
      · cases h
  · split at h
    · obtain ⟨rfl, rfl⟩ := Prod.mk.inj (Option.some.inj h)
      obtain ⟨-, rfl⟩ := Prod.mk.inj (Option.some.inj hvalue)
      rfl
    · cases h
  · cases h

end Lexeme

namespace Grammar

theorem Numeral.length_value {word : Word} {after : Text} (h : Numeral word after) :
    word.value.length ≤ 2 * word.text.length := by
  obtain ⟨lexeme, hfirst, hvalue, -⟩ := h
  generalize word.text ++ after = text at hfirst
  match text with
  | [] => cases hfirst
  | c :: rest =>
    rw [Lexeme.first?] at hfirst
    split at hfirst
    · have := Lexeme.length_register hfirst hvalue
      omega
    · split at hfirst
      · obtain ⟨rfl, -⟩ := Prod.mk.inj (Option.some.inj hfirst)
        cases hvalue
      · rcases Option.or_eq_some_iff.1 hfirst with hnumeric | ⟨-, hsymbol⟩
        · exact Lexeme.length_numeric hnumeric hvalue
        · obtain ⟨symbol, hc, heq⟩ := Option.map_eq_some_iff.1 hsymbol
          obtain ⟨rfl, -⟩ := Prod.mk.inj heq
          unfold Lexeme.symbol? at hc
          split at hc <;> cases hc <;> cases hvalue

theorem Recognized.length_value {word : Word} {after : Text} (h : Recognized word after) :
    word.value.length ≤ 2 * word.text.length := by
  have hown : word.value = word.text → word.value.length ≤ 2 * word.text.length := fun heq => by
    rw [heq]
    omega
  unfold Recognized at h
  split at h
  · exact h.length_value
  · exact h.length_value
  · exact h.length_value
  · exact hown h.2.1
  · exact hown h.2.1
  · exact hown h.2.1
  · exact hown h.2.1
  · exact hown h.2.1
  · exact hown h.2.1
  · cases h

/-- The normal form of a word is no longer than two copies of the text that is left. -/
theorem Path.length_value {c d : Stance} {p q : Place} {words : List Word}
    (h : Path c p words d q) : ∀ word ∈ words, word.value.length ≤ 2 * p.rest.length := by
  induction h with
  | nil => simp
  | @cons _ _ _ p q _ word words hmove _ ih =>
    have htoken := hmove.token
    have hskip : p.skip.rest.length ≤ p.rest.length := (List.dropWhile_suffix _).length_le
    rw [htoken.text, List.length_append] at hskip
    refine List.forall_mem_cons.2 ⟨?_, fun other hother => ?_⟩
    · have := htoken.spelled.length_value
      omega
    · have := ih other hother
      omega

theorem length_value_of_parse {source : Text} {log : Log} {words : List Word}
    (h : (parse source log).1 = .ok words) :
    ∀ word ∈ words, word.value.length ≤ 2 * source.length := by
  match hread : Reader.expression (.start source) with
  | none => exact absurd h (parse_of_none hread)
  | some (found, stop) =>
    obtain ⟨rfl, -⟩ := (parse_of_some hread).1 h
    intro word hword
    rw [← spoken_tokens] at hword
    exact (path_of_expression hread).length_value word (List.mem_filter.1 hword).1

end Grammar
end DeskCalc
