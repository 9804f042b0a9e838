import DeskCalc.Proofs.Reading.RadixLiteral
import Mathlib.Computability.RegularExpressions

/-
The kinds of lexemes.

A kind is declared by the regular expression of its texts and by the lexeme that such a text
stands for.  The functions that read lexemes do not know these expressions; `mem_expression`
takes the texts of a kind apart into the pieces that these functions cut off.
-/
namespace DeskCalc
namespace Lexeme

inductive Symbol where
  | plus
  | minus
  | star
  | slash
  | caret
  | leftParen
  | rightParen
  | comma
  deriving DecidableEq, Repr

namespace Symbol

def char : Symbol → Char
  | plus => '+'
  | minus => '-'
  | star => '*'
  | slash => '/'
  | caret => '^'
  | leftParen => '('
  | rightParen => ')'
  | comma => ','

def lexeme : Symbol → Lexeme
  | plus => .plus
  | minus => .minus
  | star => .star
  | slash => .slash
  | caret => .caret
  | leftParen => .leftParen
  | rightParen => .rightParen
  | comma => .comma

end Symbol

inductive Kind where
  | decimal
  | based (base : Base)
  | register
  | registerRange
  | identifier
  | symbol (symbol : Symbol)
  deriving DecidableEq, Repr

/-- The kind that a lexeme is of. -/
def kind : Lexeme → Kind
  | .decimal _ => .decimal
  | .hex _ => .based .hex
  | .octal _ => .based .octal
  | .register _ => .register
  | .registerRange _ => .registerRange
  | .identifier _ => .identifier
  | .plus => .symbol .plus
  | .minus => .symbol .minus
  | .star => .symbol .star
  | .slash => .symbol .slash
  | .caret => .symbol .caret
  | .leftParen => .symbol .leftParen
  | .rightParen => .symbol .rightParen
  | .comma => .symbol .comma

namespace Kind

/-! ## Expressions -/

/-- The characters from one to another. -/
def between (low high : Char) : Text :=
  (List.range' low.toNat (high.toNat + 1 - low.toNat)).map Char.ofNat

def oneOf (chars : Text) : RegularExpression Char := (chars.map RegularExpression.char).sum

/-- Some of the characters, at least one. -/
def row (chars : Text) : RegularExpression Char := oneOf chars * .star (oneOf chars)

def optional (expression : RegularExpression Char) : RegularExpression Char := 1 + expression

def letters : Text := between 'a' 'z'

def digits : Text := between '0' '9'

def nameStarts : Text := letters ++ between 'A' 'Z' ++ ['_']

def baseDigits : Base → Text
  | .hex => digits ++ between 'a' 'f' ++ between 'A' 'F'
  | .octal => between '0' '7'

def sign : RegularExpression Char := optional (oneOf ['-', '+'])

def fraction : RegularExpression Char := optional (.char '.' * row digits)

def exponent : RegularExpression Char := optional (oneOf ['e', 'E'] * (sign * row digits))

/-- The texts of a kind. -/
def expression : Kind → RegularExpression Char
  | decimal => sign * (row digits * (fraction * exponent))
  | based base => .char '0' * (oneOf [base.mark, base.mark.toUpper] * row (baseDigits base))
  | register => .char '@' * oneOf (letters ++ ['@'])
  | registerRange => .char '@' * (oneOf letters * (.char '_' * oneOf letters))
  | identifier => oneOf nameStarts * .star (oneOf (nameStarts ++ digits))
  | symbol s => .char s.char

/-- What a text of a kind stands for.  A decimal is carried in lower case and without a plus
sign, a literal of another base by the decimal digits of its value, a name by itself. -/
def lexeme : Kind → Text → Lexeme
  | decimal, text =>
      .decimal ((if text.head? = some '+' then text.tail else text).map Char.toLower)
  | based base, text => base.lexeme (Nat.toDigits 10 (base.value (text.drop 2)))
  | register, text => .register text
  | registerRange, text => .registerRange text
  | identifier, text => .identifier text
  | symbol s, _ => s.lexeme

theorem kind_lexeme (kind : Kind) (text : Text) : (kind.lexeme text).kind = kind := by
  cases kind with
  | based base => cases base <;> rfl
  | symbol s => cases s <;> rfl
  | _ => rfl

/-! ## Texts of expressions -/

open RegularExpression (matches'_add matches'_mul matches'_star)

variable {text chars : Text} {c low high : Char} {expression : RegularExpression Char}

theorem mem_between (h : high.toNat < 0xD800) :
    c ∈ between low high ↔ (low ≤ c && c ≤ high) = true := by
  rw [between_iff, between, List.mem_map]
  constructor
  · rintro ⟨n, hn, rfl⟩
    have hrange := List.mem_range'_1.1 hn
    have hvalue : (Char.ofNat n).toNat = n := by
      rw [Char.ofNat, dif_pos (Or.inl (by omega))]
      rfl
    omega
  · intro hc
    exact ⟨c.toNat, List.mem_range'_1.2 (by omega), Char.ofNat_toNat c⟩

theorem mem_char : text ∈ (RegularExpression.char c).matches' ↔ text = [c] := Iff.rfl

theorem mem_oneOf : text ∈ (oneOf chars).matches' ↔ ∃ c ∈ chars, text = [c] := by
  induction chars with
  | nil => simp [oneOf, Language.notMem_zero]
  | cons d chars ih =>
    have hsum : oneOf (d :: chars) = RegularExpression.char d + oneOf chars := rfl
    rw [hsum, matches'_add, Language.mem_add, ih, mem_char, List.exists_mem_cons_iff]

theorem mem_star_oneOf : text ∈ (oneOf chars).star.matches' ↔ ∀ c ∈ text, c ∈ chars := by
  rw [matches'_star, Language.mem_kstar]
  constructor
  · rintro ⟨pieces, rfl, hpieces⟩ c hc
    obtain ⟨piece, hpiece, hmem⟩ := List.mem_flatten.1 hc
    obtain ⟨d, hd, rfl⟩ := mem_oneOf.1 (hpieces piece hpiece)
    exact List.mem_singleton.1 hmem ▸ hd
  · intro h
    refine ⟨text.map fun c => [c], by simp [← List.flatMap_def], fun piece hpiece => ?_⟩
    obtain ⟨c, hc, rfl⟩ := List.mem_map.1 hpiece
    exact mem_oneOf.2 ⟨c, h c hc, rfl⟩

theorem mem_optional :
    text ∈ (optional expression).matches' ↔ text = [] ∨ text ∈ expression.matches' := Iff.rfl

theorem mem_oneOf_mul : text ∈ (oneOf chars * expression).matches' ↔
    ∃ c ∈ chars, ∃ rest ∈ expression.matches', text = c :: rest := by
  rw [matches'_mul, Language.mem_mul]
  constructor
  · rintro ⟨lead, hlead, rest, hrest, rfl⟩
    obtain ⟨c, hc, rfl⟩ := mem_oneOf.1 hlead
    exact ⟨c, hc, rest, hrest, rfl⟩
  · rintro ⟨c, hc, rest, hrest, rfl⟩
    exact ⟨[c], mem_oneOf.2 ⟨c, hc, rfl⟩, rest, hrest, rfl⟩

theorem mem_char_mul : text ∈ (.char c * expression : RegularExpression Char).matches' ↔
    ∃ rest ∈ expression.matches', text = c :: rest := by
  rw [matches'_mul, Language.mem_mul]
  constructor
  · rintro ⟨lead, rfl, rest, hrest, rfl⟩
    exact ⟨rest, hrest, rfl⟩
  · rintro ⟨rest, hrest, rfl⟩
    exact ⟨[c], rfl, rest, hrest, rfl⟩

theorem mem_row : text ∈ (row chars).matches' ↔ text ≠ [] ∧ ∀ c ∈ text, c ∈ chars := by
  rw [row, mem_oneOf_mul]
  constructor
  · rintro ⟨c, hc, rest, hrest, rfl⟩
    exact ⟨List.cons_ne_nil _ _, List.forall_mem_cons.2 ⟨hc, mem_star_oneOf.1 hrest⟩⟩
  · rintro ⟨hne, hall⟩
    obtain ⟨c, rest, rfl⟩ := List.exists_cons_of_ne_nil hne
    obtain ⟨hc, hrest⟩ := List.forall_mem_cons.1 hall
    exact ⟨c, hc, rest, mem_star_oneOf.2 hrest, rfl⟩

/-! ## Classes of characters -/

theorem mem_letters : c ∈ letters ↔ isLowerLetter c = true := mem_between (by decide)

theorem mem_digits : c ∈ digits ↔ Text.isDigit c = true := mem_between (by decide)

theorem mem_nameStarts : c ∈ nameStarts ↔ isNameStart c = true := by
  rw [nameStarts, List.mem_append, List.mem_append, mem_letters, mem_between (by decide),
    List.mem_singleton, isNameStart, Bool.or_eq_true, Bool.or_eq_true, beq_iff_eq]

theorem mem_nameParts : c ∈ nameStarts ++ digits ↔ isNamePart c = true := by
  rw [List.mem_append, mem_nameStarts, mem_digits, isNamePart, Bool.or_eq_true]

theorem mem_baseDigits {base : Base} : c ∈ baseDigits base ↔ base.isDigit c = true := by
  cases base with
  | hex =>
    rw [baseDigits, List.mem_append, List.mem_append, mem_digits, mem_between (by decide),
      mem_between (by decide), Base.isDigit, Text.isHexDigit, Bool.or_eq_true, Bool.or_eq_true]
  | octal => exact mem_between (by decide)

/-! ## Parts of decimals -/

theorem mem_sign : text ∈ sign.matches' ↔ SignPart text := by
  rw [sign, mem_optional, mem_oneOf, SignPart]
  simp

theorem mem_digitRow : text ∈ (row digits).matches' ↔ DigitRow text := by
  rw [mem_row, DigitRow]
  simp only [mem_digits]

theorem mem_fraction : text ∈ fraction.matches' ↔ FractionPart text := by
  rw [fraction, mem_optional, mem_char_mul, FractionPart]
  simp only [mem_digitRow, and_comm]

theorem mem_exponent : text ∈ exponent.matches' ↔ ExponentPart text := by
  rw [exponent, mem_optional, mem_oneOf_mul, ExponentPart]
  refine or_congr Iff.rfl ⟨?_, ?_⟩
  · rintro ⟨mark, hmark, rest, hrest, rfl⟩
    obtain ⟨sign, hsign, digits, hdigits, rfl⟩ := Language.mem_mul.1 hrest
    exact ⟨mark, sign, digits, rfl, by simpa using hmark, mem_sign.1 hsign,
      mem_digitRow.1 hdigits⟩
  · rintro ⟨mark, sign, digits, rfl, hmark, hsign, hdigits⟩
    exact ⟨mark, by simpa using hmark, sign ++ digits, Language.mem_mul.2
      ⟨sign, mem_sign.2 hsign, digits, mem_digitRow.2 hdigits, rfl⟩, rfl⟩

theorem mem_decimal : text ∈ decimal.expression.matches' ↔ DecimalLiteral text := by
  constructor
  · rintro ⟨sign, hsign, _, ⟨digits, hdigits, _, ⟨fraction, hfraction, exponent, hexponent, rfl⟩,
      rfl⟩, rfl⟩
    exact ⟨sign, digits, fraction, exponent, rfl, mem_sign.1 hsign, mem_digitRow.1 hdigits,
      mem_fraction.1 hfraction, mem_exponent.1 hexponent⟩
  · rintro ⟨sign, digits, fraction, exponent, rfl, hsign, hdigits, hfraction, hexponent⟩
    exact ⟨sign, mem_sign.2 hsign, _, ⟨digits, mem_digitRow.2 hdigits, _, ⟨fraction,
      mem_fraction.2 hfraction, exponent, mem_exponent.2 hexponent, rfl⟩, rfl⟩, rfl⟩

/-! ## Texts of kinds -/

/-- The texts of a kind by their parts. -/
def Spells : Kind → Text → Prop
  | decimal, text => DecimalLiteral text
  | based base, text =>
      ∃ mark row, text = '0' :: mark :: row ∧ base.IsMark mark ∧ base.Row row
  | register, text => ∃ a, text = ['@', a] ∧ (isLowerLetter a = true ∨ a = '@')
  | registerRange, text =>
      ∃ a b, text = ['@', a, '_', b] ∧ isLowerLetter a = true ∧ isLowerLetter b = true
  | identifier, text =>
      ∃ c rest, text = c :: rest ∧ isNameStart c = true ∧ ∀ d ∈ rest, isNamePart d = true
  | symbol s, text => text = [s.char]

theorem mem_expression {kind : Kind} : text ∈ kind.expression.matches' ↔ kind.Spells text := by
  cases kind with
  | decimal => exact mem_decimal
  | based base =>
    simp only [Kind.expression, mem_char_mul, mem_oneOf_mul, mem_row, mem_baseDigits, Spells,
      Base.IsMark, Base.Row, List.mem_cons, List.not_mem_nil, or_false]
    constructor
    · rintro ⟨_, ⟨mark, hmark, row, hrow, rfl⟩, rfl⟩
      exact ⟨mark, row, rfl, hmark, hrow⟩
    · rintro ⟨mark, row, rfl, hmark, hrow⟩
      exact ⟨_, ⟨mark, hmark, row, hrow, rfl⟩, rfl⟩
  | register =>
    simp only [Kind.expression, mem_char_mul, mem_oneOf, Spells, List.mem_append, mem_letters,
      List.mem_singleton]
    constructor
    · rintro ⟨_, ⟨a, ha, rfl⟩, rfl⟩
      exact ⟨a, rfl, ha⟩
    · rintro ⟨a, rfl, ha⟩
      exact ⟨_, ⟨a, ha, rfl⟩, rfl⟩
  | registerRange =>
    simp only [Kind.expression, mem_char_mul, mem_oneOf_mul, mem_oneOf, Spells, mem_letters]
    constructor
    · rintro ⟨_, ⟨a, ha, _, ⟨_, ⟨b, hb, rfl⟩, rfl⟩, rfl⟩, rfl⟩
      exact ⟨a, b, rfl, ha, hb⟩
    · rintro ⟨a, b, rfl, ha, hb⟩
      exact ⟨_, ⟨a, ha, _, ⟨_, ⟨b, hb, rfl⟩, rfl⟩, rfl⟩, rfl⟩
  | identifier =>
    simp only [Kind.expression, mem_oneOf_mul, mem_star_oneOf, Spells, mem_nameStarts,
      mem_nameParts]
    constructor
    · rintro ⟨c, hc, rest, hrest, rfl⟩
      exact ⟨c, rest, rfl, hc, hrest⟩
    · rintro ⟨c, rest, rfl, hc, hrest⟩
      exact ⟨c, hc, rest, hrest, rfl⟩
  | symbol s => exact mem_char

end Kind
end Lexeme
end DeskCalc
