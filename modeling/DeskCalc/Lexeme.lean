import DeskCalc.Text.Alphanumeric
import DeskCalc.Text.Digit

/-
Lexemes: the smallest pieces of a source.

`first?` takes the longest piece at the start of a text; nothing is skipped.  An
exponent, a fraction, a base mark or the second half of a range that is not
complete is left out of the piece.
-/
namespace DeskCalc

/-- Literals of other bases carry their decimal digits, registers and names their
text. -/
inductive Lexeme where
  | decimal (value : Text)
  | hex (value : Text)
  | octal (value : Text)
  | register (name : Text)
  | registerRange (name : Text)
  | identifier (name : Text)
  | plus
  | minus
  | star
  | slash
  | caret
  | leftParen
  | rightParen
  | comma
  deriving DecidableEq, Repr

namespace Lexeme

/-- The pieces that stand for a value. -/
def isOperand : Lexeme → Bool
  | decimal _ | hex _ | octal _ | register _ | registerRange _ => true
  | _ => false

/-- No letter, digit or low line follows. -/
def atWordBoundary (rest : Text) : Bool :=
  match rest with
  | [] => true
  | c :: _ => !(Text.isAlphanumeric c || c == '_')

def isLowerLetter (c : Char) : Bool := 'a' ≤ c && c ≤ 'z'

def isNameStart (c : Char) : Bool :=
  isLowerLetter c || ('A' ≤ c && c ≤ 'Z') || c == '_'

def isNamePart (c : Char) : Bool := isNameStart c || Text.isDigit c

/-! ## Number literals -/

/-- A sign if there is one, and the rest. -/
def takeSign : Text → Text × Text
  | '-' :: rest => (['-'], rest)
  | '+' :: rest => (['+'], rest)
  | text => ([], text)

def takeDigits (text : Text) : Text × Text := text.span Text.isDigit

/-- A point with digits behind it, or nothing. -/
def takeFraction : Text → Text × Text
  | '.' :: rest =>
      match takeDigits rest with
      | ([], _) => ([], '.' :: rest)
      | (digits, rest) => ('.' :: digits, rest)
  | text => ([], text)

/-- An exponent mark with an integer behind it, or nothing. -/
def takeExponent : Text → Text × Text
  | [] => ([], [])
  | c :: rest =>
      if c = 'e' || c = 'E' then
        let (sign, tail) := takeSign rest
        match takeDigits tail with
        | ([], _) => ([], c :: rest)
        | (digits, rest) => (c :: sign ++ digits, rest)
      else ([], c :: rest)

/-- The longest decimal literal at the start of a text. -/
def takeDecimal? (text : Text) : Option Text :=
  let (sign, rest) := takeSign text
  match takeDigits rest with
  | ([], _) => none
  | (digits, rest) =>
      let (fraction, rest) := takeFraction rest
      let (exponent, _) := takeExponent rest
      some (sign ++ digits ++ fraction ++ exponent)

/-- Lower case and no plus sign. -/
def normalDecimal (literal : Text) : Text :=
  ((Text.after? ['+'] literal).getD literal).map Char.toLower

def decimalOf (literal : Text) : Lexeme × Nat := (decimal (normalDecimal literal), literal.length)

/-- The digits of a literal with a base mark, and the decimal digits of its
value. -/
def radixDigits (isDigit : Char → Bool) (radix : Nat) (rest : Text) : Option (Text × Nat) :=
  match rest.takeWhile isDigit with
  | [] => none
  | digits => some (Text.ofNat (Text.positional radix digits), digits.length + 2)

/-- The piece that starts with a sign or a digit, and its length. -/
def numeric? : Text → Option (Lexeme × Nat)
  | '0' :: mark :: rest =>
      let marked :=
        if mark = 'x' || mark = 'X' then
          (radixDigits Text.isHexDigit 16 rest).map fun (value, size) => (hex value, size)
        else if mark = 'o' || mark = 'O' then
          (radixDigits Text.isOctalDigit 8 rest).map fun (value, size) => (octal value, size)
        else none
      marked.or ((takeDecimal? ('0' :: mark :: rest)).map decimalOf)
  | text => (takeDecimal? text).map decimalOf

/-! ## Registers -/

/-- The piece that starts with the register mark. -/
def register? : Text → Option (Lexeme × Nat)
  | '@' :: a :: '_' :: b :: _ =>
      if isLowerLetter a && isLowerLetter b then some (registerRange ['@', a, '_', b], 4)
      else if isLowerLetter a || a = '@' then some (register ['@', a], 2)
      else none
  | '@' :: a :: _ => if isLowerLetter a || a = '@' then some (register ['@', a], 2) else none
  | _ => none

def symbol? : Char → Option Lexeme
  | '+' => some plus
  | '-' => some minus
  | '*' => some star
  | '/' => some slash
  | '^' => some caret
  | '(' => some leftParen
  | ')' => some rightParen
  | ',' => some comma
  | _ => none

/-- The longest piece at the start of a text, with its length in bytes.  Pieces
are made of characters of one byte. -/
def first? : Text → Option (Lexeme × Nat)
  | [] => none
  | c :: rest =>
      if c = '@' then register? (c :: rest)
      else if isNameStart c then
        let name := c :: rest.takeWhile isNamePart
        some (identifier name, name.length)
      else (numeric? (c :: rest)).or ((symbol? c).map fun lexeme => (lexeme, 1))

end Lexeme
end DeskCalc
