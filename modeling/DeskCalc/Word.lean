import DeskCalc.Span
import DeskCalc.Text.Basic

/-
Words: classified pieces of a source with their positions.

Two kinds are virtual.  They exist while a source is being read and never reach
the evaluation.
-/
namespace DeskCalc

inductive WordKind where
  | number
  | operator
  | functionName
  | leftParen
  | rightParen
  | comma
  | register
  | registerRange
  | placeholder
  | trailingComma
  deriving DecidableEq, Repr

namespace WordKind

def isVirtual : WordKind → Bool
  | placeholder | trailingComma => true
  | _ => false

/-- Kinds that stand for a value. -/
def isOperand : WordKind → Bool
  | number | register | registerRange => true
  | _ => false

/-- Kinds that open something whose value is still to come. -/
def isOpening : WordKind → Bool
  | leftParen | functionName => true
  | _ => false

/-- Kinds after which a value is complete. -/
def endsOperand (kind : WordKind) : Bool := kind.isOperand || kind == .rightParen

def name : WordKind → String
  | number => "number"
  | operator => "operator"
  | functionName => "function"
  | leftParen => "'('"
  | rightParen => "')'"
  | comma => "','"
  | register => "register"
  | registerRange => "register range"
  | placeholder => "placeholder"
  | trailingComma => "trailing comma"

def all : List WordKind :=
  [number, operator, functionName, leftParen, rightParen, comma, register, registerRange,
    placeholder, trailingComma]

theorem mem_all (kind : WordKind) : kind ∈ all := by cases kind <;> decide

end WordKind

/-- A piece of a source.  `value` is its normal form: literals of other bases
carry decimal digits, decimal literals are in lower case without a plus sign. -/
structure Word where
  text : Text
  value : Text
  kind : WordKind
  offset : Nat
  deriving DecidableEq, Repr

namespace Word

/-- A word that is its own normal form. -/
def plain (text : Text) (kind : WordKind) (offset : Nat) : Word := ⟨text, text, kind, offset⟩

/-- The mark left by a repetition that matched nothing. -/
def placeholder (offset : Nat) : Word := ⟨[], [], .placeholder, offset⟩

def stop (word : Word) : Nat := word.offset + word.text.byteSize

def span (word : Word) : Span := ⟨word.offset, word.stop⟩

def isVirtual (word : Word) : Bool := word.kind.isVirtual

/-- From the start of the first word to the end of the last one. -/
def spanOf? (words : List Word) : Option Span :=
  match words.head?, words.getLast? with
  | some first, some last => some ⟨first.offset, last.stop⟩
  | _, _ => none

def spanOf (words : List Word) : Span := (spanOf? words).getD {}

end Word
end DeskCalc
