import DeskCalc.Text.Basic

/-
The functions that an expression can call, and the arguments that they take.
-/
namespace DeskCalc

inductive ParamType where
  | numeric
  /-- A decimal without a fractional part. -/
  | integer
  deriving DecidableEq, Repr

def ParamType.name : ParamType → String
  | numeric => "Numeric"
  | integer => "Integer"

/-- A number of arguments. -/
inductive Arity where
  | atLeastOne
  | exactly (count : Nat)
  deriving DecidableEq, Repr

namespace Arity

def accepts : Arity → Nat → Bool
  | atLeastOne, count => 1 ≤ count
  | exactly n, count => count == n

instance : ToString Arity := ⟨fun
  | atLeastOne => "at least 1"
  | exactly n => toString n⟩

end Arity

inductive Signature where
  /-- One or more numeric arguments. -/
  | variadic
  | fixed (params : List ParamType)
  deriving DecidableEq, Repr

namespace Signature

def arity : Signature → Arity
  | variadic => .atLeastOne
  | fixed params => .exactly params.length

def param : Signature → Nat → ParamType
  | variadic, _ => .numeric
  | fixed params, position => params.getD position .numeric

end Signature

inductive Builtin where
  | sum
  | max
  | min
  | abs
  | round
  | hex
  | oct
  | sqrt
  | ln
  | log
  | exp
  deriving DecidableEq, Repr

namespace Builtin

def all : List Builtin := [sum, max, min, abs, round, hex, oct, sqrt, ln, log, exp]

def name : Builtin → String
  | sum => "sum"
  | max => "max"
  | min => "min"
  | abs => "abs"
  | round => "round"
  | hex => "hex"
  | oct => "oct"
  | sqrt => "sqrt"
  | ln => "ln"
  | log => "log"
  | exp => "exp"

def ofName? (name : Text) : Option Builtin :=
  all.find? fun builtin => builtin.name.toList == name

def signature : Builtin → Signature
  | sum | max | min => .variadic
  | abs | sqrt | ln | log | exp => .fixed [.numeric]
  | round => .fixed [.numeric, .integer]
  | hex | oct => .fixed [.integer]

theorem mem_all (builtin : Builtin) : builtin ∈ all := by cases builtin <;> decide

theorem ofName?_name (builtin : Builtin) : ofName? builtin.name.toList = some builtin := by
  cases builtin <;> decide

end Builtin
end DeskCalc
