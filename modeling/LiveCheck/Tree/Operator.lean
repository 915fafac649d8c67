/-!
# Operators

The operators of expressions, their spelling, and the special methods that classes implement them
with.
-/

namespace LiveCheck

/-- Operators with two operands that compute a value. -/
inductive BinaryOp
  | add | sub | mul | matMul | div | floorDiv | mod | pow | shiftLeft | shiftRight
  | bitOr | bitXor | bitAnd
deriving Repr, DecidableEq, Inhabited

namespace BinaryOp

def all : List BinaryOp :=
  [add, sub, mul, matMul, div, floorDiv, mod, pow, shiftLeft, shiftRight, bitOr, bitXor, bitAnd]

def text : BinaryOp → String
  | add => "+" | sub => "-" | mul => "*" | matMul => "@" | div => "/" | floorDiv => "//"
  | mod => "%" | pow => "**" | shiftLeft => "<<" | shiftRight => ">>" | bitOr => "|"
  | bitXor => "^" | bitAnd => "&"

/-- The special method of the left operand that implements the operator. -/
def method : BinaryOp → String
  | add => "__add__" | sub => "__sub__" | mul => "__mul__" | matMul => "__matmul__"
  | div => "__truediv__" | floorDiv => "__floordiv__" | mod => "__mod__" | pow => "__pow__"
  | shiftLeft => "__lshift__" | shiftRight => "__rshift__" | bitOr => "__or__"
  | bitXor => "__xor__" | bitAnd => "__and__"

end BinaryOp

/-- Operators with one operand. -/
inductive UnaryOp
  | neg | pos | invert | not
deriving Repr, DecidableEq, Inhabited

namespace UnaryOp

def all : List UnaryOp := [neg, pos, invert, not]

def text : UnaryOp → String
  | neg => "-" | pos => "+" | invert => "~" | not => "not"

/-- The special method of the operand that implements the operator; truth has none. -/
def method? : UnaryOp → Option String
  | neg => some "__neg__"
  | pos => some "__pos__"
  | invert => some "__invert__"
  | not => none

end UnaryOp

inductive BoolOp
  | and | or
deriving Repr, DecidableEq, Inhabited

inductive CompareOp
  | eq | notEq | lt | le | gt | ge | is | isNot | isIn | notIn
deriving Repr, DecidableEq, Inhabited

end LiveCheck
