import LiveCheck.Types.Class

/-!
# Types

A type is a number into a table; the entry there says what the type is and refers to its parts by
their numbers. Equal entries have equal numbers, so comparing numbers compares types. The types
without parts that programs meet everywhere have fixed numbers. What functions take and give is kept
in a second table with numbers of its own.
-/

namespace LiveCheck

abbrev TypeId := Nat

/-- The number of a signature in the table of signatures. -/
abbrev ShapeId := Nat

namespace TypeId

/-- A value about which nothing is known. -/
def unknown : TypeId := 0
/-- The type without values. -/
def never : TypeId := 1
/-- A value that is used without checks. -/
def any : TypeId := 2
def none : TypeId := 3
def object : TypeId := 4
def int : TypeId := 5
def float : TypeId := 6
def complex : TypeId := 7
def str : TypeId := 8
def bytes : TypeId := 9
def bool : TypeId := 10
/-- The type of `...` -/
def ellipsis : TypeId := 11

def intrinsicCount : Nat := 12

/-- Whether a type has a fixed number. -/
def isIntrinsic (t : TypeId) : Bool := t < intrinsicCount

end TypeId

inductive ParamKind
  | positional
  /-- `*args` -/
  | varArgs
  | keywordOnly
  /-- `**kwargs` -/
  | kwArgs
deriving Repr, DecidableEq, Inhabited

structure Param where
  name : String
  kind : ParamKind
  type : TypeId
  hasDefault : Bool
deriving Repr, DecidableEq, Inhabited

structure Signature where
  name : String
  params : List Param
  /-- The declared result; without one the result follows from the body. -/
  result : Option TypeId
  decl : Option DeclId
deriving Repr, DecidableEq, Inhabited

namespace Signature

def positionalCount (s : Signature) : Nat := s.params.countP (·.kind == .positional)

/-- The number of parameters filled by position that may not be left out. -/
def requiredCount (s : Signature) : Nat :=
  s.params.countP fun p => p.kind == .positional && !p.hasDefault

/-- Whether the function takes any number of arguments by position. -/
def hasVarArgs (s : Signature) : Bool := s.params.any (·.kind == .varArgs)

/-- Whether the function takes any arguments by keyword. -/
def hasKwArgs (s : Signature) : Bool := s.params.any (·.kind == .kwArgs)

/-- The types of the parameters, and the declared result. -/
def parts (s : Signature) : List TypeId := s.params.map (·.type) ++ s.result.toList

end Signature

inductive TypeData
  | unknown
  | never
  | any
  | inst (cls : ClassKey) (args : List TypeId)
  /-- The class whose instances have the given type; also the value of a type expression such as
  `list[int]`. -/
  | classObject (inner : TypeId)
  | function (shape : ShapeId)
  | boundMethod (function receiver : TypeId)
  /-- At least two distinct types, none of them a union. -/
  | union (members : List TypeId)
  | moduleObject (file : FileId) (name : String)
  /-- A declaration that was being evaluated when the type was made. -/
  | recursive (decl : DeclId) (name : String)
deriving Repr, DecidableEq, Inhabited

end LiveCheck
