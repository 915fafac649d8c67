import LiveCheck.Limits
import LiveCheck.Scope.Declaration

/-!
# Classes

A class is built into the language or declared in a file. The built-in classes form a tree below
`object`.
-/

namespace LiveCheck

/-- The classes known without any file. -/
inductive BuiltinClass
  | object | int | float | complex | str | bytes | bool | none | ellipsis
  | list | tuple | dict | set | type | range
  | baseException | exception | valueError | typeError | keyError | indexError | attributeError
  | runtimeError | notImplementedError
deriving Repr, DecidableEq, Inhabited

namespace BuiltinClass

def all : List BuiltinClass :=
  [object, int, float, complex, str, bytes, bool, none, ellipsis, list, tuple, dict, set, type,
    range, baseException, exception, valueError, typeError, keyError, indexError, attributeError,
    runtimeError, notImplementedError]

def name : BuiltinClass → String
  | object => "object" | int => "int" | float => "float" | complex => "complex" | str => "str"
  | bytes => "bytes" | bool => "bool" | none => "None" | ellipsis => "ellipsis" | list => "list"
  | tuple => "tuple" | dict => "dict" | set => "set" | type => "type" | range => "range"
  | baseException => "BaseException" | exception => "Exception" | valueError => "ValueError"
  | typeError => "TypeError" | keyError => "KeyError" | indexError => "IndexError"
  | attributeError => "AttributeError" | runtimeError => "RuntimeError"
  | notImplementedError => "NotImplementedError"

/-- How many type arguments a class takes; any number for `tuple`, whose form `tuple[T, ...]` has
the two arguments `T` and `ellipsis`. -/
def arity? : BuiltinClass → Option Nat
  | list | set | type => some 1
  | dict => some 2
  | tuple => Option.none
  | _ => some 0

def ofName? (name : String) : Option BuiltinClass :=
  all.find? fun c => c.name == name && c != none

/-- The class directly above. -/
def base? : BuiltinClass → Option BuiltinClass
  | object => Option.none
  | bool => some int
  | exception => some baseException
  | valueError | typeError | attributeError | runtimeError | keyError | indexError => some exception
  | notImplementedError => some runtimeError
  | _ => some object

end BuiltinClass

structure DeclaredClass where
  decl : DeclId
  name : String
deriving Repr, DecidableEq, Inhabited

inductive ClassKey
  | builtin (cls : BuiltinClass)
  | declared (cls : DeclaredClass)
deriving Repr, DecidableEq, Inhabited

namespace ClassKey

def name : ClassKey → String
  | builtin cls => cls.name
  | declared cls => cls.name

def builtin? : ClassKey → Option BuiltinClass
  | builtin cls => some cls
  | declared _ => none

/-- The class all others are below. -/
def object : ClassKey := builtin .object

end ClassKey

/-!
## The hierarchy of classes

Where an attribute is looked up: in a class, then in its bases from left to right, each before the
next, and in `object` last. A class that is met twice counts where it is met first.
-/

/-- The direct bases of the declared classes, from left to right. -/
abbrev Hierarchy := DeclaredClass → List ClassKey

/-- The direct bases of a class; a declared class without bases has `object`. -/
def directBases (h : Hierarchy) : ClassKey → List ClassKey
  | .builtin cls => (cls.base?.map ClassKey.builtin).toList
  | .declared cls => if (h cls).isEmpty then [ClassKey.object] else h cls

/-- Adds a class and all above it to those already met, at most `fuel` levels up. -/
def collectBases (h : Hierarchy) : Nat → List ClassKey → ClassKey → List ClassKey
  | 0, met, _ => met
  | fuel + 1, met, cls =>
    if met.contains cls then met
    else (directBases h cls).foldl (collectBases h fuel) (met ++ [cls])

/-- The order in which classes are searched for an attribute of `cls`. -/
def resolutionOrder (h : Hierarchy) (cls : ClassKey) : List ClassKey :=
  (collectBases h Limits.resolutionOrder [] cls).filter (· != ClassKey.object) ++ [ClassKey.object]

/-- Whether a class is another or below it. -/
def isSubclass (h : Hierarchy) (sub sup : ClassKey) : Bool :=
  sub == sup || (resolutionOrder h sub).contains sup

end LiveCheck
