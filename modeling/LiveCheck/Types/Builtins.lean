import LiveCheck.Types.Table

/-!
# Built-in names

The names every module sees without importing them, and the methods of the built-in classes.
-/

namespace LiveCheck

/-- A parameter of a built-in function; its arguments are not checked. -/
abbrev BuiltinParam := String × ParamKind × Bool

namespace BuiltinParam

def required (name : String) : BuiltinParam := (name, .positional, false)

/-- A parameter filled by position that may be left out. -/
def optional (name : String) : BuiltinParam := (name, .positional, true)

end BuiltinParam

def builtinSignature (name : String) (params : List BuiltinParam) (result : TypeId) : Signature :=
  ⟨name, params.map fun (name, kind, hasDefault) => ⟨name, kind, .unknown, hasDefault⟩, some result,
    none⟩

inductive BuiltinSymbol
  | classDef (cls : BuiltinClass)
  | function (signature : Signature)
  | value (type : TypeId)
deriving Repr, DecidableEq, Inhabited

open BuiltinParam in
def builtinFunctions : List Signature :=
  [builtinSignature "len" [required "obj"] .int,
    builtinSignature "print"
      [("values", .varArgs, false), ("sep", .keywordOnly, true), ("end", .keywordOnly, true)] .none,
    builtinSignature "isinstance" [required "obj", required "class_or_tuple"] .bool,
    builtinSignature "issubclass" [required "cls", required "class_or_tuple"] .bool,
    builtinSignature "callable" [required "obj"] .bool,
    builtinSignature "repr" [required "obj"] .str,
    builtinSignature "hash" [required "obj"] .int,
    builtinSignature "id" [required "obj"] .int,
    builtinSignature "chr" [required "i"] .str,
    builtinSignature "ord" [required "c"] .int,
    builtinSignature "input" [optional "prompt"] .str,
    builtinSignature "staticmethod" [required "function"] .unknown,
    builtinSignature "classmethod" [required "function"] .unknown,
    builtinSignature "property" [required "function"] .unknown,
    builtinSignature "abs" [required "x"] .unknown]

def builtinValues : List (String × TypeId) :=
  [("__name__", .str), ("__file__", .str), ("__doc__", .str), ("Ellipsis", .ellipsis)]

/-- The class a built-in name stands for. The classes of `None` and `...` have no name. -/
def builtinClassNamed? (name : String) : Option BuiltinClass :=
  BuiltinClass.all.find? fun cls => cls.name == name && cls != .none && cls != .ellipsis

namespace BuiltinSymbol

/-- What a name stands for if nothing declares it. -/
def find? (name : String) : Option BuiltinSymbol :=
  ((builtinClassNamed? name).map classDef).orElse fun _ =>
    ((builtinFunctions.find? (·.name == name)).map function).orElse fun _ =>
      (builtinValues.lookup name).map value

def type : BuiltinSymbol → TypeM TypeId
  | classDef cls => TypeTable.builtin cls [] >>= TypeTable.classObject
  | function signature => TypeTable.function signature
  | value type => pure type

end BuiltinSymbol

/-! ## Methods -/

/-- What a built-in method gives, in terms of its receiver. -/
inductive MethodResult
  | fixed (type : TypeId)
  /-- A type argument of the receiver. -/
  | argument (index : Nat)
  /-- A type argument of the receiver, or `None`. -/
  | optionalArgument (index : Nat)
  /-- A list of a type argument of the receiver. -/
  | listOfArgument (index : Nat)
  /-- A list of pairs of the two type arguments of the receiver. -/
  | items
  | receiver
  | textList
deriving Repr, DecidableEq, Inhabited

def MethodResult.type (args : List TypeId) (self : TypeId) : MethodResult → TypeM TypeId
  | .fixed type => pure type
  | .argument index => pure (args.getD index .unknown)
  | .optionalArgument index => TypeTable.union2 (args.getD index .unknown) .none
  | .listOfArgument index => TypeTable.listOf (args.getD index .unknown)
  | .items =>
    TypeTable.tupleOf [args.getD 0 .unknown, args.getD 1 .unknown] >>= TypeTable.listOf
  | .receiver => pure self
  | .textList => TypeTable.listOf .str

structure BuiltinMethod where
  cls : BuiltinClass
  name : String
  /-- The parameters, the receiver left out. -/
  params : List BuiltinParam
  result : MethodResult
deriving Repr, DecidableEq, Inhabited

open BuiltinParam in
def builtinMethods : List BuiltinMethod :=
  [⟨.str, "upper", [], .fixed .str⟩,
    ⟨.str, "lower", [], .fixed .str⟩,
    ⟨.str, "strip", [], .fixed .str⟩,
    ⟨.str, "lstrip", [], .fixed .str⟩,
    ⟨.str, "rstrip", [], .fixed .str⟩,
    ⟨.str, "title", [], .fixed .str⟩,
    ⟨.str, "replace", [required "old", required "new"], .fixed .str⟩,
    ⟨.str, "format", [("args", .varArgs, false), ("kwargs", .kwArgs, false)], .fixed .str⟩,
    ⟨.str, "split", [optional "sep"], .textList⟩,
    ⟨.str, "join", [required "iterable"], .fixed .str⟩,
    ⟨.str, "startswith", [required "text"], .fixed .bool⟩,
    ⟨.str, "endswith", [required "text"], .fixed .bool⟩,
    ⟨.str, "isdigit", [], .fixed .bool⟩,
    ⟨.str, "find", [required "text"], .fixed .int⟩,
    ⟨.str, "count", [required "text"], .fixed .int⟩,
    ⟨.str, "encode", [], .fixed .bytes⟩,
    ⟨.bytes, "decode", [], .fixed .str⟩,
    ⟨.int, "bit_length", [], .fixed .int⟩,
    ⟨.float, "is_integer", [], .fixed .bool⟩,
    ⟨.list, "append", [required "item"], .fixed .none⟩,
    ⟨.list, "extend", [required "iterable"], .fixed .none⟩,
    ⟨.list, "insert", [required "index", required "item"], .fixed .none⟩,
    ⟨.list, "pop", [optional "index"], .argument 0⟩,
    ⟨.list, "remove", [required "item"], .fixed .none⟩,
    ⟨.list, "index", [required "item"], .fixed .int⟩,
    ⟨.list, "count", [required "item"], .fixed .int⟩,
    ⟨.list, "sort", [], .fixed .none⟩,
    ⟨.list, "reverse", [], .fixed .none⟩,
    ⟨.list, "clear", [], .fixed .none⟩,
    ⟨.list, "copy", [], .receiver⟩,
    ⟨.dict, "get", [required "key", optional "default"], .optionalArgument 1⟩,
    ⟨.dict, "keys", [], .listOfArgument 0⟩,
    ⟨.dict, "values", [], .listOfArgument 1⟩,
    ⟨.dict, "items", [], .items⟩,
    ⟨.dict, "pop", [required "key"], .argument 1⟩,
    ⟨.dict, "setdefault", [required "key", optional "default"], .argument 1⟩,
    ⟨.dict, "update", [required "other"], .fixed .none⟩,
    ⟨.dict, "clear", [], .fixed .none⟩,
    ⟨.dict, "copy", [], .receiver⟩,
    ⟨.set, "add", [required "item"], .fixed .none⟩,
    ⟨.set, "remove", [required "item"], .fixed .none⟩,
    ⟨.set, "discard", [required "item"], .fixed .none⟩,
    ⟨.set, "union", [required "other"], .receiver⟩,
    ⟨.set, "copy", [], .receiver⟩]

/-- A built-in class and the classes above it, at most `fuel` of them. -/
def BuiltinClass.chainUpTo : Nat → BuiltinClass → List BuiltinClass
  | 0, _ => []
  | fuel + 1, cls => cls :: cls.base?.elim [] (chainUpTo fuel)

/-- The method of a name in a built-in class or the classes above it. -/
def BuiltinMethod.find? (cls : BuiltinClass) (name : String) : Option BuiltinMethod :=
  (BuiltinClass.chainUpTo BuiltinClass.all.length cls).findSome? fun above =>
    builtinMethods.find? fun m => m.cls == above && m.name == name

/-- The function type of a method of a built-in class, without its receiver. -/
def builtinMethod? (cls : BuiltinClass) (args : List TypeId) (self : TypeId) (name : String) :
    TypeM (Option TypeId) :=
  match BuiltinMethod.find? cls name with
  | some m => do
    let result ← m.result.type args self
    some <$> TypeTable.function (builtinSignature m.name m.params result)
  | none => return none

end LiveCheck
