import LiveCheck.Types.Table

/-!
# Questions about types

What a type is, which types it mentions, and what iterating over its values gives.
-/

namespace LiveCheck

/-- The types that an entry names. Those of a function are named by its signature. -/
def TypeData.parts : TypeData → List TypeId
  | .inst _ args => args
  | .classObject inner => [inner]
  | .union members => members
  | .boundMethod method receiver => [method, receiver]
  | _ => []

/-- The types whose values a value of the type may hold: parameters and results of functions are
left out. -/
def TypeData.valueParts : TypeData → List TypeId
  | .inst _ args => args
  | .classObject inner => [inner]
  | .union members => members
  | .boundMethod _ receiver => [receiver]
  | _ => []

namespace TypeTable

/-- The types that an entry refers to. -/
def partsOf (t : TypeTable) : TypeData → List TypeId
  | .function shape => (t.shape? shape).elim [] Signature.parts
  | data => data.parts

def isUnion (t : TypeTable) (id : TypeId) : Bool :=
  match t.get? id with
  | some (.union _) => true
  | _ => false

def parts? (t : TypeTable) (id : TypeId) : Option (ClassKey × List TypeId) :=
  match t.get? id with
  | some (.inst cls args) => some (cls, args)
  | _ => none

/-- The class and the type arguments of instances of a built-in class. -/
def builtinParts? (t : TypeTable) (id : TypeId) : Option (BuiltinClass × List TypeId) :=
  match t.get? id with
  | some (.inst (.builtin cls) args) => some (cls, args)
  | _ => none

def builtin? (t : TypeTable) (id : TypeId) : Option BuiltinClass :=
  (t.builtinParts? id).map (·.1)

/-- The instances of a class, for the type of the class itself. -/
def inner? (t : TypeTable) (id : TypeId) : Option TypeId :=
  match t.get? id with
  | some (.classObject inner) => some inner
  | _ => none

def signature? (t : TypeTable) (id : TypeId) : Option Signature :=
  match t.get? id with
  | some (.function shape) => t.shape? shape
  | _ => none

def moduleFile? (t : TypeTable) (id : TypeId) : Option FileId :=
  match t.get? id with
  | some (.moduleObject file _) => some file
  | _ => none

/-- The declaration that was being evaluated when the type was made. -/
def recursiveDecl? (t : TypeTable) (id : TypeId) : Option DeclId :=
  match t.get? id with
  | some (.recursive decl _) => some decl
  | _ => none

/-! ## Mentioned types -/

/-- The types reached from those on the stack, each once and in the order they are met; the last of
several parts is met first. Every step takes one type from the stack. -/
def reachUpTo (t : TypeTable) (parts : TypeData → List TypeId) :
    Nat → List TypeId → List TypeId → List TypeId
  | 0, _, seen => seen.reverse
  | _, [], seen => seen.reverse
  | fuel + 1, id :: stack, seen =>
    if seen.contains id then t.reachUpTo parts fuel stack seen
    else t.reachUpTo parts fuel (((t.get? id).elim [] parts).reverse ++ stack) (id :: seen)

/-- How often a walk over all types can put a type on its stack. -/
def edges (t : TypeTable) (parts : TypeData → List TypeId) : Nat :=
  t.types.foldl (fun n data => n + (parts data).length) 0

/-- A type and the types it refers to at any depth. -/
def reach (t : TypeTable) (parts : TypeData → List TypeId) (id : TypeId) : List TypeId :=
  t.reachUpTo parts (t.edges parts + 1) [id] []

/-- Whether a type refers, at any depth, to a declaration that was being evaluated. -/
def mentions (t : TypeTable) (id : TypeId) (decl : DeclId) : Bool :=
  (t.reach t.partsOf id).any fun part => t.recursiveDecl? part == some decl

def declaredClass? (t : TypeTable) (id : TypeId) : Option DeclaredClass :=
  match t.get? id with
  | some (.inst (.declared cls) _) => some cls
  | _ => none

/-- The declared classes whose values a value of the type may hold. -/
def declaredClasses (t : TypeTable) (id : TypeId) : List DeclaredClass :=
  ((t.reach TypeData.valueParts id).filterMap t.declaredClass?).eraseDups

/-! ## Iteration -/

/-- What iterating over instances of a built-in class gives. -/
def builtinElement? (cls : BuiltinClass) (args : List TypeId) : TypeM (Option TypeId) :=
  match cls with
  | .str => pure (some .str)
  | .bytes | .range => pure (some .int)
  | .list | .set | .dict => pure (some (args.headD .unknown))
  | .tuple => some <$> union (args.filter (· != .ellipsis))
  | _ => pure none

/-- What iterating over values of a type that is no union gives; nothing if they cannot be iterated
over. Values of declared classes may give anything. -/
def simpleElement? (id : TypeId) : TypeM (Option TypeId) := do
  if id == .unknown || id == .any then return some id
  match (← get).get? id with
  | some (.inst (.builtin cls) args) => builtinElement? cls args
  | some (.inst (.declared _) _) | some (.recursive _ _) => return some .unknown
  | _ => return none

/-- What iterating over values of a type gives; nothing if they cannot be iterated over. If unions
stand inside one another more than `fuel` times, there is not even that answer. -/
def elementUpTo? : Nat → TypeId → OptionT (OptionT TypeM) TypeId
  | 0, _ => OptionT.mk failure
  | fuel + 1, id => do
    match (← get).get? id with
    | some (.union members) => union (← members.mapM (elementUpTo? fuel))
    | _ => OptionT.mk (simpleElement? id)

/-- What iterating over values of a type gives. More unions inside one another than there are types
go round in circles, and looking for an answer in them has no end. -/
def element? (id : TypeId) : TypeM (Option (Option TypeId)) := fun t =>
  (elementUpTo? (t.size + 1) id).run.run t

end TypeTable
end LiveCheck
