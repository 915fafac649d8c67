import LiveCheck.Types.Basic

/-!
# Tables of types

A table gives every type it is asked for a number, the same number for the same type. It only ever
grows, so a number means the same type as long as the table is in use. The signatures of functions
have numbers of their own, which are given in the same way; a function type has the number of its
signature.
-/

namespace LiveCheck

/-- The number of an entry, and the entries with it; one that is new comes last. -/
def numberIn {α : Type} [BEq α] (entries : Array α) (entry : α) : Nat × Array α :=
  match entries.findIdx? (· == entry) with
  | some n => (n, entries)
  | none => (entries.size, entries.push entry)

/-- The types and the signatures by number. -/
structure TypeTable where
  types : Array TypeData
  shapes : Array Signature := #[]
deriving Repr, DecidableEq

abbrev TypeM := StateM TypeTable

namespace TypeTable

def intrinsics : List TypeData :=
  [.unknown, .never, .any] ++
    [BuiltinClass.none, .object, .int, .float, .complex, .str, .bytes, .bool, .ellipsis].map
      fun cls => .inst (.builtin cls) []

/-- The table every program starts from. -/
def initial : TypeTable := { types := intrinsics.toArray }

instance : Inhabited TypeTable := ⟨initial⟩

def size (t : TypeTable) : Nat := t.types.size

def get? (t : TypeTable) (id : TypeId) : Option TypeData := t.types[id]?

/-- The number of a type, which joins the table if it is new. -/
def intern (data : TypeData) : TypeM TypeId := fun t =>
  let (id, types) := numberIn t.types data
  (id, { t with types := types })

/-! ## Signatures -/

def shape? (t : TypeTable) (shape : ShapeId) : Option Signature := t.shapes[shape]?

/-- The number of a signature, which joins the table if it is new. -/
def internShape (signature : Signature) : TypeM ShapeId := fun t =>
  let (shape, shapes) := numberIn t.shapes signature
  (shape, { t with shapes := shapes })

/-! ## Making types -/

def instanceOf (cls : ClassKey) (args : List TypeId) : TypeM TypeId := intern (.inst cls args)

def builtin (cls : BuiltinClass) (args : List TypeId) : TypeM TypeId :=
  instanceOf (.builtin cls) args

def declared (decl : DeclId) (name : String) : TypeM TypeId :=
  instanceOf (.declared ⟨decl, name⟩) []

def listOf (element : TypeId) : TypeM TypeId := builtin .list [element]

def setOf (element : TypeId) : TypeM TypeId := builtin .set [element]

def dictOf (key value : TypeId) : TypeM TypeId := builtin .dict [key, value]

def tupleOf (elements : List TypeId) : TypeM TypeId := builtin .tuple elements

def classObject (inner : TypeId) : TypeM TypeId := intern (.classObject inner)

/-- The type of the functions with a signature, which gets its number first. -/
def function (signature : Signature) : TypeM TypeId := do
  intern (.function (← internShape signature))

def boundMethod (function receiver : TypeId) : TypeM TypeId :=
  intern (.boundMethod function receiver)

def moduleObject (file : FileId) (name : String) : TypeM TypeId := intern (.moduleObject file name)

/-- A declaration that is being evaluated. -/
def recursive (decl : DeclId) (name : String) : TypeM TypeId := intern (.recursive decl name)

/-! ## Unions -/

/-- The members of a union; any other type stands for itself. -/
def members (t : TypeTable) (id : TypeId) : List TypeId :=
  match t.get? id with
  | some (.union members) => members
  | _ => [id]

/-- The distinct members of some types, in the order they are first met. -/
def flatten (t : TypeTable) (ids : List TypeId) : List TypeId :=
  ((ids.filter (· != .never)).flatMap t.members).eraseDups

/-- The union of some types. The unknown type absorbs all others, then the unchecked type; a union
with too many members is unknown. -/
def union (ids : List TypeId) : TypeM TypeId := fun t =>
  if ids.contains .unknown then (.unknown, t)
  else if ids.contains .any then (.any, t)
  else
    match t.flatten ids with
    | [] => (.never, t)
    | [id] => (id, t)
    | flat => if Limits.unionMembers < flat.length then (.unknown, t) else intern (.union flat) t

def union2 (a b : TypeId) : TypeM TypeId := if a = b then pure a else union [a, b]

end TypeTable
end LiveCheck
