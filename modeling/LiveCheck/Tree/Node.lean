import LiveCheck.Text.Position
import LiveCheck.Tree.Operator

/-!
# Nodes

The nodes of a syntax tree live in one array and refer to each other by index. A node is appended
after its children, so a child has a smaller index than its parent. Next to the nodes stands the
table of the names they mention.

## Name tables

A name table numbers the names it is given in the order it first meets them. The empty name is
always number zero, so a number doubles as an optional name.
-/

namespace LiveCheck

/-- Distinct names in the order of their numbers. -/
structure NameTable where
  /-- The names; the first one is empty. -/
  names : Array String
deriving Repr, DecidableEq, Inhabited

namespace NameTable

def empty : NameTable := ⟨#[""]⟩

def find? (t : NameTable) (name : String) : Option Nat := t.names.findIdx? (· == name)

def insert (t : NameTable) (name : String) : Nat × NameTable :=
  match t.find? name with
  | some index => (index, t)
  | none => (t.names.size, ⟨t.names.push name⟩)

/-- The name with the given number; empty for a number that was never given out. -/
def text (t : NameTable) (index : Nat) : String := t.names.getD index ""

/-- The number of names, the empty one included. -/
def size (t : NameTable) : Nat := t.names.size

/-- Whether the table holds no name but the empty one. -/
def isEmpty (t : NameTable) : Bool := t.names.size ≤ 1

/-- Names that nearly every module mentions; they have small and stable numbers. -/
def commonNames : List String :=
  ["self", "cls", "__init__", "__all__", "__name__", "None", "int", "str", "float", "bool",
    "bytes", "list", "dict", "tuple", "set", "object", "len", "print", "range", "isinstance"]

/-- The table every syntax tree starts from. -/
def common : NameTable := commonNames.foldl (fun t name => (t.insert name).2) empty

end NameTable
end LiveCheck

/-! ## Nodes -/

namespace LiveCheck

/-- The index of a node in its arena. -/
abbrev NodeId := Nat

inductive ConstantKind
  | int | float | complex | string | bytes | true | false | none | ellipsis
deriving Repr, DecidableEq, Inhabited

/-- How a parameter takes its arguments. -/
inductive ParameterForm
  | normal
  /-- `*args` -/
  | varArgs
  /-- `**kwargs` -/
  | kwArgs
  /-- A bare `*`, behind which parameters are passed by keyword. -/
  | keywordMarker
  /-- A bare `/`, before which parameters are passed by position. -/
  | positionalMarker
deriving Repr, DecidableEq, Inhabited

/-- How an argument is passed. -/
inductive ArgumentForm
  | positional
  | keyword
  /-- `*value` -/
  | unpack
  /-- `**value` -/
  | unpackDict
deriving Repr, DecidableEq, Inhabited

/-- What a node is, with its children. -/
inductive NodeData
  /-- The module: the root of the tree. -/
  | root (body : List NodeId)
  | exprStmt (expr : NodeId)
  | assign (targets : List NodeId) (value : NodeId)
  | annAssign (target annotation : NodeId) (value : Option NodeId)
  | augAssign (target : NodeId) (op : BinaryOp) (value : NodeId)
  | pass
  | breakLoop
  | continueLoop
  | returnStmt (value : Option NodeId)
  | raiseStmt (exc cause : Option NodeId)
  | assertStmt (test : NodeId) (msg : Option NodeId)
  | deleteStmt (targets : List NodeId)
  | globalStmt (names : List NodeId)
  | nonlocalStmt (names : List NodeId)
  | ifStmt (test : NodeId) (body orelse : List NodeId)
  | whileLoop (test : NodeId) (body orelse : List NodeId)
  | forLoop (target iter : NodeId) (body orelse : List NodeId)
  | tryStmt (body handlers orelse finalbody : List NodeId)
  | handler (type name : Option NodeId) (body : List NodeId)
  | withStmt (items body : List NodeId)
  | withItem (context : NodeId) (target : Option NodeId)
  | functionDef (decorators : List NodeId) (name : NodeId) (params : List NodeId)
      (returns : Option NodeId) (body : List NodeId)
  | parameter (form : ParameterForm) (name annotation default : Option NodeId)
  | classDef (decorators : List NodeId) (name : NodeId) (bases body : List NodeId)
  | importStmt (names : List NodeId)
  /-- The module is a dotted path of names, empty behind dots alone. -/
  | importFrom (path : List NodeId) (level : Nat) (names : List NodeId) (wildcard : Bool)
  | importAlias (path : List NodeId) (asname : Option NodeId)
  /-- A name by its number in the arena's table. -/
  | name (atom : Nat)
  /-- A literal; strings carry their decoded value. -/
  | constant (kind : ConstantKind) (value : Option String)
  | binary (left : NodeId) (op : BinaryOp) (right : NodeId)
  | boolean (op : BoolOp) (values : List NodeId)
  | unary (op : UnaryOp) (operand : NodeId)
  | compare (left : NodeId) (ops : List CompareOp) (comparators : List NodeId)
  | call (func : NodeId) (args : List NodeId)
  | argument (form : ArgumentForm) (name : Option NodeId) (value : NodeId)
  | member (value attr : NodeId)
  | subscript (value index : NodeId)
  | slice (lower upper step : Option NodeId)
  | tuple (elts : List NodeId)
  | list (elts : List NodeId)
  | set (elts : List NodeId)
  /-- Entries with their keys; an entry without a key is `**mapping`. -/
  | dict (entries : List (Option NodeId × NodeId))
  | conditional (test body orelse : NodeId)
  | lambda (params : List NodeId) (body : NodeId)
  | starred (value : NodeId)
  /-- A place where the text made no sense. -/
  | malformed
deriving Repr, DecidableEq, Inhabited

namespace NodeData

/-- The children in the order of the source, those that are absent left out. -/
def children : NodeData → List NodeId
  | root body => body
  | exprStmt expr => [expr]
  | assign targets value => targets ++ [value]
  | annAssign target annotation value => target :: annotation :: value.toList
  | augAssign target _ value => [target, value]
  | pass | breakLoop | continueLoop | malformed => []
  | returnStmt value => value.toList
  | raiseStmt exc cause => exc.toList ++ cause.toList
  | assertStmt test msg => test :: msg.toList
  | deleteStmt targets => targets
  | globalStmt names | nonlocalStmt names => names
  | ifStmt test body orelse | whileLoop test body orelse => test :: (body ++ orelse)
  | forLoop target iter body orelse => target :: iter :: (body ++ orelse)
  | tryStmt body handlers orelse finalbody => body ++ handlers ++ orelse ++ finalbody
  | handler type caught body => type.toList ++ caught.toList ++ body
  | withStmt items body => items ++ body
  | withItem context target => context :: target.toList
  | functionDef decorators defined params returns body =>
    decorators ++ defined :: (params ++ returns.toList ++ body)
  | parameter _ declared annotation default =>
    declared.toList ++ annotation.toList ++ default.toList
  | classDef decorators defined bases body => decorators ++ defined :: (bases ++ body)
  | importStmt names => names
  | importFrom path _ names _ => path ++ names
  | importAlias path asname => path ++ asname.toList
  | name _ | constant _ _ => []
  | binary left _ right => [left, right]
  | boolean _ values => values
  | unary _ operand => [operand]
  | compare left _ comparators => left :: comparators
  | call func args => func :: args
  | argument _ key value => key.toList ++ [value]
  | member value attr => [value, attr]
  | subscript value index => [value, index]
  | slice lower upper step => lower.toList ++ upper.toList ++ step.toList
  | tuple elts | list elts | set elts => elts
  | dict entries => entries.flatMap fun (key, value) => key.toList ++ [value]
  | conditional test body orelse => [body, test, orelse]
  | lambda params body => params ++ [body]
  | starred value => [value]

def isStatement : NodeData → Bool
  | exprStmt .. | assign .. | annAssign .. | augAssign .. | pass | breakLoop | continueLoop
  | returnStmt .. | raiseStmt .. | assertStmt .. | deleteStmt .. | globalStmt .. | nonlocalStmt ..
  | ifStmt .. | whileLoop .. | forLoop .. | tryStmt .. | withStmt .. | functionDef ..
  | classDef .. | importStmt .. | importFrom .. => true
  | _ => false

/-- A short name for the kind of node. -/
def label : NodeData → String
  | root .. => "Module" | exprStmt .. => "ExprStmt" | assign .. => "Assign"
  | annAssign .. => "AnnAssign" | augAssign .. => "AugAssign" | pass => "Pass"
  | breakLoop => "Break" | continueLoop => "Continue" | returnStmt .. => "Return"
  | raiseStmt .. => "Raise" | assertStmt .. => "Assert" | deleteStmt .. => "Del"
  | globalStmt .. => "Global" | nonlocalStmt .. => "Nonlocal" | ifStmt .. => "If"
  | whileLoop .. => "While" | forLoop .. => "For" | tryStmt .. => "Try"
  | handler .. => "ExceptHandler" | withStmt .. => "With" | withItem .. => "WithItem"
  | functionDef .. => "FunctionDef" | parameter .. => "Parameter" | classDef .. => "ClassDef"
  | importStmt .. => "Import" | importFrom .. => "ImportFrom" | importAlias .. => "ImportAlias"
  | name .. => "Name" | constant .. => "Constant" | binary .. => "BinOp" | boolean .. => "BoolOp"
  | unary .. => "UnaryOp" | compare .. => "Compare" | call .. => "Call"
  | argument .. => "Argument" | member .. => "Attribute" | subscript .. => "Subscript"
  | slice .. => "Slice" | tuple .. => "Tuple" | list .. => "List" | set .. => "Set"
  | dict .. => "Dict" | conditional .. => "IfExp" | lambda .. => "Lambda"
  | starred .. => "Starred" | malformed => "Error"

def isName : NodeData → Bool
  | name _ => true
  | _ => false

def isStarred : NodeData → Bool
  | starred _ => true
  | _ => false

/-- Whether a value can be stored in a single place through the node. -/
def isPlace : NodeData → Bool
  | name .. | member .. | subscript .. => true
  | _ => false

end NodeData

/-- A node with its place in the text and its parent. -/
structure Node where
  data : NodeData
  span : Span
  parent : Option NodeId
deriving Repr, DecidableEq, Inhabited

/-- The nodes of one tree and the names they mention. -/
structure Arena where
  /-- The nodes; children come before their parents. -/
  nodes : Array Node
  names : NameTable
deriving Repr, DecidableEq, Inhabited

namespace Arena

def empty : Arena := ⟨#[], .common⟩

/-- Makes `parent` the parent of a node. -/
def setParent (nodes : Array Node) (parent child : NodeId) : Array Node :=
  nodes.modify child fun node => { node with parent := some parent }

/-- Appends a node and makes it the parent of its children. -/
def add (a : Arena) (data : NodeData) (span : Span) : NodeId × Arena :=
  let id := a.nodes.size
  let nodes := data.children.foldl (fun nodes child => setParent nodes id child) a.nodes
  (id, { a with nodes := nodes.push ⟨data, span, none⟩ })

def size (a : Arena) : Nat := a.nodes.size

/-- What a node is. -/
def data? (a : Arena) (id : NodeId) : Option NodeData := a.nodes[id]?.map (·.data)

/-- The place of a node; empty at the beginning of the text for an index without a node. -/
def span (a : Arena) (id : NodeId) : Span := (a.nodes[id]?.map (·.span)).getD ⟨0, 0⟩

def parent? (a : Arena) (id : NodeId) : Option NodeId := a.nodes[id]?.bind (·.parent)

def children (a : Arena) (id : NodeId) : List NodeId :=
  (a.data? id).elim [] NodeData.children

def nameText? (a : Arena) (id : NodeId) : Option String :=
  match a.data? id with
  | some (.name atom) => some (a.names.text atom)
  | _ => none

def optionalName? (a : Arena) (id : Option NodeId) : Option String := id.bind a.nameText?

/-- The names joined by dots; what is no name counts as empty. -/
def dottedText (a : Arena) (parts : List NodeId) : String :=
  ".".intercalate (parts.map fun part => (a.nameText? part).getD "")

/-- A node and the chain of its parents, at most `fuel` of them. -/
def ancestorsUpTo (a : Arena) : Nat → NodeId → List NodeId
  | 0, _ => []
  | fuel + 1, id =>
    if id < a.size then id :: (a.parent? id).elim [] (a.ancestorsUpTo fuel) else []

def ancestors (a : Arena) (id : NodeId) : List NodeId := a.ancestorsUpTo a.size id

/-- The nodes below a node in preorder, at most `fuel` levels deep. -/
def walkUpTo (a : Arena) : Nat → NodeId → List NodeId
  | 0, _ => []
  | fuel + 1, id =>
    match a.data? id with
    | some data => id :: data.children.flatMap (a.walkUpTo fuel)
    | none => []

def walk (a : Arena) (root : NodeId) : List NodeId := a.walkUpTo a.size root

/-- Whether a cursor at `offset` is at a node that has characters. -/
def isAt (a : Arena) (offset : Nat) (id : NodeId) : Bool :=
  (a.span id).touches offset && !(a.span id).isEmpty

/-- Goes down from a node to the first child at the offset, at most `fuel` times. -/
def descend (a : Arena) (offset : Nat) : Nat → NodeId → NodeId
  | 0, id => id
  | fuel + 1, id =>
    match (a.children id).find? (a.isAt offset) with
    | some child => a.descend offset fuel child
    | none => id

def nodeAt? (a : Arena) (root : NodeId) (offset : Nat) : Option NodeId :=
  if (a.span root).touches offset then some (a.descend offset a.size root) else none

end Arena
end LiveCheck
