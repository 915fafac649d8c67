import LiveCheck.Evaluation.Call
import LiveCheck.Evaluation.TypeForm

/-!
# The types of expressions

The type of a name follows from its declarations, that of an operation from the rules for built-in
classes or from a special method, and that of any expression from the types of its parts.
-/

/-!
## References to names

A name that is read in the scope that declares it has the type of the declarations before it: of the
last one that is not conditional and of the conditional ones behind that. Read from elsewhere, all
declarations count.
-/

namespace LiveCheck.Evaluation

/-- Whether a declaration is in effect at an offset of its own scope. An assignment is in effect
behind its statement, any other declaration from its name on. -/
def isInEffect (a : Arena) (offset : Nat) (d : Declaration) : Bool :=
  match a.data? d.owner with
  | some (.assign _ _) | some (.annAssign _ _ _) | some (.augAssign _ _ _) =>
    (a.span d.owner).stop ≤ offset
  | _ => d.span.start ≤ offset

/-- Adds a declaration to those that may be in effect; one that is not conditional replaces them. -/
def supersede (chosen : List DeclIndex) (entry : DeclIndex × Declaration) : List DeclIndex :=
  if entry.2.conditional then chosen ++ [entry.1] else [entry.1]

/-- The declarations that may be in effect at an offset of their scope. -/
def effective (bound : BoundFile) (decls : List DeclIndex) (offset : Nat) : List DeclIndex :=
  let entries := decls.filterMap fun d => (bound.binding.declarations[d]?).map (d, ·)
  (entries.filter fun entry => isInEffect bound.arena offset entry.2).foldl supersede []

def referenceType (ask : Ask) (bound : BoundFile) (scope : ScopeId) (symbol : SymbolId)
    (offset : Nat) : EvalM TypeId := do
  let decls := bound.binding.declarationsOf symbol
  match lastAnnotated? bound.binding decls with
  | some d => declarationType ask bound.file d
  | none =>
    let isOwn := bound.binding.symbols[symbol]?.any (·.scope == scope)
    let chosen := if isOwn then effective bound decls offset else []
    let found ← (if chosen.isEmpty then decls else chosen).mapM (declarationType ask bound.file)
    withTypes (TypeTable.union found)

/-- The type of a name read at an offset; a name without any meaning is reported. -/
def nameTypeAt (ask : Ask) (file : FileId) (node : NodeId) (offset : Nat) : EvalM TypeId := do
  let some bound ← bound? file | return .unknown
  let some name := bound.arena.nameText? node | return .unknown
  let scope := (bound.binding.scopeOfName? node).getD 0
  match bound.binding.resolve? scope name with
  | some symbol => referenceType ask bound scope symbol offset
  | none =>
    match ← builtinType name with
    | some type => return type
    | none =>
      reportAt file node Code.undefinedName [name]
      return .unknown

def nameType (ask : Ask) (file : FileId) (node : NodeId) : EvalM TypeId := do
  let some bound ← bound? file | return .unknown
  nameTypeAt ask file node (bound.arena.span node).start

end LiveCheck.Evaluation

/-!
## Operators

On declared classes an operator calls the special method of the left operand. On everything else the
rules for built-in classes apply.
-/

namespace LiveCheck.Evaluation

def unsupportedOperator (file : FileId) (node : NodeId) (op : BinaryOp) (left right : TypeId) :
    EvalM TypeId := do
  reportAt file node Code.unsupportedOperator [op.text, ← format left, ← format right]
  return .unknown

def binaryOperation (ask : Ask) (file : FileId) (node : NodeId) (op : BinaryOp)
    (left right : TypeId) : EvalM TypeId := do
  if left == .never || right == .never then return .never
  if ← isPlaceholder left then return .unknown
  if ← isPlaceholder right then return .unknown
  if ← isDeclaredInstance left then
    match ← member? ask left op.method with
    | some method => callResult ask method
    | none => unsupportedOperator file node op left right
  else
    match ← withTypes (TypeTable.operation? op left right) with
    | some result => return result
    | none => unsupportedOperator file node op left right

def unaryOperation (ask : Ask) (op : UnaryOp) (operand : TypeId) : EvalM TypeId := do
  if ← isPlaceholder operand then return if op == .not then .bool else .unknown
  match op.method?, ← isDeclaredInstance operand with
  | some name, true =>
    match ← member? ask operand name with
    | some method => callResult ask method
    | none => return .unknown
  | _, _ => return (← withTypes (TypeTable.unary? op operand)).getD .unknown

end LiveCheck.Evaluation

/-!
## Expressions

The type of an expression from the types of its parts.
-/

namespace LiveCheck.Evaluation

def constantType : ConstantKind → TypeId
  | .int => .int
  | .float => .float
  | .complex => .complex
  | .string => .str
  | .bytes => .bytes
  | .true | .false => .bool
  | .none => .none
  | .ellipsis => .ellipsis

def isStarred (a : Arena) (node : NodeId) : Bool := (a.data? node).any (·.isStarred)

/-- The types of the elements of a display; a starred one counts by its elements. -/
def elementTypes (ask : Ask) (file : FileId) (a : Arena) (elts : List NodeId) :
    EvalM (List TypeId) :=
  elts.mapM fun elt => do
    let type ← expressionType ask file elt
    if isStarred a elt then elementType ask type else return type

/-- The type of a tuple. With a starred element its length is not known. -/
def tupleType (ask : Ask) (file : FileId) (a : Arena) (elts : List NodeId) : EvalM TypeId := do
  let elements ← elementTypes ask file a elts
  if elts.any (isStarred a) then
    let element ← withTypes (TypeTable.union elements)
    withTypes (TypeTable.tupleOf [element, .ellipsis])
  else withTypes (TypeTable.tupleOf elements)

/-- The common type of the elements of a list or set; unknown if there are none. -/
def displayElement (ask : Ask) (file : FileId) (a : Arena) (elts : List NodeId) :
    EvalM TypeId := do
  if elts.isEmpty then return .unknown
  let elements ← elementTypes ask file a elts
  withTypes (TypeTable.union elements)

/-- The types of the key and the value of one entry; `**mapping` counts by its type arguments. -/
def entryTypes (ask : Ask) (file : FileId) (entry : Option NodeId × NodeId) :
    EvalM (TypeId × TypeId) := do
  let value ← expressionType ask file entry.2
  match entry.1 with
  | some key => return (← expressionType ask file key, value)
  | none =>
    match (← types).builtinParts? value with
    | some (.dict, [key, value]) => return (key, value)
    | _ => return (.unknown, .unknown)

def dictType (ask : Ask) (file : FileId) (entries : List (Option NodeId × NodeId)) :
    EvalM TypeId := do
  if entries.isEmpty then return ← withTypes (TypeTable.dictOf .unknown .unknown)
  let found ← entries.mapM (entryTypes ask file)
  let key ← withTypes (TypeTable.union (found.map (·.1)))
  let value ← withTypes (TypeTable.union (found.map (·.2)))
  withTypes (TypeTable.dictOf key value)

/-! ### Parameters -/

/-- How a parameter takes its arguments, and whether those behind it are passed by keyword. A bare
`*` or `/` is no parameter. -/
def paramKind (keywordOnly : Bool) : ParameterForm → Option ParamKind × Bool
  | .normal => (some (if keywordOnly then .keywordOnly else .positional), keywordOnly)
  | .varArgs => (some .varArgs, true)
  | .kwArgs => (some .kwArgs, keywordOnly)
  | .keywordMarker => (none, true)
  | .positionalMarker => (none, keywordOnly)

def paramTypes (ask : Ask) (file : FileId) (a : Arena) : Bool → List NodeId → EvalM (List Param)
  | _, [] => return []
  | keywordOnly, node :: nodes => do
    match a.data? node with
    | some (.parameter form name hint default) =>
      match paramKind keywordOnly form with
      | (none, keywordOnly) => paramTypes ask file a keywordOnly nodes
      | (some kind, keywordOnly) =>
        let type ← optionalHint ask file hint
        let rest ← paramTypes ask file a keywordOnly nodes
        return ⟨(a.optionalName? name).getD "", kind, type, default.isSome⟩ :: rest
    | _ => paramTypes ask file a keywordOnly nodes

def defaultOf? (a : Arena) (node : NodeId) : Option NodeId :=
  match a.data? node with
  | some (.parameter _ _ _ default) => default
  | _ => none

/-- The type of a lambda. Default values are evaluated where it stands. -/
def lambdaType (ask : Ask) (file : FileId) (a : Arena) (node : NodeId) (params : List NodeId) :
    EvalM TypeId := do
  for param in params do
    let _ ← optionalType ask file (defaultOf? a param)
  let found ← paramTypes ask file a false params
  let result ← ask (.result file node)
  withTypes (TypeTable.function ⟨"lambda", found, some result, none⟩)

/-! ### All expressions -/

def computeExpression (ask : Ask) (file : FileId) (node : NodeId) : EvalM TypeId := do
  let some bound ← bound? file | return .unknown
  let a := bound.arena
  match a.data? node with
  | some (.name _) =>
    match bound.binding.declarationAt? node with
    | some d => declarationType ask file d
    | none => nameType ask file node
  | some (.constant kind _) => return constantType kind
  | some (.binary left op right) =>
    let l ← expressionType ask file left
    let r ← expressionType ask file right
    binaryOperation ask file node op l r
  | some (.boolean _ values) =>
    let found ← values.mapM (expressionType ask file)
    withTypes (TypeTable.union found)
  | some (.unary op operand) =>
    let type ← expressionType ask file operand
    unaryOperation ask op type
  | some (.compare left _ comparators) =>
    for operand in left :: comparators do
      let _ ← expressionType ask file operand
    return .bool
  | some (.call func args) => callType ask file func args
  | some (.argument _ _ value) => expressionType ask file value
  | some (.member value attr) =>
    let object ← expressionType ask file value
    memberAccess ask file attr object ((a.nameText? attr).getD "")
  | some (.subscript value index) => subscriptType ask file node value index
  | some (.slice lower upper step) =>
    for part in [lower, upper, step] do
      let _ ← optionalType ask file part
    return .unknown
  | some (.tuple elts) => tupleType ask file a elts
  | some (.list elts) =>
    let element ← displayElement ask file a elts
    withTypes (TypeTable.listOf element)
  | some (.set elts) =>
    let element ← displayElement ask file a elts
    withTypes (TypeTable.setOf element)
  | some (.dict entries) => dictType ask file entries
  | some (.conditional test body orelse) =>
    let _ ← expressionType ask file test
    let first ← expressionType ask file body
    let second ← expressionType ask file orelse
    withTypes (TypeTable.union2 first second)
  | some (.lambda params _) => lambdaType ask file a node params
  | some (.starred value) => expressionType ask file value
  | _ => return .unknown

end LiveCheck.Evaluation
