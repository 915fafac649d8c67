import LiveCheck.Evaluation.Expression

/-!
# Declarations

The type of a declaration from its annotation, or else from what is assigned to it.
-/

namespace LiveCheck.Evaluation

/-! ## Assignment to a pattern -/

def fixedElements? (t : TypeTable) (type : TypeId) : Option (List TypeId) :=
  match t.builtinParts? type with
  | some (.tuple, args) => if args.contains TypeId.ellipsis then none else some args
  | _ => none

/-- The type that an element of a pattern receives. A starred element receives a list; without one,
a tuple of the right length is taken apart. -/
def partType (a : Arena) (elts : List NodeId) (fixed : Option (List TypeId)) (element : TypeId)
    (elt : NodeId) (index : Nat) : EvalM TypeId :=
  if isStarred a elt then withTypes (TypeTable.listOf element)
  else
    match fixed with
    | some args =>
      return if !elts.any (isStarred a) && args.length == elts.length then args.getD index element
        else element
    | none => return element

/-- The type that reaches a name when a value is assigned to some patterns part by part. -/
def destructureParts (reach : NodeId → TypeId → EvalM (Option TypeId)) (ask : Ask) (a : Arena)
    (elts : List NodeId) (type : TypeId) : EvalM (Option TypeId) := do
  let fixed := fixedElements? (← types) type
  let element ← elementType ask type
  elts.zipIdx.findSomeM? fun (elt, index) => do
    reach elt (← partType a elts fixed element elt index)

/-- The type that reaches the name `wanted` when a value is assigned to a pattern, at most `fuel`
levels deep. -/
def destructureUpTo (ask : Ask) (a : Arena) (wanted : NodeId) :
    Nat → NodeId → TypeId → EvalM (Option TypeId)
  | 0, _, _ => return none
  | fuel + 1, target, type => do
    match a.data? target with
    | some (.name _) => return if target == wanted then some type else none
    | some (.member _ attr) => return if attr == wanted then some type else none
    | some (.starred value) => destructureUpTo ask a wanted fuel value type
    | some (.tuple elts) | some (.list elts) =>
      destructureParts (destructureUpTo ask a wanted fuel) ask a elts type
    | _ => return none

def destructure (ask : Ask) (a : Arena) (wanted target : NodeId) (type : TypeId) :
    EvalM (Option TypeId) :=
  destructureUpTo ask a wanted a.size target type

/-! ## Variables -/

/-- What `with` binds when it enters a value. -/
def enteredType (ask : Ask) (manager : TypeId) : EvalM TypeId := do
  if !(← isDeclaredInstance manager) then return manager
  match ← member? ask manager "__enter__" with
  | some method => callResult ask method
  | none => return .unknown

/-- What a handler catches that names a class or a tuple of classes. -/
def caughtType (caught : TypeId) : EvalM TypeId := do
  let t ← types
  match t.inner? caught, t.builtinParts? caught with
  | some inner, _ => return inner
  | none, some (.tuple, args) =>
    let members := (args.filter (· != .ellipsis)).map fun arg => (t.inner? arg).getD .unknown
    withTypes (TypeTable.union members)
  | none, _ => return .unknown

/-- The type of a variable from the statement that assigns it. -/
def variableType (ask : Ask) (bound : BoundFile) (d : Declaration) : EvalM TypeId := do
  let file := bound.file
  let a := bound.arena
  match a.data? d.owner with
  | some (.assign targets value) =>
    let type ← expressionType ask file value
    return (← targets.findSomeM? (destructure ask a d.node · type)).getD .unknown
  | some (.annAssign _ _ value) => optionalType ask file value
  | some (.augAssign target op value) =>
    let prior ← if (a.data? target).any (·.isName) then
        nameTypeAt ask file target (a.span d.owner).start
      else expressionType ask file target
    let right ← expressionType ask file value
    binaryOperation ask file d.owner op prior right
  | some (.forLoop target iter _ _) =>
    let iterable ← expressionType ask file iter
    let element ← elementType ask iterable
    return (← destructure ask a d.node target element).getD .unknown
  | some (.withItem context (some target)) =>
    let manager ← expressionType ask file context
    let entered ← enteredType ask manager
    return (← destructure ask a d.node target entered).getD .unknown
  | some (.handler caught _ _) =>
    let type ← optionalType ask file caught
    caughtType type
  | _ => return .unknown

/-! ## Parameters -/

/-- The class whose body defines a function. -/
def enclosingClass? (bound : BoundFile) (definition : NodeId) : Option (DeclId × String) := do
  let b := bound.binding
  let scope ← b.scopeOfDefinition? definition
  let parent ← b.scopes[(← (← b.scopes[scope]?).parent)]?
  if parent.kind != .classBody then none
  else
    match bound.arena.data? parent.node with
    | some (.classDef _ name _ _) =>
      let index ← b.declarationAt? name
      let d ← b.declarations[index]?
      some (⟨bound.file, index⟩, d.name)
    | _ => none

/-- The type of the receiver, if the parameter is the first of a method. -/
def receiverType? (bound : BoundFile) (param : NodeId) : EvalM (Option TypeId) := do
  let some function := bound.arena.parent? param | return none
  match bound.arena.data? function with
  | some (.functionDef decorators _ params _ _) =>
    let names := decoratorNames bound.arena decorators
    if params.head? != some param || names.contains "staticmethod" then return none
    let some (decl, name) := enclosingClass? bound function | return none
    let inst ← withTypes (TypeTable.declared decl name)
    if names.contains "classmethod" then some <$> withTypes (TypeTable.classObject inst)
    else return some inst
  | _ => return none

/-- The type of a plain parameter without annotation: that of the receiver, or else that of its
default value, unless this is `None`. -/
def bareParameterType (ask : Ask) (bound : BoundFile) (param : NodeId) (default : Option NodeId) :
    EvalM TypeId := do
  match ← receiverType? bound param with
  | some receiver => return receiver
  | none =>
    let type ← optionalType ask bound.file default
    return if type == .none then .unknown else type

def parameterType (ask : Ask) (bound : BoundFile) (d : Declaration) : EvalM TypeId := do
  match bound.arena.data? d.owner with
  | some (.parameter form _ hint default) =>
    let declared ← optionalHint ask bound.file hint
    match form with
    | .varArgs => withTypes (TypeTable.tupleOf [declared, .ellipsis])
    | .kwArgs => withTypes (TypeTable.dictOf .str declared)
    | _ =>
      if hint.isSome then return declared else bareParameterType ask bound d.owner default
  | _ => return .unknown

/-! ## Functions and imports -/

/-- Applies decorators, the innermost first; those that say how a method is bound change nothing. -/
def decorate (ask : Ask) (file : FileId) (a : Arena) : TypeId → List NodeId → EvalM TypeId
  | type, [] => return type
  | type, decorator :: rest => do
    if isBindingDecorator a decorator then decorate ask file a type rest
    else
      let wrapper ← expressionType ask file decorator
      decorate ask file a (← callResult ask wrapper) rest

def functionType (ask : Ask) (bound : BoundFile) (decl : DeclId) (d : Declaration) :
    EvalM TypeId := do
  let file := bound.file
  let a := bound.arena
  match a.data? d.owner with
  | some (.functionDef decorators _ params returns _) =>
    let found ← paramTypes ask file a false params
    let result ← match returns with
      | some node => some <$> hintType ask file node
      | none => pure none
    let function ← withTypes (TypeTable.function ⟨d.name, found, result, some decl⟩)
    decorate ask file a function decorators.reverse
  | _ => return .unknown

def importedType (ask : Ask) (file : FileId) (d : Declaration) : EvalM TypeId := do
  let some origin := d.origin | return .unknown
  match ← withSession (·.importFrom file origin.path origin.level) with
  | none => return .unknown
  | some target =>
    match d.kind, origin.member with
    | .alias, some member => return (← moduleMember? ask target member).getD .unknown
    | _, _ => moduleType target

/-- The type of a variable: what its hint says, or else what is assigned to it. -/
def hintedType (ask : Ask) (bound : BoundFile) (file : FileId) (d : Declaration) : EvalM TypeId :=
  match d.typeHint with
  | some node => hintType ask file node
  | none => variableType ask bound d

def computeDeclaration (ask : Ask) (decl : DeclId) : EvalM TypeId := do
  let some bound ← bound? decl.file | return .unknown
  let some d := bound.binding.declarations[decl.index]? | return .unknown
  match d.kind with
  | .variable | .instanceAttribute => hintedType ask bound decl.file d
  | .parameter => parameterType ask bound d
  | .function => functionType ask bound decl d
  | .classDef => withTypes (TypeTable.declared decl d.name >>= TypeTable.classObject)
  | .alias | .moduleAlias => importedType ask decl.file d

end LiveCheck.Evaluation
