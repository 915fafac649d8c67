import LiveCheck.Evaluation.Engine

/-!
# Checking a file

A check visits every statement of a file once. It asks for the type of every expression and of every
declaration, which reports what is wrong with them, and compares assigned and returned values with
the types that were declared for them.
-/

namespace LiveCheck

def ImportRecord.text (r : ImportRecord) : String :=
  String.ofList (List.replicate r.level '.') ++ r.path

namespace Evaluation

/-! ## The type at a node -/

/-- Whether a node that is no statement has no type either. -/
def isTypeless : NodeData → Bool
  | .root _ | .handler _ _ _ | .withItem _ _ | .importAlias _ _ | .parameter _ _ _ _ => true
  | data => data.isStatement

/-- The expression whose type a name that declares nothing shows: the name itself, or the attribute
that it is the last part of. A name that stands for no value shows none. -/
def shownExpression? (a : Arena) (node : NodeId) : Option NodeId :=
  let parent := a.parent? node
  match parent.bind a.data? with
  | some (.member _ attr) => if attr == node then parent else some node
  | some (.argument _ name _) => if name == some node then none else some node
  | some (.importAlias _ _) | some (.importFrom _ _ _ _) | some (.globalStmt _)
  | some (.nonlocalStmt _) => none
  | _ => some node

/-- The type of what stands at a node: of a declaration, an attribute or any other expression. -/
def typeOfNode? (ask : Ask) (file : FileId) (node : NodeId) : EvalM (Option TypeId) := do
  let some bound ← bound? file | return none
  match bound.binding.declarationAt? node with
  | some decl => some <$> declarationType ask file decl
  | none =>
    match bound.arena.data? node with
    | none => return none
    | some data =>
      if isTypeless data then return none
      let shown := if data.isName then shownExpression? bound.arena node else some node
      match shown with
      | some expr => some <$> expressionType ask file expr
      | none => return none

/-! ## Imports -/

/-- Checks that a module has the members that an import names. -/
def checkMembers (ask : Ask) (bound : BoundFile) (target : FileId) (record : ImportRecord) :
    EvalM Unit := do
  let names := match bound.arena.data? record.node with
    | some (.importFrom _ _ names _) => names
    | _ => []
  for item in names do
    if let some (.importAlias path _) := bound.arena.data? item then
      let name := bound.arena.dottedText path
      if (← moduleMember? ask target name).isNone then
        reportAt bound.file item Code.unknownImportSymbol [name]

/-- Checks that an import leads somewhere. -/
def checkImport (ask : Ask) (bound : BoundFile) (record : ImportRecord) : EvalM Unit := do
  match ← withSession (·.importFrom bound.file record.path record.level) with
  | none =>
    if (← get).session.options.reportUnresolvedImports then
      report bound.file record.span Code.unresolvedImport [record.text]
  | some target =>
    if !record.wildcard then checkMembers ask bound target record

/-! ## Values and declared types -/

/-- Checks that a value fits the type declared for it. -/
def checkAssignment (ask : Ask) (file : FileId) (site : NodeId) (source target : TypeId) :
    EvalM Unit := do
  if !(← isAssignable ask source target) then
    reportAt file site Code.assignmentTypeMismatch [← format source, ← format target]

/-- Checks a value against the type that an annotation elsewhere gives to the name it is assigned
to. -/
def checkDeclared (ask : Ask) (bound : BoundFile) (target value : NodeId) (type : TypeId) :
    EvalM Unit := do
  let decl := (bound.binding.declarationAt? target).bind (bound.binding.declarations[·]?)
  match decl with
  | some d =>
    if !d.annotated then
      if let some declared ← declaredType? ask bound.file d.symbol then
        checkAssignment ask bound.file value type declared
  | none => return

/-- Checks a returned value against the declared result of the function. -/
def checkReturn (ask : Ask) (bound : BoundFile) (site : NodeId) (returned : TypeId)
    (function : Option NodeId) : EvalM Unit := do
  match function.bind bound.arena.data? with
  | some (.functionDef _ _ _ (some hint) _) =>
    let declared ← hintType ask bound.file hint
    if !(← isAssignable ask returned declared) then
      reportAt bound.file site Code.returnTypeMismatch [← format returned, ← format declared]
  | _ => return

/-! ## Targets -/

/-- Asks for the declarations that a target makes and for the expressions that it reads. Targets are
nested at most `fuel` deep. -/
def visitTarget (ask : Ask) (bound : BoundFile) : Nat → NodeId → EvalM Unit
  | 0, _ => return
  | fuel + 1, target => do
    let visit (node : NodeId) : EvalM Unit := discard (expressionType ask bound.file node)
    match bound.arena.data? target with
    | none => return
    | some (.name _) => discard (typeOfNode? ask bound.file target)
    | some (.member value attr) =>
      visit value
      if let some decl := bound.binding.declarationAt? attr then
        discard (declarationType ask bound.file decl)
    | some (.subscript value index) =>
      visit value
      visit index
    | some (.tuple elts) | some (.list elts) => elts.forM (visitTarget ask bound fuel)
    | some (.starred value) => visitTarget ask bound fuel value
    | _ => visit target

def checkTarget (ask : Ask) (bound : BoundFile) (value : NodeId) (type : TypeId)
    (target : NodeId) : EvalM Unit := do
  visitTarget ask bound bound.arena.size target
  if (bound.arena.data? target).any NodeData.isName then
    checkDeclared ask bound target value type

/-! ## Statements -/

def importedName? (a : Arena) (item : NodeId) : Option NodeId :=
  match a.data? item with
  | some (.importAlias path asname) => asname.orElse fun _ => path.head?
  | _ => none

def checkAugmented (ask : Ask) (bound : BoundFile) (stmt target : NodeId) (op : BinaryOp)
    (value : NodeId) : EvalM Unit := do
  if (bound.arena.data? target).any NodeData.isName then
    let _ ← expressionType ask bound.file value
    let result ← typeOfNode? ask bound.file target
    checkDeclared ask bound target value (result.getD .unknown)
  else
    let left ← expressionType ask bound.file target
    let right ← expressionType ask bound.file value
    discard (binaryOperation ask bound.file stmt op left right)

def checkHead (ask : Ask) (bound : BoundFile) (decorators : List NodeId) (name : NodeId)
    (params : List NodeId) (returns : Option NodeId) : EvalM Unit := do
  let a := bound.arena
  for decorator in decorators do
    if !isBindingDecorator a decorator then discard (expressionType ask bound.file decorator)
  for param in params do
    if let some (.parameter _ name _ default) := a.data? param then
      discard (optionalType ask bound.file default)
      name.forM (visitTarget ask bound a.size)
  discard (optionalHint ask bound.file returns)
  visitTarget ask bound a.size name

/-- Checks a statement inside `function`, the innermost function around it if no class is between
them. Statements are nested at most `fuel` deep. -/
def checkStatement (ask : Ask) (bound : BoundFile) :
    Nat → Option NodeId → NodeId → EvalM Unit
  | 0, _, _ => return
  | fuel + 1, function, stmt => do
    let a := bound.arena
    let visit (node : NodeId) : EvalM Unit := discard (expressionType ask bound.file node)
    let visitOption (node : Option NodeId) : EvalM Unit :=
      discard (optionalType ask bound.file node)
    let declare (node : NodeId) : EvalM Unit := visitTarget ask bound a.size node
    let block (body : List NodeId) : EvalM Unit :=
      body.forM (checkStatement ask bound fuel function)
    match a.data? stmt with
    | some (.exprStmt expr) => visit expr
    | some (.assign targets value) =>
      let type ← expressionType ask bound.file value
      targets.forM (checkTarget ask bound value type)
    | some (.annAssign target hint value) =>
      let declared ← hintType ask bound.file hint
      declare target
      if let some value := value then
        let type ← expressionType ask bound.file value
        checkAssignment ask bound.file value type declared
    | some (.augAssign target op value) => checkAugmented ask bound stmt target op value
    | some (.returnStmt (some value)) =>
      let returned ← expressionType ask bound.file value
      checkReturn ask bound value returned function
    | some (.returnStmt none) => checkReturn ask bound stmt .none function
    | some (.raiseStmt exc cause) =>
      visitOption exc
      visitOption cause
    | some (.assertStmt test msg) =>
      visit test
      visitOption msg
    | some (.deleteStmt targets) => targets.forM declare
    | some (.ifStmt test body orelse) | some (.whileLoop test body orelse) =>
      visit test
      block body
      block orelse
    | some (.forLoop target iter body orelse) =>
      visit iter
      declare target
      block body
      block orelse
    | some (.tryStmt body handlers orelse finalbody) =>
      block body
      for clause in handlers do
        if let some (.handler type name body) := a.data? clause then
          visitOption type
          name.forM declare
          block body
      block orelse
      block finalbody
    | some (.withStmt items body) =>
      for item in items do
        if let some (.withItem context target) := a.data? item then
          visit context
          target.forM declare
      block body
    | some (.functionDef decorators name params returns body) =>
      checkHead ask bound decorators name params returns
      body.forM (checkStatement ask bound fuel (some stmt))
    | some (.classDef decorators name bases body) =>
      decorators.forM visit
      bases.forM visit
      declare name
      body.forM (checkStatement ask bound fuel none)
    | some (.importStmt names) | some (.importFrom _ _ names _) =>
      (names.filterMap (importedName? a)).forM declare
    | _ => return

def checkFile (file : FileId) : EvalM Unit := do
  let some bound ← bound? file | return
  bound.binding.imports.forM (checkImport evaluate bound)
  match bound.arena.data? bound.root with
  | some (.root body) => body.forM (checkStatement evaluate bound bound.arena.size none)
  | _ => return

end Evaluation
end LiveCheck
