import LiveCheck.Scope.Binding
import LiveCheck.Tree.Basic

/-!
# Binding a tree

One walk over the tree in the order of evaluation declares every name that the file declares. The
walk knows the scope it is in, whether the statement at hand may be skipped, whether it is in a loop
and, in a method, the name of the receiver.
-/

namespace LiveCheck

/-- Where a walk over the tree stands. -/
structure BindContext where
  scope : ScopeId
  /-- Whether a branch, loop or guarded block of this scope is around. -/
  conditional : Bool := false
  inLoop : Bool := false
  /-- The receiver's name and the scope of its class, in the body of a method. -/
  receiver : Option (String × ScopeId) := none
deriving Repr, DecidableEq, Inhabited

namespace BindContext

/-- The context of a statement that may be skipped. -/
def branch (ctx : BindContext) : BindContext := { ctx with conditional := true }

def loop (ctx : BindContext) : BindContext := { ctx with conditional := true, inLoop := true }

end BindContext

namespace Binding

/-! ## Declaring names -/

def report (b : Binding) (code : Nat) (span : Span) (arg : Option String) : Binding :=
  { b with findings := b.findings.push ⟨code, span, arg⟩ }

def openScope (b : Binding) (kind : ScopeKind) (parent : Option ScopeId) (node : NodeId) :
    ScopeId × Binding :=
  let id := b.scopes.size
  (id, { b with
    scopes := b.scopes.push { kind := kind, parent := parent, node := node }
    definitionScopes := b.definitionScopes.insert node id })

/-- The scope that a declaration of a name belongs to: a `global` name to the module, a `nonlocal`
name to the nearest function around that has it, any other name to the scope it stands in. -/
def targetScope (b : Binding) (scope : ScopeId) (name : String) : ScopeId :=
  match b.scopes[scope]? with
  | none => scope
  | some here =>
    if here.globals.contains name then 0
    else if here.nonlocals.contains name then
      let outer := here.parent.elim [] b.enclosing
      (outer.find? fun id =>
        b.scopeKind? id == some .function && (b.local? id name).isSome).getD scope
    else scope

/-- The symbol of a name in a scope, made if it is new. -/
def symbolFor (b : Binding) (scope : ScopeId) (onInstance : Bool) (name : String) :
    SymbolId × Binding :=
  match if onInstance then b.instance? scope name else b.local? scope name with
  | some symbol => (symbol, b)
  | none =>
    let id := b.symbols.size
    let extend (s : Scope) : Scope :=
      if onInstance then { s with instanceSymbols := s.instanceSymbols.push (name, id) }
      else { s with symbols := s.symbols.push (name, id) }
    (id, { b with
      symbols := b.symbols.push ⟨name, scope, []⟩, scopes := b.scopes.modify scope extend })

/-- Declares a name in a scope. A declaration counts as conditional only within its own scope. -/
def addDeclaration (b : Binding) (ctx : BindContext) (scope : ScopeId) (kind : DeclarationKind)
    (name : String) (node owner : NodeId) (span : Span) (hint : Option NodeId)
    (origin : Option AliasTarget) : Binding :=
  let (symbol, b) := b.symbolFor scope (kind == .instanceAttribute) name
  let index := b.declarations.size
  let declaration : Declaration := {
    kind := kind, name := name, node := node, owner := owner, scope := scope, symbol := symbol
    span := span, typeHint := hint, origin := origin
    conditional := scope == ctx.scope && ctx.conditional, exported := false, wildcard := false }
  { b with
    declarations := b.declarations.push declaration
    symbols := b.symbols.modify symbol fun s => { s with declarations := s.declarations ++ [index] }
    nodeDeclarations := b.nodeDeclarations.insert node index }

/-- Notes in which scope a name stands. -/
def useName (b : Binding) (ctx : BindContext) (node : NodeId) : Binding :=
  { b with nameScopes := b.nameScopes.insert node ctx.scope }

/-- Declares the name of a node, which may fail to be a name where the text is malformed. -/
def declare (a : Arena) (ctx : BindContext) (b : Binding) (node : NodeId) (kind : DeclarationKind)
    (owner : NodeId) (hint : Option NodeId) (origin : Option AliasTarget) : Binding :=
  match a.nameText? node with
  | some name =>
    let scope := b.targetScope ctx.scope name
    (b.addDeclaration ctx scope kind name node owner (a.span node) hint origin).useName ctx
      node
  | none => b

/-- Declares an attribute of the receiver on the receiver's class. -/
def declareAttribute (a : Arena) (ctx : BindContext) (classScope : ScopeId) (b : Binding)
    (node owner : NodeId) (hint : Option NodeId) : Binding :=
  match a.nameText? node with
  | some name =>
    b.addDeclaration ctx classScope .instanceAttribute name node owner (a.span node) hint none
  | none => b

/-! ## Parameters -/

/-- The annotations and default values of parameters, which belong to the scope around. -/
def parameterParts (a : Arena) (params : List NodeId) : List NodeId :=
  params.flatMap fun param =>
    match a.data? param with
    | some (.parameter _ _ hint default) => hint.toList ++ default.toList
    | _ => []

/-- Declares the parameters; a name that occurs again is a problem and declares nothing. -/
def declareParameters (a : Arena) (ctx : BindContext) :
    List String → Binding → List NodeId → Binding
  | _, b, [] => b
  | seen, b, param :: params =>
    match a.data? param with
    | some (.parameter _ (some node) hint _) =>
      match a.nameText? node with
      | some name =>
        if seen.contains name then
          declareParameters a ctx seen
            (b.report Code.duplicateParameter (a.span node) (some name)) params
        else
          declareParameters a ctx (name :: seen)
            (declare a ctx b node .parameter param hint none) params
      | none => declareParameters a ctx seen b params
    | _ => declareParameters a ctx seen b params

/-- The name of the first parameter that takes a plain argument. -/
def receiverName? (a : Arena) (params : List NodeId) : Option String :=
  params.findSome? fun param =>
    match a.data? param with
    | some (.parameter .normal name _ _) => a.optionalName? name
    | _ => none

/-! ## Expressions and targets -/

/-- Binds an expression, at most `fuel` levels deep. -/
def expressionUpTo (a : Arena) : Nat → BindContext → Binding → NodeId → Binding
  | 0, _, b, _ => b
  | fuel + 1, ctx, b, id =>
    match a.data? id with
    | some (.name _) => b.useName ctx id
    | some (.member value _) => expressionUpTo a fuel ctx b value
    | some (.argument _ _ value) => expressionUpTo a fuel ctx b value
    | some (.lambda params body) =>
      let b := (parameterParts a params).foldl (expressionUpTo a fuel ctx) b
      let (scope, b) := b.openScope .lambda (some ctx.scope) id
      let inner : BindContext := { scope := scope }
      expressionUpTo a fuel inner (declareParameters a inner [] b params) body
    | some data => data.children.foldl (expressionUpTo a fuel ctx) b
    | none => b

def expression (a : Arena) (ctx : BindContext) (b : Binding) (id : NodeId) : Binding :=
  expressionUpTo a a.size ctx b id

def optional (a : Arena) (ctx : BindContext) (b : Binding) (id : Option NodeId) : Binding :=
  id.elim b (expression a ctx b)

/-- Binds a place that is assigned to, at most `fuel` levels deep. -/
def targetUpTo (a : Arena) (ctx : BindContext) (owner : NodeId) :
    Nat → Option NodeId → Binding → NodeId → Binding
  | 0, _, b, _ => b
  | fuel + 1, hint, b, id =>
    match a.data? id with
    | some (.name _) => declare a ctx b id .variable owner hint none
    | some (.tuple elts) | some (.list elts) => elts.foldl (targetUpTo a ctx owner fuel none) b
    | some (.starred value) => targetUpTo a ctx owner fuel none b value
    | some (.member value attr) =>
      let b := expression a ctx b value
      match ctx.receiver with
      | some (name, classScope) =>
        if a.nameText? value == some name then
          declareAttribute a ctx classScope b attr owner hint
        else b
      | none => b
    | some _ => expression a ctx b id
    | none => b

def target (a : Arena) (ctx : BindContext) (owner : NodeId) (hint : Option NodeId)
    (b : Binding) (id : NodeId) : Binding :=
  targetUpTo a ctx owner a.size hint b id

/-! ## The list `__all__` -/

def stringText? (a : Arena) (id : NodeId) : Option String :=
  match a.data? id with
  | some (.constant .string value) => value
  | _ => none

/-- The string literals in a list or tuple. -/
def stringList (a : Arena) (id : NodeId) : List String :=
  match a.data? id with
  | some (.list elts) | some (.tuple elts) => elts.filterMap (stringText? a)
  | _ => []

def extendExports (b : Binding) (names : List String) : Binding :=
  { b with exportList := some (b.exportList.getD [] ++ names) }

/-- The names that a call `__all__.append(x)` or `__all__.extend(xs)` adds. -/
def addedExports? (a : Arena) (id : NodeId) : Option (List String) :=
  match a.data? id with
  | some (.call func (first :: _)) =>
    match a.data? func, a.data? first with
    | some (.member value attr), some (.argument _ _ arg) =>
      if a.nameText? value == some "__all__" then
        match a.nameText? attr with
        | some "append" => (stringText? a arg).map ([·])
        | some "extend" => some (stringList a arg)
        | _ => none
      else none
    | _, _ => none
  | _ => none

/-- Whether a place is the module's `__all__`. -/
def isExportList (a : Arena) (ctx : BindContext) (id : NodeId) : Bool :=
  ctx.scope == 0 && a.nameText? id == some "__all__"

/-! ## Imports -/

/-- Binds one module of an `import` statement. Without `as` the name stands for the outermost
package. -/
def importModule (a : Arena) (ctx : BindContext) (b : Binding) (id : NodeId) : Binding :=
  match a.data? id with
  | some (.importAlias path asname) =>
    let dotted := a.dottedText path
    let index := b.imports.size
    let b := { b with imports := b.imports.push ⟨dotted, 0, id, a.span id, [], false⟩ }
    match asname, path with
    | some node, _ => declare a ctx b node .moduleAlias id none (some ⟨index, dotted, 0, none⟩)
    | none, node :: _ =>
      let outermost := (a.nameText? node).getD ""
      declare a ctx b node .moduleAlias id none (some ⟨index, outermost, 0, none⟩)
    | none, [] => b
  | _ => b

def importMember (a : Arena) (ctx : BindContext) (index : Nat) (dotted : String) (level : Nat)
    (b : Binding) (id : NodeId) : Binding :=
  match a.data? id with
  | some (.importAlias path asname) =>
    let origin : AliasTarget := ⟨index, dotted, level, a.optionalName? path.head?⟩
    match asname.orElse fun _ => path.head? with
    | some node => declare a ctx b node .alias id none (some origin)
    | none => b
  | _ => b

/-- The dotted name that one member of a `from` import mentions. -/
def importedName? (a : Arena) (id : NodeId) : Option String :=
  match a.data? id with
  | some (.importAlias path _) => some (a.dottedText path)
  | _ => none

/-- Binds a `from` import. What `*` brings in is not known before the module is. -/
def importMembers (a : Arena) (ctx : BindContext) (b : Binding) (id : NodeId)
    (path : List NodeId) (level : Nat) (names : List NodeId) (wildcard : Bool) : Binding :=
  let dotted := a.dottedText path
  let index := b.imports.size
  let record : ImportRecord :=
    ⟨dotted, level, id, a.span id, names.filterMap (importedName? a), wildcard⟩
  let b := { b with imports := b.imports.push record }
  if wildcard then { b with wildcards := b.wildcards.push index }
  else names.foldl (importMember a ctx index dotted level) b

/-! ## Statements -/

def nameTexts (a : Arena) (names : List NodeId) : List String := names.filterMap a.nameText?

def modifyScope (b : Binding) (scope : ScopeId) (f : Scope → Scope) : Binding :=
  { b with scopes := b.scopes.modify scope f }

/-- Binds a `return` statement, which only the scope of a function takes. -/
def returnFrom (b : Binding) (ctx : BindContext) (id : NodeId) (span : Span) : Binding :=
  if b.scopeKind? ctx.scope == some .function then
    b.modifyScope ctx.scope fun s => { s with returns := s.returns.push id }
  else b.report Code.returnOutsideFunction span none

/-- Checks that `break` or `continue` stands in a loop. -/
def loopControl (b : Binding) (ctx : BindContext) (span : Span) (keyword : String) : Binding :=
  if ctx.inLoop then b else b.report Code.loopControlOutsideLoop span (some keyword)

/-- Whether a function is declared without a receiver. -/
def isStatic (a : Arena) (decorators : List NodeId) : Bool :=
  decorators.any fun d => a.nameText? d == some "staticmethod"

/-- The receiver of a function defined in the scope of `ctx`, if it is a method. -/
def receiver? (a : Arena) (ctx : BindContext) (b : Binding) (decorators params : List NodeId) :
    Option (String × ScopeId) :=
  if b.scopeKind? ctx.scope == some .classBody && !isStatic a decorators then
    (receiverName? a params).map (·, ctx.scope)
  else none

def withItem (a : Arena) (ctx : BindContext) (b : Binding) (id : NodeId) : Binding :=
  match a.data? id with
  | some (.withItem context place) =>
    let b := expression a ctx b context
    place.elim b (target a ctx id none b)
  | _ => b

/-- Binds a statement, at most `fuel` levels deep. -/
def statementUpTo (a : Arena) : Nat → BindContext → Binding → NodeId → Binding
  | 0, _, b, _ => b
  | fuel + 1, ctx, b, id =>
    match a.data? id with
    | none => b
    | some (.exprStmt expr) =>
      let b := expression a ctx b expr
      if ctx.scope == 0 then (addedExports? a expr).elim b b.extendExports else b
    | some (.assign targets value) =>
      let b := targets.foldl (target a ctx id none) (expression a ctx b value)
      if targets.any (isExportList a ctx) then { b with exportList := some (stringList a value) }
      else b
    | some (.annAssign place hint value) =>
      let b := optional a ctx (expression a ctx b hint) value
      target a ctx id (some hint) b place
    | some (.augAssign place _ value) =>
      let b := expression a ctx b value
      if (a.nameText? place).isSome then
        let b := declare a ctx b place .variable id none none
        if isExportList a ctx place then b.extendExports (stringList a value) else b
      else expression a ctx b place
    | some (.returnStmt value) => optional a ctx (b.returnFrom ctx id (a.span id)) value
    | some .breakLoop => b.loopControl ctx (a.span id) "break"
    | some .continueLoop => b.loopControl ctx (a.span id) "continue"
    | some .pass | some .malformed => b
    | some (.globalStmt names) =>
      b.modifyScope ctx.scope fun s => { s with globals := s.globals ++ nameTexts a names }
    | some (.nonlocalStmt names) =>
      if ctx.scope == 0 then b.report Code.nonlocalAtModuleLevel (a.span id) none
      else b.modifyScope ctx.scope fun s => { s with nonlocals := s.nonlocals ++ nameTexts a names }
    | some (.ifStmt test body orelse) =>
      let b := body.foldl (statementUpTo a fuel ctx.branch) (expression a ctx b test)
      orelse.foldl (statementUpTo a fuel ctx.branch) b
    | some (.whileLoop test body orelse) =>
      let b := body.foldl (statementUpTo a fuel ctx.loop) (expression a ctx b test)
      orelse.foldl (statementUpTo a fuel ctx.branch) b
    | some (.forLoop place iter body orelse) =>
      let b := target a ctx.branch id none (expression a ctx b iter) place
      let b := body.foldl (statementUpTo a fuel ctx.loop) b
      orelse.foldl (statementUpTo a fuel ctx.branch) b
    | some (.tryStmt body handlers orelse finalbody) =>
      let b := body.foldl (statementUpTo a fuel ctx.branch) b
      let b := handlers.foldl (statementUpTo a fuel ctx) b
      let b := orelse.foldl (statementUpTo a fuel ctx.branch) b
      finalbody.foldl (statementUpTo a fuel ctx) b
    | some (.handler type caught body) =>
      let b := optional a ctx b type
      let b := caught.elim b fun node => declare a ctx.branch b node .variable id none none
      body.foldl (statementUpTo a fuel ctx.branch) b
    | some (.withStmt items body) =>
      body.foldl (statementUpTo a fuel ctx) (items.foldl (withItem a ctx) b)
    | some (.functionDef decorators name params returns body) =>
      let b := decorators.foldl (expression a ctx) b
      let b := optional a ctx ((parameterParts a params).foldl (expression a ctx) b) returns
      let b := declare a ctx b name .function id none none
      let receiver := receiver? a ctx b decorators params
      let (scope, b) := b.openScope .function (some ctx.scope) id
      let inner : BindContext := { scope := scope, receiver := receiver }
      body.foldl (statementUpTo a fuel inner) (declareParameters a inner [] b params)
    | some (.classDef decorators name bases body) =>
      let b := (decorators ++ bases).foldl (expression a ctx) b
      let b := declare a ctx b name .classDef id none none
      let (scope, b) := b.openScope .classBody (some ctx.scope) id
      body.foldl (statementUpTo a fuel { scope := scope }) b
    | some (.importStmt names) => names.foldl (importModule a ctx) b
    | some (.importFrom path level names wildcard) =>
      importMembers a ctx b id path level names wildcard
    | some _ => expression a ctx b id

/-! ## The whole tree -/

def startOf (b : Binding) (index : DeclIndex) : Nat :=
  b.declarations[index]?.elim 0 (·.span.start)

/-- Some declarations in the order of the text. -/
def inOrder (b : Binding) (ds : List DeclIndex) : List DeclIndex :=
  ds.foldl (fun sorted d => b.insertDeclaration (b.startOf d) d sorted) []

/-- Sorts the declarations of every symbol by their place, since a `global` name may be declared in
any function. -/
def sortDeclarations (b : Binding) : Binding :=
  { b with symbols := b.symbols.map fun s => { s with declarations := b.inOrder s.declarations } }

/-- Marks the declarations of the public names of the module. -/
def markExports (b : Binding) : Binding :=
  { b with declarations := b.declarations.map fun d =>
      { d with exported :=
          d.scope == 0 && d.kind != .instanceAttribute && isPublicName b.exportList d.name } }

end Binding

def Tree.bind (t : Tree) : Binding :=
  let (scope, b) := ({} : Binding).openScope .root none t.root
  let context : BindContext := { scope := scope }
  let b := t.statements.foldl (Binding.statementUpTo t.arena t.arena.size context) b
  b.sortDeclarations.markExports

end LiveCheck
