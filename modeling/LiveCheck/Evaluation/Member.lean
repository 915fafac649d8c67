import LiveCheck.Evaluation.State

/-!
# Symbols and attributes

What the declarations of a name say about it, and where an attribute of an object is found.
-/

/-!
## Symbols, modules and results of functions

The type of a name comes from its declarations: from the last annotated one, or else from all that
may be in effect.
-/

namespace LiveCheck.Evaluation

def lastAnnotated? (b : Binding) (decls : List DeclIndex) : Option DeclIndex :=
  decls.reverse.find? fun d => b.declarations[d]?.any (·.annotated)

def symbolType (ask : Ask) (file : FileId) (symbol : SymbolId) : EvalM TypeId := do
  let some bound ← bound? file | return .unknown
  let decls := bound.binding.declarationsOf symbol
  match lastAnnotated? bound.binding decls with
  | some d => declarationType ask file d
  | none =>
    let found ← decls.mapM (declarationType ask file)
    if found.isEmpty then return .unknown else withTypes (TypeTable.union found)

/-- The type that an annotation somewhere gives a symbol. -/
def declaredType? (ask : Ask) (file : FileId) (symbol : SymbolId) : EvalM (Option TypeId) := do
  let some bound ← bound? file | return none
  match lastAnnotated? bound.binding (bound.binding.declarationsOf symbol) with
  | some d => some <$> declarationType ask file d
  | none => return none

def moduleType (file : FileId) : EvalM TypeId := do
  match ← bound? file with
  | some bound => withTypes (TypeTable.moduleObject file bound.moduleName)
  | none => return .unknown

/-- The type of a member of a module: one of its symbols, or else a module inside the package. -/
def moduleMember? (ask : Ask) (file : FileId) (name : String) : EvalM (Option TypeId) := do
  let some bound ← bound? file | return none
  match bound.binding.moduleSymbol? name with
  | some symbol => some <$> symbolType ask file symbol
  | none =>
    match ← withSession (·.submodule file name) with
    | some submodule => some <$> moduleType submodule
    | none => return none

/-- What a function gives: its declared result, or else what its body gives. -/
def functionResult (ask : Ask) (s : Signature) : EvalM TypeId := do
  match s.result, s.decl with
  | some result, _ => return result
  | none, none => return .unknown
  | none, some decl =>
    match ← declaration? decl with
    | some d => ask (.result decl.file d.owner)
    | none => return .unknown

/-- What calling a value gives, whatever the arguments; `fuel` bounds how many types stand inside one
another. -/
def callResultUpTo (ask : Ask) : Nat → TypeId → EvalM TypeId
  | 0, _ => giveUp .unknown
  | fuel + 1, callee => do
    let t ← types
    match t.get? callee with
    | some (.function shape) => (t.shape? shape).elim (return .unknown) (functionResult ask)
    | some (.boundMethod method _) => callResultUpTo ask fuel method
    | some (.classObject inner) => return inner
    | some (.union members) =>
      let results ← members.mapM (callResultUpTo ask fuel)
      withTypes (TypeTable.union results)
    | some .any => return .any
    | _ => return .unknown

/-- What calling a value gives, whatever the arguments. More types inside one another than there are
go round in circles. -/
def callResult (ask : Ask) (callee : TypeId) : EvalM TypeId := do
  callResultUpTo ask ((← types).size + 1) callee

end LiveCheck.Evaluation

/-!
## Attributes

An attribute of an object is looked up in the classes of the object, in the order of resolution.
Functions found in a class are bound to the object; properties are evaluated.
-/

namespace LiveCheck.Evaluation

/-! ### Classes -/

def classDefinition? (decl : DeclId) : EvalM (Option (BoundFile × NodeId)) := do
  let some d ← declaration? decl | return none
  if d.kind != .classDef then return none
  return (← bound? decl.file).map (·, d.owner)

def classScope? (decl : DeclId) : EvalM (Option (BoundFile × ScopeId)) := do
  let some (bound, node) ← classDefinition? decl | return none
  return (bound.binding.scopeOfDefinition? node).map (bound, ·)

/-- The expressions in the head of a class that may be bases; keyword arguments are none. -/
def baseExpressions (a : Arena) (node : NodeId) : List NodeId :=
  match a.data? node with
  | some (.classDef _ _ bases _) =>
    bases.filter fun base =>
      match a.data? base with
      | some (.argument _ (some _) _) => false
      | _ => true
  | _ => []

/-- The class that the value of an expression is. -/
def classOfValue? (t : TypeTable) (value : TypeId) : Option ClassKey :=
  (t.inner? value).bind fun inner => (t.parts? inner).map (·.1)

/-- The classes that some expressions stand for, each once. -/
def evaluateBases (ask : Ask) (file : FileId) :
    List ClassKey → List NodeId → EvalM (List ClassKey)
  | found, [] => return found
  | found, base :: rest => do
    let value ← expressionType ask file base
    match classOfValue? (← types) value with
    | some cls =>
      evaluateBases ask file (if found.contains cls then found else found ++ [cls]) rest
    | none => evaluateBases ask file found rest

def setBases (decl : DeclId) (bases : List ClassKey) : EvalM Unit :=
  modify fun st => { st with classBases := (decl, bases) :: st.classBases }

/-- The direct bases of a declared class, as its definition has them. -/
def findBases (ask : Ask) (decl : DeclId) : EvalM (List ClassKey) := do
  match ← classDefinition? decl with
  | some (bound, node) => evaluateBases ask decl.file [] (baseExpressions bound.arena node)
  | none => return []

/-- The direct bases of a declared class. While they are being evaluated, the class counts as having
none, so that a class may be its own base. -/
def declaredBases (ask : Ask) (cls : DeclaredClass) : EvalM (List ClassKey) := do
  match (← get).classBases.lookup cls.decl with
  | some bases => return bases
  | none =>
    setBases cls.decl []
    let bases ← findBases ask cls.decl
    setBases cls.decl bases
    return bases

def declaredOf? : ClassKey → Option DeclaredClass
  | .declared cls => some cls
  | .builtin _ => none

/-- Finds the bases of the waiting classes up to one that has declared classes as bases, and goes on
with `next` behind it. -/
def prepareFirst (ask : Ask) (next : List DeclaredClass → List DeclId → EvalM Unit) :
    List DeclaredClass → List DeclId → EvalM Unit
  | [], _ => return
  | cls :: waiting, seen => do
    if seen.contains cls.decl then prepareFirst ask next waiting seen
    else
      let bases ← declaredBases ask cls
      match bases.filterMap declaredOf? with
      | [] => prepareFirst ask next waiting (cls.decl :: seen)
      | above => next (above.reverse ++ waiting) (cls.decl :: seen)

/-- Finds the bases of the waiting classes and of all above them; behind so many classes with
declared bases it goes on with `again`. -/
def prepareClasses (ask : Ask) (again : List DeclaredClass → List DeclId → EvalM Unit) :
    Nat → List DeclaredClass → List DeclId → EvalM Unit
  | 0 => again
  | classes + 1 => prepareFirst ask (prepareClasses ask again classes)

/-- Finds the bases of the waiting classes and of all above them. Classes with bases are declared in
files that are bound by then. If there are more of them than there were declarations, then another
file has been bound meanwhile, and that can happen at most `files` times. -/
def prepareUpTo (ask : Ask) : Nat → List DeclaredClass → List DeclId → EvalM Unit
  | 0, _, _ => return
  | files + 1, waiting, seen => do
    let classes := (← get).session.declarationCount + 1
    prepareClasses ask (prepareUpTo ask files) classes waiting seen

/-- Finds the bases of a class and of all above it. -/
def prepare (ask : Ask) : ClassKey → EvalM Unit
  | .builtin _ => return
  | .declared cls => do
    prepareUpTo ask (← get).session.bindingDepth [cls] []

def hierarchy : EvalM Hierarchy := return (← get).classBases.hierarchy

/-- The order in which classes are searched for an attribute. -/
def searchOrder (ask : Ask) (cls : ClassKey) : EvalM (List ClassKey) := do
  prepare ask cls
  return resolutionOrder (← hierarchy) cls

/-- Compares two types with the bases found so far. -/
def compareTypes (source target : TypeId) : EvalM Bool := do
  let comparison : Comparison := ⟨source, target, ← types, (← get).classBases⟩
  modify fun st => { st with comparisons := comparison :: st.comparisons }
  return comparison.holds

/-- Whether a value of one type may stand where another is expected. A type that is being computed
is compatible with any other. -/
def isAssignable (ask : Ask) (source target : TypeId) : EvalM Bool := do
  if ← isPlaceholder source then return true
  if ← isPlaceholder target then return true
  let t ← types
  for cls in t.declaredClasses source ++ t.declaredClasses target do
    prepare ask (.declared cls)
  compareTypes source target

/-! ### Decorators -/

/-- The name of a decorator: `setter` for `x.setter`. -/
def decoratorName? (a : Arena) (decorator : NodeId) : Option String :=
  match a.data? decorator with
  | some (.name _) => a.nameText? decorator
  | some (.member _ attr) => a.nameText? attr
  | _ => none

def decoratorNames (a : Arena) (decorators : List NodeId) : List String :=
  decorators.filterMap (decoratorName? a)

/-- Whether a decorator says how a method is bound and wraps nothing. -/
def isBindingDecorator (a : Arena) (decorator : NodeId) : Bool :=
  (decoratorName? a decorator).any
    (["staticmethod", "classmethod", "property", "setter"].contains ·)

/-! ### Looking up attributes -/

/-- Through what an attribute is reached. -/
inductive Access
  | throughInstance
  | throughClass
deriving Repr, DecidableEq, Inhabited

/-- The decorators of the function that is the last declaration of a symbol. -/
def symbolDecorators (bound : BoundFile) (symbol : SymbolId) : List String :=
  let last := (bound.binding.declarationsOf symbol).getLast?.bind (bound.binding.declarations[·]?)
  match last with
  | some d =>
    if d.kind == .function then
      match bound.arena.data? d.owner with
      | some (.functionDef decorators _ _ _ _) => decoratorNames bound.arena decorators
      | _ => []
    else []
  | none => []

/-- An attribute of a class as the receiver sees it. -/
def bindAttribute (ask : Ask) (bound : BoundFile) (symbol : SymbolId) (receiver : TypeId)
    (access : Access) : EvalM TypeId := do
  let type ← symbolType ask bound.file symbol
  let some signature := (← types).signature? type | return type
  let decorators := symbolDecorators bound symbol
  if decorators.contains "staticmethod" then return type
  if decorators.contains "classmethod" then
    let cls ← match access with
      | .throughInstance => withTypes (TypeTable.classObject receiver)
      | .throughClass => pure receiver
    return ← withTypes (TypeTable.boundMethod type cls)
  match access, decorators.contains "property" with
  | .throughInstance, true => functionResult ask signature
  | .throughInstance, false => withTypes (TypeTable.boundMethod type receiver)
  | .throughClass, _ => return type

/-- An attribute that a declared class itself defines; for instances also one that its methods
assign. -/
def ownMember? (ask : Ask) (decl : DeclId) (name : String) (receiver : TypeId) (access : Access) :
    EvalM (Option TypeId) := do
  let some (bound, scope) ← classScope? decl | return none
  match bound.binding.local? scope name with
  | some symbol => some <$> bindAttribute ask bound symbol receiver access
  | none =>
    if access != .throughInstance then return none
    match bound.binding.instance? scope name with
    | some symbol => some <$> symbolType ask bound.file symbol
    | none => return none

/-- An attribute that one class of an order defines. Type arguments belong to the first class
alone. -/
def memberIn? (ask : Ask) (first : ClassKey) (args : List TypeId) (name : String)
    (self receiver : TypeId) (access : Access) (cls : ClassKey) : EvalM (Option TypeId) :=
  match cls with
  | .builtin b => withTypes (builtinMethod? b (if cls == first then args else []) self name)
  | .declared d => ownMember? ask d.decl name receiver access

def instanceMember? (ask : Ask) (receiver : TypeId) (cls : ClassKey) (args : List TypeId)
    (name : String) : EvalM (Option TypeId) := do
  let order ← searchOrder ask cls
  match ← order.findSomeM? (memberIn? ask cls args name receiver receiver .throughInstance) with
  | some type => return some type
  | none =>
    if name == "__class__" then some <$> withTypes (TypeTable.classObject receiver) else return none

def classMember? (ask : Ask) (object inner : TypeId) (name : String) : EvalM (Option TypeId) := do
  if name == "__name__" then return some .str
  let some (cls, args) := (← types).parts? inner | return none
  let order ← searchOrder ask cls
  order.findSomeM? (memberIn? ask cls args name inner object .throughClass)

/-- Whether all attributes of a value have the type of the value itself. -/
def absorbs (object : TypeId) : Bool := object == .unknown || object == .any || object == .never

def simpleMember? (ask : Ask) (name : String) (object : TypeId) : EvalM (Option TypeId) := do
  if absorbs object then return some object
  match (← types).get? object with
  | some (.recursive _ _) => return some .unknown
  | some (.inst cls args) => instanceMember? ask object cls args name
  | some (.classObject inner) => classMember? ask object inner name
  | some (.moduleObject file _) => moduleMember? ask file name
  | some (.function _) | some (.boundMethod _ _) =>
    return if name == "__name__" then some .str else none
  | _ => return none

/-- An attribute of an object; an object of a union has it only if each member of the union has.
`fuel` bounds how many unions stand inside one another. -/
def memberUpTo? (ask : Ask) (name : String) : Nat → TypeId → EvalM (Option TypeId)
  | 0, _ => giveUp none
  | fuel + 1, object => do
    match (← types).get? object with
    | some (.union members) =>
      OptionT.run do
        let found ← members.mapM fun m => OptionT.mk (memberUpTo? ask name fuel m)
        withTypes (TypeTable.union found)
    | _ => simpleMember? ask name object

/-- An attribute of an object. More unions inside one another than there are types go round in
circles. -/
def member? (ask : Ask) (object : TypeId) (name : String) : EvalM (Option TypeId) := do
  memberUpTo? ask name ((← types).size + 1) object

/-- An attribute of an object; that there is none is reported at the attribute's name. -/
def memberAccess (ask : Ask) (file : FileId) (site : NodeId) (object : TypeId) (name : String) :
    EvalM TypeId := do
  match ← member? ask object name with
  | some type => return type
  | none =>
    reportAt file site Code.unknownAttribute [name, ← format object]
    return .unknown

/-! ### Declarations of attributes -/

def declIds (bound : BoundFile) (symbol : SymbolId) : List DeclId :=
  (bound.binding.declarationsOf symbol).map (⟨bound.file, ·⟩)

/-- The declarations of an attribute in one declared class. -/
def memberDeclarationsIn? (access : Access) (name : String) (cls : ClassKey) :
    EvalM (Option (List DeclId)) := do
  let .declared d := cls | return none
  let some (bound, scope) ← classScope? d.decl | return none
  let symbol := (bound.binding.local? scope name).orElse fun _ =>
    if access == .throughInstance then bound.binding.instance? scope name else none
  return symbol.map (declIds bound)

/-- The declarations of an attribute in the first class of an order that has any. -/
def memberDeclarationsOf (ask : Ask) (cls : ClassKey) (access : Access) (name : String) :
    EvalM (List DeclId) := do
  let order ← searchOrder ask cls
  return (← order.findSomeM? (memberDeclarationsIn? access name)).getD []

/-- The declarations of an attribute of an object whose type is no union. -/
def simpleMemberDeclarations (ask : Ask) (name : String) (object : TypeId) :
    EvalM (List DeclId) := do
  let t ← types
  match t.get? object with
  | some (.moduleObject file _) =>
    let some bound ← bound? file | return []
    return (bound.binding.moduleSymbol? name).elim [] (declIds bound)
  | some (.inst cls _) => memberDeclarationsOf ask cls .throughInstance name
  | some (.classObject inner) =>
    match t.parts? inner with
    | some (cls, _) => memberDeclarationsOf ask cls .throughClass name
    | none => return []
  | _ => return []

/-- The declarations of an attribute of an object, each once; `fuel` bounds how many unions stand
inside one another. -/
def memberDeclarationsUpTo (ask : Ask) (name : String) : Nat → TypeId → EvalM (List DeclId)
  | 0, _ => giveUp []
  | fuel + 1, object => do
    match (← types).get? object with
    | some (.union members) =>
      return (← members.mapM (memberDeclarationsUpTo ask name fuel)).flatten.eraseDups
    | _ => simpleMemberDeclarations ask name object

/-- The declarations of an attribute of an object, each once. Built-in attributes have none. -/
def memberDeclarations (ask : Ask) (object : TypeId) (name : String) : EvalM (List DeclId) := do
  memberDeclarationsUpTo ask name ((← types).size + 1) object

/-! ### Iteration -/

/-- What iterating over a value gives whose method `__iter__` is known, if it has one. -/
def iteratedType (ask : Ask) (type : TypeId) : Option TypeId → EvalM TypeId
  | some method => do
    let iterator ← callResult ask method
    match ← member? ask iterator "__next__" with
    | some next => callResult ask next
    | none => return .unknown
  | none => do
    match ← withTypes (TypeTable.element? type) with
    | some element => return element.getD .unknown
    | none => giveUp .unknown

/-- What iterating over a value gives. Declared classes say so by `__iter__` and `__next__`. -/
def elementType (ask : Ask) (type : TypeId) : EvalM TypeId := do
  iteratedType ask type
    (← if ← isDeclaredInstance type then member? ask type "__iter__" else pure none)

end LiveCheck.Evaluation
