import LiveCheck.Evaluation.Member

/-!
# Calls

What a call gives follows from the callee; the arguments are checked against its parameters. Calling
a class makes an instance, calling an instance calls its `__call__`. That may be an instance again,
and nothing keeps a class from having an instance of itself there.
-/

namespace LiveCheck.Evaluation

/-- An argument whose type is known. -/
structure Argument where
  form : ArgumentForm
  /-- The parameter it is meant for. -/
  name : Option String
  type : TypeId
  node : NodeId
deriving Repr, DecidableEq, Inhabited

/-- Whether some arguments come out of a sequence or a mapping. -/
def isUnpacked (args : List Argument) : Bool :=
  args.any fun a => a.form == .unpack || a.form == .unpackDict

/-! ## Checking arguments -/

def checkArgument (ask : Ask) (file : FileId) (arg : Argument) (p : Param) : EvalM Unit := do
  if p.type == .unknown then return
  if ← isAssignable ask arg.type p.type then return
  reportAt file arg.node Code.argumentTypeMismatch
    [← format arg.type, p.name, ← format p.type]

/-- Whether a parameter takes an argument of its own name. -/
def takesName (p : Param) : Bool := p.kind == .positional || p.kind == .keywordOnly

/-- Checks the arguments passed by position against the parameters that take them. -/
def checkPositional (ask : Ask) (file : FileId) (rest : Option Param) :
    List Param → List Argument → EvalM Unit
  | _, [] => return
  | p :: params, arg :: args => do
    checkArgument ask file arg p
    checkPositional ask file rest params args
  | [], arg :: args => do
    if let some p := rest then checkArgument ask file arg p
    checkPositional ask file rest [] args

/-- The parameter that takes an argument of the given name, with its place. -/
def named? (params : List Param) (name : String) : Option (Param × Nat) :=
  params.zipIdx.find? fun (p, _) => p.name == name && takesName p

def checkKeyword (ask : Ask) (file : FileId) (params : List Param) (arg : Argument) :
    EvalM Unit := do
  let some name := arg.name | return
  match named? params name, params.find? (·.kind == .kwArgs) with
  | some (p, _), _ => checkArgument ask file arg p
  | none, some p => checkArgument ask file arg p
  | none, none => reportAt file arg.node Code.unknownKeywordArgument [name]

/-- The places of the parameters that receive an argument. -/
def filledPlaces (params : List Param) (args : List Argument) : List Nat :=
  let positional := args.filter (·.form == .positional)
  let places := (params.zipIdx.filter (·.1.kind == .positional)).map (·.2)
  let keywords := (args.filter (·.form == .keyword)).filterMap fun arg =>
    (arg.name.bind (named? params)).map (·.2)
  places.take positional.length ++ keywords

/-- Whether a parameter that may not be left out receives no argument. -/
def isMissing (params : List Param) (args : List Argument) : Bool :=
  params.zipIdx.any fun (p, place) =>
    takesName p && !p.hasDefault && !(filledPlaces params args).contains place

def wrongCount (file : FileId) (site : NodeId) (expected got : Nat) : EvalM Unit :=
  reportAt file site Code.argumentCountMismatch [Nat.repr expected, Nat.repr got]

def checkArguments (ask : Ask) (file : FileId) (site : NodeId) (params : List Param)
    (args : List Argument) : EvalM Unit := do
  let positional := args.filter (·.form == .positional)
  let places := params.filter (·.kind == .positional)
  let rest := params.find? (·.kind == .varArgs)
  checkPositional ask file rest places positional
  if rest.isNone && places.length < positional.length && !isUnpacked args then
    wrongCount file site places.length positional.length
  else
    for arg in args do
      if arg.form == .keyword then checkKeyword ask file params arg
    if !isUnpacked args && isMissing params args then
      wrongCount file site (places.countP (!·.hasDefault)) positional.length

/-! ## Making instances -/

/-- An instance of a declared class, made by its `__init__`. Without one and without a built-in base
it takes no arguments. -/
def constructDeclared (ask : Ask) (file : FileId) (site : NodeId) (inst : TypeId) (cls : ClassKey)
    (args : List Argument) : EvalM TypeId := do
  match ← member? ask inst "__init__" with
  | some init =>
    let t ← types
    match t.get? init with
    | some (.boundMethod method _) =>
      if let some s := t.signature? method then
        checkArguments ask file site (s.params.drop 1) args
    | _ => pure ()
  | none =>
    let order ← searchOrder ask cls
    let hasBuiltinBase := order.any fun key => key.builtin?.any (· != .object)
    if !hasBuiltinBase && !isUnpacked args && !args.isEmpty then
      wrongCount file site 0 args.length
  return inst

/-- The elements of an argument, unknown without one. -/
def elementOf (ask : Ask) : Option TypeId → EvalM TypeId
  | some type => elementType ask type
  | none => return .unknown

/-- An instance of a built-in class without type arguments, made from the first argument. -/
def constructBuiltin (ask : Ask) (inst : TypeId) (cls : BuiltinClass) (first : Option TypeId) :
    EvalM TypeId := do
  match cls, first with
  | .list, _ => withTypes (TypeTable.listOf (← elementOf ask first))
  | .set, _ => withTypes (TypeTable.setOf (← elementOf ask first))
  | .tuple, some type => withTypes (TypeTable.tupleOf [← elementType ask type, .ellipsis])
  | .tuple, none => withTypes (TypeTable.tupleOf [])
  | .dict, _ => withTypes (TypeTable.dictOf .unknown .unknown)
  | .type, some value =>
    if ((← types).parts? value).isSome then withTypes (TypeTable.classObject value)
    else return .unknown
  | .type, none => return .unknown
  | _, _ => return inst

def construct (ask : Ask) (file : FileId) (site : NodeId) (inst : TypeId) (args : List Argument) :
    EvalM TypeId := do
  match (← types).parts? inst with
  | none => return .unknown
  | some (.declared cls, _) => constructDeclared ask file site inst (.declared cls) args
  | some (.builtin cls, []) =>
    constructBuiltin ask inst cls ((args.find? (·.form == .positional)).map (·.type))
  | some (.builtin _, _ :: _) => return inst

/-! ## Results -/

def notCallable (file : FileId) (site : NodeId) (callee : TypeId) : EvalM TypeId := do
  reportAt file site Code.notCallable [← format callee]
  return .unknown

/-- What a call gives; `fuel` bounds how many callees stand for one another. -/
def callUpTo (ask : Ask) (file : FileId) (site : NodeId) (args : List Argument) :
    Nat → TypeId → EvalM TypeId
  | 0, _ => giveUp .unknown
  | fuel + 1, callee => do
    let t ← types
    match t.get? callee with
    | none | some .unknown | some (.recursive _ _) => return .unknown
    | some .any => return .any
    | some .never => return .never
    | some (.union members) =>
      let results ← members.mapM (callUpTo ask file site args fuel)
      withTypes (TypeTable.union results)
    | some (.classObject inner) => construct ask file site inner args
    | some (.function shape) =>
      match t.shape? shape with
      | some s =>
        checkArguments ask file site s.params args
        functionResult ask s
      | none => return .unknown
    | some (.boundMethod method _) =>
      match t.signature? method with
      | some s =>
        checkArguments ask file site (s.params.drop 1) args
        functionResult ask s
      | none => return .unknown
    | some (.inst _ _) =>
      match ← member? ask callee "__call__", (t.declaredClass? callee).isSome with
      | some method, true => callUpTo ask file site args fuel method
      | _, _ => notCallable file site callee
    | some (.moduleObject _ _) => notCallable file site callee

/-- How an argument is passed, and the parameter it is meant for. -/
def argumentForm (a : Arena) (node : NodeId) : ArgumentForm × Option String :=
  match a.data? node with
  | some (.argument form name _) => (form, a.optionalName? name)
  | _ => (.positional, none)

/-- The type of a call. Callees that stand for one another by `__call__` are classes written down
somewhere, which bounds how many there are: a call that meets more of them goes round in circles. -/
def callType (ask : Ask) (file : FileId) (func : NodeId) (args : List NodeId) : EvalM TypeId := do
  let callee ← expressionType ask file func
  let some bound ← bound? file | return .unknown
  let arguments ← args.mapM fun node => do
    let (form, name) := argumentForm bound.arena node
    return (⟨form, name, ← expressionType ask file node, node⟩ : Argument)
  callUpTo ask file func arguments (2 * (← get).session.contentSize + 4) callee

end LiveCheck.Evaluation
