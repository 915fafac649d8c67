import LiveCheck.Evaluation.Member

/-!
# Type expressions

An annotation is an ordinary expression whose value is a class, or a text that names one. A
subscript on a built-in class gives the class its type arguments.
-/

namespace LiveCheck.Evaluation

/-- The type that the value of a type expression stands for. -/
def formType (t : TypeTable) (form : TypeId) : TypeId :=
  match t.inner? form with
  | some inner => inner
  | none =>
    if form == .none || form == .ellipsis || form == .unknown || form == .any ||
        (t.recursiveDecl? form).isSome then form
    else .unknown

def builtinType (name : String) : EvalM (Option TypeId) :=
  match BuiltinSymbol.find? name with
  | some symbol => some <$> withTypes symbol.type
  | none => return none

/-- Follows attributes from a value; where there is none, the value is unknown. -/
def followMembers (ask : Ask) : TypeId → List String → EvalM TypeId
  | current, [] => return current
  | current, part :: parts => do
    followMembers ask ((← member? ask current part).getD .unknown) parts

/-- The type that a quoted annotation names, looked up in the module. -/
def forwardReference (ask : Ask) (file : FileId) (text : String) : EvalM TypeId := do
  let some bound ← bound? file | return .unknown
  match Text.split '.' text with
  | [] => return .unknown
  | first :: rest =>
    let start ← match bound.binding.moduleSymbol? first with
      | some symbol => symbolType ask file symbol
      | none => pure ((← builtinType first).getD .unknown)
    let form ← followMembers ask start rest
    return formType (← types) form

def hintType (ask : Ask) (file : FileId) (node : NodeId) : EvalM TypeId := do
  let some bound ← bound? file | return .unknown
  match bound.arena.data? node with
  | some (.constant .string (some text)) => forwardReference ask file (Text.trim text)
  | _ =>
    let form ← expressionType ask file node
    return formType (← types) form

/-- The type that an annotation stands for; unknown without one. -/
def optionalHint (ask : Ask) (file : FileId) : Option NodeId → EvalM TypeId
  | some node => hintType ask file node
  | none => return .unknown

def notSubscriptable (file : FileId) (node : NodeId) (object : TypeId) : EvalM TypeId := do
  reportAt file node Code.notSubscriptable [← format object]
  return .unknown

/-- The instances of a built-in class with type arguments. Arguments that are too many are dropped,
and those that are missing are unknown. -/
def specialized (cls : BuiltinClass) (args : List TypeId) : TypeM TypeId :=
  match cls, cls.arity? with
  | .type, _ => TypeTable.classObject (args.headD .unknown)
  | _, none => TypeTable.tupleOf args
  | _, some arity =>
    TypeTable.builtin cls (args.take arity ++ List.replicate (arity - args.length) .unknown)

def specialize (ask : Ask) (file : FileId) (node : NodeId) (object inner : TypeId)
    (index : NodeId) : EvalM TypeId := do
  let some bound ← bound? file | return .unknown
  let parts := match bound.arena.data? index with
    | some (.tuple elts) => elts
    | _ => [index]
  let args ← parts.mapM fun part => do
    let form ← expressionType ask file part
    return formType (← types) form
  match (← types).builtinParts? inner with
  | some (cls, []) => withTypes (specialized cls args >>= TypeTable.classObject)
  | _ => notSubscriptable file node object

/-! ## Subscripts -/

/-- What a subscript of an object whose type is no union gives; nothing if it takes none. -/
def subscriptMember? (ask : Ask) (isSlice : Bool) (object : TypeId) : EvalM (Option TypeId) := do
  if absorbs object then return some object
  match (← types).get? object with
  | some (.recursive _ _) => return some .unknown
  | some (.inst (.builtin cls) args) =>
    match cls, isSlice with
    | .list, true => return some object
    | .list, false => return some (TypeTable.argument args 0)
    | .tuple, true =>
      let element ← elementType ask object
      some <$> withTypes (TypeTable.tupleOf [element, .ellipsis])
    | .tuple, false => some <$> elementType ask object
    | .dict, _ => return some (TypeTable.argument args 1)
    | .str, _ => return some .str
    | .bytes, true => return some .bytes
    | .bytes, false => return some .int
    | .range, _ => return some .int
    | _, _ => return none
  | some (.inst (.declared _) _) =>
    match ← member? ask object "__getitem__" with
    | some method => some <$> callResult ask method
    | none => return none
  | _ => return none

def subscriptType (ask : Ask) (file : FileId) (node value index : NodeId) : EvalM TypeId := do
  let object ← expressionType ask file value
  match (← types).inner? object with
  | some inner => specialize ask file node object inner index
  | none =>
    let _ ← expressionType ask file index
    let isSlice := (← bound? file).any fun bound =>
      match bound.arena.data? index with
      | some (.slice _ _ _) => true
      | _ => false
    let members := (← types).members object
    let results ← OptionT.run (members.mapM fun m => OptionT.mk (subscriptMember? ask isSlice m))
    match results with
    | some results => withTypes (TypeTable.union results)
    | none => notSubscriptable file node object

end LiveCheck.Evaluation
