import LiveCheck.Evaluation.Expression

/-!
# Results of functions

What a function gives follows from its `return` statements, and from whether control can reach the
end of its body. A recursive function is evaluated twice: the returns that do not lead back to it
are a first answer, with which the others are evaluated.
-/

namespace LiveCheck.Evaluation

/-- Whether control never reaches the end of a block, as far as `fuel` levels of statements show. -/
def alwaysExitsUpTo (a : Arena) : Nat → List NodeId → Bool
  | 0, _ => false
  | fuel + 1, block =>
    match block.getLast?.bind a.data? with
    | some (.returnStmt _) | some (.raiseStmt _ _) => true
    | some (.ifStmt _ body orelse) => alwaysExitsUpTo a fuel body && alwaysExitsUpTo a fuel orelse
    | some (.withStmt _ body) => alwaysExitsUpTo a fuel body
    | some (.tryStmt body handlers _ finalbody) =>
      let handlersExit := handlers.all fun h =>
        match a.data? h with
        | some (.handler _ _ body) => alwaysExitsUpTo a fuel body
        | _ => false
      (alwaysExitsUpTo a fuel body && handlersExit) || alwaysExitsUpTo a fuel finalbody
    | _ => false

def alwaysExits (a : Arena) (block : List NodeId) : Bool := alwaysExitsUpTo a a.size block

/-- Takes a key out of those that were asked for again; the answer is whether it was there. -/
def takeReentered (key : EvalKey) : EvalM Bool := fun st =>
  (st.reentered.contains key, { st with reentered := st.reentered.filter (· != key) })

/-- The type of one `return` statement, and whether its value was found without asking for `key`
again. -/
def returnType (ask : Ask) (file : FileId) (a : Arena) (key : EvalKey) (node : NodeId) :
    EvalM (TypeId × Bool) := do
  match a.data? node with
  | some (.returnStmt (some value)) =>
    let _ ← takeReentered key
    let type ← expressionType ask file value
    return (type, !(← takeReentered key))
  | _ => return (.none, true)

/-- The types of all returns, the end of the body included if control reaches it. -/
def returnTypes (ask : Ask) (file : FileId) (a : Arena) (returns : List NodeId) (key : EvalKey)
    (reachesEnd : Bool) : EvalM (List (TypeId × Bool)) := do
  let found ← returns.mapM (returnType ask file a key)
  return if reachesEnd then found ++ [(.none, true)] else found

/-- Sets the answer for a result that is being computed. -/
def setProvisional (key : EvalKey) (type : TypeId) : EvalM Unit :=
  modify fun st => { st with
    provisional := (key, type) :: st.provisional.filter (·.1 != key) }

def clearProvisional (key : EvalKey) : EvalM Unit :=
  modify fun st => { st with provisional := st.provisional.filter (·.1 != key) }

/-- Runs a computation with an answer for a result that is being computed. -/
def withProvisional {α : Type} (key : EvalKey) (type : TypeId) (m : EvalM α) : EvalM α := do
  setProvisional key type
  let a ← m
  clearProvisional key
  return a

/-- What the `return` statements of a function give. -/
def joinReturns (ask : Ask) (file : FileId) (a : Arena) (returns : List NodeId) (key : EvalKey)
    (reachesEnd : Bool) : EvalM TypeId := do
  let found ← returnTypes ask file a returns key reachesEnd
  let settled := (found.filter (·.2)).map (·.1)
  if settled.length == found.length then withTypes (TypeTable.union settled)
  else if settled.isEmpty then return .unknown
  else
    let seed ← withTypes (TypeTable.union settled)
    let again ← withProvisional key seed (returnTypes ask file a returns key reachesEnd)
    withTypes (TypeTable.union (again.map (·.1)))

/-- What the body of a function or lambda gives. -/
def computeResult (ask : Ask) (file : FileId) (node : NodeId) : EvalM TypeId := do
  let some bound ← bound? file | return .unknown
  match bound.arena.data? node with
  | some (.lambda _ body) => expressionType ask file body
  | some (.functionDef _ _ _ _ body) =>
    let scope := (bound.binding.scopeOfDefinition? node).bind (bound.binding.scopes[·]?)
    let returns := scope.elim [] (·.returns.toList)
    if returns.isEmpty then return .none
    joinReturns ask file bound.arena returns (.result file node) (!alwaysExits bound.arena body)
  | _ => return .unknown

end LiveCheck.Evaluation
