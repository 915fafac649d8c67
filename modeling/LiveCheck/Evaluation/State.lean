import LiveCheck.Session.View
import LiveCheck.Types.Assignable
import LiveCheck.Types.Builtins
import LiveCheck.Types.Format
import LiveCheck.Types.Operation

/-!
# The state of an evaluation

Types are computed on demand, one key at a time. A key stands for the type of an expression, of a
declaration, or for what a function gives. Keys whose computation has begun form a stack; results
are kept in the units.
-/

namespace LiveCheck

/-- What can be asked for. -/
inductive EvalKey
  | node (file : FileId) (node : NodeId)
  | decl (decl : DeclId)
  /-- What the body of a function or lambda gives. -/
  | result (file : FileId) (node : NodeId)
deriving Repr, DecidableEq, Inhabited

/-- A computation that has begun. -/
structure Frame where
  key : EvalKey
  /-- The lowest place on the stack that it has seen unfinished. Places count from one; zero means
  that the stack was full. -/
  lowest : Nat
deriving Repr, DecidableEq, Inhabited

/-- What happens in the course of an evaluation. -/
inductive EvalEvent
  | began (key : EvalKey)
  /-- A key is asked for whose computation is in progress, at the given place on the stack. -/
  | reentered (key : EvalKey) (place : Nat)
  /-- A key is asked for while the stack is full. -/
  | exceeded (key : EvalKey)
  | ended (key : EvalKey)
  | kept (key : EvalKey) (type : TypeId)
deriving Repr, DecidableEq, Inhabited

/-- An event, with the computations that are in progress behind it. -/
structure Moment where
  event : EvalEvent
  stack : List Frame
deriving Repr, DecidableEq, Inhabited

/-- The direct bases of declared classes, the latest note first. -/
abbrev BaseNotes := List (DeclId × List ClassKey)

/-- The hierarchy that is known; a class about which nothing is noted has no bases. -/
def BaseNotes.hierarchy (notes : BaseNotes) : Hierarchy := fun cls =>
  (notes.lookup cls.decl).getD []

/-- A comparison of two types, with what was known when it began. -/
structure Comparison where
  source : TypeId
  target : TypeId
  types : TypeTable
  notes : BaseNotes
deriving Repr, DecidableEq, Inhabited

/-- What the comparison says. -/
def Comparison.holds (c : Comparison) : Bool :=
  c.types.assignable c.notes.hierarchy c.source c.target

/-- An evaluation in progress. -/
structure EvalState where
  session : Session
  /-- The computations that have begun, the innermost first. -/
  stack : List Frame := []
  /-- The results of functions that were asked for while they were being computed. -/
  reentered : List EvalKey := []
  /-- What to answer when a result that is being computed is asked for. -/
  provisional : List (EvalKey × TypeId) := []
  classBases : BaseNotes := []
  /-- The comparisons made so far, the latest first. -/
  comparisons : List Comparison := []
  /-- What happened so far, the latest event first. -/
  journal : List Moment := []
  /-- Whether something was met that goes on without end. -/
  endless : Bool := false
deriving Inhabited

def EvalState.note (st : EvalState) (event : EvalEvent) : EvalState :=
  { st with journal := ⟨event, st.stack⟩ :: st.journal }

/-- A computation in an evaluation. -/
abbrev EvalM := StateM EvalState

/-- How rules ask for the keys they need. -/
abbrev Ask := EvalKey → EvalM TypeId

namespace Evaluation

/-! ## Access to the session -/

/-- Runs an operation of the session. -/
def withSession {α : Type} (f : Session → α × Session) : EvalM α := fun st =>
  let (a, s) := f st.session
  (a, { st with session := s })

/-- Runs a computation that may ask for types. -/
def withTypes {α : Type} (m : TypeM α) : EvalM α :=
  withSession fun s =>
    let (a, types) := m s.types
    (a, { s with types := types })

def types : EvalM TypeTable := return (← get).session.types

/-- Notes that the evaluation goes on without end; nobody gets to see the answer. -/
def giveUp {α : Type} (a : α) : EvalM α := fun st => (a, { st with endless := true })

def format (type : TypeId) : EvalM String := return (← types).format type

def bound? (file : FileId) : EvalM (Option BoundFile) := withSession (·.bindFile file)

/-- A declaration of a file, which is brought up to date. -/
def declaration? (decl : DeclId) : EvalM (Option Declaration) := do
  return (← bound? decl.file).bind (·.binding.declarations[decl.index]?)

/-! ## Reports -/

def report (file : FileId) (span : Span) (code : Nat) (args : List String) : EvalM Unit := do
  let path := ((← bound? file).map (·.path)).getD ""
  let diagnostic := Diagnostic.ofCode path span code args
  modify fun st => { st with session := st.session.modifyUnit file (·.report diagnostic) }

def reportAt (file : FileId) (node : NodeId) (code : Nat) (args : List String) : EvalM Unit := do
  let span := ((← bound? file).map (·.arena.span node)).getD ⟨0, 0⟩
  report file span code args

/-! ## Results -/

/-- The result for a key among what is known about a node. -/
def known? (entry : NodeAnalysis) : EvalKey → Option TypeId
  | .node _ _ => entry.exprType
  | .result _ _ => entry.returnType
  | .decl decl => entry.declTypes.lookup decl.index

/-- Puts the type of a declaration among others. -/
def setDeclType (index : DeclIndex) (type : TypeId) :
    List (DeclIndex × TypeId) → List (DeclIndex × TypeId)
  | [] => [(index, type)]
  | (i, t) :: rest =>
    if i == index then (i, type) :: rest else (i, t) :: setDeclType index type rest

/-- Adds the result for a key to what is known about a node. -/
def learn (type : TypeId) (entry : NodeAnalysis) : EvalKey → NodeAnalysis
  | .node _ _ => { entry with exprType := some type }
  | .result _ _ => { entry with returnType := some type }
  | .decl decl => { entry with declTypes := setDeclType decl.index type entry.declTypes }

/-- The node at which the result for a key is kept. -/
def site? : EvalKey → EvalM (Option (FileId × NodeId))
  | .node file node | .result file node => return some (file, node)
  | .decl decl => do return (← declaration? decl).map fun d => (decl.file, d.node)

/-- The node at which the result for a key is kept, if its table can be opened. -/
def openSite? (key : EvalKey) : EvalM (Option (FileId × NodeId)) := do
  let some (file, node) ← site? key | return none
  return if ← withSession (·.openAnalysis file) then some (file, node) else none

/-- The result for a key, if it is known. -/
def memo? (key : EvalKey) : EvalM (Option TypeId) := do
  let some (file, node) ← openSite? key | return none
  let entry := ((← get).session.unit? file).bind (·.analysis.get? node)
  return entry.bind (known? · key)

def remember (key : EvalKey) (type : TypeId) : EvalM Unit := do
  let some (file, node) ← openSite? key | return
  let store (u : SourceUnit) : SourceUnit :=
    { u with analysis := u.analysis.update node (learn type · key) }
  modify fun st =>
    { st with session := st.session.modifyUnit file store }.note (.kept key type)

/-! ## Common questions -/

def expressionType (ask : Ask) (file : FileId) (node : NodeId) : EvalM TypeId :=
  ask (.node file node)

def optionalType (ask : Ask) (file : FileId) : Option NodeId → EvalM TypeId
  | some node => ask (.node file node)
  | none => return .unknown

def declarationType (ask : Ask) (file : FileId) (index : DeclIndex) : EvalM TypeId :=
  ask (.decl ⟨file, index⟩)

def isDeclaredInstance (type : TypeId) : EvalM Bool :=
  return ((← types).declaredClass? type).isSome

/-- Whether a type stands, alone or in a union, for something that is being computed. -/
def isPlaceholder (type : TypeId) : EvalM Bool := do
  let t ← types
  return (t.members type).any fun m => (t.recursiveDecl? m).isSome

end Evaluation
end LiveCheck
