import LiveCheck.Evaluation.Check
import LiveCheck.Session.Flush

/-!
# Questions about the program

Every question takes in the pending changes first, so it sees the latest content of the file and of
all that the file depends on. A question that fails still leaves the session up to date.
-/

namespace LiveCheck

inductive SessionError
  /-- The file is not part of the program, or has no content. -/
  | fileNotFound (path : String)
  | cancelled
  /-- The session contradicts itself and has to be built anew. -/
  | fatal (message : String)
deriving Repr, DecidableEq, Inhabited

def SessionError.message : SessionError → String
  | .fileNotFound path => "file not found: " ++ path
  | .cancelled => "operation cancelled"
  | .fatal message => "fatal analysis error: " ++ message

/-- Why a question has no answer. -/
inductive NoAnswer
  | failed (error : SessionError)
  /-- The work on the question goes on without end. Whoever asked gets nothing, not even an error. -/
  | endless
deriving Repr, DecidableEq, Inhabited

/-- A question to a session. -/
abbrev Query := ExceptT NoAnswer (StateM Session)

/-- The diagnostics of one file. -/
structure FileReport where
  file : FileId
  path : String
  diagnostics : List Diagnostic
deriving Repr, DecidableEq, Inhabited

namespace Session

/-! ## Looking without bringing up to date -/

/-- A declaration of a bound file. -/
def declaration? (s : Session) (decl : DeclId) : Option Declaration := do
  let binding ← (← s.unit? decl.file).binding
  binding.declarations[decl.index]?

/-- The innermost node at a position of a parsed file. -/
def nodeAt? (s : Session) (file : FileId) (position : Position) : Option NodeId := do
  let u ← s.unit? file
  let tree ← u.tree
  let content ← u.content
  tree.nodeAt? (← (LineMap.ofText content).offset? content position)

/-- The position of an offset in the content that a file was parsed from. -/
def positionOf? (s : Session) (file : FileId) (offset : Nat) : Option Position := do
  let content ← (← s.unit? file).content
  return (LineMap.ofText content).position content offset

def notFound (s : Session) (file : FileId) : SessionError :=
  .fileNotFound ((s.path? file).getD ("file#" ++ Nat.repr file))

/-- The files that a check of the whole program visits: the roots, or else all files. -/
def checkTargets (s : Session) : List FileId := if s.roots.isEmpty then s.ids else s.roots

/-- What is known to be wrong with a file, in the order of the text. -/
def knownDiagnostics (u : SourceUnit) : List Diagnostic :=
  (u.syntaxReports ++ u.bindReports ++ u.checkReports).mergeSort fun d e =>
    d.span.start < e.span.start || (d.span.start == e.span.start && d.code ≤ e.code)

end Session

namespace Query

open Evaluation

/-- What asking a question gives, with the session behind it; nothing if the work has no end. -/
def outcome? {α : Type} (question : Query α) (s : Session) :
    Option (Except SessionError α × Session) :=
  match question.run.run s with
  | (.ok a, s) => some (.ok a, s)
  | (.error (.failed e), s) => some (.error e, s)
  | (.error .endless, _) => none

/-- Runs an operation of the session that cannot fail. -/
def operate {α : Type} (f : Session → α × Session) : Query α := modifyGet f

def fail {α : Type} (error : SessionError) : Query α := throw (.failed error)

def ensureBound (file : FileId) : Query Unit := do
  if !(← operate (·.ensureBound file)) then fail ((← get).notFound file)

/-- Takes in the pending changes and binds a file. -/
def prepare (file : FileId) : Query Unit := do
  modify Session.flush
  ensureBound file

def evaluating {α : Type} (m : EvalM α) : Query α := do
  match ← operate (run m) with
  | some a => return a
  | none => throw .endless

/-! ## Types -/

def typeOfNode (file : FileId) (node : NodeId) : Query (Option TypeId) := do
  prepare file
  evaluating (typeOfNode? evaluate file node)

def typeAt (file : FileId) (position : Position) : Query (Option TypeId) := do
  prepare file
  match (← get).nodeAt? file position with
  | some node => evaluating (typeOfNode? evaluate file node)
  | none => return none

def typeOfSymbol (file : FileId) (name : String) : Query (Option TypeId) := do
  prepare file
  let binding := ((← get).unit? file).bind (·.binding)
  match binding.bind (·.moduleSymbol? name) with
  | some symbol => some <$> evaluating (symbolType evaluate file symbol)
  | none => return none

/-! ## Declarations -/

/-- The declarations that an imported name leads to in the module it comes from. -/
def aliasTargets (decl : DeclId) : Query (List DeclId) := do
  match (← get).declaration? decl with
  | some { kind := .alias, origin := some ⟨_, path, level, some member⟩, .. } =>
    match ← operate (·.resolveImport decl.file path level) with
    | none => return []
    | some target =>
      if ← operate (·.ensureBound target) then
        let binding := ((← get).unit? target).bind (·.binding)
        return (binding.bind fun b => (b.moduleSymbol? member).map fun symbol =>
          (b.declarationsOf symbol).map fun d => (⟨target, d⟩ : DeclId)).getD []
      else return []
  | _ => return []

/-- Follows an imported name to where it comes from, through at most `fuel` imports. A name that
leads nowhere stands for itself. -/
def followAlias : Nat → DeclId → Query (List DeclId)
  | 0, decl => do
    let _ ← aliasTargets decl
    return [decl]
  | fuel + 1, decl => do
    let targets ← aliasTargets decl
    if targets.isEmpty then return [decl]
    else return (← targets.mapM (followAlias fuel)).flatten

/-- Follows all imported names among some declarations; each result stands once. -/
def followAliases (decls : List DeclId) : Query (List DeclId) := do
  return (← decls.mapM (followAlias Limits.aliasChain)).flatten.eraseDups

/-- The declarations of the symbol that a name in a bound file stands for. -/
def nameDeclarations (b : Binding) (file : FileId) (node : NodeId) (name : String) :
    List DeclId :=
  let symbol := match b.declarationAt? node with
    | some index => b.declarations[index]?.map Declaration.symbol
    | none => b.resolve? ((b.scopeOfName? node).getD 0) name
  (symbol.elim [] b.declarationsOf).map (⟨file, ·⟩)

/-- The object of which a name is an attribute. -/
def attributeOwner? (a : Arena) (node : NodeId) : Option NodeId :=
  match (a.parent? node).bind a.data? with
  | some (.member value attr) => if attr == node then some value else none
  | _ => none

/-- The declarations that the name at a position refers to. -/
def declarationsAt (file : FileId) (position : Position) : Query (List DeclId) := do
  prepare file
  let s ← get
  let found := do
    let node ← s.nodeAt? file position
    let bound ← s.boundFile? file
    return (node, bound, ← bound.arena.nameText? node)
  match found with
  | none => return []
  | some (node, bound, name) =>
    match attributeOwner? bound.arena node with
    | some value =>
      let decls ← evaluating do
        let object ← expressionType evaluate file value
        memberDeclarations evaluate object name
      followAliases decls
    | none => followAliases (nameDeclarations bound.binding file node name)

/-! ## Diagnostics -/

def markChecked (file : FileId) (s : Session) : Session :=
  let s := s.modifyUnit file fun u =>
    { u with
      state := .evaluated true
      stats := { u.stats with checks := u.stats.checks + 1 } }
  { s with counters := { s.counters with checks := s.counters.checks + 1 } }

/-- All that is known to be wrong with a file. -/
def knownProblems (file : FileId) : Query (List Diagnostic) := do
  match (← get).unit? file with
  | some u => return Session.knownDiagnostics u
  | none => fail ((← get).notFound file)

/-- Checks a file unless that was done, and gives all that is wrong with it. -/
def checkUnit (file : FileId) : Query (List Diagnostic) := do
  ensureBound file
  let state := ((← get).unit? file).map SourceUnit.state
  if state != some (.evaluated true) then
    evaluating (checkFile file)
    modify (markChecked file)
  knownProblems file

def diagnostics (file : FileId) : Query (List Diagnostic) := do
  prepare file
  checkUnit file

/-- One step of a check of the whole program. -/
def fileReport (file : FileId) : Query FileReport := do
  modify Session.flush
  let found ← checkUnit file
  return ⟨file, ((← get).path? file).getD "", found⟩

/-- One step of a check of the whole program; a file that cannot be read gives no report. -/
def fileReport? (file : FileId) : Query (Option FileReport) :=
  tryCatch (some <$> fileReport file) fun
    | .failed (.fileNotFound _) => return none
    | e => throw e

/-- The reports on some files, unless the work was called off before the first of them. -/
def reports (cancelled : Bool) : List FileId → Query (List FileReport)
  | [] => return []
  | file :: files => do
    if cancelled then fail .cancelled
    let report ← fileReport? file
    return report.toList ++ (← reports cancelled files)

def checkProgram (cancelled : Bool) : Query (List FileReport) := do
  modify Session.flush
  reports cancelled (← get).checkTargets

/-! ## Handles -/

def register (target : HandleTarget) : Query (Option String) := do
  let (handle, handles) := (← get).handles.register target
  modify ({ · with handles := handles })
  return handle

def registerDeclaration (decl : DeclId) : Query (Option String) := do
  modify Session.flush
  if ((← get).declaration? decl).isSome then register (.declaration decl) else return none

def registerType (type : TypeId) : Query (Option String) := do
  modify Session.flush
  register (.type type)

def declarationOf (handle : String) : Query (Option DeclId) := do
  modify Session.flush
  let s ← get
  return (s.handles.declaration? handle).filter fun decl => (s.declaration? decl).isSome

def typeOf (handle : String) : Query (Option TypeId) := do
  modify Session.flush
  return (← get).handles.type? handle

end Query
end LiveCheck
