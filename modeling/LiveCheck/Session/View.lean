import LiveCheck.Session.Loading

/-!
# The session as evaluation sees it

Evaluating a file may need another one. What is asked for is brought up to date first, and what an
evaluation has seen of another file becomes an edge of the graph of imports.
-/

namespace LiveCheck

structure BoundFile where
  file : FileId
  path : String
  moduleName : String
  arena : Arena
  root : NodeId
  binding : Binding
deriving Inhabited

/-- A bound unit of which some types are going to be known. Entries of another generation are
dropped together with the problems that were reported with them. -/
def SourceUnit.evaluating (u : SourceUnit) (generation : Nat) : SourceUnit :=
  let u := if u.state == .bound then { u with state := .evaluated false } else u
  if u.tree.isSome && u.analysis.stamp != generation then
    { u with
      analysis := SideTable.empty.restamp generation
      checkReports := []
      state := .evaluated false }
  else u

namespace Session

/-- What a bound unit shows to evaluation. -/
def boundFile? (s : Session) (file : FileId) : Option BoundFile := do
  let u ← s.unit? file
  let tree ← u.tree
  let binding ← u.binding
  return ⟨file, u.path, u.moduleName, tree.arena, tree.root, binding⟩

/-- Brings a unit up to date and gives what evaluation sees of it. -/
def bindFile (s : Session) (file : FileId) : Option BoundFile × Session :=
  match s.ensureBound file with
  | (true, s) => (s.boundFile? file, s)
  | (false, s) => (none, s)

/-- Brings a unit up to date and opens its table of what is known about nodes; the answer is whether
there is one. -/
def openAnalysis (s : Session) (file : FileId) : Bool × Session :=
  match s.ensureBound file with
  | (true, s) =>
    let s := s.modifyUnit file (·.evaluating s.generation)
    (((s.unit? file).bind (·.tree)).isSome, s)
  | (false, s) => (false, s)

/-- The unit that an import leads to, for an evaluation of the importing file. -/
def importFrom (s : Session) (file : FileId) (dotted : String) (level : Nat) :
    Option FileId × Session :=
  match s.resolveImport file dotted level with
  | (some target, s) => (some target, { s with graph := s.graph.add file target })
  | (none, s) => (none, s)

/-- The unit of a member of a package that is a module. -/
def submodule (s : Session) (package : FileId) (name : String) : Option FileId × Session :=
  match (s.unit? package).bind fun u => Resolver.submodule? s.pathExists u.path name with
  | some path =>
    let (target, s) := s.unitFor path
    (some target, { s with graph := s.graph.add package target })
  | none => (none, s)

/-- The number of bytes of all contents that the session holds. Whatever is written down somewhere
in the program is written down at most that often. -/
def contentSize (s : Session) : Nat :=
  let size (text : Option String) : Nat := text.elim 0 String.utf8ByteSize
  s.files.files.foldl (fun n _ content => n + size content) 0 +
    s.units.foldl (fun n u => n + u.elim 0 fun u => size u.overlay + size u.content) 0

/-- The number of declarations in all files whose names are known. -/
def declarationCount (s : Session) : Nat :=
  s.units.foldl (fun n u => n + (u.bind (·.binding)).elim 0 (·.declarations.size)) 0

end Session
end LiveCheck
