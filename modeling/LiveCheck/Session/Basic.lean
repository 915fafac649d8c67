import LiveCheck.Options.Basic
import LiveCheck.Session.FileStore
import LiveCheck.Session.Graph
import LiveCheck.Session.Handle
import LiveCheck.Session.Unit
import LiveCheck.Types.Table

/-!
# Sessions

A session is an analysis that goes on while files change. It holds the units of all files it has
met, the graph of their imports and the types of the current generation. A change only marks units;
the next question about the program brings them up to date.
-/

namespace LiveCheck

/-- How often each stage ran, and how changes were dealt with. -/
structure Counters where
  parses : Nat := 0
  binds : Nat := 0
  checks : Nat := 0
  /-- Changes after which the dependents of the changed files were looked at again. -/
  localInvalidations : Nat := 0
  /-- Changes after which everything was. -/
  fullInvalidations : Nat := 0
deriving Repr, DecidableEq, Inhabited

/-- An analysis in progress. -/
structure Session where
  options : Options
  files : FileStore
  resolver : Resolver
  policy : InvalidationMode
  /-- The units by their numbers; the number of a unit that was removed is not used again. -/
  units : Array (Option SourceUnit) := #[]
  /-- The numbers of the units by their normalized paths. -/
  paths : Std.TreeMap String FileId := ∅
  /-- The units whose content changed, in the order of the changes. -/
  dirty : List FileId := []
  graph : ImportGraph := {}
  generation : Nat := 1
  types : TypeTable := .initial
  handles : HandleRegistry := { generation := 1 }
  /-- The files a check of the whole program begins with. -/
  roots : List FileId := []
  openFiles : List FileId := []
  /-- Whether a file has come or gone since the last question. -/
  pendingFull : Bool := false
  inProgress : List FileId := []
  counters : Counters := {}
deriving Inhabited

namespace Session

def new (options : Options) (files : FileStore) (hostPaths : List String) : Session :=
  { options := options
    files := files
    resolver := .ofPaths options.roots (options.searchPaths ++ hostPaths)
    policy := options.invalidation }

/-! ## Units -/

def unit? (s : Session) (file : FileId) : Option SourceUnit := (s.units[file]?).join

/-- The numbers of the units, in ascending order. -/
def ids (s : Session) : List FileId :=
  (List.range s.units.size).filter fun file => (s.unit? file).isSome

def unitCount (s : Session) : Nat := s.ids.length

/-- The number of the unit with a normalized path. -/
def find? (s : Session) (path : String) : Option FileId := s.paths[path]?

def fileId? (s : Session) (path : String) : Option FileId := s.find? (Path.normalize path)

def path? (s : Session) (file : FileId) : Option String := (s.unit? file).map (·.path)

def modifyUnit (s : Session) (file : FileId) (f : SourceUnit → SourceUnit) : Session :=
  { s with units := s.units.modify file (·.map f) }

/-- The number of the unit with a normalized path, made if it is new. -/
def unitFor (s : Session) (path : String) : FileId × Session :=
  match s.find? path with
  | some file => (file, s)
  | none =>
    let (name, isPackage) := s.resolver.moduleName path
    let unit : SourceUnit := { path := path, moduleName := name, isPackage := isPackage }
    (s.units.size, { s with
      units := s.units.push (some unit)
      paths := s.paths.insert path s.units.size })

/-- Marks a unit whose content changed. -/
def markContentStale (s : Session) (file : FileId) : Session :=
  if (s.unit? file).isSome then
    let s := s.modifyUnit file fun u => { u with state := .stale .content }
    if s.dirty.contains file then s else { s with dirty := s.dirty ++ [file] }
  else s

/-- Marks a unit that something it imports changed; a unit whose own content changed stays marked
for that. -/
def markDependencyStale (s : Session) (file : FileId) : Session :=
  s.modifyUnit file fun u =>
    if u.state == .unseen || u.state == .stale .content then u
    else { u with state := .stale .dependency }

def dropUnit (s : Session) (file : FileId) : Session :=
  match s.unit? file with
  | none => s
  | some u =>
    { s with
      units := s.units.modify file fun _ => none
      paths := s.paths.erase u.path
      dirty := s.dirty.filter (· != file)
      graph := s.graph.remove file }

/-- Takes a unit away for good: what imports it has to be looked at again. -/
def forget (s : Session) (file : FileId) : Session :=
  let s := s.dropUnit file
  { s with
    roots := s.roots.filter (· != file)
    openFiles := s.openFiles.filter (· != file)
    pendingFull := true }

/-! ## Changes -/

/-- Replaces the content of a file. A new module may be what imports elsewhere were looking for. -/
def update (s : Session) (path content : String) : FileId × Session :=
  let path := Path.normalize path
  let isNew := (s.find? path).isNone && !s.files.contains path
  let (file, s) := s.unitFor path
  let s := if isNew then { s with pendingFull := true } else s
  let s := s.modifyUnit file fun u => { u with overlay := some content, version := u.version + 1 }
  (file, s.markContentStale file)

/-- Notes that a file changed behind the session's back. -/
def notifyChanged (s : Session) (path : String) : Session :=
  match s.fileId? path with
  | some file => s.markContentStale file
  | none => { s with pendingFull := true }

/-- Takes a file out of the program. -/
def removeFile (s : Session) (path : String) : Bool × Session :=
  match s.fileId? path with
  | some file => (true, s.forget file)
  | none => (false, s)

def openFile (s : Session) (path content : String) : FileId × Session :=
  let (file, s) := s.update path content
  (file, if s.openFiles.contains file then s else { s with openFiles := s.openFiles ++ [file] })

/-- Goes back to the content that the file itself has. -/
def clearOverlay (s : Session) (file : FileId) : Session :=
  if (s.unit? file).any (·.overlay.isSome) then
    let s := s.modifyUnit file fun u => { u with overlay := none, version := u.version + 1 }
    s.markContentStale file
  else s

def closeFile (s : Session) (path : String) : Session :=
  match s.fileId? path with
  | some file => { s with openFiles := s.openFiles.filter (· != file) }.clearOverlay file
  | none => s

/-- The units of some paths, made if they are new. -/
def unitsFor (s : Session) : List String → List FileId × Session
  | [] => ([], s)
  | path :: paths =>
    let (file, s) := s.unitFor (Path.normalize path)
    let (files, s) := s.unitsFor paths
    (file :: files, s)

/-- Chooses the files that a check of the whole program begins with. -/
def setRoots (s : Session) (paths : List String) : List FileId × Session :=
  let (files, s) := s.unitsFor paths
  (files, { s with roots := files })

/-- Takes the units away that neither the roots nor the files being edited import, and counts
them. -/
def collectGarbage (s : Session) : Nat × Session :=
  let kept := s.graph.reachable (s.roots ++ s.openFiles)
  let gone := s.ids.filter (!kept.contains ·)
  (gone.length, gone.foldl dropUnit s)

def hasPendingChanges (s : Session) : Bool := s.pendingFull || !s.dirty.isEmpty

end Session
end LiveCheck
