import LiveCheck.Session.Basic
import LiveCheck.Text.Fingerprint

/-!
# Bringing a unit up to date

A unit is parsed and bound when someone asks for it. Binding resolves the unit's imports; the names
that `from m import *` brings in are known only when the module `m` is bound itself, so binding one
unit may bind others first. A unit that is being bound already is left alone, which ends the circle.
-/

namespace LiveCheck

/-- The modules that an import mentions: the packages on the way to a module, and the members of a
module that may be modules themselves. -/
def ImportRecord.mentioned (r : ImportRecord) : List (String × Nat) :=
  (if r.level = 0 then r.prefixes.map (·, 0) else [(r.path, r.level)]) ++
    (if r.wildcard then []
      else r.names.map fun name => (if r.path.isEmpty then name else r.path ++ "." ++ name, r.level))

namespace Session

/-- The content that counts: the overlay of a unit, or else what its file holds. -/
def content? (s : Session) (file : FileId) : Option String :=
  (s.unit? file).bind fun u => u.overlay.orElse fun _ => s.files.read? u.path

def pathExists (s : Session) (path : String) : Bool :=
  ((s.find? path).bind s.unit?).any (·.overlay.isSome) || s.files.contains path

/-! ## Imports -/

/-- The unit of a file that was found. -/
def unitForOption (s : Session) : Option String → Option FileId × Session
  | some path =>
    let (file, s) := s.unitFor path
    (some file, s)
  | none => (none, s)

/-- The unit that an import leads to. The answer is kept until the importing unit is bound again. -/
def resolveImport (s : Session) (file : FileId) (dotted : String) (level : Nat) :
    Option FileId × Session :=
  match s.unit? file with
  | none => (none, s)
  | some u =>
    match u.importCache.lookup (dotted, level) with
    | some known => (known, s)
    | none =>
      let (target, s) := s.unitForOption (s.resolver.resolve? s.pathExists u.path dotted level)
      (target, s.modifyUnit file fun u =>
        { u with importCache := ((dotted, level), target) :: u.importCache })

/-- The units that some imports of a file lead to. -/
def resolveImports (s : Session) (file : FileId) : List (String × Nat) → List FileId × Session
  | [] => ([], s)
  | (dotted, level) :: rest =>
    let (target, s) := s.resolveImport file dotted level
    let (targets, s) := s.resolveImports file rest
    (target.toList ++ targets, s)

/-! ## Parsing and binding -/

/-- Parses a content as that of a unit. -/
def parseUnit (s : Session) (file : FileId) (content : String) : Session :=
  if (s.unit? file).isSome then
    let s := s.modifyUnit file (·.parsed content (Text.fingerprint content))
    { s with counters := { s.counters with parses := s.counters.parses + 1 } }
  else s

/-- Asks for a unit to be bound; the answer says whether it is. -/
abbrev Binder := Session → FileId → Bool × Session

def publicNames (s : Session) (file : FileId) : List String :=
  (s.unit? file).elim [] fun u => u.publicSymbols.map (·.1)

/-- Adds the names that one import `from m import *` of a file brings in. -/
def addWildcard (ensure : Binder) (file : FileId) (state : Binding × Session) (index : Nat) :
    Binding × Session :=
  let (binding, s) := state
  match binding.imports[index]? with
  | none => (binding, s)
  | some record =>
    match s.resolveImport file record.path record.level with
    | (none, s) => (binding, s)
    | (some target, s) =>
      match ensure s target with
      | (true, s) => (binding.addWildcardNames index (s.publicNames target), s)
      | (false, s) => (binding, s)

/-- Binds the tree of a unit, resolves its imports and records them in the graph. Until that is done,
the unit counts as being bound. -/
def bindUnit (ensure : Binder) (s : Session) (file : FileId) : Bool × Session :=
  match (s.unit? file).bind (·.tree) with
  | none => (false, s)
  | some tree =>
    let own := tree.bind
    let s := { s with inProgress := file :: s.inProgress }
    let (binding, s) := own.wildcards.toList.foldl (addWildcard ensure file) (own, s)
    let mentioned := binding.imports.toList.flatMap ImportRecord.mentioned
    let (targets, s) := s.resolveImports file mentioned
    let s := s.modifyUnit file (·.bound binding s.generation)
    (true, { s with
      inProgress := s.inProgress.filter (· != file)
      counters := { s.counters with binds := s.counters.binds + 1 }
      graph := s.graph.update file targets })

/-- Binds a unit unless it is being bound, at most `fuel` units deep. -/
def ensureBoundUpTo : Nat → Binder
  | 0, s, _ => (false, s)
  | fuel + 1, s, file =>
    let bind (s : Session) : Bool × Session := bindUnit (ensureBoundUpTo fuel) s file
    if s.inProgress.contains file then (false, s)
    else
      match (s.unit? file).map SourceUnit.state with
      | none => (false, s)
      | some .bound | some (.evaluated _) => (true, s)
      | some .parsed => bind s
      | some (.stale .dependency) => bind (s.modifyUnit file SourceUnit.discardEvaluation)
      | some .unseen | some (.stale .content) =>
        match s.content? file with
        | some content => bind (s.parseUnit file content)
        | none => (false, s)

/-- How many units can be waiting for one another: those that have a content, and one more. -/
def bindingDepth (s : Session) : Nat := s.files.size + s.units.size + 1

/-- Brings a unit up to date. The answer is whether its names are bound; they are not if the unit
has no content. -/
def ensureBound (s : Session) (file : FileId) : Bool × Session :=
  ensureBoundUpTo s.bindingDepth s file

/-- Binds a unit that has a tree. -/
def bindParsed (s : Session) (file : FileId) : Session := (bindUnit ensureBound s file).2

end Session
end LiveCheck
