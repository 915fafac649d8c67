import LiveCheck.Session.Loading

/-!
# Taking in changes

Before a question is answered, the units that changed are parsed and bound again. How far the change
reaches decides which other units are marked: those that depend on a changed one, or all of them. A
new generation begins, and with a change that reaches everything a new table of types.
-/

namespace LiveCheck.Session

/-- A unit that was parsed again, with its public names before, if it was bound then. -/
abbrev Reparsed := FileId × Option PublicSymbols

/-- Parses the changed units whose content is a new one. A unit without content is forgotten, which
concerns everything. -/
def reparse (scope : InvalidationScope) (s : Session) :
    List FileId → List Reparsed × InvalidationScope × Session
  | [] => ([], scope, s)
  | file :: files =>
    match s.unit? file with
    | none => reparse scope s files
    | some u =>
      match s.content? file with
      | none => reparse .full (s.forget file) files
      | some content =>
        if u.tree.isSome && u.fingerprint == some (Text.fingerprint content) then
          reparse scope (s.modifyUnit file SourceUnit.restored) files
        else
          let (rest, scope, s) := reparse scope (s.parseUnit file content) files
          ((file, u.binding.map fun _ => u.publicSymbols) :: rest, scope, s)

/-- How far the change of one unit reaches. A unit that was not bound before may be what others
failed to find. -/
def changeScope (s : Session) (file : FileId) : Option PublicSymbols → InvalidationScope
  | none => .full
  | some before =>
    match s.unit? file with
    | some u => s.policy.scope before u.publicSymbols
    | none => .dependents

/-- Binds the units that were parsed again; gives the files that depend on them. -/
def rebind (scope : InvalidationScope) (s : Session) :
    List Reparsed → List FileId × InvalidationScope × Session
  | [] => ([], scope, s)
  | (file, before) :: rest =>
    let isParsed := (s.unit? file).any (·.state == .parsed)
    let s := if isParsed then s.bindParsed file else s
    let scope := if s.changeScope file before == .full then .full else scope
    let affected := s.graph.affected file
    let (more, scope, s) := rebind scope s rest
    (affected ++ more, scope, s)

/-- Begins a new generation in which everything is looked at again. -/
def invalidateAll (s : Session) (rebuilt : List FileId) : Session :=
  let s := { s with types := .initial }
  let s := (s.ids.filter (!rebuilt.contains ·)).foldl markDependencyStale s
  { s with counters :=
      { s.counters with fullInvalidations := s.counters.fullInvalidations + 1 } }

/-- Moves what is known about the nodes of a bound unit to a generation. -/
def restampUnit (generation : Nat) (u : SourceUnit) : SourceUnit :=
  if u.state.isBound && u.tree.isSome then { u with analysis := u.analysis.restamp generation }
  else u

/-- Begins a new generation in which the dependents of the changed units are looked at again. -/
def invalidateDependents (s : Session) (rebuilt affected : List FileId) : Session :=
  let s := (affected.filter (!rebuilt.contains ·)).foldl markDependencyStale s
  { s with
    units := s.units.map (·.map (restampUnit s.generation))
    counters := { s.counters with localInvalidations := s.counters.localInvalidations + 1 } }

def nextGeneration (s : Session) : Session :=
  { s with generation := s.generation + 1, handles := s.handles.successor (s.generation + 1) }

/-- Takes in all changes. -/
def flush (s : Session) : Session :=
  if !s.hasPendingChanges then s
  else
    let scope := if s.pendingFull then .full else .dependents
    let (reparsed, scope, s) := reparse scope { s with dirty := [], pendingFull := false } s.dirty
    let (affected, scope, s) := rebind scope s reparsed
    if reparsed.isEmpty && scope == .dependents then s
    else
      let rebuilt := reparsed.map (·.1)
      let s := s.nextGeneration
      if scope == .full then s.invalidateAll rebuilt else s.invalidateDependents rebuilt affected

end LiveCheck.Session
