import LiveCheck.Scope.Declaration
import Std.Data.TreeMap
import Std.Data.TreeSet

/-!
# The graph of imports

Which file imports which, kept in both directions. A file that imports itself is not recorded. The
graph may have cycles.
-/

namespace LiveCheck

abbrev FileSet := Std.TreeSet FileId

/-- Who imports whom. -/
structure ImportGraph where
  dependencies : Std.TreeMap FileId FileSet := ∅
  dependents : Std.TreeMap FileId FileSet := ∅
deriving Inhabited

namespace ImportGraph

/-- Adds one file to the set of another. -/
def link (m : Std.TreeMap FileId FileSet) (key value : FileId) : Std.TreeMap FileId FileSet :=
  m.insert key ((m.getD key ∅).insert value)

/-- Takes a file out of the set of another; an empty set is not kept. -/
def unlink (value : FileId) (m : Std.TreeMap FileId FileSet) (key : FileId) :
    Std.TreeMap FileId FileSet :=
  match m[key]? with
  | some values =>
    if (values.erase value).isEmpty then m.erase key else m.insert key (values.erase value)
  | none => m

/-- Records that `file` imports `imported`. -/
def add (g : ImportGraph) (file imported : FileId) : ImportGraph :=
  if file = imported then g
  else ⟨link g.dependencies file imported, link g.dependents imported file⟩

def imports (g : ImportGraph) (file : FileId) : List FileId :=
  (g.dependencies[file]?).elim [] (·.toList)

def importers (g : ImportGraph) (file : FileId) : List FileId :=
  (g.dependents[file]?).elim [] (·.toList)

/-- Replaces what a file imports. -/
def update (g : ImportGraph) (file : FileId) (files : List FileId) : ImportGraph :=
  let dependents := (g.imports file).foldl (unlink file) g.dependents
  let kept := files.filter (· != file)
  if kept.isEmpty then ⟨g.dependencies.erase file, dependents⟩
  else
    ⟨g.dependencies.insert file (Std.TreeSet.ofList kept),
      kept.foldl (fun m imported => link m imported file) dependents⟩

/-- Forgets a file. A file that imported it keeps its entry, even an empty one. -/
def remove (g : ImportGraph) (file : FileId) : ImportGraph :=
  let dependents := (g.imports file).foldl (unlink file) g.dependents
  let former := (dependents[file]?).elim [] (·.toList)
  ⟨former.foldl (fun m importer => m.modify importer (·.erase file)) (g.dependencies.erase file),
    dependents.erase file⟩

def clear (_ : ImportGraph) : ImportGraph := {}

/-- The files reached from those on the stack; every step takes one file from it. -/
def reachUpTo (next : FileId → List FileId) : Nat → List FileId → FileSet → FileSet
  | 0, _, reached => reached
  | _, [], reached => reached
  | fuel + 1, file :: stack, reached =>
    if reached.contains file then reachUpTo next fuel stack reached
    else reachUpTo next fuel (next file ++ stack) (reached.insert file)

def edgeCount (m : Std.TreeMap FileId FileSet) : Nat :=
  m.foldl (fun n _ files => n + files.size) 0

/-- The files that some files import directly or through others, these files included. -/
def reachable (g : ImportGraph) (files : List FileId) : FileSet :=
  reachUpTo g.imports (files.length + edgeCount g.dependencies) files ∅

/-- The files that import a file directly or through others, in ascending order; the file itself is
left out. -/
def affected (g : ImportGraph) (file : FileId) : List FileId :=
  ((reachUpTo g.importers (1 + edgeCount g.dependents) [file] ∅).erase file).toList

def contains (g : ImportGraph) (file : FileId) : Bool :=
  g.dependencies.contains file || g.dependents.contains file

def fileCount (g : ImportGraph) : Nat :=
  (Std.TreeSet.ofList (g.dependencies.keys ++ g.dependents.keys) : FileSet).size

end ImportGraph
end LiveCheck
