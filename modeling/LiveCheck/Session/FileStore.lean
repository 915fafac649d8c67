import LiveCheck.Text.Split
import Std.Data.TreeMap

/-!
# Paths and files

The files of a workspace and the paths they are known by.
-/

namespace LiveCheck.Path

/-!
## Paths

A file is known by its path below the root of the workspace: names joined by slashes, without empty
names, `.` and `..`.
-/

/-- Follows one name of a path. -/
def follow (names : List String) (name : String) : List String :=
  if name = "" ∨ name = "." then names
  else if name = ".." then names.dropLast
  else names ++ [name]

/-- The names of a path, with either kind of slash between them. -/
def names (path : String) : List String :=
  Text.split '/' (String.ofList (path.toList.map fun c => if c = '\\' then '/' else c))

def ofNames (names : List String) : String := "/".intercalate names

/-- The one spelling of a path that counts: `./a//b\c.py` is `a/b/c.py`. -/
def normalize (path : String) : String := ofNames ((names path).foldl follow [])

/-- The directory of a path; empty at the root. -/
def parent (path : String) : String := ofNames (Text.split '/' path).dropLast

def join (directory name : String) : String :=
  if directory.isEmpty then name else directory ++ "/" ++ name

/-- The endings of source files; a stub comes before the module it describes. -/
def extensions : List String := ["pyi", "py"]

/-- The names of the files that make a directory a package. -/
def packageFiles : List String := extensions.map ("__init__." ++ ·)

/-- Whether a file makes its directory a package. -/
def isPackageFile (path : String) : Bool :=
  packageFiles.contains ((Text.split '/' path).getLastD "")

end LiveCheck.Path

/-!
## Files

The contents of the files of a workspace by their paths. A file may be there although it cannot be
read.
-/

namespace LiveCheck

structure FileStore where
  /-- The files that are there; one that cannot be read has no content. -/
  files : Std.TreeMap String (Option String) := ∅
deriving Inhabited

namespace FileStore

def read? (s : FileStore) (path : String) : Option String := s.files[path]?.join

def contains (s : FileStore) (path : String) : Bool := s.files.contains path

/-- Puts a file into the store, with a content or without one that can be read. -/
def put (s : FileStore) (path : String) (content : Option String) : FileStore :=
  ⟨s.files.insert (Path.normalize path) content⟩

def delete (s : FileStore) (path : String) : FileStore := ⟨s.files.erase (Path.normalize path)⟩

def size (s : FileStore) : Nat := s.files.size

/-- The files with the given paths, and the contents of those that can be read. -/
def ofEntries (entries : List (String × Option String)) : FileStore :=
  entries.foldl (fun s (path, content) => s.put path content) {}

def ofList (files : List (String × String)) : FileStore :=
  ofEntries (files.map fun (path, content) => (path, some content))

theorem read?_put (s : FileStore) (path : String) (content : Option String) (other : String) :
    (s.put path content).read? other =
      if other = Path.normalize path then content else s.read? other := by
  simp only [read?, put, Std.TreeMap.getElem?_insert, Std.compare_eq_iff_eq, eq_comm (a := other)]
  split <;> rfl

theorem read?_delete (s : FileStore) (path other : String) :
    (s.delete path).read? other = if other = Path.normalize path then none else s.read? other := by
  simp only [read?, delete, Std.TreeMap.getElem?_erase, Std.compare_eq_iff_eq, eq_comm (a := other)]
  split <;> rfl

end FileStore
end LiveCheck

/-!
## From module names to files

An import with leading dots starts from the directory of the importing file. Any other is looked up
in that directory, then in the roots, then in the search paths. In each of them the module `a.b` is
the first that exists of `a/b.pyi`, `a/b.py`, `a/b/__init__.pyi` and `a/b/__init__.py`.
-/

namespace LiveCheck

/-- Where modules are looked up. -/
structure Resolver where
  roots : List String
  searchPaths : List String
deriving Repr, DecidableEq, Inhabited

namespace Resolver

/-- A resolver for directories in any spelling. -/
def ofPaths (roots searchPaths : List String) : Resolver :=
  ⟨roots.map Path.normalize, searchPaths.map Path.normalize⟩

/-- All directories, in the order of search. -/
def bases (r : Resolver) : List String := r.roots ++ r.searchPaths

/-- The files that the module with the given names may be in, below a directory. -/
def candidatesIn (base : String) (parts : List String) : List String :=
  let stem := parts.foldl Path.join base
  (if parts.isEmpty then [] else Path.extensions.map (stem ++ "." ++ ·)) ++
    Path.packageFiles.map (Path.join stem)

/-- Goes up `levels` directories; there must be that many. -/
def ascend : Nat → String → Option String
  | 0, directory => some directory
  | levels + 1, directory =>
    if directory.isEmpty then none else ascend levels (Path.parent directory)

/-- The directories in which an import without leading dots is looked up. -/
def absoluteBases (r : Resolver) (importer : String) : List String :=
  (Path.parent importer :: r.bases).eraseDups

/-- The files that an import may mean, in the order they are tried. -/
def candidates (r : Resolver) (importer dotted : String) (level : Nat) : List String :=
  let parts := Text.parts '.' dotted
  match level with
  | 0 => if parts.isEmpty then [] else (r.absoluteBases importer).flatMap (candidatesIn · parts)
  | levels + 1 => (ascend levels (Path.parent importer)).elim [] (candidatesIn · parts)

def resolve? (r : Resolver) (present : String → Bool) (importer dotted : String) (level : Nat) :
    Option String :=
  (r.candidates importer dotted level).find? present

/-- The files that a member of a package may be in. -/
def submoduleCandidates (package name : String) : List String :=
  if Path.isPackageFile package then candidatesIn (Path.parent package) [name] else []

def submodule? (present : String → Bool) (package name : String) : Option String :=
  (submoduleCandidates package name).find? present

/-! ## From files to module names -/

/-- The path below a directory. -/
def below? (path base : String) : Option String :=
  if base.isEmpty then none
  else if (base.toList ++ ['/']).isPrefixOf path.toList then
    some (String.ofList (path.toList.drop (base.length + 1)))
  else none

/-- The shorter of two texts; the later of two of the same length. -/
def shorter (s t : String) : String := if s.length < t.length then s else t

/-- The path below the innermost directory of the search that contains it. -/
def relative (r : Resolver) (path : String) : String :=
  (r.bases.filterMap (below? path)).foldl shorter path

def without? (ending text : String) : Option String :=
  if ending.toList.isSuffixOf text.toList then
    some (String.ofList (text.toList.take (text.length - ending.length)))
  else none

/-- A path without the ending of a source file. -/
def stem (path : String) : String :=
  (Path.extensions.findSome? fun ext => without? ("." ++ ext) path).getD path

/-- The dotted name of the module in a file, and whether it is a package. -/
def moduleName (r : Resolver) (path : String) : String × Bool :=
  let names := (stem (r.relative path)).toList
  let dotted := String.ofList (names.map fun c => if c = '/' then '.' else c)
  if dotted = "__init__" then ("", true)
  else
    match without? ".__init__" dotted with
    | some package => (package, true)
    | none => (dotted, false)

end Resolver
end LiveCheck
