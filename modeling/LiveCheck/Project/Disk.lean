import LiveCheck.Session.FileStore

/-!
# Files on a disk

A disk as far as a project sees it, and the spellings of the places on it.
-/

namespace LiveCheck.Location

/-!
## Locations

A location is a path as someone wrote it, with its dots and doubled slashes. Two spellings may be
the same place; comparing locations goes by their components.
-/

/-- A name seen from a directory. A name that begins with a slash stands for itself. -/
def join (directory name : String) : String :=
  if directory.isEmpty || name.startsWith "/" then name
  else if directory.endsWith "/" then directory ++ name
  else directory ++ "/" ++ name

/-- Whether a piece between slashes goes nowhere. -/
def isIdle (piece : String) : Bool := piece == "" || piece == "."

/-- The pieces that go somewhere; a leading slash counts as one. -/
def components (path : String) : List String :=
  (if path.startsWith "/" then ["/"] else []) ++ (Text.split '/' path).filter (!isIdle ·)

/-- Whether a location is below another one, going by their components. -/
def isBelow (path base : String) : Bool := (components base).isPrefixOf (components path)

/-- Takes the pieces that go nowhere off the end. -/
def trimEnd (pieces : List String) : List String := (pieces.reverse.dropWhile isIdle).reverse

/-- The location around another one; none for the outermost. -/
def parent? (path : String) : Option String :=
  match trimEnd (Text.split '/' path) with
  | [] => none
  | pieces =>
    let around := "/".intercalate (trimEnd pieces.dropLast)
    some (if around.isEmpty && path.startsWith "/" then "/" else around)

/-- A location and those around it, at most `fuel`. -/
def ancestorsUpTo : Nat → String → List String
  | 0, _ => []
  | fuel + 1, path => path :: (parent? path).elim [] (ancestorsUpTo fuel)

/-- A location and those around it, the innermost first. -/
def ancestors (path : String) : List String := ancestorsUpTo (path.length + 1) path

/-- The ending of a file's name behind its last dot; a dot at the beginning is part of the name. -/
def ending? (name : String) : Option String :=
  match (Text.split '.' name).reverse with
  | last :: rest => if rest.isEmpty || rest == [""] then none else some last
  | [] => none

end LiveCheck.Location

/-!
## Files on a disk

The part of a disk below one directory. Directories are there as long as a file is in them; the
outermost one is always there.
-/

namespace LiveCheck

/-- The files below a directory. -/
structure Disk where
  root : String
  files : FileStore
deriving Inhabited

namespace Disk

/-- The names of the directories and of the file on the way to each file. -/
def entries (d : Disk) : List (List String) := d.files.files.keys.map (Text.split '/')

def isFileAt (d : Disk) (names : List String) : Bool := d.files.contains (Path.ofNames names)

def isDirectoryAt (d : Disk) (names : List String) : Bool :=
  names.isEmpty || d.entries.any fun entry => names.isPrefixOf entry && names.length < entry.length

/-- Goes one piece of a path further. Only directories can be left. -/
def step? (d : Disk) (names : List String) (piece : String) : Option (List String) :=
  if !d.isDirectoryAt names then none
  else if Location.isIdle piece then some names
  else if piece == ".." then (if names.isEmpty then none else some names.dropLast)
  else some (names ++ [piece])

/-- The pieces of a location below the root. -/
def pieces? (d : Disk) (path : String) : Option (List String) :=
  if path == d.root then some []
  else if path.startsWith (d.root ++ "/") then
    some (Text.split '/' (String.ofList (path.toList.drop (d.root.length + 1))))
  else none

/-- The names that a location leads along; none if nothing is there. -/
def resolve? (d : Disk) (path : String) : Option (List String) := do
  let names ← (← d.pieces? path).foldlM d.step? []
  if d.isFileAt names || d.isDirectoryAt names then some names else none

def isFile (d : Disk) (path : String) : Bool := (d.resolve? path).any d.isFileAt

def isDirectory (d : Disk) (path : String) : Bool := (d.resolve? path).any d.isDirectoryAt

def read? (d : Disk) (path : String) : Option String := do
  d.files.read? (Path.ofNames (← d.resolve? path))

/-- The files at or below names, each by the rest of its names. -/
def below (d : Disk) (names : List String) : List (List String) :=
  (d.entries.filter (names.isPrefixOf ·)).map (·.drop names.length)

/-- The files below a location, with paths from there on. -/
def store (d : Disk) (path : String) : FileStore :=
  match d.resolve? path with
  | none => {}
  | some names =>
    .ofEntries ((d.below names).map fun rest =>
      (Path.ofNames rest, d.files.read? (Path.ofNames (names ++ rest))))

end Disk
end LiveCheck
