import LiveCheck.Document.Reader
import LiveCheck.Options.Basic

/-!
# Configuration

How options are read, and the file of a project that holds them.
-/

namespace LiveCheck.Options

/-!
## Reading options

Options are written as a document. Every field may be left out; fields that nobody knows are passed
over.
-/

/-- The fields in their order; `filler` reads what may stand beside a word that is a key. -/
def fields (filler : Reader Unit) : Reader.Fields Options :=
  [("pythonVersion", fun o => do return { o with version := ← .parsed LanguageVersion.parse? }),
    ("pythonPlatform", fun o => do return { o with platform := ← .choice filler Platform.ofLabel? }),
    ("searchPaths", fun o => do return { o with searchPaths := ← .listOf .text }),
    ("executionRoots", fun o => do return { o with roots := ← .listOf .text }),
    ("invalidation", fun o => do
      return { o with invalidation := ← .choice filler InvalidationMode.ofLabel? }),
    ("reportUnresolvedImports", fun o => do return { o with reportUnresolvedImports := ← .flag }),
    ("maxEvaluationDepth", fun o => do
      return { o with maxEvaluationDepth := ← .naturalUpTo (Nat.pow 2 32 - 1) })]

/-- Passes over a field that nobody knows. No value is nested deeper than its text is long. -/
def skipUnknown : Reader Unit := do Reader.skipUpTo .lenient (← get).length

/-- Reads options: an object with the fields, or a list of their values. -/
def reader : Reader Options := do
  match ← Reader.peek? with
  | some '\x7b' => Reader.record (fields Reader.null) skipUnknown {}
  | some '[' => Reader.positional (fields Reader.null) {}
  | _ => Reader.refuse

def read (document : String) : Except ReadFault Options := reader.run document

end LiveCheck.Options

/-!
## Configuration files

A configuration file holds options and says which files belong to the project. What the command line
says comes before it.
-/

namespace LiveCheck

structure Config where
  options : Options := {}
  included : Option (List String) := none
  excluded : Option (List String) := none
deriving Repr, DecidableEq, Inhabited

namespace Config

/-- A field of the options as a field of the configuration. -/
def ofOptionsField (read : Options → Reader Options) (c : Config) : Reader Config := do
  return { c with options := ← read c.options }

def fields : Reader.Fields Config :=
  ((Options.fields Reader.nullOrEmpty).map fun (key, read) => (key, ofOptionsField read)) ++
    [("include", fun c => do return { c with included := ← .optional (.listOf .text) }),
      ("exclude", fun c => do return { c with excluded := ← .optional (.listOf .text) })]

/-- How deep values of unknown fields may be nested. -/
def nesting : Nat := 126

def reader : Reader Config := do
  match ← Reader.peek? with
  | some '\x7b' => Reader.record fields (Reader.skipUpTo .strict nesting) {}
  | _ => Reader.refuse

def read (document : String) : Except ReadFault Config := reader.run document

end Config

structure Arguments where
  paths : List String := []
  /-- The configuration file or its directory. -/
  project : Option String := none
  version : Option String := none
  platform : Option Platform := none
  searchPaths : List String := []
  excluded : List String := []
  invalidation : Option InvalidationMode := none
  ignoreUnresolvedImports : Bool := false
  maxEvaluationDepth : Option Nat := none
deriving Repr, DecidableEq, Inhabited

inductive ArgumentError
  | invalidVersion (text : String)
  | zeroDepth
deriving Repr, DecidableEq, Inhabited

def ArgumentError.message : ArgumentError → String
  | .invalidVersion text => "invalid --pythonVersion '" ++ text ++ "'"
  | .zeroDepth => "--maxEvaluationDepth must be at least 1"

namespace Arguments

def chosenVersion (a : Arguments) (version : LanguageVersion) :
    Except ArgumentError LanguageVersion :=
  match a.version with
  | none => .ok version
  | some text => (LanguageVersion.parse? text).elim (.error (.invalidVersion text)) .ok

def chosenDepth (a : Arguments) (depth : Nat) : Except ArgumentError Nat :=
  match a.maxEvaluationDepth with
  | none => .ok depth
  | some 0 => .error .zeroDepth
  | some n => .ok n

/-- Changes options as the command line says. -/
def apply (a : Arguments) (o : Options) : Except ArgumentError Options := do
  return { o with
    version := ← a.chosenVersion o.version
    platform := a.platform.getD o.platform
    searchPaths := o.searchPaths ++ a.searchPaths
    invalidation := a.invalidation.getD o.invalidation
    reportUnresolvedImports := !a.ignoreUnresolvedImports && o.reportUnresolvedImports
    maxEvaluationDepth := ← a.chosenDepth o.maxEvaluationDepth }

end Arguments
end LiveCheck
