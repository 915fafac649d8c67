import LiveCheck.Project.Config
import LiveCheck.Project.Disk
import LiveCheck.Project.Glob
import LiveCheck.Session.Query

/-!
# Projects

A project is a directory with the files to check in it and the options for the check. The nearest
configuration file says which directory it is; without one it is the directory that the check was
started in.
-/

namespace LiveCheck

structure Project where
  base : String
  config : Option String
  options : Options
  /-- The files to check, as paths below the directory, in ascending order. -/
  files : List String
deriving Repr, Inhabited

inductive ProjectError
  | configNotFound (path : String)
  | configUnreadable (path : String)
  | argument (error : ArgumentError)
  | invalidPattern (pattern : String)
  | pathNotFound (path : String)
  | outside (path base : String)
deriving Repr, DecidableEq, Inhabited

def ProjectError.message : ProjectError → String
  | .configNotFound path => "project config not found: " ++ path
  | .configUnreadable path => "failed to parse " ++ path
  | .argument error => error.message
  | .invalidPattern pattern => "invalid exclude pattern '" ++ pattern ++ "'"
  | .pathNotFound path => "path not found: " ++ path
  | .outside path base => path ++ " is outside the project directory " ++ base

namespace Project

/-! ## Configuration -/

def configName : String := "pyzconfig.json"

/-- The nearest configuration file in a directory or around it. -/
def findConfig? (d : Disk) (directory : String) : Option String :=
  ((Location.ancestors directory).map (Location.join · configName)).find? d.isFile

/-- The configuration file to use. The command line may name it or its directory. -/
def configPath (d : Disk) (directory : String) (a : Arguments) :
    Except ProjectError (Option String) :=
  match a.project with
  | none => .ok (findConfig? d directory)
  | some project =>
    let path := Location.join directory project
    let file := if d.isDirectory path then Location.join path configName else path
    if d.isFile file then .ok (some file) else .error (.configNotFound file)

def readConfig (d : Disk) (path : String) : Except ProjectError Config :=
  match Config.read ((d.read? path).getD "") with
  | .ok config => .ok config
  | .error _ => .error (.configUnreadable path)

/-! ## Files -/

def skippedDirectories : List String := ["__pycache__", "node_modules", "site-packages"]

/-- Whether a directory below the one that was asked for is not looked into. -/
def isSkipped (name : String) : Bool := name.startsWith "." || skippedDirectories.contains name

/-- Whether a file of that name holds source code. -/
def isSource (name : String) : Bool := (Location.ending? name).any (Path.extensions.contains ·)

/-- The path of a location from the directory of the project on. -/
def programPath (base path : String) : String :=
  Path.ofNames ((Location.components path).drop (Location.components base).length)

/-- The source files at or below a location that exists, without those that a pattern excludes. -/
def sourcesBelow (d : Disk) (base : String) (excluded : List Glob) (input : String) :
    List String :=
  let found := ((d.resolve? input).elim [] d.below).filter fun rest =>
    rest.dropLast.all (!isSkipped ·)
  let paths := found.map fun rest => rest.foldl Location.join input
  ((paths.filter fun path => isSource ((Location.components path).getLastD "")).map
    (programPath base)).filter fun path => !excluded.any (·.isMatch path)

/-- Checks that a location exists and is below the directory of the project. -/
def checkInput (d : Disk) (base input : String) : Except ProjectError Unit :=
  if (d.resolve? input).isNone then .error (.pathNotFound input)
  else if !Location.isBelow input base then .error (.outside input base)
  else .ok ()

/-- Drops what equals its neighbour before it. -/
def dropRepeated : List String → List String
  | a :: b :: rest => if a == b then dropRepeated (b :: rest) else a :: dropRepeated (b :: rest)
  | paths => paths

/-- The source files at or below some locations, in ascending order, each once. -/
def discover (d : Disk) (base : String) (inputs : List String) (excluded : List Glob) :
    Except ProjectError (List String) := do
  inputs.forM (checkInput d base)
  return dropRepeated ((inputs.flatMap (sourcesBelow d base excluded)).mergeSort (· ≤ ·))

/-- The locations to look at: those on the command line, or those of the configuration, or else the
directory of the project. -/
def inputs (directory base : String) (a : Arguments) (config : Option Config) : List String :=
  let included := (config.bind (·.included)).getD []
  if !a.paths.isEmpty then a.paths.map (Location.join directory)
  else if !included.isEmpty then included.map (Location.join base)
  else [base]

def patterns (texts : List String) : Except ProjectError (List Glob) :=
  texts.mapM fun text => (Glob.parse? text).elim (.error (.invalidPattern text)) .ok

/-- The project seen from a directory. -/
def load (d : Disk) (directory : String) (a : Arguments) : Except ProjectError Project := do
  let path ← configPath d directory a
  let config ← path.mapM (readConfig d)
  let options ← (a.apply ((config.map (·.options)).getD {})).mapError ProjectError.argument
  let base := (path.bind Location.parent?).getD directory
  let excluded ← patterns ((config.bind (·.excluded)).getD [] ++ a.excluded)
  let files ← discover d base (inputs directory base a config) excluded
  return ⟨base, path, options, files⟩

end Project

/-! ## Checking -/

/-- What a check of a project found. -/
structure CheckResult where
  reports : List FileReport
  session : Session
deriving Inhabited

namespace CheckResult

def diagnostics (r : CheckResult) : List Diagnostic := r.reports.flatMap (·.diagnostics)

def errorCount (r : CheckResult) : Nat := r.diagnostics.countP Diagnostic.isError

/-- The number of other findings. -/
def warningCount (r : CheckResult) : Nat := r.diagnostics.countP (!Diagnostic.isError ·)

/-- The contents that the files were checked with. -/
def sources (r : CheckResult) : List (String × String) :=
  r.reports.filterMap fun report => do
    let unit ← r.session.unit? (← r.session.find? report.path)
    return (report.path, ← unit.content)

end CheckResult

namespace Project

def openSession (p : Project) (d : Disk) : Session :=
  ((Session.new p.options (d.store p.base) []).setRoots p.files).2

/-- Checks the files of a project; there is no result if an evaluation has no end. -/
def check? (p : Project) (d : Disk) : Option (Except SessionError CheckResult) :=
  ((Query.checkProgram false).outcome? (p.openSession d)).map fun (reports, session) =>
    reports.map (⟨·, session⟩)

end Project
end LiveCheck
