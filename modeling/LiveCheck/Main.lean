import LiveCheck.Project.CommandLine
import LiveCheck.Report.Document
import LiveCheck.Report.Text

/-!
# The program

Reads the files of a project, checks them and prints the report. All decisions are made elsewhere.
-/

namespace LiveCheck

/-- Whether the program may have to read a file of that name. -/
def isRelevant (name : String) : Bool := Project.isSource name || name == Project.configName

def isThere (path : String) : IO Bool := do
  try
    let _ ← IO.FS.realPath path
    return true
  catch _ => return false

/-- The files below a directory, with paths from there on, and their contents. A file that holds no
text cannot be read. -/
partial def readBelow (directory path : String) : IO (List (String × Option String)) := do
  let place ← IO.FS.realPath (Location.join directory path)
  let mut found := []
  for entry in ← place.readDir do
    let name := Path.join path entry.fileName
    match (← entry.path.symlinkMetadata).type with
    | .dir => found := found ++ (← readBelow directory name)
    | .file =>
      if isRelevant entry.fileName then
        try found := found ++ [(name, some (← IO.FS.readFile entry.path))]
        catch _ => found := found ++ [(name, none)]
    | _ => pure ()
  return found

/-- The nearest directory with a configuration file, or else the given one. -/
def projectDirectory (directory : String) : IO String := do
  for around in Location.ancestors directory do
    if ← isThere (Location.join around Project.configName) then return around
  return directory

/-- Checks a project and prints the report; the answer is the exit code. -/
def runCheck (c : Command) (disk : Disk) (p : Project) : IO UInt32 := do
  let start ← IO.monoMsNow
  match p.check? disk with
  | none =>
    IO.eprintln "Error: evaluation does not end"
    return 134
  | some (.error e) =>
    IO.eprintln s!"Error: {e.message}"
    return 1
  | some (.ok r) =>
    let time := (← IO.monoMsNow) - start
    let color := c.color.getD (← (← IO.getStdout).isTty)
    let reporter : Reporter := ⟨color, r.sources⟩
    if c.asDocument then IO.println r.document.write
    else
      if !r.diagnostics.isEmpty then IO.println (reporter.render r.diagnostics ++ "\n")
      IO.println (reporter.summary r.errorCount r.warningCount r.reports.length)
    if c.showsStats then
      let n := r.session.counters
      IO.println <| s!"units: {r.session.unitCount}  parses: {n.parses}  binds: {n.binds}  " ++
        s!"checks: {n.checks}  generation: {r.session.generation}  time: {time}ms"
    return if r.errorCount == 0 then 0 else 1

/-- Does what a command asks for in a directory; the answer is the exit code. -/
def runCommand (c : Command) (directory : String) : IO UInt32 := do
  let root ← projectDirectory directory
  let disk : Disk := ⟨root, .ofEntries (← readBelow root "")⟩
  match Project.load disk directory c.arguments with
  | .error e =>
    IO.eprintln s!"Error: {e.message}"
    return 1
  | .ok p =>
    if c.showsConfig then
      IO.println p.options.document.write
      return 0
    else if c.listsFiles then
      p.files.forM IO.println
      return 0
    else runCheck c disk p

end LiveCheck

def main (words : List String) : IO UInt32 := do
  match LiveCheck.Command.parse words with
  | .error e =>
    IO.eprintln s!"error: {e.message}"
    return 2
  | .ok c => LiveCheck.runCommand c (← IO.currentDir).toString
