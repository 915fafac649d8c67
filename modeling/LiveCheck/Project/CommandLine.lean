import LiveCheck.Project.Config

/-!
# The command line

Words that begin with a hyphen are switches; some take the next word as their value. All other words
are paths to check. The spellings `--pythonVersion` and `--python-version` are the same.
-/

namespace LiveCheck

/-- What to do. -/
structure Command where
  arguments : Arguments := {}
  showsConfig : Bool := false
  listsFiles : Bool := false
  asDocument : Bool := false
  /-- Whether the report is coloured, if the command says so. -/
  color : Option Bool := none
  showsStats : Bool := false
deriving Repr, DecidableEq, Inhabited

inductive CommandError
  | unknownSwitch (word : String)
  | missingValue (switch : String)
  | invalidValue (switch value : String)
deriving Repr, DecidableEq, Inhabited

def CommandError.message : CommandError → String
  | .unknownSwitch word => "unexpected argument '" ++ word ++ "' found"
  | .missingValue switch => "a value is required for '" ++ switch ++ "' but none was supplied"
  | .invalidValue switch value => "invalid value '" ++ value ++ "' for '" ++ switch ++ "'"

namespace Command

/-- A name in camel case with hyphens instead of capitals. -/
def hyphened (name : String) : String :=
  String.ofList (name.toList.flatMap fun c => if c.isUpper then ['-', c.toLower] else [c])

def isSwitch (name word : String) : Bool := word == "--" ++ name || word == "--" ++ hyphened name

/-- Switches without a value. -/
def flags : List (String × (Command → Command)) :=
  [("showConfig", ({ · with showsConfig := true })),
    ("listFilesOnly", ({ · with listsFiles := true })),
    ("stats", ({ · with showsStats := true })),
    ("ignoreUnresolvedImports",
      fun c => { c with arguments := { c.arguments with ignoreUnresolvedImports := true } })]

/-- Changes what the check is asked for. -/
def ask (f : Arguments → Arguments) (c : Command) : Command := { c with arguments := f c.arguments }

/-- The value of a word that says yes or no. -/
def truth? (word : String) : Option Bool :=
  if word == "true" then some true else if word == "false" then some false else none

/-- Switches with a value; none if they do not take it. -/
def settings : List (String × (String → Option (Command → Command))) :=
  [("project", fun v => some (ask ({ · with project := some v }))),
    ("pythonVersion", fun v => some (ask ({ · with version := some v }))),
    ("pythonPlatform", fun v =>
      (Platform.values.find? (·.label.toLower == v.toLower)).map fun p =>
        ask ({ · with platform := some p })),
    ("searchPath", fun v => some (ask fun a => { a with searchPaths := a.searchPaths ++ [v] })),
    ("exclude", fun v => some (ask fun a => { a with excluded := a.excluded ++ [v] })),
    ("invalidation", fun v =>
      (InvalidationMode.all.find? fun m => m.label == v || hyphened m.label == v).map fun m =>
        ask ({ · with invalidation := some m })),
    ("maxEvaluationDepth", fun v =>
      (Text.natUpTo? (Nat.pow 2 32 - 1) v).map fun n => ask ({ · with maxEvaluationDepth := some n })),
    ("format", fun v =>
      if v == "json" then some ({ · with asDocument := true })
      else if v == "text" then some ({ · with asDocument := false })
      else none),
    ("pretty", fun v => (truth? v).map fun b => ({ · with color := some b }))]

def parseFrom (c : Command) : List String → Except CommandError Command
  | [] => .ok c
  | word :: rest =>
    if !word.startsWith "-" then
      parseFrom (c.ask fun a => { a with paths := a.paths ++ [word] }) rest
    else
      match flags.find? (isSwitch ·.1 word) with
      | some (_, set) => parseFrom (set c) rest
      | none =>
        match settings.find? fun s => isSwitch s.1 word || (word == "-p" && s.1 == "project") with
        | none => .error (.unknownSwitch word)
        | some (_, set?) =>
          match rest with
          | [] => .error (.missingValue word)
          | value :: rest =>
            match set? value with
            | some set => parseFrom (set c) rest
            | none => .error (.invalidValue word value)

def parse (words : List String) : Except CommandError Command := parseFrom {} words

end Command
end LiveCheck
