import LiveCheck.Diagnostic
import LiveCheck.Text.Split

/-!
# Reports for people

A diagnostic is shown as its place, its severity, its number and its message. Below stands the line
of the source with the place marked, if the source is at hand.
-/

namespace LiveCheck

/-- How a part of a report looks on a terminal. -/
inductive Style
  | red
  | green
  | cyan
  | brightBlue
  | boldRed
  | boldYellow
  | boldBlue
deriving Repr, DecidableEq, Inhabited

namespace Style

/-- The parameters of the control sequence for a style. -/
def parameters : Style → String
  | red => "31"
  | green => "32"
  | cyan => "36"
  | brightBlue => "94"
  | boldRed => "1;31"
  | boldYellow => "1;33"
  | boldBlue => "1;34"

def start (s : Style) : String := "\x1b[" ++ s.parameters ++ "m"

/-- The control sequence that ends all styles. -/
def reset : String := "\x1b[0m"

/-- A text in a style. Where the text itself ends all styles, the style begins again. -/
def paint (s : Style) (text : String) : String :=
  let again := reset.toList ++ s.start.toList
  s.start ++ String.ofList (replaceFrom reset.toList again 0 text.toList) ++ reset

end Style

def Severity.style : Severity → Style
  | .error => .boldRed
  | .warning => .boldYellow
  | .information => .boldBlue

def Severity.word : Severity → String
  | .error => "error"
  | .warning => "warning"
  | .information => "info"

/-- The number of a rule as people read it. -/
def codeLabel (code : Nat) : String := "P" ++ Nat.repr code

/-! ## The marked line -/

/-- Repeats a mark over the columns that characters take; a tab takes four. -/
def columns (mark : Char) (cs : List Char) : List Char :=
  cs.flatMap fun c => List.replicate (if c = '\t' then 4 else 1) mark

/-- The marks below a line: `length` characters from the one at `first` on, at least one mark. -/
def underline (first length : Nat) (line : List Char) : List Char :=
  let marks := columns '~' ((line.drop first).take length)
  columns ' ' (line.take first) ++ (if marks.isEmpty then ['~'] else marks)

/-- Puts blanks before a text until it is as wide as asked. -/
def padLeft (width : Nat) (text : String) : String :=
  String.ofList (List.replicate (width - text.length) ' ') ++ text

/-- A number of things. -/
def plural (n : Nat) (noun : String) : String :=
  Nat.repr n ++ " " ++ noun ++ (if n = 1 then "" else "s")

/-! ## Reports -/

/-- What is needed to report. -/
structure Reporter where
  color : Bool
  /-- The sources by path, the latest first. -/
  sources : List (String × String) := []
deriving Repr, Inhabited

namespace Reporter

/-- Adds a source; it replaces an older one. -/
def addSource (r : Reporter) (file text : String) : Reporter :=
  { r with sources := (file, text) :: r.sources }

def source? (r : Reporter) (file : String) : Option String :=
  if file.isEmpty then none else r.sources.lookup file

/-- A text in a style, if the report is coloured. -/
def paint (r : Reporter) (style : Style) (text : String) : String :=
  if r.color then style.paint text else text

/-- The place of a diagnostic, with line and column counted from one. -/
def place (r : Reporter) (d : Diagnostic) : String :=
  match r.source? d.file with
  | some source =>
    let p := (LineMap.ofText source).position source d.span.start
    r.paint .cyan
      (d.file ++ ":" ++ Nat.repr (p.line + 1) ++ ":" ++ Nat.repr (p.character + 1))
  | none => if d.file.isEmpty then "<unknown>" else d.file

/-- The line of a diagnostic and the marks below it. -/
def snippet? (r : Reporter) (d : Diagnostic) : Option String := do
  if d.span.length = 0 then none
  let source ← r.source? d.file
  let p := (LineMap.ofText source).position source d.span.start
  let line ← (Text.lines source)[p.line]?
  let marks := String.ofList (underline p.character d.span.length line.toList)
  return "\n  " ++ padLeft 3 (Nat.repr (p.line + 1)) ++ "   " ++ line ++ "\n        " ++
    r.paint .red marks

def describe (r : Reporter) (d : Diagnostic) : String :=
  r.place d ++ " - " ++ r.paint d.severity.style d.severity.word ++ " " ++
    r.paint .brightBlue (codeLabel d.code) ++ ": " ++ d.message ++ (r.snippet? d).getD ""

def render (r : Reporter) (ds : List Diagnostic) : String :=
  "\n".intercalate (ds.map r.describe)

def summary (r : Reporter) (errors warnings files : Nat) : String :=
  r.paint (if 0 < errors then .red else .green)
    ("Found " ++ plural errors "error" ++ " and " ++ plural warnings "warning" ++ " in " ++
      plural files "file" ++ ".")

end Reporter
end LiveCheck
