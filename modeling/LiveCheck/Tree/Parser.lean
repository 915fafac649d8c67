import LiveCheck.Token.Scan
import LiveCheck.Tree.Node

/-!
# Parsers

A parser reads tokens from a cursor, appends nodes to an arena and records problems; it always
yields a result. Loops and recursive rules are bounded by the number of tokens behind the cursor:
each round takes at least one token.
-/

namespace LiveCheck

/-- The state of a parse. -/
structure ParseState where
  tokens : Array Token
  /-- The index of the next token. -/
  cursor : Nat
  /-- The end of the last token that was taken, layout left aside. -/
  lastStop : Nat
  arena : Arena
  findings : Array Finding
deriving Repr, Inhabited

/-- The number of tokens from the cursor on. -/
def ParseState.remaining (s : ParseState) : Nat := s.tokens.size - s.cursor

/-- A computation that reads tokens and builds nodes. -/
abbrev Parser := StateM ParseState

namespace Parser

/-! ## The cursor -/

/-- The next token. The end of the text is never passed. -/
def current : Parser Token := do
  let s ← get
  return (s.tokens[s.cursor]?.or s.tokens.back?).getD ⟨.endOfFile, ⟨0, 0⟩, ""⟩

def kind : Parser TokenKind := return (← current).kind

def following : Parser TokenKind := do
  let s ← get
  return (s.tokens[s.cursor + 1]?.map (·.kind)).getD .endOfFile

/-- Whether the next token is of the given kind. -/
def isAt (expected : TokenKind) : Parser Bool := return (← kind) == expected

/-- Whether no token of the logical line is left. -/
def atLineEnd : Parser Bool := return (← kind).endsLine

def start : Parser Nat := return (← current).span.start

def remaining : Parser Nat := return (← get).remaining

/-- Takes the next token, unless it is the end of the text. -/
def bump : Parser Token := do
  let token ← current
  match token.kind with
  | .endOfFile => pure ()
  | .newline | .indent | .dedent => modify fun s => { s with cursor := s.cursor + 1 }
  | _ => modify fun s => { s with cursor := s.cursor + 1, lastStop := token.span.stop }
  return token

/-- Takes the next token if it is of the given kind. -/
def eat (expected : TokenKind) : Parser Bool := do
  if ← isAt expected then
    let _ ← bump
    return true
  else return false

/-! ## Problems -/

/-- Records a problem. A second one in a row with the same number and offset is dropped. -/
def report (code : Nat) (span : Span) (arg : Option String) : Parser Unit :=
  modify fun s =>
    match s.findings.back? with
    | some last =>
      if last.span.start == span.start && last.code == code then s
      else { s with findings := s.findings.push ⟨code, span, arg⟩ }
    | none => { s with findings := s.findings.push ⟨code, span, arg⟩ }

/-- Records a problem with the next token. -/
def reportHere (code : Nat) (arg : Option String) : Parser Unit := do
  report code (← current).span arg

/-- Takes a token of the given kind or records that it is missing. -/
def expect (expected : TokenKind) : Parser Bool := do
  if ← eat expected then return true
  else
    reportHere Code.expectedToken (some expected.text)
    return false

def problems : Parser Nat := return (← get).findings.size

/-! ## Nodes -/

def addNode (data : NodeData) (span : Span) : Parser NodeId :=
  modifyGet fun s =>
    let (id, arena) := s.arena.add data span
    (id, { s with arena := arena })

/-- Appends a node that reaches from `start` to the last token taken. -/
def finish (data : NodeData) (start : Nat) : Parser NodeId := do
  let stop := max (← get).lastStop start
  addNode data ⟨start, stop⟩

def dataOf (id : NodeId) : Parser (Option NodeData) := return (← get).arena.data? id

/-- Takes a name, or records that one is missing and stands in for it. -/
def name : Parser NodeId := do
  let token ← current
  if token.kind == .name then
    let _ ← bump
    let atom ← modifyGet fun s =>
      let (atom, names) := s.arena.names.insert token.text
      (atom, { s with arena := { s.arena with names := names } })
    addNode (.name atom) token.span
  else
    report Code.expectedName token.span none
    let stop := (← get).lastStop
    addNode .malformed ⟨stop, stop⟩

/-! ## Repetition -/

/-- Takes at most `fuel` tokens, up to the end of the logical line. -/
def skipLineUpTo : Nat → Parser Unit
  | 0 => return
  | fuel + 1 => do
    if ← atLineEnd then return
    let _ ← bump
    skipLineUpTo fuel

def skipLine : Parser Unit := do skipLineUpTo (← remaining)

/-- Items that each follow a comma; a comma before which `stop` says that the list ends closes it.
At most `fuel` items. -/
def afterCommasUpTo {α : Type} (stop : Parser Bool) (item : Parser α) : Nat → Parser (List α)
  | 0 => return []
  | fuel + 1 => do
    if ← eat Symbol.comma then
      if ← stop then return []
      let first ← item
      let others ← afterCommasUpTo stop item fuel
      return first :: others
    else return []

def afterCommas {α : Type} (stop : Parser Bool) (item : Parser α) : Parser (List α) := do
  afterCommasUpTo stop item (← remaining)

/-- Items with commas between them, up to where `stop` says that the list ends or up to an item
that cannot be read. At most `fuel` items. -/
def listUpTo {α : Type} (stop : Parser Bool) (item : Parser (Option α)) : Nat → Parser (List α)
  | 0 => return []
  | fuel + 1 => do
    if ← stop then return []
    match ← item with
    | none => return []
    | some first =>
      if ← eat Symbol.comma then
        let others ← listUpTo stop item fuel
        return first :: others
      else return [first]

def list {α : Type} (stop : Parser Bool) (item : Parser (Option α)) : Parser (List α) := do
  listUpTo stop item (← remaining)

/-- Items that each follow a token of the given kind, at most `fuel` of them. -/
def afterEachUpTo {α : Type} (mark : TokenKind) (item : Parser α) : Nat → Parser (List α)
  | 0 => return []
  | fuel + 1 => do
    if ← eat mark then
      let first ← item
      let others ← afterEachUpTo mark item fuel
      return first :: others
    else return []

def afterEach {α : Type} (mark : TokenKind) (item : Parser α) : Parser (List α) := do
  afterEachUpTo mark item (← remaining)

/-- Runs a parser only where `p` holds. -/
def optional {α : Type} (p : Parser Bool) (item : Parser α) : Parser (Option α) := do
  if ← p then return some (← item) else return none

end Parser
end LiveCheck
