import LiveCheck.Tree.Statement

/-!
# Syntax trees

Parsing turns a text into a tree and a list of problems. Every text has a tree: where it is not a
well-formed module, the tree holds `malformed` nodes and the list says why.
-/

namespace LiveCheck

/-- The tree of one text. -/
structure Tree where
  arena : Arena
  root : NodeId
  lineMap : LineMap
deriving Repr, DecidableEq, Inhabited

namespace Tree

def statements (t : Tree) : List NodeId :=
  match t.arena.data? t.root with
  | some (.root body) => body
  | _ => []

def nodeAt? (t : Tree) (offset : Nat) : Option NodeId := t.arena.nodeAt? t.root offset

def sameShape (t u : Tree) : Bool := t.root == u.root && t.arena == u.arena

end Tree

/-- A tree and the problems met when it was parsed. -/
structure Parse where
  tree : Tree
  /-- The problems, by offset and number. -/
  findings : List Finding
deriving Repr, Inhabited

/-- Whether a finding stands before another or shares its place: by offset, then by number. -/
def Finding.notAfter (f g : Finding) : Bool :=
  f.span.start < g.span.start || (f.span.start == g.span.start && f.code ≤ g.code)

/-- The module of a text whose tokens have been scanned; its node spans the whole text. -/
def Parser.file (length : Nat) : Parser NodeId := do
  let body ← moduleUpTo (← remaining)
  addNode (.root body) ⟨0, length⟩

def parse (text : String) : Parse :=
  let scanned := scan text
  let start : ParseState := ⟨scanned.tokens, 0, 0, .empty, scanned.findings⟩
  let (root, done) := (Parser.file text.utf8ByteSize).run start
  ⟨⟨done.arena, root, .ofText text⟩, done.findings.toList.mergeSort Finding.notAfter⟩

end LiveCheck
