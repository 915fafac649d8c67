import LiveCheck.Document.Literal

/-!
# Reading documents

Configuration is written in a notation of objects, lists, texts, numbers and the words `true`,
`false` and `null`. A reader knows what it expects. The first fault from the left ends the reading:
a text that breaks the notation is malformed, and one that keeps it but says something else than
expected is a mismatch.
-/

namespace LiveCheck

/-- Why a document cannot be read. -/
inductive ReadFault
  /-- It breaks the notation. -/
  | malformed
  /-- It says something else than expected. -/
  | mismatch
deriving Repr, DecidableEq, Inhabited

/-- Reads from the front of a text. -/
abbrev Reader := StateT (List Char) (Except ReadFault)

namespace Reader

variable {α σ : Type}

/-- Whether a character may stand between the parts of a document. -/
def isBlank (c : Char) : Bool := c == ' ' || c == '\n' || c == '\t' || c == '\r'

/-- The next character that is not blank; blanks are passed over. -/
def peek? : Reader (Option Char) := do
  modify (·.dropWhile isBlank)
  return (← get).head?

def advance : Reader Unit := modify List.tail

def takeBy (f : List Char → Option (α × List Char)) : Reader α := do
  match f (← get) with
  | some (a, rest) =>
    set rest
    return a
  | none => throw .malformed

/-- Takes a given word. -/
def word (w : String) : Reader Unit :=
  takeBy fun cs => if w.toList.isPrefixOf cs then some ((), cs.drop w.length) else none

/-- Takes a mark that has to come next. -/
def mark (c : Char) : Reader Unit := do
  if (← peek?) == some c then advance else throw .malformed

/-! ## Single values -/

/-- Takes a number, which has to be in range. -/
def numeral : Reader Numeral := do
  let n ← takeBy Numeral.take?
  if n.isInRange then return n else throw .malformed

def quoted : Reader String := takeBy Quoted.take?

/-- How closely values that nobody asked for are looked at. -/
inductive Care
  /-- They only have to keep the notation. -/
  | lenient
  /-- Their texts and numbers have to stand for something, too. -/
  | strict
deriving Repr, DecidableEq, Inhabited

/-- Passes over a value that is no list and no object. -/
def skipScalar (care : Care) : Reader Unit := do
  match ← peek? with
  | some 'n' => word "null"
  | some 't' => word "true"
  | some 'f' => word "false"
  | some '"' =>
    advance
    if care == .strict then discard quoted else takeBy fun cs => (Quoted.skip? cs).map ((), ·)
  | some c =>
    if c == '-' || c.isDigit then
      if care == .strict then discard numeral else discard (takeBy Numeral.take?)
    else throw .malformed
  | none => throw .malformed

/-- Refuses the value that comes next. A value that breaks the notation is refused for that. -/
def refuse : Reader α := do
  match ← peek? with
  | some '[' | some '\x7b' => throw .mismatch
  | _ =>
    skipScalar .strict
    throw .mismatch

def text : Reader String := do
  match ← peek? with
  | some '"' =>
    advance
    quoted
  | _ => refuse

/-- Reads `true` or `false`. -/
def flag : Reader Bool := do
  match ← peek? with
  | some 't' =>
    word "true"
    return true
  | some 'f' =>
    word "false"
    return false
  | _ => refuse

def naturalUpTo (limit : Nat) : Reader Nat := do
  match ← peek? with
  | some c =>
    if c == '-' || c.isDigit then
      match (← numeral).natural? with
      | some n => if n ≤ limit then return n else throw .mismatch
      | none => throw .mismatch
    else refuse
  | none => throw .malformed

def null : Reader Unit := do
  match ← peek? with
  | some 'n' => word "null"
  | _ => refuse

/-- Reads the word `null` or an object without members. -/
def nullOrEmpty : Reader Unit := do
  match ← peek? with
  | some '\x7b' =>
    advance
    mark '\x7d'
  | _ => null

/-- Reads `null` or a value. -/
def optional (item : Reader α) : Reader (Option α) := do
  match ← peek? with
  | some 'n' =>
    word "null"
    return none
  | _ => some <$> item

/-- Reads a text that stands for something. -/
def parsed (parse? : String → Option α) : Reader α := do
  match parse? (← text) with
  | some a => return a
  | none => throw .mismatch

/-- Reads one of several words: a text, or an object whose only key is the word and whose value is
what `filler` reads. Nothing else keeps the notation of a choice. -/
def choice (filler : Reader Unit) (ofWord? : String → Option α) : Reader α := do
  match ← peek? with
  | some '"' => parsed ofWord?
  | some '\x7b' =>
    advance
    let a ← parsed ofWord?
    mark ':'
    filler
    mark '\x7d'
    return a
  | _ => throw .malformed

/-! ## Lists and objects -/

/-- Goes on to the next item of a list or an object, or behind its end; the answer is whether there
is an item. -/
def more (close : Char) : Reader Bool := do
  match ← peek? with
  | some c =>
    if c == close then
      advance
      return false
    else if c == ',' then
      advance
      if (← peek?) == some close then throw .malformed else return true
    else throw .malformed
  | none => throw .malformed

/-- Goes to the first item behind an opening bracket, or behind the closing one. -/
def first (close : Char) : Reader Bool := do
  if (← peek?) == some close then
    advance
    return false
  else return true

def itemsUpTo (item : Reader α) : Nat → Reader (List α)
  | 0 => throw .malformed
  | fuel + 1 => do
    let a ← item
    if ← more ']' then return a :: (← itemsUpTo item fuel) else return [a]

/-- Reads a list. No list has more items than characters. -/
def listOf (item : Reader α) : Reader (List α) := do
  match ← peek? with
  | some '[' =>
    advance
    if ← first ']' then itemsUpTo item (← get).length else return []
  | _ => refuse

/-- Reads the members of an object, at most `fuel`; `member` gets the key and reads on from behind
it. -/
def membersUpTo (key : Reader String) (member : String → σ → Reader σ) : Nat → σ → Reader σ
  | 0, _ => throw .malformed
  | fuel + 1, s => do
    if (← peek?) != some '"' then throw .malformed
    advance
    let s ← member (← key) s
    if ← more '\x7d' then membersUpTo key member fuel s else return s

/-- Reads an object from its opening bracket. -/
def members (key : Reader String) (member : String → σ → Reader σ) (s : σ) : Reader σ := do
  mark '\x7b'
  if ← first '\x7d' then membersUpTo key member (← get).length s else return s

/-- Passes over a value in which lists and objects are nested at most `depth` deep. -/
def skipUpTo (care : Care) : Nat → Reader Unit
  | 0 => skipScalar care
  | depth + 1 => do
    match ← peek? with
    | some '[' => discard (listOf (skipUpTo care depth))
    | some '\x7b' =>
      let key : Reader String :=
        if care == .strict then quoted else takeBy fun cs => (Quoted.skip? cs).map ("", ·)
      members key (fun _ _ => do mark ':'; skipUpTo care depth) ()
    | _ => skipScalar care

/-! ## Records -/

/-- The fields that a record may have, with what each of them does to it. -/
abbrev Fields (σ : Type) := List (String × (σ → Reader σ))

/-- Reads a record. Each field is given at most once; others are passed over. -/
def record (fields : Fields σ) (skip : Reader Unit) (start : σ) : Reader σ := do
  let member (key : String) (state : σ × List String) : Reader (σ × List String) := do
    match fields.lookup key with
    | some read =>
      if state.2.contains key then throw .mismatch
      mark ':'
      return (← read state.1, key :: state.2)
    | none =>
      mark ':'
      skip
      return state
  return (← members quoted member (start, [])).1

/-- Reads the rest of a list that holds the fields of a record in their order. Fields at the end may
be left out. -/
def positionalFrom (isFirst : Bool) : Fields σ → σ → Reader σ
  | [], s => do
    mark ']'
    return s
  | (_, read) :: fields, s => do
    let isThere ← if isFirst then first ']' else more ']'
    if isThere then positionalFrom false fields (← read s) else return s

/-- Reads a record that is written as a list. -/
def positional (fields : Fields σ) (start : σ) : Reader σ := do
  mark '['
  positionalFrom true fields start

def run (r : Reader α) (document : String) : Except ReadFault α :=
  StateT.run' (do
    let a ← r
    if (← peek?).isSome then throw .malformed
    return a) document.toList

end Reader
end LiveCheck
