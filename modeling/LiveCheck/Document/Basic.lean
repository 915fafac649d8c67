/-!
# Documents

A document is a value in a notation of objects, lists, texts, numbers and the words `true`, `false`
and `null`.
-/

namespace LiveCheck

/-- A document. The numbers of this program are natural numbers. -/
inductive Document
  | null
  | flag (value : Bool)
  | number (value : Nat)
  | text (value : String)
  | list (items : List Document)
  /-- Keys and values, in the order in which they are written. -/
  | object (members : List (String × Document))
deriving Repr, Inhabited

namespace Document

def texts (values : List String) : Document := .list (values.map .text)

/-! ## Writing -/

def hexPair (n : Nat) : List Char := [Nat.digitChar (n / 16 % 16), Nat.digitChar (n % 16)]

/-- A character as it is written inside quotes. -/
def escaped (c : Char) : List Char :=
  match c with
  | '"' => ['\\', '"']
  | '\\' => ['\\', '\\']
  | '\x08' => ['\\', 'b']
  | '\x0c' => ['\\', 'f']
  | '\n' => ['\\', 'n']
  | '\r' => ['\\', 'r']
  | '\t' => ['\\', 't']
  | c => if c.toNat < 0x20 then ['\\', 'u', '0', '0'] ++ hexPair c.toNat else [c]

def quote (s : String) : String := "\"" ++ String.ofList (s.toList.flatMap escaped) ++ "\""

def newLine (indent : Nat) : String := String.ofList ('\n' :: List.replicate indent ' ')

/-- Items between brackets, each on a line of its own. -/
def bracketed (opening closing : String) (indent : Nat) (items : List String) : String :=
  if items.isEmpty then opening ++ closing
  else
    opening ++ ",".intercalate (items.map (newLine (indent + 2) ++ ·)) ++ newLine indent ++ closing

mutual

/-- The text of a document at an indentation. -/
def writeAt (indent : Nat) : Document → String
  | .null => "null"
  | .flag value => if value then "true" else "false"
  | .number value => Nat.repr value
  | .text value => quote value
  | .list items => bracketed "[" "]" indent (writeItems (indent + 2) items)
  | .object members => bracketed "\x7b" "\x7d" indent (writeMembers (indent + 2) members)

def writeItems (indent : Nat) : List Document → List String
  | [] => []
  | item :: items => writeAt indent item :: writeItems indent items

def writeMembers (indent : Nat) : List (String × Document) → List String
  | [] => []
  | (key, value) :: members =>
    (quote key ++ ": " ++ writeAt indent value) :: writeMembers indent members

end

def write (d : Document) : String := d.writeAt 0

end Document
end LiveCheck
