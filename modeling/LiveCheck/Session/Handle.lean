import LiveCheck.Types.Basic

/-!
# Handles

A handle is a text that stands for a declaration or a type across requests. It is good for one
generation. The registries of successive generations go on counting, so no handle is given out
twice.
-/

namespace LiveCheck

/-- What a handle stands for. -/
inductive HandleKind
  | declaration
  | type
deriving Repr, DecidableEq, Inhabited

def HandleKind.letter : HandleKind → String
  | .declaration => "d"
  | .type => "t"

/-- A handle in parts. -/
structure Handle where
  generation : Nat
  kind : HandleKind
  number : Nat
deriving Repr, DecidableEq, Inhabited

namespace Handle

def text (h : Handle) : String :=
  "g" ++ Nat.repr h.generation ++ ":" ++ h.kind.letter ++ Nat.repr h.number

/-- The greatest number a handle may hold. -/
def limit : Nat := Nat.pow 2 64 - 1

def kind? : Char → Option HandleKind
  | 'd' => some .declaration
  | 't' => some .type
  | _ => none

/-- The part of a handle behind the colon. -/
def parseBody? : List Char → Option (HandleKind × Nat)
  | [] => none
  | c :: digits => do return (← kind? c, ← Text.natUpTo? limit (String.ofList digits))

def parse? (text : String) : Option Handle :=
  match text.toList with
  | 'g' :: rest => do
    let (generation, body) := (rest.takeWhile (· != ':'), rest.dropWhile (· != ':'))
    let (kind, number) ← parseBody? (← body.tail?)
    return ⟨← Text.natUpTo? limit (String.ofList generation), kind, number⟩
  | _ => none

end Handle

/-- Something a handle may stand for. -/
inductive HandleTarget
  | declaration (decl : DeclId)
  | type (type : TypeId)
deriving Repr, DecidableEq, Inhabited

def HandleTarget.kind : HandleTarget → HandleKind
  | .declaration _ => .declaration
  | .type _ => .type

/-- The handles of one generation. -/
structure HandleRegistry where
  generation : Nat
  next : Nat := 1
  retired : Bool := false
  entries : List (Handle × HandleTarget) := []
deriving Repr, DecidableEq, Inhabited

namespace HandleRegistry

/-- The handle of a target, a new one if it has none. A generation that is over gives out none. -/
def register (r : HandleRegistry) (target : HandleTarget) : Option String × HandleRegistry :=
  if r.retired then (none, r)
  else
    match r.entries.find? (·.2 == target) with
    | some (handle, _) => (some handle.text, r)
    | none =>
      let handle : Handle := ⟨r.generation, target.kind, r.next⟩
      (some handle.text, { r with next := r.next + 1, entries := r.entries ++ [(handle, target)] })

def target? (r : HandleRegistry) (text : String) : Option HandleTarget :=
  if r.retired then none else (r.entries.find? (·.1.text == text)).map (·.2)

def declaration? (r : HandleRegistry) (text : String) : Option DeclId :=
  match r.target? text with
  | some (.declaration decl) => some decl
  | _ => none

def type? (r : HandleRegistry) (text : String) : Option TypeId :=
  match r.target? text with
  | some (.type type) => some type
  | _ => none

def size (r : HandleRegistry) : Nat := r.entries.length

def retire (r : HandleRegistry) : HandleRegistry := { r with retired := true, entries := [] }

/-- The registry of a later generation. -/
def successor (r : HandleRegistry) (generation : Nat) : HandleRegistry :=
  { generation := generation, next := r.next }

end HandleRegistry
end LiveCheck
