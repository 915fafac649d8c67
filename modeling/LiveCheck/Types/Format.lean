import LiveCheck.Types.Query

/-!
# The text of a type

Types are written the way annotations are: `list[int]`, `int | None`, `type[Point]`,
`(x: int, *args) -> str`. Deeply nested parts are cut off as `...`.
-/

namespace LiveCheck

/-- What is written in front of a parameter's name. -/
def ParamKind.stars : ParamKind → String
  | .varArgs => "*"
  | .kwArgs => "**"
  | .positional | .keywordOnly => ""

/-- The text of a parameter, where `f` writes its type. -/
def Param.format (f : TypeId → String) (p : Param) : String :=
  p.kind.stars ++ p.name ++ (if p.type == .unknown then "" else ": " ++ f p.type) ++
    (if p.hasDefault then " = ..." else "")

/-- The text of a signature without its first `skip` parameters, where `f` writes types. -/
def Signature.format (f : TypeId → String) (skip : Nat) (s : Signature) : String :=
  "(" ++ ", ".intercalate ((s.params.drop skip).map (Param.format f)) ++ ") -> " ++
    s.result.elim "Unknown" f

/-- The text of instances, where `f` writes type arguments. -/
def formatInstance (f : TypeId → String) (cls : ClassKey) (args : List TypeId) : String :=
  if args.isEmpty then if cls == .builtin .tuple then "tuple[()]" else cls.name
  else
    let texts := args.map fun a => if a == TypeId.ellipsis then "..." else f a
    cls.name ++ "[" ++ ", ".intercalate texts ++ "]"

namespace TypeTable

/-- The text of a type, at most `fuel` levels deep. -/
def formatUpTo (t : TypeTable) : Nat → TypeId → String
  | 0, _ => "..."
  | fuel + 1, id =>
    match t.get? id with
    | none => "<invalid type#" ++ Nat.repr id ++ ">"
    | some .unknown => "Unknown"
    | some .never => "Never"
    | some .any => "Any"
    | some (.inst cls args) => formatInstance (t.formatUpTo fuel) cls args
    | some (.classObject inner) => "type[" ++ t.formatUpTo fuel inner ++ "]"
    | some (.function shape) =>
      (t.shape? shape).elim "function" (Signature.format (t.formatUpTo fuel) 0)
    | some (.boundMethod function _) =>
      (t.signature? function).elim (t.formatUpTo fuel function)
        (Signature.format (t.formatUpTo fuel) 1)
    | some (.union members) => " | ".intercalate (members.map (t.formatUpTo fuel))
    | some (.moduleObject _ name) => "Module(\"" ++ name ++ "\")"
    | some (.recursive _ name) => name

def format (t : TypeTable) (id : TypeId) : String := t.formatUpTo Limits.formatting id

end TypeTable
end LiveCheck
