import LiveCheck.Text.Split
import LiveCheck.Tree.Node

/-!
# Declarations

A declaration is one place of a file that gives a name a meaning: an assignment, a parameter, a
definition, an import. Scopes and symbols refer to declarations by their number in the file.
-/

namespace LiveCheck

/-- The number of a scope in its file; the module's own scope is number zero. -/
abbrev ScopeId := Nat

/-- The number of a symbol in its file. -/
abbrev SymbolId := Nat

/-- The number of a declaration in its file. -/
abbrev DeclIndex := Nat

/-- The number of a file in its program. -/
abbrev FileId := Nat

/-- A declaration of any file of the program. -/
structure DeclId where
  file : FileId
  index : DeclIndex
deriving Repr, DecidableEq, Inhabited

/-- What a declaration introduces. -/
inductive DeclarationKind
  | variable
  | parameter
  | function
  | classDef
  /-- `from m import x` -/
  | alias
  /-- `import a.b` -/
  | moduleAlias
  /-- `self.x = ...` in a method. -/
  | instanceAttribute
deriving Repr, DecidableEq, Inhabited

/-- What an imported name stands for. -/
structure AliasTarget where
  importIndex : Nat
  path : String
  level : Nat
  /-- The member of the module; absent when the name is the module itself. -/
  member : Option String
deriving Repr, DecidableEq, Inhabited

/-- One place that gives a name a meaning. -/
structure Declaration where
  kind : DeclarationKind
  name : String
  /-- The name's node; the import itself for a name from `from m import *`. -/
  node : NodeId
  /-- The statement or definition that declares the name. -/
  owner : NodeId
  scope : ScopeId
  symbol : SymbolId
  span : Span
  typeHint : Option NodeId
  origin : Option AliasTarget
  /-- Whether it stands in a branch of its scope that may be skipped. -/
  conditional : Bool
  exported : Bool
  wildcard : Bool
deriving Repr, DecidableEq, Inhabited

namespace Declaration

def annotated (d : Declaration) : Bool := d.typeHint.isSome

/-- Whether nothing but inference gives the declaration a type. -/
def inferredOnly (d : Declaration) : Bool :=
  !d.annotated && (d.kind == .variable || d.kind == .instanceAttribute)

end Declaration

/-- One module that a file imports. -/
structure ImportRecord where
  path : String
  level : Nat
  node : NodeId
  span : Span
  names : List String
  wildcard : Bool
deriving Repr, DecidableEq, Inhabited

/-- The dotted prefixes of a list of names that continue a dotted name, shortest first. -/
def dottedPrefixes (done : List String) : List String → List String
  | [] => []
  | part :: parts =>
    ".".intercalate (done ++ [part]) :: dottedPrefixes (done ++ [part]) parts

/-- `a`, `a.b`, `a.b.c` for the module `a.b.c`: a package is imported before what it holds. -/
def ImportRecord.prefixes (r : ImportRecord) : List String :=
  dottedPrefixes [] (Text.parts '.' r.path)

end LiveCheck
