import LiveCheck.Diagnostic
import LiveCheck.Scope.Declaration
import Std.Data.TreeMap

/-!
# Bindings

A binding is what the names of one file mean: its scopes, each with the symbols declared in it, the
declarations of every symbol in the order of the source, and the imports. Everything refers to
everything else by number, and nothing in a binding refers to another file.
-/

namespace LiveCheck

/-- What opens a scope. -/
inductive ScopeKind
  | root
  | classBody
  | function
  | lambda
deriving Repr, DecidableEq, Inhabited

/-- Names with their symbols, in the order the names were first declared. -/
abbrev SymbolTable := Array (String × SymbolId)

def SymbolTable.find? (t : SymbolTable) (name : String) : Option SymbolId :=
  (Array.find? (fun entry => entry.1 == name) t).map (·.2)

/-- A stretch of the file with names of its own. -/
structure Scope where
  kind : ScopeKind
  parent : Option ScopeId
  node : NodeId
  symbols : SymbolTable := #[]
  /-- The names a class gives its instances, by assignments to the receiver in its methods. -/
  instanceSymbols : SymbolTable := #[]
  /-- The `return` statements of a function, those of inner functions left out. -/
  returns : Array NodeId := #[]
  globals : Array String := #[]
  nonlocals : Array String := #[]
deriving Repr, DecidableEq, Inhabited

/-- A name of a scope with all its declarations. -/
structure BoundSymbol where
  name : String
  scope : ScopeId
  /-- The declarations, by their place in the source. -/
  declarations : List DeclIndex
deriving Repr, DecidableEq, Inhabited

/-- What the names of one file mean. -/
structure Binding where
  /-- The scopes; the module's own comes first, and a scope comes after the one around it. -/
  scopes : Array Scope := #[]
  symbols : Array BoundSymbol := #[]
  declarations : Array Declaration := #[]
  imports : Array ImportRecord := #[]
  findings : Array Finding := #[]
  /-- The declaration a name's node makes. -/
  nodeDeclarations : Std.TreeMap NodeId DeclIndex := ∅
  /-- The scope a name's node stands in. -/
  nameScopes : Std.TreeMap NodeId ScopeId := ∅
  definitionScopes : Std.TreeMap NodeId ScopeId := ∅
  /-- The names that `__all__` lists, if the module has one. -/
  exportList : Option (List String) := none
  /-- The numbers of the imports `from m import *`. -/
  wildcards : Array Nat := #[]
deriving Inhabited

/-- Whether a name of the module is part of its public interface: a name without a leading
underscore, or one that `__all__` lists. -/
def isPublicName (exportList : Option (List String)) (name : String) : Bool :=
  (exportList.getD []).contains name || name.toList.head? != some '_'

/-- The public names of a module, in alphabetical order, with the kind of their last declaration. -/
abbrev PublicSymbols := List (String × DeclarationKind)

def PublicSymbols.kind? (p : PublicSymbols) (name : String) : Option DeclarationKind :=
  List.lookup name p

namespace Binding

def declarationAt? (b : Binding) (node : NodeId) : Option DeclIndex := b.nodeDeclarations[node]?

def scopeOfName? (b : Binding) (node : NodeId) : Option ScopeId := b.nameScopes[node]?

def scopeOfDefinition? (b : Binding) (node : NodeId) : Option ScopeId := b.definitionScopes[node]?

def local? (b : Binding) (scope : ScopeId) (name : String) : Option SymbolId :=
  b.scopes[scope]?.bind (·.symbols.find? name)

/-- The symbol of a name that a class gives its instances. -/
def instance? (b : Binding) (scope : ScopeId) (name : String) : Option SymbolId :=
  b.scopes[scope]?.bind (·.instanceSymbols.find? name)

def moduleSymbol? (b : Binding) (name : String) : Option SymbolId := b.local? 0 name

/-- The declarations of a symbol, by their place in the source. -/
def declarationsOf (b : Binding) (symbol : SymbolId) : List DeclIndex :=
  b.symbols[symbol]?.elim [] (·.declarations)

/-- A scope and the scopes around it, at most `fuel` of them. -/
def scopesUpTo (b : Binding) : Nat → ScopeId → List ScopeId
  | 0, _ => []
  | fuel + 1, id =>
    match b.scopes[id]? with
    | some scope => id :: scope.parent.elim [] (b.scopesUpTo fuel)
    | none => []

def enclosing (b : Binding) (scope : ScopeId) : List ScopeId := b.scopesUpTo b.scopes.size scope

def scopeKind? (b : Binding) (scope : ScopeId) : Option ScopeKind := b.scopes[scope]?.map (·.kind)

/-- The symbol a name means in a scope. The body of a class is hidden from the scopes inside it, and
a name declared `global` belongs to the module. -/
def resolve? (b : Binding) (scope : ScopeId) (name : String) : Option SymbolId :=
  if (b.scopes[scope]?.elim #[] (·.globals)).contains name then b.moduleSymbol? name
  else
    (b.enclosing scope).findSome? fun id =>
      if id == scope || b.scopeKind? id != some .classBody then b.local? id name else none

def lastExported? (b : Binding) (symbol : SymbolId) : Option Declaration :=
  ((b.declarationsOf symbol).filterMap (b.declarations[·]?)).reverse.find? (·.exported)

def publicSymbols (b : Binding) : PublicSymbols :=
  let names := (b.scopes[0]?.elim #[] (·.symbols)).toList
  let exported := names.filterMap fun (name, symbol) =>
    (b.lastExported? symbol).map fun d => (name, d.kind)
  exported.mergeSort fun x y => x.1 ≤ y.1

/-! ## Names from `from m import *` -/

/-- The symbol of a name of the module, made if it is new. -/
def moduleSymbol (b : Binding) (name : String) : SymbolId × Binding :=
  match b.moduleSymbol? name with
  | some symbol => (symbol, b)
  | none =>
    let id := b.symbols.size
    (id, { b with
      symbols := b.symbols.push ⟨name, 0, []⟩
      scopes := b.scopes.modify 0 fun s => { s with symbols := s.symbols.push (name, id) } })

/-- Puts a declaration in front of those that stand behind `offset`. -/
def insertDeclaration (b : Binding) (offset : Nat) (index : DeclIndex) :
    List DeclIndex → List DeclIndex
  | [] => [index]
  | d :: ds =>
    if (b.declarations[d]?).any (offset < ·.span.start) then index :: d :: ds
    else d :: b.insertDeclaration offset index ds

/-- Declares one name that an import brings into the module. -/
def addWildcardName (importIndex : Nat) (record : ImportRecord) (b : Binding) (name : String) :
    Binding :=
  let (symbol, b) := b.moduleSymbol name
  let index := b.declarations.size
  let declaration : Declaration := {
    kind := .alias, name := name, node := record.node, owner := record.node, scope := 0
    symbol := symbol, span := record.span, typeHint := none
    origin := some ⟨importIndex, record.path, record.level, some name⟩
    conditional := false, exported := isPublicName b.exportList name, wildcard := true }
  let b := { b with declarations := b.declarations.push declaration }
  { b with symbols := b.symbols.modify symbol fun s =>
      { s with declarations := b.insertDeclaration record.span.start index s.declarations } }

/-- Declares the names that an import `from m import *` brings into the module. Each takes its place
among the declarations of its symbol by the place of the import. -/
def addWildcardNames (b : Binding) (importIndex : Nat) (names : List String) : Binding :=
  match b.imports[importIndex]? with
  | some record => names.foldl (addWildcardName importIndex record) b
  | none => b

end Binding
end LiveCheck
