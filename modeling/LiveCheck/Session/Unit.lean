import LiveCheck.Scope.Bind
import LiveCheck.Tree.SideTable
import LiveCheck.Types.Basic

/-!
# Source units

A source unit is what the session knows about one file: its content, and what has been derived from
it so far. Each stage of derivation rests on the one before, and the state says how far the unit has
come.
-/

namespace LiveCheck

/-- Why a unit has to be looked at again. -/
inductive StaleReason
  /-- Its own content changed: its tree is out of date. -/
  | content
  /-- Something it imports changed: its tree is still good. -/
  | dependency
deriving Repr, DecidableEq, Inhabited

/-- How far a unit has come. -/
inductive UnitState
  /-- Nothing is known but its path. -/
  | unseen
  | parsed
  | bound
  /-- Some of its types are known; all of them if it is complete. -/
  | evaluated (complete : Bool)
  | stale (reason : StaleReason)
deriving Repr, DecidableEq, Inhabited

/-- Whether the names of the unit are bound and nothing is out of date. -/
def UnitState.isBound : UnitState → Bool
  | .bound | .evaluated _ => true
  | _ => false

/-- What is known about a node of a tree. -/
structure NodeAnalysis where
  exprType : Option TypeId := none
  /-- The types of the declarations made at the node. -/
  declTypes : List (DeclIndex × TypeId) := []
  /-- The result of the function or lambda, as its body gives it. -/
  returnType : Option TypeId := none
deriving Repr, DecidableEq, Inhabited

/-- How often each stage ran for a unit. -/
structure UnitStats where
  parses : Nat := 0
  binds : Nat := 0
  checks : Nat := 0
deriving Repr, DecidableEq, Inhabited

/-- What is known about one file. -/
structure SourceUnit where
  path : String
  moduleName : String
  isPackage : Bool
  /-- A content that takes the place of the file's. -/
  overlay : Option String := none
  /-- The content that the tree was parsed from. -/
  content : Option String := none
  fingerprint : Option UInt64 := none
  /-- How often the content was replaced. -/
  version : Nat := 0
  state : UnitState := .unseen
  tree : Option Tree := none
  analysis : SideTable NodeAnalysis := .empty
  binding : Option Binding := none
  publicSymbols : PublicSymbols := []
  syntaxReports : List Diagnostic := []
  bindReports : List Diagnostic := []
  checkReports : List Diagnostic := []
  /-- Where the imports looked up so far lead. -/
  importCache : List ((String × Nat) × Option FileId) := []
  stats : UnitStats := {}
deriving Inhabited

namespace SourceUnit

/-- Drops all that was derived from the binding. -/
def discardEvaluation (u : SourceUnit) : SourceUnit :=
  { u with analysis := .empty, checkReports := [], importCache := [] }

/-- Gives the unit the tree of a content and drops all that was derived from an older one. -/
def parsed (u : SourceUnit) (content : String) (fingerprint : UInt64) : SourceUnit :=
  let result := parse content
  { u with
    syntaxReports := result.findings.map (·.report u.path)
    tree := some result.tree
    analysis := .empty
    fingerprint := some fingerprint
    content := some content
    binding := none
    bindReports := []
    checkReports := []
    importCache := []
    state := .parsed
    stats := { u.stats with parses := u.stats.parses + 1 } }

/-- Gives the unit a binding of its tree. -/
def bound (u : SourceUnit) (binding : Binding) (generation : Nat) : SourceUnit :=
  { u with
    binding := some binding
    publicSymbols := binding.publicSymbols
    bindReports := binding.findings.toList.map (·.report u.path)
    checkReports := []
    state := .bound
    analysis := if u.tree.isSome then u.analysis.restamp generation else u.analysis
    stats := { u.stats with binds := u.stats.binds + 1 } }

/-- The state of a unit whose content turned out not to have changed. -/
def restored (u : SourceUnit) : SourceUnit :=
  { u with state :=
      if u.binding.isNone then .parsed
      else if u.tree.isSome && !u.analysis.isEmpty then .evaluated false
      else .bound }

/-- Adds a problem found by evaluation, unless it is known. -/
def report (u : SourceUnit) (d : Diagnostic) : SourceUnit :=
  if u.checkReports.any (·.key == d.key) then u
  else { u with checkReports := u.checkReports ++ [d] }

end SourceUnit
end LiveCheck
