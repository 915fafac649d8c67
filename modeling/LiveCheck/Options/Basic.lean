import LiveCheck.Limits
import LiveCheck.Scope.Binding
import LiveCheck.Text.CharacterClass

/-!
# Options

What a user can choose about an analysis.

## How far a change reaches

When a file changes, the files that depend on it are looked at again. A change of its public
interface may alter what names mean anywhere, so that everything known is dropped. Which changes
count is a matter of policy.
-/

namespace LiveCheck

/-- What is dropped after a change. -/
inductive InvalidationScope
  /-- The file and the files that depend on it. -/
  | dependents
  /-- All that is known. -/
  | full
deriving Repr, DecidableEq, Inhabited

/-- Which changes make all that is known void. -/
inductive InvalidationMode
  /-- Those that add or remove a public name or alter its kind. -/
  | publicSymbols
  /-- All. -/
  | always
  /-- None. -/
  | dependentsOnly
deriving Repr, DecidableEq, Inhabited

namespace InvalidationMode

def label : InvalidationMode → String
  | publicSymbols => "publicSymbols"
  | always => "always"
  | dependentsOnly => "dependentsOnly"

def all : List InvalidationMode := [publicSymbols, always, dependentsOnly]

def ofLabel? (word : String) : Option InvalidationMode := all.find? (·.label == word)

/-- What to drop when the public interface of a file goes from `before` to `after`. -/
def scope (mode : InvalidationMode) (before after : PublicSymbols) : InvalidationScope :=
  match mode with
  | publicSymbols => if before = after then .dependents else .full
  | always => .full
  | dependentsOnly => .dependents

end InvalidationMode
end LiveCheck

/-! ## Choices -/

namespace LiveCheck

structure LanguageVersion where
  major : Nat
  minor : Nat
deriving Repr, DecidableEq, Inhabited

namespace LanguageVersion

def text (v : LanguageVersion) : String := Nat.repr v.major ++ "." ++ Nat.repr v.minor

/-- The version a text stands for; both numbers fit into a byte. -/
def parse? (text : String) : Option LanguageVersion := do
  let cs := (Text.trim text).toList
  let minor ← (cs.dropWhile (· != '.')).tail?
  return ⟨← Text.natUpTo? 255 (String.ofList (cs.takeWhile (· != '.'))),
    ← Text.natUpTo? 255 (String.ofList minor)⟩

end LanguageVersion

/-- A system that the analyzed code runs on. -/
inductive Platform
  | linux
  | darwin
  | windows
  | all
deriving Repr, DecidableEq, Inhabited

namespace Platform

def label : Platform → String
  | linux => "Linux"
  | darwin => "Darwin"
  | windows => "Windows"
  | all => "All"

def values : List Platform := [linux, darwin, windows, all]

def ofLabel? (word : String) : Option Platform := values.find? (·.label == word)

end Platform

/-- The choices for an analysis. -/
structure Options where
  version : LanguageVersion := ⟨3, 12⟩
  platform : Platform := .linux
  searchPaths : List String := []
  roots : List String := [""]
  invalidation : InvalidationMode := .publicSymbols
  reportUnresolvedImports : Bool := true
  maxEvaluationDepth : Nat := Limits.evaluationDepth
deriving Repr, DecidableEq, Inhabited

end LiveCheck
