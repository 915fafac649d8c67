import LiveCheck.Tree.Node
import Std.Data.TreeMap

/-!
# Side tables

Results of the analysis are kept beside the tree, by node, and never in it: dropping them leaves the
tree as it was. A table carries the number of the generation its entries belong to.
-/

namespace LiveCheck

/-- Values by node, with the generation they were computed in. -/
structure SideTable (α : Type) where
  entries : Std.TreeMap NodeId α
  stamp : Nat
deriving Inhabited

namespace SideTable

variable {α : Type}

def empty : SideTable α := ⟨∅, 0⟩

def get? (t : SideTable α) (node : NodeId) : Option α := t.entries[node]?

def insert (t : SideTable α) (node : NodeId) (value : α) : SideTable α :=
  { t with entries := t.entries.insert node value }

def erase (t : SideTable α) (node : NodeId) : SideTable α :=
  { t with entries := t.entries.erase node }

/-- Changes the value of a node, a default standing in for a missing one. -/
def update [Inhabited α] (t : SideTable α) (node : NodeId) (f : α → α) : SideTable α :=
  t.insert node (f ((t.get? node).getD default))

def size (t : SideTable α) : Nat := t.entries.size

def isEmpty (t : SideTable α) : Bool := t.entries.isEmpty

/-- Moves the entries to another generation. -/
def restamp (t : SideTable α) (generation : Nat) : SideTable α := { t with stamp := generation }

end SideTable
end LiveCheck
