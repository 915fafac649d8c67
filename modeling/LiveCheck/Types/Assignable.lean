import LiveCheck.Types.Table

/-!
# Comparing types

Types may refer to themselves, so they are compared under a guard.
-/

/-!
## Recursion guards

A walk over things that may refer to themselves carries a guard. The guard knows what is being
visited, so that a cycle is noticed, and bounds how many visits are nested.
-/

namespace LiveCheck

/-- What a walk is visiting, outermost last, and how much it may visit at once. -/
structure Guard (κ : Type) where
  limit : Nat
  visiting : List κ := []
deriving Repr, DecidableEq

/-- What becomes of an attempt to visit something. -/
inductive Entry (κ : Type)
  | entered (inner : Guard κ)
  /-- A visit of the same thing is going on. -/
  | cycle
  /-- Too many visits are nested. -/
  | tooDeep
deriving Repr, DecidableEq

namespace Guard

variable {κ : Type} [BEq κ]

/-- Begins a visit, unless the bound is reached or the same thing is being visited. -/
def enter (g : Guard κ) (key : κ) : Entry κ :=
  if g.limit ≤ g.visiting.length then .tooDeep
  else if g.visiting.contains key then .cycle
  else .entered { g with visiting := key :: g.visiting }

def leave (g : Guard κ) (key : κ) : Guard κ := { g with visiting := g.visiting.erase key }

/-- A visit that begins is one more that is going on. -/
theorem visiting_enter {g inner : Guard κ} {key : κ} (h : g.enter key = .entered inner) :
    inner.visiting = key :: g.visiting := by
  unfold enter at h
  split at h
  · cases h
  · split at h
    · cases h
    · cases h
      rfl

/-- Ending the visit that began last gives back the guard before it. -/
theorem leave_enter [LawfulBEq κ] {g inner : Guard κ} {key : κ}
    (h : g.enter key = .entered inner) : inner.leave key = g := by
  unfold enter at h
  split at h
  · cases h
  · split at h
    · cases h
    · cases h
      simp [leave]

end Guard

/-- A bound on nesting alone, for walks that may come to the same thing twice. -/
structure DepthCounter where
  limit : Nat
  depth : Nat := 0
deriving Repr, DecidableEq

namespace DepthCounter

/-- Goes one level deeper, unless the bound is reached. -/
def enter? (d : DepthCounter) : Option DepthCounter :=
  if d.limit ≤ d.depth then none else some { d with depth := d.depth + 1 }

def leave (d : DepthCounter) : DepthCounter := { d with depth := d.depth - 1 }

/-- Coming back undoes going deeper. -/
theorem leave_enter? {d inner : DepthCounter} (h : d.enter? = some inner) : inner.leave = d := by
  unfold enter? at h
  split at h
  · cases h
  · cases h
    rfl

end DepthCounter
end LiveCheck

/-!
## Assignability

Whether a value of one type may stand where another type is expected. Nothing is asked of values
about which nothing is known. Two types that are being compared already count as compatible, so that
types which refer to themselves can be compared.
-/

namespace LiveCheck

/-- The numbers a number of another class stands for. -/
def promotes : BuiltinClass → BuiltinClass → Bool
  | .int, .float | .int, .complex | .float, .complex | .bool, .float | .bool, .complex => true
  | _, _ => false

/-- Whether two classes are built in and the first is promoted to the second. -/
def ClassKey.promotesTo (source target : ClassKey) : Bool :=
  match source.builtin?, target.builtin? with
  | some s, some t => promotes s t
  | _, _ => false

/-- Whether type arguments are those of `tuple[T, ...]`. -/
def isVariadic : List TypeId → Bool
  | [_, rest] => rest == TypeId.ellipsis
  | _ => false

/-- Whether types are related one by one, as far as both lists go. -/
def pairwise (r : TypeId → TypeId → Bool) (source target : List TypeId) : Bool :=
  (source.zip target).all fun (s, t) => r s t

/-- Whether the tuples with some elements may stand for those with others, where `r` compares
elements. -/
def tupleAssignable (r : TypeId → TypeId → Bool) (source target : List TypeId) : Bool :=
  if isVariadic target then
    (source.filter (· != TypeId.ellipsis)).all fun s => r s (target.headD TypeId.unknown)
  else if isVariadic source then false
  else source.length == target.length && pairwise r source target

/-- Whether instances may stand for instances, where `r` compares type arguments. -/
def instanceAssignable (h : Hierarchy) (r : TypeId → TypeId → Bool)
    (source : ClassKey) (sourceArgs : List TypeId) (target : ClassKey) (targetArgs : List TypeId) :
    Bool :=
  if source.promotesTo target then true
  else if !isSubclass h source target then false
  else if targetArgs.isEmpty || source != target then true
  else if source.builtin? == some .tuple then tupleAssignable r sourceArgs targetArgs
  else pairwise r sourceArgs targetArgs

namespace TypeTable

/-- Whether two types are compatible whatever they are made of. -/
def triviallyAssignable (source target : TypeId) : Bool :=
  source == target || source == .unknown || source == .any || source == .never ||
    target == .unknown || target == .any || target == .object

/-- Compares two types by what they are, where `r` compares their parts. -/
def structurallyAssignable (t : TypeTable) (h : Hierarchy) (r : TypeId → TypeId → Bool)
    (source target : TypeId) : Bool :=
  match t.get? source, t.get? target with
  | some (.recursive _ _), some _ => true
  | some _, some (.recursive _ _) => true
  | some (.union members), some _ => members.all fun m => r m target
  | some _, some (.union members) => members.any fun m => r source m
  | some (.inst cls args), some (.inst cls' args') => instanceAssignable h r cls args cls' args'
  | some (.classObject inner), some (.classObject inner') => r inner inner'
  | some (.classObject inner), some (.inst (.builtin .type) args) =>
    match args with
    | [] => true
    | expected :: _ => r inner expected
  | some (.function _), some (.function _) => true
  | some (.function _), some (.boundMethod _ _) => true
  | some (.boundMethod _ _), some (.function _) => true
  | some (.boundMethod _ _), some (.boundMethod _ _) => true
  | some (.classObject _), some (.function _) => true
  | some (.classObject _), some (.boundMethod _ _) => true
  | some (.moduleObject file _), some (.moduleObject file' _) => file == file'
  | _, _ => false

/-- Compares two types, at most `fuel` levels deep. -/
def assignableUpTo (t : TypeTable) (h : Hierarchy) :
    Nat → Guard (TypeId × TypeId) → TypeId → TypeId → Bool
  | fuel, guard, source, target =>
    if triviallyAssignable source target then true
    else
      match fuel, guard.enter (source, target) with
      | fuel + 1, .entered inner =>
        t.structurallyAssignable h (t.assignableUpTo h fuel inner) source target
      | _, .cycle => true
      | _, _ => false

/-- Whether a value of type `source` may stand where `target` is expected. -/
def assignable (t : TypeTable) (h : Hierarchy) (source target : TypeId) : Bool :=
  t.assignableUpTo h Limits.assignability { limit := Limits.assignability } source target

end TypeTable
end LiveCheck
