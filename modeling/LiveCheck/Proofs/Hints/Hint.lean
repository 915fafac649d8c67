import LiveCheck.Proofs.Printing.Reading
import LiveCheck.Proofs.Types.Operations

/-!
# Type expressions

What is written for a type made of built-in classes, as a tree of its own, apart from its text and
from the arena of a parse. It has pieces, one for each token; the nodes of an arena can have its
shape; and in a table of types it can mean a type.
-/

namespace LiveCheck

/-- A type expression. `None` and `...` stand for their classes as the names of the others do. -/
inductive Hint
  | cls (cls : BuiltinClass)
  | subscript (cls : BuiltinClass) (args : List Hint)
  | or (left right : Hint)

namespace Hint

mutual

/-- What holds of a type expression if it holds of those in it holds of all. -/
@[elab_as_elim]
theorem induction {P : Hint → Prop} (cls : ∀ c, P (.cls c))
    (subscript : ∀ c args, (∀ arg ∈ args, P arg) → P (.subscript c args))
    (or : ∀ left right, P left → P right → P (.or left right)) : (h : Hint) → P h
  | .cls c => cls c
  | .subscript c args => subscript c args (induction_all cls subscript or args)
  | .or left right =>
    or left right (induction cls subscript or left) (induction cls subscript or right)

private theorem induction_all {P : Hint → Prop} (cls : ∀ c, P (.cls c))
    (subscript : ∀ c args, (∀ arg ∈ args, P arg) → P (.subscript c args))
    (or : ∀ left right, P left → P right → P (.or left right)) :
    (hs : List Hint) → ∀ h ∈ hs, P h
  | [] => List.forall_mem_nil P
  | h :: hs => List.forall_mem_cons.mpr
    ⟨induction cls subscript or h, induction_all cls subscript or hs⟩

end

end Hint

/-! ## Pieces -/

/-- The piece that a class is written as. -/
def BuiltinClass.piece : BuiltinClass → Piece
  | .none => Keyword.noneKw.piece
  | .ellipsis => Symbol.ellipsis.piece
  | cls => ⟨.name, cls.name⟩

namespace Hint

mutual

/-- The pieces of a type expression. -/
def pieces : Hint → List Piece
  | .cls c => [c.piece]
  | .subscript c args =>
    c.piece :: Symbol.openBracket.piece :: (indexPieces args ++ [Symbol.closeBracket.piece])
  | .or left right => left.pieces ++ Symbol.pipe.piece :: right.pieces

/-- The pieces between the brackets of a subscript. Without arguments an empty tuple stands there. -/
def indexPieces : List Hint → List Piece
  | [] => [Symbol.openParen.piece, Symbol.closeParen.piece]
  | arg :: args => arg.pieces ++ commaPieces args

/-- The pieces of arguments that each stand behind a comma. -/
def commaPieces : List Hint → List Piece
  | [] => []
  | arg :: args => Symbol.comma.piece :: (arg.pieces ++ commaPieces args)

end

private theorem commaPieces_eq (args : List Hint) :
    commaPieces args = behindEach Symbol.comma.piece pieces args := by
  induction args with
  | nil => rfl
  | cons arg args ih => rw [commaPieces, behindEach, ih]

theorem indexPieces_cons (arg : Hint) (args : List Hint) :
    indexPieces (arg :: args) = between Symbol.comma.piece pieces (arg :: args) := by
  rw [indexPieces, between, commaPieces_eq]

mutual

/-- How many brackets stand around one another in a type expression. -/
def nesting : Hint → Nat
  | .cls _ => 0
  | .subscript _ args => nestings args + 1
  | .or left right => max left.nesting right.nesting

/-- The greatest number in a list. -/
def nestings : List Hint → Nat
  | [] => 0
  | arg :: args => max arg.nesting (nestings args)

end

theorem nesting_le_nestings {arg : Hint} {args : List Hint} (h : arg ∈ args) :
    arg.nesting ≤ nestings args := by
  induction h with
  | head args => exact Nat.le_max_left _ _
  | tail other _ ih => exact Nat.le_trans ih (Nat.le_max_right _ _)

end Hint

/-! ## Shapes -/

/-- A node of an arena stands for a class. -/
def BuiltinClass.Shown (a : Arena) (cls : BuiltinClass) (node : NodeId) : Prop :=
  match cls with
  | .none => a.data? node = some (.constant .none Option.none)
  | .ellipsis => a.data? node = some (.constant .ellipsis Option.none)
  | cls => ∃ atom, a.data? node = some (.name atom) ∧ a.names.names[atom]? = some cls.name

/-- The nodes of the arguments in the brackets of a subscript: the elements of a tuple, or the only
one. -/
def Arena.indexParts (a : Arena) (index : NodeId) : List NodeId :=
  match a.data? index with
  | some (.tuple elts) => elts
  | _ => [index]

namespace Hint

mutual

/-- The nodes below a node of an arena have the shape of a type expression. -/
def Shown (a : Arena) : Hint → NodeId → Prop
  | .cls c, node => c.Shown a node
  | .subscript c args, node =>
    ∃ i j, a.data? node = some (.subscript i j) ∧ c.Shown a i ∧ AllShown a args (a.indexParts j)
  | .or left right, node =>
    ∃ i j, a.data? node = some (.binary i .bitOr j) ∧ left.Shown a i ∧ right.Shown a j

/-- Some nodes have the shapes of some type expressions, one by one. -/
def AllShown (a : Arena) : List Hint → List NodeId → Prop
  | [], nodes => nodes = []
  | h :: hs, nodes => ∃ i is, nodes = i :: is ∧ h.Shown a i ∧ AllShown a hs is

end

theorem allShown_iff {a : Arena} {hs : List Hint} {nodes : List NodeId} :
    AllShown a hs nodes ↔ List.Forall₂ (Shown a) hs nodes := by
  induction hs generalizing nodes with
  | nil => simp [AllShown]
  | cons h hs ih =>
    simp only [AllShown, List.forall₂_cons_left_iff, ih]
    constructor
    · rintro ⟨i, is, hnodes, hi, his⟩
      exact ⟨i, is, hi, his, hnodes⟩
    · rintro ⟨i, is, hi, his, hnodes⟩
      exact ⟨i, is, hnodes, hi, his⟩

end Hint

/-- The class of a name is found by its name. -/
theorem builtinClassNamed?_name {cls : BuiltinClass} (hnone : cls ≠ .none)
    (hellipsis : cls ≠ .ellipsis) : builtinClassNamed? cls.name = some cls := by
  cases cls <;> first | rfl | contradiction

/-- A built-in class is shown by a node with its name. -/
theorem BuiltinClass.shown_iff {a : Arena} {cls : BuiltinClass} {node : NodeId}
    (hnone : cls ≠ .none) (hellipsis : cls ≠ .ellipsis) :
    cls.Shown a node ↔
      ∃ atom, a.data? node = some (.name atom) ∧ a.names.names[atom]? = some cls.name := by
  cases cls <;> first | rfl | contradiction

/-!
## What type expressions mean

A type expression means a type of a table if the types that the parts mean make up the type there.
It means one type at most, and goes on to mean it as the table grows. Which type expression is
written for a type follows from the entry of the type, and if the type is made of built-in classes
then the expression can mean no other type.
-/

open TypeTable

/-- The type of a built-in class with type arguments. -/
def BuiltinClass.applied (cls : BuiltinClass) (args : List TypeId) : TypeData :=
  match cls with
  | .type => .classObject (args.headD .unknown)
  | cls => .inst (.builtin cls) args

namespace Hint

mutual

/-- The type expression means the type. -/
def Means (t : TypeTable) : Hint → TypeId → Prop
  | .cls c, id => t.find? (.inst (.builtin c) []) = some id
  | .subscript c args, id => ∃ ids, AllMean t args ids ∧ t.find? (c.applied ids) = some id
  | .or left right, id =>
    ∃ i j, left.Means t i ∧ right.Means t j ∧ t.find? (.union (t.members i ++ [j])) = some id

/-- The type expressions mean the types, one by one. -/
def AllMean (t : TypeTable) : List Hint → List TypeId → Prop
  | [], ids => ids = []
  | h :: hs, ids => ∃ i is, ids = i :: is ∧ h.Means t i ∧ AllMean t hs is

end

variable {t : TypeTable} {h : Hint} {hs : List Hint} {ids : List TypeId}

private theorem allMean_iff : AllMean t hs ids ↔ List.Forall₂ (Means t) hs ids := by
  induction hs generalizing ids with
  | nil => simp [AllMean]
  | cons h hs ih =>
    simp only [AllMean, List.forall₂_cons_left_iff, ih]
    constructor
    · rintro ⟨i, is, hids, hi, his⟩
      exact ⟨i, is, hi, his, hids⟩
    · rintro ⟨i, is, hi, his, hids⟩
      exact ⟨i, is, hids, hi, his⟩

end Hint

/-- The value of a type expression that stands for a type. `None` and `...` stand for themselves. -/
def TypeTable.IsForm (t : TypeTable) (form id : TypeId) : Prop :=
  t.find? (.classObject id) = some form ∨ form = id ∧ (id = .none ∨ id = .ellipsis)

theorem TypeTable.IsForm.extends {t t' : TypeTable} {form id : TypeId} (hf : t.IsForm form id)
    (he : t.Extends t') : t'.IsForm form id := hf.imp_left he.find?

/-! ## Regular type expressions -/

/-- A class that can stand before so many type arguments. -/
structure BuiltinClass.Takes (cls : BuiltinClass) (count : Nat) : Prop where
  none : cls ≠ .none
  ellipsis : cls ≠ .ellipsis
  arity : cls.arity? = Option.none ∨ cls.arity? = some count

/-- The second type can become one more member of a union with the members of the first one. -/
structure TypeTable.Joins (t : TypeTable) (i j : TypeId) : Prop where
  single : t.members j = [j]
  nonempty : t.members i ≠ []
  nodup : (t.members i ++ [j]).Nodup
  few : (t.members i ++ [j]).length ≤ Limits.unionMembers
  plain : ∀ m ∈ i :: (t.members i ++ [j]), m ∉ [TypeId.unknown, .never, .any, .ellipsis]

namespace Hint

mutual

/-- Classes stand before as many arguments as they take, and what stands between bars are different
types, whatever the table has grown to. -/
def Regular (t : TypeTable) : Hint → Prop
  | .cls _ => True
  | .subscript c args => c.Takes args.length ∧ AllRegular t args
  | .or left right => left.Regular t ∧ right.Regular t ∧
    ∀ t' i j, t.Extends t' → left.Means t' i → right.Means t' j → t'.Joins i j

/-- All of the type expressions are regular. -/
def AllRegular (t : TypeTable) : List Hint → Prop
  | [] => True
  | h :: hs => h.Regular t ∧ AllRegular t hs

end

private theorem allRegular_iff {t : TypeTable} {hs : List Hint} :
    AllRegular t hs ↔ ∀ h ∈ hs, h.Regular t := by
  induction hs with
  | nil => simp [AllRegular]
  | cons h hs ih => simp [AllRegular, ih]

/-- A regular type expression stays so. -/
theorem Regular.extends {t t' : TypeTable} {h : Hint} (hr : h.Regular t) (he : t.Extends t') :
    h.Regular t' := by
  induction h using Hint.induction with
  | cls c => trivial
  | subscript c args ih =>
    obtain ⟨htakes, hargs⟩ := hr
    rw [allRegular_iff] at hargs
    exact ⟨htakes, allRegular_iff.mpr fun arg harg => ih arg harg (hargs arg harg)⟩
  | or left right ihleft ihright =>
    obtain ⟨hleft, hright, hjoins⟩ := hr
    exact ⟨ihleft hleft, ihright hright, fun t'' i j he' => hjoins t'' i j (he.trans he')⟩

end Hint

/-! ## The type expression of a type -/

/-- The alternatives with bars between them. -/
def Hint.alternatives (first : Hint) (others : List Hint) : Hint := others.foldl .or first

/-- The type expression that is written for a type, where `f` writes its parts. What has none is
written as `...`. -/
def TypeData.hint (f : TypeId → Hint) : TypeData → Hint
  | .inst (.builtin .tuple) args => .subscript .tuple (args.map f)
  | .inst (.builtin cls) [] => .cls cls
  | .inst (.builtin cls) args => .subscript cls (args.map f)
  | .classObject inner => .subscript .type [f inner]
  | .union (first :: others) => .alternatives (f first) (others.map f)
  | _ => .cls .ellipsis

namespace TypeTable

/-- The type expression that is written for a type, at most `fuel` levels deep. -/
def hintUpTo (t : TypeTable) : Nat → TypeId → Hint
  | 0, _ => .cls .ellipsis
  | fuel + 1, id =>
    match t.get? id with
    | some data => data.hint (t.hintUpTo fuel)
    | none => .cls .ellipsis

/-- The type expression that is written for a type. -/
def hint (t : TypeTable) (id : TypeId) : Hint := t.hintUpTo Limits.formatting id

/-- The types that are made of built-in classes, at most so many levels deep: classes without
arguments, lists, sets, dictionaries and tuples with their arguments, classes of such types, and
unions. `None` is the only instance of its class. The class of `...` stands in none of them but as
an argument, as it does in tuples of any length. -/
inductive Writable (t : TypeTable) : Nat → TypeId → Prop
  | cls {depth : Nat} {id : TypeId} {cls : BuiltinClass} (hcls : cls ≠ .ellipsis)
    (hid : t.find? (.inst (.builtin cls) []) = some id) : Writable t depth id
  | generic {depth : Nat} {id : TypeId} {cls : BuiltinClass} {args : List TypeId}
    (hcls : cls ∈ [BuiltinClass.list, .set, .dict, .tuple])
    (harity : ∀ count ∈ cls.arity?, args.length = count) (hne : args ≠ [])
    (hargs : ∀ arg ∈ args, arg ≠ .ellipsis → Writable t depth arg)
    (hid : t.find? (.inst (.builtin cls) args) = some id) : Writable t (depth + 1) id
  | classObject {depth : Nat} {id inner : TypeId} (hinner : Writable t depth inner)
    (hid : t.find? (.classObject inner) = some id) : Writable t (depth + 1) id
  | union {depth : Nat} {id : TypeId} {members : List TypeId} (htwo : 2 ≤ members.length)
    (hfew : members.length ≤ Limits.unionMembers) (hnodup : members.Nodup)
    (hsingle : ∀ m ∈ members, t.members m = [m]) (hmembers : ∀ m ∈ members, Writable t depth m)
    (hid : t.find? (.union members) = some id) : Writable t (depth + 1) id

end TypeTable
end LiveCheck

/-!
## What is written for a type

The type expression that is written for a type made of built-in classes is regular, has few brackets
around one another, and can mean no other type, also when the table has grown.
-/

namespace LiveCheck

open TypeTable

/-! ### Entries -/

private theorem BuiltinClass.applied_of_ne {cls : BuiltinClass} (h : cls ≠ .type)
    (args : List TypeId) :
    cls.applied args = .inst (.builtin cls) args := by
  cases cls <;> first | rfl | contradiction

namespace TypeData

variable {f : TypeId → Hint} {cls : BuiltinClass} {args : List TypeId}

theorem hint_cls (h : cls ≠ .tuple) : (TypeData.inst (.builtin cls) []).hint f = .cls cls := by
  cases cls <;> first | rfl | contradiction

theorem hint_generic (h : args ≠ []) :
    (TypeData.inst (.builtin cls) args).hint f = .subscript cls (args.map f) := by
  cases args with
  | nil => contradiction
  | cons arg args => cases cls <;> rfl

end TypeData

namespace TypeTable

variable {t : TypeTable} {data : TypeData} {depth fuel : Nat} {id : TypeId} {members : List TypeId}

theorem hintUpTo_succ (h : t.get? id = some data) :
    t.hintUpTo (fuel + 1) id = data.hint (t.hintUpTo fuel) := by
  rw [hintUpTo, h]

theorem hintUpTo_of_find? (h : t.find? data = some id) :
    t.hintUpTo (fuel + 1) id = data.hint (t.hintUpTo fuel) :=
  hintUpTo_succ (find?_eq_some_iff.mp h).1

theorem find?_none (hbase : initial.Extends t) :
    t.find? (.inst (.builtin .none) []) = some .none :=
  hbase.find? (find?_eq_some_iff.mpr ⟨rfl, by decide⟩)

theorem find?_ellipsis (hbase : initial.Extends t) :
    t.find? (.inst (.builtin .ellipsis) []) = some .ellipsis :=
  hbase.find? (find?_eq_some_iff.mpr ⟨rfl, by decide⟩)

/-- `...` is written as itself. -/
theorem hintUpTo_ellipsis (hbase : initial.Extends t) (fuel : Nat) :
    t.hintUpTo fuel .ellipsis = .cls .ellipsis := by
  cases fuel with
  | zero => rfl
  | succ fuel =>
    have hd : t.get? .ellipsis = some (.inst (.builtin .ellipsis) []) := hbase.get? rfl
    rw [hintUpTo_succ hd]
    rfl

theorem members_of_find?_union (h : t.find? (.union members) = some id) :
    t.members id = members := by
  rw [TypeTable.members, (find?_eq_some_iff.mp h).1]

private theorem Writable.get? (h : t.Writable depth id) :
    ∃ data, t.find? data = some id ∧ t.get? id = some data := by
  cases h with
  | cls _ hid | generic _ _ _ _ hid | classObject _ hid | union _ _ _ _ _ hid =>
    exact ⟨_, hid, (find?_eq_some_iff.mp hid).1⟩

private theorem Writable.lt_size (h : t.Writable depth id) : id < t.size := by
  obtain ⟨data, -, hd⟩ := h.get?
  exact lt_size_of_get? hd

private theorem not_mem_of_get? (hbase : initial.Extends t) (hd : t.get? id = some data)
    (h : data ∉ [.unknown, .never, .any, .inst (.builtin .ellipsis) []]) :
    id ∉ [TypeId.unknown, .never, .any, .ellipsis] := by
  simp only [List.mem_cons, List.not_mem_nil, or_false, not_or] at h ⊢
  exact ⟨hbase.ne rfl hd h.1, hbase.ne rfl hd h.2.1, hbase.ne rfl hd h.2.2.1,
    hbase.ne rfl hd h.2.2.2⟩

private theorem Writable.plain (h : t.Writable depth id) (hbase : initial.Extends t) :
    id ∉ [TypeId.unknown, .never, .any, .ellipsis] := by
  cases h with
  | cls hcls hid | generic _ _ hcls _ hid | classObject _ hid
  | union _ _ _ _ _ hid =>
    exact not_mem_of_get? hbase (find?_eq_some_iff.mp hid).1 (by simp_all)

end TypeTable

/-! ### Several alternatives -/

namespace Hint

variable {t t' : TypeTable} {f : TypeId → Hint} {first : TypeId} {others : List TypeId}

private theorem alternatives_append (h last : Hint) (init : List Hint) :
    alternatives h (init ++ [last]) = .or (alternatives h init) last := by
  simp [alternatives]

private theorem members_alternatives (hsingle : ∀ m ∈ first :: others, t'.members m = [m])
    (hf : ∀ m ∈ first :: others, ∀ i, (f m).Means t' i → i = m) {i : TypeId}
    (hm : (alternatives (f first) (others.map f)).Means t' i) :
    t'.members i = first :: others ∧
      (others ≠ [] → t'.find? (.union (first :: others)) = some i) := by
  induction others using List.reverseRecOn generalizing i with
  | nil =>
    obtain rfl := hf first List.mem_cons_self i hm
    exact ⟨hsingle i List.mem_cons_self, fun h => absurd rfl h⟩
  | append_singleton init last ih =>
    rw [List.map_append, List.map_singleton, alternatives_append] at hm
    obtain ⟨j, k, hj, hk, hid⟩ := hm
    have hmem {m : TypeId} (h : m ∈ first :: init) : m ∈ first :: (init ++ [last]) := by
      rw [← List.cons_append]
      exact List.mem_append_left _ h
    obtain ⟨hmembers, -⟩ := ih (fun m h => hsingle m (hmem h)) (fun m h => hf m (hmem h)) hj
    obtain rfl := hf last (by simp) k hk
    rw [hmembers, List.cons_append] at hid
    exact ⟨members_of_find?_union hid, fun _ => hid⟩

private theorem regular_alternatives (hsingle : ∀ m ∈ first :: others, t.members m = [m])
    (hlt : ∀ m ∈ first :: others, m < t.size) (hnodup : (first :: others).Nodup)
    (hfew : (first :: others).length ≤ Limits.unionMembers) (hbase : initial.Extends t)
    (hplain : ∀ m ∈ first :: others, m ∉ [TypeId.unknown, .never, .any, .ellipsis])
    (hf : ∀ m ∈ first :: others, ∀ t', t.Extends t' → ∀ i, (f m).Means t' i → i = m)
    (hregular : ∀ m ∈ first :: others, (f m).Regular t) :
    (alternatives (f first) (others.map f)).Regular t := by
  induction others using List.reverseRecOn with
  | nil => exact hregular first List.mem_cons_self
  | append_singleton init last ih =>
    rw [List.map_append, List.map_singleton, alternatives_append]
    rw [← List.cons_append] at hsingle hlt hnodup hfew hplain hf hregular
    have hmem {m : TypeId} (h : m ∈ first :: init) : m ∈ (first :: init) ++ [last] :=
      List.mem_append_left _ h
    have hlast : last ∈ (first :: init) ++ [last] := by simp
    refine ⟨ih (fun m h => hsingle m (hmem h)) (fun m h => hlt m (hmem h))
      (hnodup.sublist (List.sublist_append_left _ _)) (Nat.le_trans (by simp) hfew)
      (fun m h => hplain m (hmem h)) (fun m h => hf m (hmem h)) fun m h => hregular m (hmem h),
      hregular last hlast, fun t' i j he hi hj => ?_⟩
    have hsingle' (m : TypeId) (h : m ∈ (first :: init) ++ [last]) : t'.members m = [m] := by
      rw [he.members (hlt m h), hsingle m h]
    obtain ⟨hmembers, hunion⟩ := members_alternatives (fun m h => hsingle' m (hmem h))
      (fun m h => hf m (hmem h) t' he) hi
    obtain rfl := hf last hlast t' he j hj
    refine ⟨hsingle' j hlast, ?_, ?_, ?_, ?_⟩
    · rw [hmembers]
      exact List.cons_ne_nil first init
    · rw [hmembers]
      exact hnodup
    · rw [hmembers]
      exact hfew
    · rw [hmembers]
      intro m hm
      rcases List.mem_cons.mp hm with rfl | hm
      · cases init with
        | nil =>
          obtain rfl := hf first (by simp) t' he m hi
          exact hplain m (by simp)
        | cons second init =>
          exact not_mem_of_get? (hbase.trans he)
            (find?_eq_some_iff.mp (hunion (List.cons_ne_nil _ _))).1 (by simp)
      · exact hplain m hm

private theorem nesting_alternatives {h : Hint} {hs : List Hint} {n : Nat} (hh : h.nesting ≤ n)
    (hhs : ∀ h ∈ hs, h.nesting ≤ n) : (alternatives h hs).nesting ≤ n := by
  induction hs generalizing h with
  | nil => exact hh
  | cons other hs ih =>
    apply ih (h := .or h other)
    · rw [nesting]
      exact Nat.max_le.mpr ⟨hh, hhs other List.mem_cons_self⟩
    · exact fun h hmem => hhs h (List.mem_cons_of_mem _ hmem)

theorem nestings_le {hs : List Hint} {n : Nat} (h : ∀ h ∈ hs, h.nesting ≤ n) : nestings hs ≤ n := by
  induction hs with
  | nil => exact Nat.zero_le n
  | cons first hs ih =>
    rw [nestings]
    exact Nat.max_le.mpr
      ⟨h first List.mem_cons_self, ih fun h' hmem => h h' (List.mem_cons_of_mem _ hmem)⟩

private theorem eq_of_allMean_map {args ids : List TypeId}
    (hf : ∀ arg ∈ args, ∀ i, (f arg).Means t' i → i = arg) (hm : AllMean t' (args.map f) ids) :
    ids = args := by
  rw [allMean_iff] at hm
  induction args generalizing ids with
  | nil => cases hm; rfl
  | cons arg args ih =>
    cases hm with
    | cons hi his =>
      rw [hf arg List.mem_cons_self _ hi, ih (fun a ha => hf a (List.mem_cons_of_mem _ ha)) his]

end Hint

/-! ### All type expressions that are written -/

namespace TypeTable

variable {t t' : TypeTable} {depth fuel : Nat} {id i : TypeId}

/-- What is written for a type can mean nothing else. -/
theorem Writable.eq_of_means (h : t.Writable depth id) (hfuel : depth < fuel)
    (hbase : initial.Extends t) (he : t.Extends t') (hm : (t.hintUpTo fuel id).Means t' i) :
    i = id := by
  obtain ⟨fuel, rfl⟩ : ∃ n, fuel = n + 1 := ⟨fuel - 1, by omega⟩
  induction h generalizing fuel i with
  | @cls _ id cls hcls hid =>
    rw [hintUpTo_of_find? hid] at hm
    have hsame {i : TypeId} (hfound : t'.find? (.inst (.builtin cls) []) = some i) : i = id :=
      Option.some.inj (hfound.symm.trans (he.find? hid))
    by_cases htuple : cls = .tuple
    · subst htuple
      obtain ⟨ids, rfl, hfound⟩ := hm
      exact hsame hfound
    · rw [TypeData.hint_cls htuple] at hm
      exact hsame hm
  | @generic depth id cls args hcls _ hne _ hid ih =>
    rw [hintUpTo_of_find? hid, TypeData.hint_generic hne] at hm
    obtain ⟨ids, hids, hfound⟩ := hm
    obtain ⟨fuel, rfl⟩ : ∃ n, fuel = n + 1 := ⟨fuel - 1, by omega⟩
    have hsame : ids = args := by
      refine Hint.eq_of_allMean_map (fun arg harg i hi => ?_) hids
      by_cases hellipsis : arg = .ellipsis
      · subst hellipsis
        rw [hintUpTo_ellipsis hbase] at hi
        exact Option.some.inj (hi.symm.trans (find?_ellipsis (hbase.trans he)))
      · exact ih arg harg hellipsis fuel (by omega) hi
    rw [hsame, BuiltinClass.applied_of_ne (by rintro rfl; simp at hcls)] at hfound
    exact Option.some.inj (hfound.symm.trans (he.find? hid))
  | @classObject depth id inner _ hid ih =>
    rw [hintUpTo_of_find? hid] at hm
    obtain ⟨ids, hids, hfound⟩ := hm
    obtain ⟨fuel, rfl⟩ : ∃ n, fuel = n + 1 := ⟨fuel - 1, by omega⟩
    have hsame : ids = [inner] := by
      refine Hint.eq_of_allMean_map (fun arg harg i hi => ?_) hids
      obtain rfl := List.mem_singleton.mp harg
      exact ih fuel (by omega) hi
    rw [hsame] at hfound
    exact Option.some.inj (hfound.symm.trans (he.find? hid))
  | @union depth id members htwo _ _ hsingle hmembers hid ih =>
    obtain ⟨fuel, rfl⟩ : ∃ n, fuel = n + 1 := ⟨fuel - 1, by omega⟩
    rw [hintUpTo_of_find? hid] at hm
    cases members with
    | nil => cases htwo
    | cons first others =>
      have hsingle' (m : TypeId) (hmem : m ∈ first :: others) : t'.members m = [m] := by
        rw [he.members (hmembers m hmem).lt_size, hsingle m hmem]
      have hothers : others ≠ [] := by
        rintro rfl
        simp at htwo
      have hfound := (Hint.members_alternatives hsingle'
        (fun m hmem i hi => ih m hmem fuel (by omega) hi) hm).2 hothers
      exact Option.some.inj (hfound.symm.trans (he.find? hid))

/-- What is written for a type is regular. -/
theorem Writable.regular (h : t.Writable depth id) (hfuel : depth < fuel)
    (hbase : initial.Extends t) : (t.hintUpTo fuel id).Regular t := by
  obtain ⟨fuel, rfl⟩ : ∃ n, fuel = n + 1 := ⟨fuel - 1, by omega⟩
  induction h generalizing fuel with
  | @cls _ id cls hcls hid =>
    rw [hintUpTo_of_find? hid]
    by_cases htuple : cls = .tuple
    · subst htuple
      exact ⟨⟨by decide, by decide, .inl rfl⟩, trivial⟩
    · rw [TypeData.hint_cls htuple]
      trivial
  | @generic depth id cls args hcls harity hne _ hid ih =>
    obtain ⟨fuel, rfl⟩ : ∃ n, fuel = n + 1 := ⟨fuel - 1, by omega⟩
    rw [hintUpTo_of_find? hid, TypeData.hint_generic hne]
    refine ⟨⟨?_, ?_, ?_⟩, Hint.allRegular_iff.mpr fun h hmem => ?_⟩
    · rintro rfl
      simp at hcls
    · rintro rfl
      simp at hcls
    · rw [List.length_map]
      cases hc : cls.arity? with
      | none => exact .inl rfl
      | some count => exact .inr (congrArg some (harity count hc).symm)
    · obtain ⟨arg, harg, rfl⟩ := List.mem_map.mp hmem
      by_cases hellipsis : arg = .ellipsis
      · subst hellipsis
        rw [hintUpTo_ellipsis hbase]
        trivial
      · exact ih arg harg hellipsis fuel (by omega)
  | @classObject depth id inner _ hid ih =>
    obtain ⟨fuel, rfl⟩ : ∃ n, fuel = n + 1 := ⟨fuel - 1, by omega⟩
    rw [hintUpTo_of_find? hid]
    exact ⟨⟨by decide, by decide, .inr rfl⟩, ih fuel (by omega), trivial⟩
  | @union depth id members htwo hfew hnodup hsingle hmembers hid ih =>
    obtain ⟨fuel, rfl⟩ : ∃ n, fuel = n + 1 := ⟨fuel - 1, by omega⟩
    rw [hintUpTo_of_find? hid]
    cases members with
    | nil => cases htwo
    | cons first others =>
      exact Hint.regular_alternatives hsingle (fun m hmem => (hmembers m hmem).lt_size) hnodup hfew
        hbase (fun m hmem => (hmembers m hmem).plain hbase)
        (fun m hmem t' he i hi => (hmembers m hmem).eq_of_means (by omega) hbase he hi)
        fun m hmem => ih m hmem fuel (by omega)

/-- What is written for a type has at most one more bracket around one another than the type has
levels: those of the empty tuple. -/
theorem Writable.nesting_le (h : t.Writable depth id) (hfuel : depth < fuel)
    (hbase : initial.Extends t) : (t.hintUpTo fuel id).nesting ≤ depth + 1 := by
  obtain ⟨fuel, rfl⟩ : ∃ n, fuel = n + 1 := ⟨fuel - 1, by omega⟩
  induction h generalizing fuel with
  | @cls depth id cls hcls hid =>
    rw [hintUpTo_of_find? hid]
    by_cases htuple : cls = .tuple
    · subst htuple
      exact Nat.le_add_left 1 depth
    · rw [TypeData.hint_cls htuple]
      exact Nat.zero_le _
  | @generic depth id cls args _ _ hne _ hid ih =>
    obtain ⟨fuel, rfl⟩ : ∃ n, fuel = n + 1 := ⟨fuel - 1, by omega⟩
    rw [hintUpTo_of_find? hid, TypeData.hint_generic hne]
    apply Nat.succ_le_succ
    apply Hint.nestings_le
    intro h hmem
    obtain ⟨arg, harg, rfl⟩ := List.mem_map.mp hmem
    by_cases hellipsis : arg = .ellipsis
    · subst hellipsis
      rw [hintUpTo_ellipsis hbase]
      exact Nat.zero_le _
    · exact ih arg harg hellipsis fuel (by omega)
  | @classObject depth id inner _ hid ih =>
    obtain ⟨fuel, rfl⟩ : ∃ n, fuel = n + 1 := ⟨fuel - 1, by omega⟩
    rw [hintUpTo_of_find? hid]
    apply Nat.succ_le_succ
    apply Hint.nestings_le
    intro h hmem
    obtain rfl := List.mem_singleton.mp hmem
    exact ih fuel (by omega)
  | @union depth id members htwo _ _ _ hmembers hid ih =>
    obtain ⟨fuel, rfl⟩ : ∃ n, fuel = n + 1 := ⟨fuel - 1, by omega⟩
    rw [hintUpTo_of_find? hid]
    have hle (m : TypeId) (hm : m ∈ members) : (t.hintUpTo (fuel + 1) m).nesting ≤ depth + 1 + 1 :=
      Nat.le_succ_of_le (ih m hm fuel (by omega))
    cases members with
    | nil => exact Nat.zero_le _
    | cons first others =>
      apply Hint.nesting_alternatives (hle first List.mem_cons_self)
      intro h hmem
      obtain ⟨m, hm, rfl⟩ := List.mem_map.mp hmem
      exact hle m (List.mem_cons_of_mem _ hm)

end TypeTable
end LiveCheck
