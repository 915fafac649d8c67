import LiveCheck.Proofs.Discipline
import LiveCheck.Types.Builtins
import LiveCheck.Types.Format
import LiveCheck.Types.Operation
import Mathlib.Algebra.BigOperators.Fin

/-!
# Growing tables of types

A table of types is closed if the types and the signatures in it refer to nothing but types and
signatures in it. Every operation that makes types keeps the table closed, leaves what is in it as it
is, and answers with types of the table. All of this is also said of tables with some slack: a bound
up to which numbers of types may be mentioned that are not in the table.
-/

namespace LiveCheck

/-! ## Numbered entries -/

/-- The entries of the one array have the same numbers in the other. -/
def Keeps {α : Type} (a b : Array α) : Prop := ∀ (n : Nat) (x : α), a[n]? = some x → b[n]? = some x

section

variable {α : Type} {a b c : Array α} {n : Nat} {x : α}

theorem Keeps.refl (a : Array α) : Keeps a a := fun _ _ h => h

private theorem Keeps.trans (h : Keeps a b) (h' : Keeps b c) :
    Keeps a c := fun n x hx => h' n x (h n x hx)

theorem Keeps.size_le (h : Keeps a b) : a.size ≤ b.size := by
  by_contra hlt
  have hlt : b.size < a.size := Nat.lt_of_not_le hlt
  have hlast := h b.size _ (Array.getElem?_eq_getElem hlt)
  simp at hlast

private theorem keeps_push (a : Array α) (x : α) : Keeps a (a.push x) := by
  intro n y hy
  have hlt : n < a.size := (Array.getElem?_eq_some_iff.mp hy).1
  rw [Array.getElem?_push, if_neg (Nat.ne_of_lt hlt), hy]

variable [BEq α] [LawfulBEq α]

/-- An entry has the number of its first occurrence. -/
theorem findIdx?_beq_eq_some_iff :
    a.findIdx? (· == x) = some n ↔ a[n]? = some x ∧ ∀ i < n, a[i]? ≠ some x := by
  rw [Array.findIdx?_eq_some_iff_getElem]
  constructor
  · rintro ⟨hlt, hx, hfirst⟩
    refine ⟨Array.getElem?_eq_some_iff.mpr ⟨hlt, by simpa using hx⟩, fun i hi hxi => ?_⟩
    obtain ⟨hlti, hxi⟩ := Array.getElem?_eq_some_iff.mp hxi
    exact hfirst i hi (by simpa using hxi)
  · rintro ⟨hx, hfirst⟩
    obtain ⟨hlt, hx⟩ := Array.getElem?_eq_some_iff.mp hx
    refine ⟨hlt, by simpa using hx, fun i hi hxi => hfirst i hi ?_⟩
    exact Array.getElem?_eq_some_iff.mpr ⟨Nat.lt_trans hi hlt, by simpa using hxi⟩

private theorem Keeps.findIdx?_beq (h : Keeps a b) (hn : a.findIdx? (· == x) = some n) :
    b.findIdx? (· == x) = some n := by
  obtain ⟨hx, hfirst⟩ := findIdx?_beq_eq_some_iff.mp hn
  refine findIdx?_beq_eq_some_iff.mpr ⟨h n x hx, fun i hi => ?_⟩
  have hlt : i < a.size := Nat.lt_trans hi (Array.getElem?_eq_some_iff.mp hx).1
  have hi' := hfirst i hi
  rw [Array.getElem?_eq_getElem hlt] at hi'
  rwa [h i _ (Array.getElem?_eq_getElem hlt)]

/-- An entry has a number already, or it gets the next one. -/
theorem numberIn_cases (a : Array α) (x : α) :
    (a[((numberIn a x).1 : Nat)]? = some x ∧ (numberIn a x).2 = a) ∨
      (∀ n : Nat, a[n]? ≠ some x) ∧ numberIn a x = (a.size, a.push x) := by
  unfold numberIn
  cases hf : a.findIdx? (· == x) with
  | some n => exact .inl ⟨(findIdx?_beq_eq_some_iff.mp hf).1, rfl⟩
  | none =>
    refine .inr ⟨fun n hx => ?_, rfl⟩
    have hnone := Array.findIdx?_eq_none_iff.mp hf x (Array.mem_of_getElem? hx)
    simp at hnone

theorem keeps_numberIn (a : Array α) (x : α) : Keeps a (numberIn a x).2 := by
  rcases numberIn_cases a x with ⟨-, h⟩ | ⟨-, h⟩
  · rw [h]
    exact .refl a
  · rw [h]
    exact keeps_push a x

/-- An entry is found under the number that it got. -/
theorem findIdx?_numberIn (a : Array α) (x : α) :
    (numberIn a x).2.findIdx? (· == x) = some (numberIn a x).1 := by
  unfold numberIn
  cases hf : a.findIdx? (· == x) with
  | some n => exact hf
  | none =>
    refine findIdx?_beq_eq_some_iff.mpr ⟨Array.getElem?_push_size, fun i hi hx => ?_⟩
    have hlt : i < a.size := hi
    rw [Array.getElem?_push, if_neg (Nat.ne_of_lt hlt)] at hx
    have hnone := Array.findIdx?_eq_none_iff.mp hf x (Array.mem_of_getElem? hx)
    simp at hnone

end

/-! ## Closed tables -/

namespace TypeTable

/-- The numbers of types that may be mentioned: those in the table, and those up to a bound. -/
def extent (slack : Nat) (t : TypeTable) : Nat := max slack t.size

/-- The types and the signatures of the one table mean the same in the other. -/
structure Extends (t t' : TypeTable) : Prop where
  types : Keeps t.types t'.types
  shapes : Keeps t.shapes t'.shapes

/-- The types with fixed numbers and the signatures of functions are in the table, and no member of a
union is a union. -/
structure Proper (t : TypeTable) : Prop where
  base : initial.Extends t
  functions : ∀ id shape, t.get? id = some (.function shape) → shape < t.shapes.size
  flat : ∀ id ids, t.get? id = some (.union ids) → ∀ m ∈ ids, t.members m = [m]

/-- The types with fixed numbers, and all parts of the types and of the signatures in the table, may
be mentioned. Without slack the table is a proper one. -/
structure Closed (slack : Nat) (t : TypeTable) : Prop where
  intrinsics : TypeId.intrinsicCount ≤ t.extent slack
  parts : ∀ id data, t.get? id = some data → ∀ part ∈ data.parts, part < t.extent slack
  signatures : ∀ shape s, t.shape? shape = some s → ∀ part ∈ s.parts, part < t.extent slack
  proper : slack = 0 → t.Proper

theorem Extends.refl (t : TypeTable) : t.Extends t := ⟨.refl _, .refl _⟩

theorem Extends.trans {t t' t'' : TypeTable} (h : t.Extends t') (h' : t'.Extends t'') :
    t.Extends t'' := ⟨h.types.trans h'.types, h.shapes.trans h'.shapes⟩

/-- An entry stays what it is. -/
theorem Extends.get? {t t' : TypeTable} (h : t.Extends t') {id : TypeId} {data : TypeData}
    (hd : t.get? id = some data) : t'.get? id = some data := h.types id data hd

/-- Other entries have other numbers. -/
theorem Extends.ne {t t' : TypeTable} (h : t.Extends t') {id id' : TypeId} {data data' : TypeData}
    (hd : t.get? id = some data) (hd' : t'.get? id' = some data') (hne : data' ≠ data) : id' ≠ id := by
  rintro rfl
  exact hne (Option.some.inj (hd'.symm.trans (h.get? hd)))

/-- A signature that is in the table has the same number in a larger one. -/
theorem Extends.shape? {t t' : TypeTable} (h : t.Extends t') {shape : ShapeId}
    (hlt : shape < t.shapes.size) : t'.shape? shape = t.shape? shape := by
  rw [TypeTable.shape?, TypeTable.shape?, Array.getElem?_eq_getElem hlt]
  exact h.shapes shape _ (Array.getElem?_eq_getElem hlt)

/-- A type with an entry is in the table. -/
theorem lt_size_of_get? {t : TypeTable} {id : TypeId} {data : TypeData}
    (h : t.get? id = some data) : id < t.size := (Array.getElem?_eq_some_iff.mp h).1

/-- A table does not get smaller. -/
theorem Extends.size_le {t t' : TypeTable} (h : t.Extends t') : t.size ≤ t'.size := h.types.size_le

theorem Extends.extent_le {t t' : TypeTable} (h : t.Extends t') (slack : Nat) :
    t.extent slack ≤ t'.extent slack :=
  Nat.max_le.mpr ⟨Nat.le_max_left _ _, Nat.le_trans h.size_le (Nat.le_max_right _ _)⟩

theorem size_le_extent (slack : Nat) (t : TypeTable) : t.size ≤ t.extent slack :=
  Nat.le_max_right _ _

/-- Without slack the types are those of the table. -/
theorem extent_zero (t : TypeTable) : t.extent 0 = t.size := Nat.max_eq_right (Nat.zero_le _)

/-- The types with fixed numbers have no parts. -/
theorem parts_of_get?_initial {id : TypeId} {data : TypeData} (h : initial.get? id = some data) :
    data.parts = [] := by
  have hlt : id < 12 := lt_size_of_get? h
  have hall : ∀ i < 12, ((initial.get? i).all fun d => d.parts.isEmpty) = true := by decide
  have := hall id hlt
  rw [h] at this
  exact List.isEmpty_iff.mp this

/-- The first table is closed. -/
theorem closed_initial (slack : Nat) : initial.Closed slack where
  intrinsics := Nat.le_trans (by decide) (size_le_extent slack initial)
  parts := by
    intro id data h part hp
    rw [parts_of_get?_initial h] at hp
    exact absurd hp List.not_mem_nil
  signatures _ _ h := by cases h
  proper _ := by
    refine ⟨.refl initial, fun id shape h => ?_, fun id ids h m hm => ?_⟩
    · have hall : ∀ i < 12, ∀ d ∈ initial.get? i, d.ctorIdx ≠ (TypeData.function 0).ctorIdx := by
        decide
      exact absurd rfl (hall id (lt_size_of_get? h) (.function shape) h)
    have hnil : ids = [] := parts_of_get?_initial h
    rw [hnil] at hm
    exact absurd hm List.not_mem_nil

end TypeTable

/-- The discipline of tables of types: they are closed and only ever grow. -/
def growth (slack : Nat) : Discipline TypeTable where
  Ok := TypeTable.Closed slack
  size := TypeTable.extent slack
  Step := TypeTable.Extends
  refl := TypeTable.Extends.refl
  trans := TypeTable.Extends.trans

/-- A type that has a fixed number or is one of the first `n`. -/
def TypeId.Known (id : TypeId) (n : Nat) : Prop :=
  id < TypeId.intrinsicCount ∨ id < n

open Discipline TypeId

variable {slack : Nat}

/-- Types of a closed table are below its extent. -/
theorem TypeTable.Closed.lt_extent {t : TypeTable} (ht : t.Closed slack) {id : TypeId}
    (h : id.Known (t.extent slack)) : id < t.extent slack := by
  rcases h with h | h
  · exact Nat.lt_of_lt_of_le h ht.intrinsics
  · exact h

/-- A type that exists goes on to exist. -/
theorem TypeId.lasting_known : Lasting Known := by
  intro id n k hk h
  rcases h with h | h
  · exact .inl h
  · exact .inr (Nat.lt_of_lt_of_le h hk)

theorem Signature.mem_parts_param (s : Signature) {p : Param} (h : p ∈ s.params) :
    p.type ∈ s.parts :=
  List.mem_append_left _ (List.mem_map_of_mem h)

theorem Signature.mem_parts_result (s : Signature) {type : TypeId} (h : type ∈ s.result) :
    type ∈ s.parts :=
  List.mem_append_right _ (Option.mem_toList.mpr h)

/-- The types of the parameters and of the declared result exist. -/
def Signature.Known (s : Signature) (n : Nat) : Prop :=
  (∀ p ∈ s.params, p.type.Known n) ∧ ∀ type ∈ s.result, type.Known n

theorem Signature.Known.later {s : Signature} {n k : Nat} (hs : s.Known n) (hk : n ≤ k) :
    s.Known k :=
  ⟨fun p hp => lasting_known p.type n k hk (hs.1 p hp),
    fun type htype => lasting_known type n k hk (hs.2 type htype)⟩

namespace TypeTable

variable {t : TypeTable} {n k : Nat} {id id' m : TypeId} {ids : List TypeId} {cls : BuiltinClass}

/-! ## Parts of types -/

section

variable (ht : t.Closed slack)
include ht

/-- The parts of an entry exist. -/
theorem Closed.part (hk : t.extent slack ≤ k) {data : TypeData} (h : t.get? id = some data)
    {part : TypeId} (hp : part ∈ data.parts) : part.Known k :=
  .inr (Nat.lt_of_lt_of_le (ht.parts id data h part hp) hk)

/-- The members of a type exist. -/
theorem Closed.members (hk : t.extent slack ≤ k) (hid : id.Known k) :
    each TypeId.Known (t.members id) k := by
  intro m hm
  unfold TypeTable.members at hm
  split at hm
  · next ms h => exact ht.part hk h hm
  · obtain rfl := List.mem_singleton.mp hm
    exact hid

theorem Closed.inner? (hk : t.extent slack ≤ k) (h : t.inner? id = some id') :
    id'.Known k := by
  unfold TypeTable.inner? at h
  split at h
  · next inner hd =>
    obtain rfl := Option.some.inj h
    exact ht.part hk hd (by simp [TypeData.parts])
  · exact nomatch h

theorem Closed.parts? (hk : t.extent slack ≤ k) {cls : ClassKey} (h : t.parts? id = some (cls, ids)) :
    each TypeId.Known ids k := by
  unfold TypeTable.parts? at h
  split at h
  · next hd =>
    obtain ⟨rfl, rfl⟩ := Prod.mk.inj (Option.some.inj h)
    exact fun part hp => ht.part hk hd hp
  · exact nomatch h

theorem Closed.builtinParts? (hk : t.extent slack ≤ k) (h : t.builtinParts? id = some (cls, ids)) :
    each TypeId.Known ids k := by
  unfold TypeTable.builtinParts? at h
  split at h
  · next hd =>
    obtain ⟨rfl, rfl⟩ := Prod.mk.inj (Option.some.inj h)
    exact fun part hp => ht.part hk hd hp
  · exact nomatch h

/-- The types in a signature of the table exist. -/
theorem Closed.signature (hk : t.extent slack ≤ k) {shape : ShapeId} {s : Signature}
    (h : t.shape? shape = some s) : s.Known k := by
  have hpart {part : TypeId} (hp : part ∈ s.parts) : part.Known k :=
    .inr (Nat.lt_of_lt_of_le (ht.signatures shape s h part hp) hk)
  exact ⟨fun p hp => hpart (s.mem_parts_param hp), fun type htype => hpart (s.mem_parts_result htype)⟩

theorem Closed.signature? (hk : t.extent slack ≤ k) {s : Signature} (h : t.signature? id = some s) :
    s.Known k := by
  unfold TypeTable.signature? at h
  split at h
  · exact ht.signature hk h
  · exact nomatch h

end

theorem known_argument (h : each TypeId.Known ids k) (index : Nat) :
    (argument ids index).Known k := by
  unfold argument
  rw [List.getD_eq_getElem?_getD]
  cases hi : ids[index]? with
  | none => exact .inl (by decide)
  | some id => exact h id (List.mem_of_getElem? hi)

/-! ## Making types -/

/-- A type that is in the table has the same members in a larger one. -/
theorem Extends.members {t' : TypeTable} (h : t.Extends t') (hid : id < t.size) :
    t'.members id = t.members id := by
  cases hd : t.get? id with
  | none => exact absurd hid (Nat.not_lt_of_le (Array.getElem?_eq_none_iff.mp hd))
  | some data => rw [TypeTable.members, TypeTable.members, hd, h.get? hd]

/-- The members of a type have no other members than themselves. -/
theorem Proper.members_of_mem (ht : t.Proper) (hm : m ∈ t.members id) :
    t.members m = [m] := by
  cases hd : t.get? id with
  | none =>
    have heq : t.members id = [id] := by rw [TypeTable.members, hd]
    rw [heq] at hm
    rwa [List.mem_singleton.mp hm]
  | some data =>
    cases data with
    | union ids =>
      rw [TypeTable.members, hd] at hm
      exact ht.flat id ids hd m hm
    | _ =>
      have heq : t.members id = [id] := by rw [TypeTable.members, hd]
      rw [heq] at hm
      rwa [List.mem_singleton.mp hm]

/-- The type may be made: if it is a union, then its members are not. -/
def Flat (t : TypeTable) (data : TypeData) : Prop :=
  ∀ ids, data = .union ids → ∀ m ∈ ids, t.members m = [m]

/-- Making a type takes the next number, or none if the type is there. -/
theorem intern_cases (data : TypeData) (t : TypeTable) :
    (t.get? (intern data t).1 = some data ∧ (intern data t).2 = t) ∨
      (∀ id, t.get? id ≠ some data) ∧
        intern data t = (t.size, { t with types := t.types.push data }) := by
  rcases numberIn_cases t.types data with ⟨hd, h⟩ | ⟨hnew, h⟩
  · exact .inl ⟨hd, congrArg (TypeTable.mk · t.shapes) h⟩
  · exact .inr ⟨hnew, by rw [intern, h]; rfl⟩

/-- A request only adds to a table. -/
theorem extends_intern (data : TypeData) (t : TypeTable) : t.Extends (intern data t).2 :=
  ⟨keeps_numberIn t.types data, .refl t.shapes⟩

/-- A type of the table was there before the last one was made, or it is that one. -/
theorem get?_intern_cases {data d : TypeData} (h : (intern data t).2.get? id = some d) :
    t.get? id = some d ∨ id = t.size ∧ d = data ∧ ∀ id, t.get? id ≠ some data := by
  rcases intern_cases data t with ⟨-, heq⟩ | ⟨hnew, heq⟩
  · exact .inl (heq ▸ h)
  · rw [heq, get?, Array.getElem?_push] at h
    split at h
    · next hid => exact .inr ⟨hid, (Option.some.inj h).symm, hnew⟩
    · exact .inl h

/-- The entry may join the table: the signature of a function is there, and the members of a union
are not unions. -/
structure Accepts (t : TypeTable) (slack : Nat) (data : TypeData) : Prop where
  parts : each TypeId.Known data.parts (t.extent slack)
  shape : ∀ shape, data = .function shape → shape < t.shapes.size
  flat : slack = 0 → t.Flat data

private theorem Closed.intern (ht : t.Closed slack) {data : TypeData} (h : t.Accepts slack data) :
    (intern data t).2.Closed slack := by
  have hextends := extends_intern data t
  have hle := hextends.extent_le slack
  refine ⟨Nat.le_trans ht.intrinsics hle, fun id d hd part hp => ?_,
    fun shape s hs part hp => ?_,
    fun h0 => ⟨(ht.proper h0).base.trans hextends, fun id shape hd => ?_, ?_⟩⟩
  · rcases get?_intern_cases hd with hd | ⟨-, rfl, -⟩
    · exact Nat.lt_of_lt_of_le (ht.parts id d hd part hp) hle
    · exact Nat.lt_of_lt_of_le (ht.lt_extent (h.parts part hp)) hle
  · exact Nat.lt_of_lt_of_le (ht.signatures shape s hs part hp) hle
  · rcases get?_intern_cases hd with hd | ⟨-, hd, -⟩
    · exact (ht.proper h0).functions id shape hd
    · exact h.shape shape hd.symm
  · -- Without slack, the members of a union are in the table that the union joins.
    subst h0
    have hsize := extent_zero t
    intro id ids hd m hm
    rcases get?_intern_cases hd with hd | ⟨-, rfl, -⟩
    · rw [hextends.members (hsize ▸ ht.parts id _ hd m hm)]
      exact (ht.proper rfl).flat id ids hd m hm
    · rw [hextends.members (hsize ▸ ht.lt_extent (h.parts m hm))]
      exact h.flat rfl ids rfl m hm

/-- A request answers with a type of this entry. -/
theorem get?_intern (t : TypeTable) (data : TypeData) :
    (intern data t).2.get? (intern data t).1 = some data :=
  (findIdx?_beq_eq_some_iff.mp (findIdx?_numberIn t.types data)).1

theorem outcome_intern (ht : t.Closed slack) {data : TypeData} (h : t.Accepts slack data) :
    (growth slack).Outcome t TypeId.Known (intern data t) :=
  ⟨ht.intern h, extends_intern data t, (extends_intern data t).extent_le slack,
    .inr (Nat.lt_of_lt_of_le (lt_size_of_get? (get?_intern t data)) (size_le_extent slack _))⟩

private theorem sound_intern {data : TypeData} (h : each TypeId.Known data.parts n)
    (hu : ∀ ids, data ≠ .union ids) (hf : ∀ shape, data ≠ .function shape) :
    (growth slack).Sound n (intern data) TypeId.Known :=
  fun _ ht hn => outcome_intern ht ⟨lasting_known.each _ n _ hn h, fun shape he => absurd he (hf shape),
    fun _ ids he => absurd he (hu ids)⟩

theorem sound_builtin (h : each TypeId.Known ids n) :
    (growth slack).Sound n (builtin cls ids) TypeId.Known := sound_intern h nofun nofun

theorem sound_declared (decl : DeclId) (name : String) :
    (growth slack).Sound n (declared decl name) TypeId.Known := sound_intern nofun nofun nofun

theorem known_pair (h : id.Known n) (h' : id'.Known n) : each TypeId.Known [id, id'] n := by
  intro part hp
  simp only [List.mem_cons, List.not_mem_nil, or_false] at hp
  rcases hp with rfl | rfl
  · exact h
  · exact h'

private theorem known_single (h : id.Known n) : each TypeId.Known [id] n := by
  intro part hp
  obtain rfl := List.mem_singleton.mp hp
  exact h

theorem sound_listOf (h : id.Known n) : (growth slack).Sound n (listOf id) TypeId.Known :=
  sound_builtin (known_single h)

theorem sound_setOf (h : id.Known n) : (growth slack).Sound n (setOf id) TypeId.Known :=
  sound_builtin (known_single h)

theorem sound_dictOf (h : id.Known n) (h' : id'.Known n) :
    (growth slack).Sound n (dictOf id id') TypeId.Known := sound_builtin (known_pair h h')

theorem sound_tupleOf (h : each TypeId.Known ids n) :
    (growth slack).Sound n (tupleOf ids) TypeId.Known := sound_builtin h

theorem sound_classObject (h : id.Known n) : (growth slack).Sound n (classObject id) TypeId.Known :=
  sound_intern (known_single h) nofun nofun

theorem sound_boundMethod (h : id.Known n) (h' : id'.Known n) :
    (growth slack).Sound n (boundMethod id id') TypeId.Known :=
  sound_intern (known_pair h h') nofun nofun

theorem sound_moduleObject (file : FileId) (name : String) :
    (growth slack).Sound n (moduleObject file name) TypeId.Known := sound_intern nofun nofun nofun

theorem sound_recursive (decl : DeclId) (name : String) :
    (growth slack).Sound n (recursive decl name) TypeId.Known := sound_intern nofun nofun nofun

/-! ## Signatures -/

theorem extends_internShape (s : Signature) (t : TypeTable) : t.Extends (internShape s t).2 :=
  ⟨.refl t.types, keeps_numberIn t.shapes s⟩

theorem shape?_internShape (t : TypeTable) (s : Signature) :
    (internShape s t).2.shape? (internShape s t).1 = some s :=
  (findIdx?_beq_eq_some_iff.mp (findIdx?_numberIn t.shapes s)).1

theorem lt_size_of_shape? {shape : ShapeId} {s : Signature} (h : t.shape? shape = some s) :
    shape < t.shapes.size := (Array.getElem?_eq_some_iff.mp h).1

private theorem internShape_cases (s : Signature) (t : TypeTable) :
    (t.shape? (internShape s t).1 = some s ∧ (internShape s t).2 = t) ∨
      (∀ shape, t.shape? shape ≠ some s) ∧
        internShape s t = (t.shapes.size, { t with shapes := t.shapes.push s }) := by
  rcases numberIn_cases t.shapes s with ⟨hs, h⟩ | ⟨hnew, h⟩
  · exact .inl ⟨hs, congrArg (TypeTable.mk t.types ·) h⟩
  · exact .inr ⟨hnew, by rw [internShape, h]⟩

/-- A signature of the table was there before the last one was made, or it is that one. -/
theorem shape?_internShape_cases {s r : Signature} {shape : ShapeId}
    (h : (internShape s t).2.shape? shape = some r) :
    t.shape? shape = some r ∨ shape = t.shapes.size ∧ r = s ∧ ∀ shape, t.shape? shape ≠ some s := by
  rcases internShape_cases s t with ⟨-, heq⟩ | ⟨hnew, heq⟩
  · exact .inl (heq ▸ h)
  · rw [heq, shape?, Array.getElem?_push] at h
    split at h
    · next hshape => exact .inr ⟨hshape, (Option.some.inj h).symm, hnew⟩
    · exact .inl h

private theorem Signature.Known.part {s : Signature} (h : s.Known n) {part : TypeId}
    (hp : part ∈ s.parts) :
    part.Known n := by
  rcases List.mem_append.mp hp with hp | hp
  · obtain ⟨p, hmem, rfl⟩ := List.mem_map.mp hp
    exact h.1 p hmem
  · exact h.2 part (Option.mem_toList.mp hp)

private theorem Closed.internShape (ht : t.Closed slack) {s : Signature}
    (h : s.Known (t.extent slack)) :
    (internShape s t).2.Closed slack where
  intrinsics := ht.intrinsics
  parts := ht.parts
  signatures shape r hr part hp := by
    rcases shape?_internShape_cases hr with hr | ⟨-, rfl, -⟩
    · exact ht.signatures shape r hr part hp
    · exact ht.lt_extent (Signature.Known.part h hp)
  proper h0 :=
    have hextends := extends_internShape s t
    ⟨(ht.proper h0).base.trans hextends, fun id shape hd =>
      Nat.lt_of_lt_of_le ((ht.proper h0).functions id shape hd) hextends.shapes.size_le,
      (ht.proper h0).flat⟩

/-- A function type whose parts exist can be made, with its signature. -/
theorem sound_function {s : Signature} (h : s.Known n) :
    (growth slack).Sound n (function s) TypeId.Known := by
  intro t ht hn
  have hextends := extends_internShape s t
  have hshape := lt_size_of_shape? (shape?_internShape t s)
  have hclosed := ht.internShape (h.later hn)
  have haccepts : (TypeTable.internShape s t).2.Accepts slack
      (.function (TypeTable.internShape s t).1) :=
    ⟨nofun, fun shape he => TypeData.function.inj he ▸ hshape, fun _ ids he => nomatch he⟩
  have hmade := outcome_intern hclosed haccepts
  exact ⟨hmade.ok, hextends.trans hmade.step, Nat.le_trans (hextends.extent_le slack) hmade.grows,
    hmade.result⟩

/-! ## Unions -/

private theorem Closed.flatten (ht : t.Closed slack) (hk : t.extent slack ≤ k)
    (h : each TypeId.Known ids k) : each TypeId.Known (t.flatten ids) k := by
  intro id hid
  rw [TypeTable.flatten, List.mem_eraseDups, List.mem_flatMap] at hid
  obtain ⟨a, ha, hm⟩ := hid
  exact ht.members hk (h a (List.mem_filter.mp ha).1) id hm

/-- The union of what is met in some types is flat. -/
theorem Proper.flat_flatten (ht : t.Proper) (ids : List TypeId) :
    t.Flat (.union (t.flatten ids)) := by
  intro ids' he m hm
  obtain rfl := TypeData.union.inj he
  rw [TypeTable.flatten, List.mem_eraseDups, List.mem_flatMap] at hm
  obtain ⟨id, -, hm⟩ := hm
  exact ht.members_of_mem hm

/-- The ways in which the union of some types comes about. -/
inductive UnionCase (t : TypeTable) (ids : List TypeId) : Prop
  | unknown (hmem : .unknown ∈ ids) (heq : union ids t = (.unknown, t))
  | any (hunknown : .unknown ∉ ids) (hmem : .any ∈ ids) (heq : union ids t = (.any, t))
  | none (hunknown : .unknown ∉ ids) (hany : .any ∉ ids) (hflat : t.flatten ids = [])
      (heq : union ids t = (.never, t))
  | one {id : TypeId} (hunknown : .unknown ∉ ids) (hany : .any ∉ ids)
      (hflat : t.flatten ids = [id]) (heq : union ids t = (id, t))
  | many (hunknown : .unknown ∉ ids) (hany : .any ∉ ids) (htwo : 2 ≤ (t.flatten ids).length)
      (hfew : (t.flatten ids).length ≤ Limits.unionMembers)
      (heq : union ids t = intern (.union (t.flatten ids)) t)
  | tooMany (hunknown : .unknown ∉ ids) (hany : .any ∉ ids)
      (hmany : Limits.unionMembers < (t.flatten ids).length) (heq : union ids t = (.unknown, t))

/-- How a union comes about. -/
theorem union_cases (ids : List TypeId) (t : TypeTable) : t.UnionCase ids := by
  by_cases hunknown : .unknown ∈ ids
  · exact .unknown hunknown (if_pos (List.contains_iff_mem.mpr hunknown))
  have hcontains : ¬ ids.contains .unknown = true := fun h => hunknown (List.contains_iff_mem.mp h)
  by_cases hany : .any ∈ ids
  · exact .any hunknown hany (by rw [union, if_neg hcontains, if_pos (List.contains_iff_mem.mpr hany)])
  have hcontains' : ¬ ids.contains .any = true := fun h => hany (List.contains_iff_mem.mp h)
  cases hflat : t.flatten ids with
  | nil => exact .none hunknown hany hflat (by rw [union, if_neg hcontains, if_neg hcontains', hflat])
  | cons first rest =>
    cases rest with
    | nil =>
      exact .one hunknown hany hflat (by rw [union, if_neg hcontains, if_neg hcontains', hflat])
    | cons second rest =>
      by_cases hmany : Limits.unionMembers < (first :: second :: rest).length
      · exact .tooMany hunknown hany (hflat ▸ hmany)
          (by rw [union, if_neg hcontains, if_neg hcontains', hflat]; exact if_pos hmany)
      · exact .many hunknown hany (by simp [hflat]) (hflat ▸ Nat.le_of_not_lt hmany)
          (by rw [union, if_neg hcontains, if_neg hcontains', hflat]; exact if_neg hmany)

/-- A union of types that exist exists. -/
theorem sound_union (h : each TypeId.Known ids n) :
    (growth slack).Sound n (union ids) TypeId.Known := by
  intro t ht hn
  have hlater : each TypeId.Known ids (t.extent slack) := lasting_known.each ids n _ hn h
  have hflatten := ht.flatten (Nat.le_refl _) hlater
  have same {id : TypeId} (h : id.Known (t.extent slack)) :
      (growth slack).Outcome t TypeId.Known (id, t) := ⟨ht, .refl t, Nat.le_refl _, h⟩
  cases union_cases ids t with
  | unknown _ heq | any _ _ heq | none _ _ _ heq | tooMany _ _ _ heq =>
    exact heq ▸ same (.inl (by decide))
  | one _ _ hflat heq => exact heq ▸ same (hflatten _ (by simp [hflat]))
  | many _ _ _ _ heq =>
    exact heq ▸ outcome_intern ht ⟨hflatten, nofun, fun h0 => (ht.proper h0).flat_flatten ids⟩

/-- A type with a fixed number stands for itself in every proper table. -/
theorem Proper.members_intrinsic (ht : t.Proper) (hid : id < TypeId.intrinsicCount) :
    t.members id = [id] := by
  have hall : ∀ i < TypeId.intrinsicCount, initial.members i = [i] := by decide
  rw [ht.base.members hid, hall id hid]

/-- The members of a union of types that are not unions are among these types, or have fixed
numbers. -/
theorem mem_members_union (ht : t.Closed 0) (h : ∀ id ∈ ids, t.members id = [id])
    (hm : m ∈ (union ids t).2.members (union ids t).1) :
    m ∈ ids ∨ m < TypeId.intrinsicCount := by
  have hproper := ht.proper rfl
  have hflatten : ∀ id ∈ t.flatten ids, id ∈ ids ∧ t.members id = [id] := by
    intro id hid
    rw [TypeTable.flatten, List.mem_eraseDups, List.mem_flatMap] at hid
    obtain ⟨a, ha, hid⟩ := hid
    have ha := (List.mem_filter.mp ha).1
    rw [h a ha] at hid
    obtain rfl := List.mem_singleton.mp hid
    exact ⟨ha, h id ha⟩
  have fixed (id : TypeId) (hid : id < TypeId.intrinsicCount) (hm : m ∈ t.members id) :
      m ∈ ids ∨ m < TypeId.intrinsicCount := by
    rw [hproper.members_intrinsic hid] at hm
    rw [List.mem_singleton.mp hm]
    exact .inr hid
  cases union_cases ids t with
  | unknown _ heq | tooMany _ _ _ heq =>
    rw [heq] at hm
    exact fixed .unknown (by decide) hm
  | any _ _ heq =>
    rw [heq] at hm
    exact fixed .any (by decide) hm
  | none _ _ _ heq =>
    rw [heq] at hm
    exact fixed .never (by decide) hm
  | @one id _ _ hflat heq =>
    obtain ⟨hmem, hself⟩ := hflatten id (by simp [hflat])
    rw [heq, hself] at hm
    rw [List.mem_singleton.mp hm]
    exact .inl hmem
  | many _ _ _ _ heq =>
    rw [heq, TypeTable.members, get?_intern] at hm
    exact .inl (hflatten m hm).1

theorem sound_union2 (h : id.Known n) (h' : id'.Known n) :
    (growth slack).Sound n (union2 id id') TypeId.Known := by
  unfold union2
  split
  · exact .pure fun k hk => lasting_known id n k hk h
  · exact sound_union (known_pair h h')

end TypeTable
end LiveCheck

/-!
## Numbers of types last

A type that was made once has the same number whenever it is made again, as long as the table only
grows. So has a union of types that were there, and a type that was there keeps its text.
-/

namespace LiveCheck.TypeTable

variable {t t' : TypeTable} {data : TypeData} {id : TypeId} {ids : List TypeId}
  {f g : TypeId → String}

/-- Every number of the table has an entry. -/
theorem exists_get? (hid : id < t.size) : ∃ data, t.get? id = some data :=
  ⟨t.types[id], Array.getElem?_eq_getElem hid⟩

theorem Closed.part_lt_size (ht : t.Closed 0) (hd : t.get? id = some data) {part : TypeId}
    (hp : part ∈ data.parts) : part < t.size :=
  extent_zero t ▸ ht.parts id data hd part hp

private theorem exists_shape?_of_signature? {s : Signature} (h : t.signature? id = some s) :
    ∃ shape, t.shape? shape = some s := by
  unfold TypeTable.signature? at h
  split at h
  · next shape _ => exact ⟨shape, h⟩
  · exact nomatch h

private theorem Extends.signature? (h : t.Extends t') (ht : t.Closed 0) (hid : id < t.size) :
    t'.signature? id = t.signature? id := by
  obtain ⟨data, hd⟩ := exists_get? hid
  rw [TypeTable.signature?, TypeTable.signature?, hd, h.get? hd]
  cases data with
  | function shape => exact h.shape? ((ht.proper rfl).functions id shape hd)
  | _ => rfl

/-! ## Making types again -/

/-- The number of an entry that is in the table. -/
def find? (t : TypeTable) (data : TypeData) : Option TypeId := t.types.findIdx? (· == data)

/-- The first type with this entry is found. -/
theorem find?_eq_some_iff :
    t.find? data = some id ↔ t.get? id = some data ∧ ∀ i < id, t.get? i ≠ some data :=
  findIdx?_beq_eq_some_iff

/-- What was found is found again. -/
theorem Extends.find? (h : t.Extends t') (hf : t.find? data = some id) :
    t'.find? data = some id := h.types.findIdx?_beq hf

theorem intern_of_find? (hf : t.find? data = some id) : intern data t = (id, t) := by
  have hf : t.types.findIdx? (· == data) = some id := hf
  simp only [intern, numberIn, hf]

theorem find?_intern (t : TypeTable) (data : TypeData) :
    (intern data t).2.find? data = some (intern data t).1 := findIdx?_numberIn t.types data

private theorem intern_again (h : (intern data t).2.Extends t') :
    intern data t' = ((intern data t).1, t') := by
  have hf : t'.types.findIdx? (· == data) = some (intern data t).1 := h.find? (find?_intern t data)
  rw [intern, numberIn, hf]

theorem Extends.flatten (h : t.Extends t') (hids : ∀ id ∈ ids, id < t.size) :
    t'.flatten ids = t.flatten ids := by
  have hmembers : (ids.filter (· != .never)).flatMap t'.members =
      (ids.filter (· != .never)).flatMap t.members :=
    congrArg List.flatten <| List.map_congr_left fun id hid =>
      h.members (hids id (List.mem_filter.mp hid).1)
  rw [TypeTable.flatten, TypeTable.flatten, hmembers]

/-- A union only adds to a table. -/
theorem extends_union (ids : List TypeId) (t : TypeTable) : t.Extends (union ids t).2 := by
  cases union_cases ids t with
  | unknown _ heq | any _ _ heq | none _ _ _ heq | one _ _ _ heq | tooMany _ _ _ heq =>
    exact heq ▸ .refl t
  | many _ _ _ _ heq => exact heq ▸ extends_intern _ t

/-- The union of types that were there is the same when it is made again, and nothing joins the
table. -/
theorem union_again (hids : ∀ id ∈ ids, id < t.size) (h : (union ids t).2.Extends t') :
    union ids t' = ((union ids t).1, t') := by
  have hflatten := ((extends_union ids t).trans h).flatten hids
  unfold union at h ⊢
  rw [hflatten]
  split
  · rfl
  · next hunknown =>
    rw [if_neg hunknown] at h
    split
    · rfl
    · next hany =>
      rw [if_neg hany] at h
      cases hflat : t.flatten ids with
      | nil => rfl
      | cons first rest =>
        cases rest with
        | nil => rfl
        | cons second rest =>
          rw [hflat] at h
          dsimp only at h ⊢
          split
          · rfl
          · next hlength =>
            rw [if_neg hlength] at h
            exact intern_again h

/-! ## Texts -/

private theorem formatInstance_congr (cls : ClassKey) (h : ∀ a ∈ args, f a = g a) :
    formatInstance f cls args = formatInstance g cls args := by
  have hargs : args.map (fun a => if a == TypeId.ellipsis then "..." else f a) =
      args.map fun a => if a == TypeId.ellipsis then "..." else g a :=
    List.map_congr_left fun a ha => by rw [h a ha]
  simp only [formatInstance, hargs]

private theorem Signature.format_congr {s : Signature} (skip : Nat)
    (h : ∀ part ∈ s.parts, f part = g part) :
    s.format f skip = s.format g skip := by
  have hparams : (s.params.drop skip).map (Param.format f) =
      (s.params.drop skip).map (Param.format g) := by
    refine List.map_congr_left fun p hp => ?_
    rw [Param.format, Param.format, h p.type (s.mem_parts_param (List.mem_of_mem_drop hp))]
  have hresult : s.result.elim "Unknown" f = s.result.elim "Unknown" g := by
    cases hr : s.result with
    | none => rfl
    | some type => exact h type (s.mem_parts_result hr)
  rw [Signature.format, Signature.format, hparams, hresult]

private theorem Extends.formatUpTo (h : t.Extends t') (ht : t.Closed 0) (fuel : Nat)
    (hid : id < t.size) : t'.formatUpTo fuel id = t.formatUpTo fuel id := by
  induction fuel generalizing id with
  | zero => rfl
  | succ fuel ih =>
    have hparts {id : TypeId} {data : TypeData} (hd : t.get? id = some data) :
        ∀ part ∈ data.parts, t'.formatUpTo fuel part = t.formatUpTo fuel part :=
      fun part hp => ih (ht.part_lt_size hd hp)
    have hsignature (other : String) (skip : Nat) {s : Option Signature}
        (hs : ∀ r ∈ s, ∃ shape, t.shape? shape = some r) :
        s.elim other (Signature.format (t'.formatUpTo fuel) skip) =
          s.elim other (Signature.format (t.formatUpTo fuel) skip) := by
      cases s with
      | none => rw [Option.elim_none, Option.elim_none]
      | some r =>
        obtain ⟨shape, hshape⟩ := hs r rfl
        exact Signature.format_congr skip fun part hp =>
          ih (extent_zero t ▸ ht.signatures shape r hshape part hp)
    obtain ⟨data, hd⟩ := exists_get? hid
    simp only [TypeTable.formatUpTo, hd, h.get? hd]
    cases data with
    | unknown | never | any | moduleObject | recursive => rfl
    | inst cls args => exact formatInstance_congr cls (hparts hd)
    | classObject inner =>
      exact congrArg (fun text => "type[" ++ text ++ "]") (hparts hd inner List.mem_cons_self)
    | function shape =>
      simp only [h.shape? ((ht.proper rfl).functions id shape hd)]
      exact hsignature "function" 0 fun r hr => ⟨shape, hr⟩
    | boundMethod method receiver =>
      -- A method is written as its function is, so its parts are those of the function.
      have hmethod : method ∈ (TypeData.boundMethod method receiver).parts := List.mem_cons_self
      simp only [h.signature? ht (ht.part_lt_size hd hmethod), hparts hd method hmethod]
      exact hsignature _ 1 fun r hr => exists_shape?_of_signature? hr
    | union members => exact congrArg " | ".intercalate (List.map_congr_left (hparts hd))

theorem Extends.format (h : t.Extends t') (ht : t.Closed 0) (hid : id < t.size) :
    t'.format id = t.format id :=
  h.formatUpTo ht Limits.formatting hid

end LiveCheck.TypeTable

/-!
## What a type refers to

The walk over the types that a type refers to takes each of them up once, and puts the parts of each
on its stack once. So there is fuel for all of them, and the walk leaves nothing out.
-/

namespace LiveCheck

/-- A count that goes over an array adds up what its elements count for. -/
theorem foldl_add_eq_sum {α : Type} (a : Array α) (f : α → Nat) (g : Nat → Nat)
    (hg : ∀ i (h : i < a.size), g i = f a[i]) :
    a.foldl (fun n x => n + f x) 0 = ∑ i ∈ Finset.range a.size, g i := by
  calc a.foldl (fun n x => n + f x) 0 = (a.toList.map f).sum := by
        rw [← Array.foldl_toList, List.sum_eq_foldl, List.foldl_map]
    _ = ∑ i : Fin a.toList.length, f a.toList[i] := (Fin.sum_univ_fun_getElem _ f).symm
    _ = ∑ i : Fin a.toList.length, g i :=
        Finset.sum_congr rfl fun i _ => (hg i (by simp)).symm
    _ = ∑ i ∈ Finset.range a.size, g i := by
        rw [← Array.length_toList]
        exact (Finset.sum_range g).symm

namespace TypeTable

variable {t t' : TypeTable} {parts : TypeData → List TypeId} {id part : TypeId}
  {stack seen : List TypeId} {fuel : Nat}

/-- The types that a type refers to directly. -/
def edgesOf (t : TypeTable) (parts : TypeData → List TypeId) (id : TypeId) : List TypeId :=
  (t.get? id).elim [] parts

/-- A type refers to another, directly or by way of others. -/
def Reaches (t : TypeTable) (parts : TypeData → List TypeId) : TypeId → TypeId → Prop :=
  Relation.ReflTransGen fun id part => part ∈ t.edgesOf parts id

private def openEdges (t : TypeTable) (parts : TypeData → List TypeId) (seen : List TypeId) : Nat :=
  ∑ id ∈ Finset.range t.size \ seen.toFinset, (t.edgesOf parts id).length

private theorem openEdges_nil : t.openEdges parts [] = t.edges parts := by
  rw [openEdges, List.toFinset_nil, Finset.sdiff_empty, edges]
  refine (foldl_add_eq_sum t.types _ _ fun id hid => ?_).symm
  rw [edgesOf, get?, Array.getElem?_eq_getElem hid, Option.elim_some]

private theorem openEdges_cons (parts : TypeData → List TypeId) (hid : id ∉ seen) :
    (t.edgesOf parts id).length + t.openEdges parts (id :: seen) = t.openEdges parts seen := by
  unfold openEdges
  rw [List.toFinset_cons, Finset.sdiff_insert]
  by_cases hlt : id < t.size
  · have hmem : id ∈ Finset.range t.size \ seen.toFinset := by
      rw [Finset.mem_sdiff, Finset.mem_range, List.mem_toFinset]
      exact ⟨hlt, hid⟩
    exact Finset.add_sum_erase _ (fun id => (t.edgesOf parts id).length) hmem
  · have hnone : t.get? id = none := Array.getElem?_eq_none (Nat.le_of_not_lt hlt)
    have hmem : id ∉ Finset.range t.size \ seen.toFinset := by
      rw [Finset.mem_sdiff, Finset.mem_range]
      exact fun h => hlt h.1
    rw [Finset.erase_eq_of_notMem hmem, edgesOf, hnone, Option.elim_none, List.length_nil,
      Nat.zero_add]

private theorem closed_reverse {edges : TypeId → List TypeId}
    (hseen : ∀ id ∈ seen, ∀ part ∈ edges id, part ∈ seen ∨ part ∈ []) :
    (∀ id, id ∈ seen ∨ id ∈ [] → id ∈ seen.reverse) ∧
      ∀ id ∈ seen.reverse, ∀ part ∈ edges id, part ∈ seen.reverse := by
  simp only [List.not_mem_nil, or_false, List.mem_reverse] at hseen ⊢
  exact ⟨fun _ h => h, hseen⟩

private theorem mem_or_of_seen (hid : id ∈ seen) (h : part ∈ seen ∨ part ∈ id :: stack) :
    part ∈ seen ∨ part ∈ stack := by
  rcases h with h | h
  · exact .inl h
  · rcases List.mem_cons.mp h with rfl | h
    · exact .inl hid
    · exact .inr h

private theorem mem_or_of_taken (more : List TypeId) (h : part ∈ seen ∨ part ∈ id :: stack) :
    part ∈ id :: seen ∨ part ∈ more ++ stack := by
  rcases h with h | h
  · exact .inl (.tail _ h)
  · rcases List.mem_cons.mp h with rfl | h
    · exact .inl (.head _)
    · exact .inr (List.mem_append_right _ h)

private theorem closed_reachUpTo (hfuel : stack.length + t.openEdges parts seen ≤ fuel)
    (hseen : ∀ id ∈ seen, ∀ part ∈ t.edgesOf parts id, part ∈ seen ∨ part ∈ stack) :
    (∀ id, id ∈ seen ∨ id ∈ stack → id ∈ t.reachUpTo parts fuel stack seen) ∧
      ∀ id ∈ t.reachUpTo parts fuel stack seen, ∀ part ∈ t.edgesOf parts id,
        part ∈ t.reachUpTo parts fuel stack seen := by
  induction fuel generalizing stack seen with
  | zero =>
    obtain rfl : stack = [] := List.eq_nil_of_length_eq_zero (by omega)
    exact closed_reverse hseen
  | succ fuel ih =>
    cases stack with
    | nil => exact closed_reverse hseen
    | cons id stack =>
      rw [List.length_cons] at hfuel
      rw [reachUpTo]
      split
      · next hcontains =>
        have hid : id ∈ seen := List.contains_iff_mem.mp hcontains
        obtain ⟨hfound, hclosed⟩ := ih (by omega) fun i hi part hpart =>
          mem_or_of_seen hid (hseen i hi part hpart)
        exact ⟨fun i hi => hfound i (mem_or_of_seen hid hi), hclosed⟩
      · next hcontains =>
        have hid : id ∉ seen := fun hmem => hcontains (List.contains_iff_mem.mpr hmem)
        have hedges := t.openEdges_cons parts hid
        have hroom : ((t.edgesOf parts id).reverse ++ stack).length +
            t.openEdges parts (id :: seen) ≤ fuel := by
          rw [List.length_append, List.length_reverse]
          omega
        obtain ⟨hfound, hclosed⟩ := ih hroom fun i hi part hpart => by
          rcases List.mem_cons.mp hi with rfl | hi
          · exact .inr (List.mem_append_left _ (List.mem_reverse.mpr hpart))
          · exact mem_or_of_taken _ (hseen i hi part hpart)
        exact ⟨fun i hi => hfound i (mem_or_of_taken _ hi), hclosed⟩

private theorem mem_reach (h : t.Reaches parts id part) : part ∈ t.reach parts id := by
  obtain ⟨hfound, hclosed⟩ : (∀ i, i ∈ [] ∨ i ∈ [id] → i ∈ t.reach parts id) ∧
      ∀ i ∈ t.reach parts id, ∀ part ∈ t.edgesOf parts i, part ∈ t.reach parts id := by
    refine closed_reachUpTo ?_ (List.forall_mem_nil _)
    rw [openEdges_nil, List.length_singleton, Nat.add_comm]
  induction h with
  | refl => exact hfound id (.inr (.head _))
  | tail _ hpart ih => exact hclosed _ ih _ hpart

/-- The declared classes of all types whose values a value may hold are found. -/
theorem mem_declaredClasses {cls : DeclaredClass} (h : t.Reaches TypeData.valueParts id part)
    (hpart : t.get? part = some (.inst (.declared cls) args)) :
    cls ∈ t.declaredClasses id := by
  rw [declaredClasses, List.mem_eraseDups, List.mem_filterMap]
  exact ⟨part, mem_reach h, by rw [declaredClass?, hpart]⟩

/-! ### While the table grows -/

theorem valueParts_subset (data : TypeData) : data.valueParts ⊆ data.parts := by
  cases data with
  | boundMethod method receiver => exact List.subset_cons_self _ _
  | _ => exact List.Subset.refl _

/-- An entry refers to the types that it names. -/
theorem parts_subset_partsOf (t : TypeTable) (data : TypeData) : data.parts ⊆ t.partsOf data := by
  cases data with
  | function => exact List.nil_subset _
  | _ => exact List.Subset.refl _

theorem partsOf_of_ne_function {data : TypeData} (h : ∀ shape, data ≠ .function shape) :
    t.partsOf data = data.parts := by
  cases data with
  | function shape => exact absurd rfl (h shape)
  | _ => rfl

/-- The types with fixed numbers refer to no types. -/
theorem partsOf_of_get?_initial {data : TypeData} (h : initial.get? id = some data) :
    initial.partsOf data = [] := by
  rw [partsOf_of_ne_function fun shape he => ?_, parts_of_get?_initial h]
  exact Nat.not_lt_zero _ (((closed_initial 0).proper rfl).functions id shape (he ▸ h))

/-- An entry of a closed table refers to the same types when the table has grown. -/
theorem Extends.partsOf (he : t.Extends t') (ht : t.Closed 0) {data : TypeData}
    (hd : t.get? id = some data) : t'.partsOf data = t.partsOf data := by
  cases data with
  | function shape =>
    rw [TypeTable.partsOf, TypeTable.partsOf, he.shape? ((ht.proper rfl).functions id shape hd)]
  | _ => rfl

/-- The types that an entry of a closed table refers to are in the table. -/
theorem Closed.partsOf_lt_size (ht : t.Closed 0) {data : TypeData} (hd : t.get? id = some data)
    (hp : part ∈ t.partsOf data) : part < t.size := by
  cases data with
  | function shape =>
    rw [TypeTable.partsOf] at hp
    cases hs : t.shape? shape with
    | none =>
      rw [hs] at hp
      exact absurd hp List.not_mem_nil
    | some s =>
      rw [hs] at hp
      exact extent_zero t ▸ ht.signatures shape s hs part hp
  | _ => exact ht.part_lt_size hd hp

/-- A type refers to the same types when the table has grown, where this holds of its entries. -/
theorem Reaches.earlier {parts' : TypeData → List TypeId} (he : t.Extends t')
    (hsame : ∀ id data, t.get? id = some data →
      parts' data = parts data ∧ ∀ part ∈ parts data, part < t.size)
    (hid : id < t.size) (h : t'.Reaches parts' id part) : t.Reaches parts id part ∧ part < t.size := by
  induction h with
  | refl => exact ⟨.refl, hid⟩
  | @tail mid part _ hpart ih =>
    obtain ⟨hreaches, hmid⟩ := ih
    obtain ⟨data, hdata⟩ := exists_get? hmid
    obtain ⟨hparts, hlt⟩ := hsame mid data hdata
    rw [edgesOf, he.get? hdata, Option.elim_some, hparts] at hpart
    refine ⟨hreaches.tail ?_, hlt part hpart⟩
    rwa [edgesOf, hdata, Option.elim_some]

/-- What a type refers to, it refers to when the table has grown. -/
theorem Reaches.later {parts' : TypeData → List TypeId} (he : t.Extends t')
    (hsame : ∀ id data, t.get? id = some data → parts' data = parts data)
    (h : t.Reaches parts id part) : t'.Reaches parts' id part := by
  induction h with
  | refl => exact .refl
  | @tail mid part _ hpart ih =>
    refine ih.tail ?_
    unfold edgesOf at hpart ⊢
    cases hd : t.get? mid with
    | none =>
      rw [hd] at hpart
      exact absurd hpart List.not_mem_nil
    | some data =>
      rw [hd, Option.elim_some] at hpart
      rwa [he.get? hd, Option.elim_some, hsame mid data hd]

end TypeTable
end LiveCheck
