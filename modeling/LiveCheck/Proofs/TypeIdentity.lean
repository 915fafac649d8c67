import LiveCheck.Proofs.Types.Growth

/-!
# The identity of types

A type is a number, and to compare types is to compare numbers. Written out in full, with the parts
in the places of their numbers, a type is a tree. A table in which parts have smaller numbers than
what they are parts of, and in which no entry occurs twice, has one number for each tree. Whatever
is asked of a table, it stays one of these: a request takes the next number or none, and no number
ever gets another meaning.
-/

namespace LiveCheck

/-! ## Trees -/

/-- A type with all its parts in full. -/
inductive TypeTree
  | unknown
  | never
  | any
  | inst (cls : ClassKey) (args : List TypeTree)
  | classObject (inner : TypeTree)
  | function (name : String) (params : List (String × ParamKind × TypeTree × Bool))
      (result : Option TypeTree) (decl : Option DeclId)
  | boundMethod (method receiver : TypeTree)
  | union (members : List TypeTree)
  | moduleObject (file : FileId) (name : String)
  | recursive (decl : DeclId) (name : String)
  /-- The place of a type that is not in the table. -/
  | missing

/-- The tree of a function, where `f` gives the trees of the types in its signature. -/
def Signature.tree (f : TypeId → TypeTree) (s : Signature) : TypeTree :=
  .function s.name (s.params.map fun p => (p.name, p.kind, f p.type, p.hasDefault)) (s.result.map f)
    s.decl

namespace TypeTable

/-- The tree of an entry, where `f` gives the trees of its parts. -/
def treeOf (t : TypeTable) (f : TypeId → TypeTree) : TypeData → TypeTree
  | .unknown => .unknown
  | .never => .never
  | .any => .any
  | .inst cls args => .inst cls (args.map f)
  | .classObject inner => .classObject (f inner)
  | .function shape => (t.shape? shape).elim .missing (Signature.tree f)
  | .boundMethod method receiver => .boundMethod (f method) (f receiver)
  | .union members => .union (members.map f)
  | .moduleObject file name => .moduleObject file name
  | .recursive decl name => .recursive decl name

/-- The tree of a type. A part stands in front of what it is a part of; any other number counts as
missing. -/
def unfold (t : TypeTable) (id : TypeId) : TypeTree :=
  match t.get? id with
  | some data => t.treeOf (fun part => if part < id then t.unfold part else .missing) data
  | none => .missing
termination_by id

/-- The tree of the functions with a signature. -/
def unfoldShape (t : TypeTable) (shape : ShapeId) : TypeTree :=
  (t.shape? shape).elim .missing (Signature.tree t.unfold)

end TypeTable

private theorem eq_of_map_eq {α β : Type} {f g : α → β} {xs ys : List α}
    (h : ∀ x ∈ xs, ∀ y ∈ ys, f x = g y → x = y) (he : xs.map f = ys.map g) : xs = ys := by
  induction xs generalizing ys with
  | nil => exact (List.map_eq_nil_iff.mp he.symm).symm
  | cons x xs ih =>
    cases ys with
    | nil => cases he
    | cons y ys =>
      rw [List.map_cons, List.map_cons, List.cons.injEq] at he
      rw [h x List.mem_cons_self y List.mem_cons_self he.1]
      rw [ih (fun a ha b hb => h a (List.mem_cons_of_mem x ha) b (List.mem_cons_of_mem y hb)) he.2]

namespace Signature

variable {f g : TypeId → TypeTree} {s s' : Signature}

private theorem tree_congr (h : ∀ part ∈ s.parts, f part = g part) : s.tree f = s.tree g := by
  have hparams : s.params.map (fun p => (p.name, p.kind, f p.type, p.hasDefault)) =
      s.params.map fun p => (p.name, p.kind, g p.type, p.hasDefault) :=
    List.map_congr_left fun p hp => by rw [h p.type (s.mem_parts_param hp)]
  have hresult : s.result.map f = s.result.map g := by
    cases hr : s.result with
    | none => rfl
    | some type => exact congrArg some (h type (s.mem_parts_result hr))
  rw [tree, tree, hparams, hresult]

private theorem eq_of_tree_eq
    (h : ∀ part ∈ s.parts, ∀ part' ∈ s'.parts, f part = g part' → part = part')
    (he : s.tree f = s'.tree g) : s = s' := by
  obtain ⟨hname, hparams, hresult, hdecl⟩ := TypeTree.function.inj he
  have hparams : s.params = s'.params := by
    refine eq_of_map_eq (fun p hp p' hp' hsame => ?_) hparams
    simp only [Prod.mk.injEq] at hsame
    obtain ⟨hname, hkind, htype, hdefault⟩ := hsame
    have htype := h p.type (s.mem_parts_param hp) p'.type (s'.mem_parts_param hp') htype
    cases p
    cases p'
    simp_all
  have hresult : s.result = s'.result := by
    cases hr : s.result <;> cases hr' : s'.result <;>
      simp only [hr, hr', Option.map_some, Option.map_none, reduceCtorEq, Option.some.injEq] at hresult
    case none.none => rfl
    case some.some type type' =>
      rw [h type (s.mem_parts_result hr) type' (s'.mem_parts_result hr') hresult]
  cases s
  cases s'
  simp_all

end Signature

namespace TypeTable

variable {t : TypeTable} {id id' : TypeId} {shape shape' : ShapeId} {data data' : TypeData}
  {s s' : Signature} {ids : List TypeId} {f g : TypeId → TypeTree}

private theorem treeOf_congr (h : ∀ part ∈ t.partsOf data, f part = g part) :
    t.treeOf f data = t.treeOf g data := by
  cases data with
  | unknown | never | any | moduleObject | recursive => rfl
  | inst cls args => exact congrArg (TypeTree.inst cls) (List.map_congr_left h)
  | classObject inner => exact congrArg TypeTree.classObject (h inner List.mem_cons_self)
  | union members => exact congrArg TypeTree.union (List.map_congr_left h)
  | boundMethod method receiver =>
    rw [treeOf, treeOf, h method List.mem_cons_self, h receiver (.tail _ List.mem_cons_self)]
  | function shape =>
    rw [partsOf] at h
    rw [treeOf, treeOf]
    cases hs : t.shape? shape with
    | none => rfl
    | some s =>
      rw [hs] at h
      exact Signature.tree_congr h

/-! ## Tables with one number for each tree -/

/-- Parts have smaller numbers than what they are parts of, what a signature mentions is there, and
nothing has two numbers. -/
structure Identifying (t : TypeTable) : Prop where
  ordered : ∀ id data, t.get? id = some data → ∀ part ∈ t.partsOf data, part < id
  functions : ∀ id shape, t.get? id = some (.function shape) → shape < t.shapes.size
  signatures : ∀ shape s, t.shape? shape = some s → ∀ part ∈ s.parts, part < t.size
  distinct : ∀ id id' data, t.get? id = some data → t.get? id' = some data → id = id'
  distinctShapes : ∀ shape shape' s, t.shape? shape = some s → t.shape? shape' = some s →
    shape = shape'

private theorem exists_shape? (h : shape < t.shapes.size) : ∃ s, t.shape? shape = some s :=
  ⟨t.shapes[shape], Array.getElem?_eq_getElem h⟩

private theorem eq_of_treeOf_eq_of_plain (hf : ∀ shape, data ≠ .function shape)
    (hf' : ∀ shape, data' ≠ .function shape)
    (h : ∀ part ∈ t.partsOf data, ∀ part' ∈ t.partsOf data', f part = g part' → part = part')
    (he : t.treeOf f data = t.treeOf g data') : data = data' := by
  cases data <;> cases data' <;> (try exact absurd rfl (hf _)) <;> (try exact absurd rfl (hf' _)) <;>
    simp only [treeOf, reduceCtorEq, TypeTree.inst.injEq, TypeTree.classObject.injEq,
      TypeTree.boundMethod.injEq, TypeTree.union.injEq, TypeTree.moduleObject.injEq,
      TypeTree.recursive.injEq] at he
  case unknown | never | any => rfl
  case inst.inst cls args cls' args' =>
    have hargs : args = args' := eq_of_map_eq h he.2
    rw [he.1, hargs]
  case classObject.classObject inner inner' =>
    rw [h inner List.mem_cons_self inner' List.mem_cons_self he]
  case boundMethod.boundMethod method receiver method' receiver' =>
    rw [h method List.mem_cons_self method' List.mem_cons_self he.1,
      h receiver (.tail _ List.mem_cons_self) receiver' (.tail _ List.mem_cons_self) he.2]
  case union.union members members' =>
    have hmembers : members = members' := eq_of_map_eq h he
    rw [hmembers]
  case moduleObject.moduleObject => rw [he.1, he.2]
  case recursive.recursive => rw [he.1, he.2]

private theorem Identifying.eq_of_treeOf_eq (ht : t.Identifying) (hd : t.get? id = some data)
    (hd' : t.get? id' = some data')
    (h : ∀ part ∈ t.partsOf data, ∀ part' ∈ t.partsOf data', f part = g part' → part = part')
    (he : t.treeOf f data = t.treeOf g data') : data = data' := by
  -- The signature of a function is there, so its tree is that of a function.
  have hshape {id shape : Nat} (hd : t.get? id = some (.function shape)) :
      ∃ s, t.shape? shape = some s ∧ t.partsOf (.function shape) = s.parts ∧
        ∀ f, t.treeOf f (.function shape) = s.tree f := by
    obtain ⟨s, hs⟩ := exists_shape? (ht.functions id shape hd)
    exact ⟨s, hs, by rw [partsOf, hs, Option.elim_some],
      fun f => by rw [treeOf, hs, Option.elim_some]⟩
  by_cases hf : ∃ shape, data = .function shape
  · obtain ⟨shape, rfl⟩ := hf
    obtain ⟨s, hs, hparts, htree⟩ := hshape hd
    rw [htree] at he
    cases data' with
    | function shape' =>
      obtain ⟨s', hs', hparts', htree'⟩ := hshape hd'
      rw [htree'] at he
      rw [hparts, hparts'] at h
      obtain rfl := Signature.eq_of_tree_eq h he
      rw [ht.distinctShapes shape shape' s hs hs']
    | _ => cases he
  · by_cases hf' : ∃ shape, data' = .function shape
    · obtain ⟨shape, rfl⟩ := hf'
      obtain ⟨s, -, -, htree⟩ := hshape hd'
      rw [htree] at he
      cases data with
      | function shape' => exact absurd ⟨shape', rfl⟩ hf
      | _ => cases he
    · exact eq_of_treeOf_eq_of_plain (fun shape hs => hf ⟨shape, hs⟩) (fun shape hs => hf' ⟨shape, hs⟩)
        h he

private theorem Identifying.unfold_eq (ht : t.Identifying) (hd : t.get? id = some data) :
    t.unfold id = t.treeOf t.unfold data := by
  rw [unfold, hd]
  exact treeOf_congr fun part hp => if_pos (ht.ordered id data hd part hp)

private theorem Identifying.unfold_inj (ht : t.Identifying) (hid : id < t.size)
    (hid' : id' < t.size)
    (he : t.unfold id = t.unfold id') : id = id' := by
  induction id using Nat.strongRecOn generalizing id' with
  | ind id ih =>
    obtain ⟨data, hd⟩ := exists_get? hid
    obtain ⟨data', hd'⟩ := exists_get? hid'
    rw [ht.unfold_eq hd, ht.unfold_eq hd'] at he
    have hsame : data = data' := by
      refine ht.eq_of_treeOf_eq hd hd' (fun part hp part' hp' hpart => ?_) he
      have hlt := ht.ordered id data hd part hp
      have hlt' := ht.ordered id' data' hd' part' hp'
      exact ih part hlt (Nat.lt_trans hlt hid) (Nat.lt_trans hlt' hid') hpart
    exact ht.distinct id id' data hd (hsame ▸ hd')

private theorem Identifying.unfoldShape_inj (ht : t.Identifying) (hshape : shape < t.shapes.size)
    (hshape' : shape' < t.shapes.size) (he : t.unfoldShape shape = t.unfoldShape shape') :
    shape = shape' := by
  obtain ⟨s, hs⟩ := exists_shape? hshape
  obtain ⟨s', hs'⟩ := exists_shape? hshape'
  rw [unfoldShape, unfoldShape, hs, hs', Option.elim_some, Option.elim_some] at he
  have hsame : s = s' := Signature.eq_of_tree_eq (fun part hp part' hp' =>
    ht.unfold_inj (ht.signatures shape s hs part hp) (ht.signatures shape' s' hs' part' hp')) he
  exact ht.distinctShapes shape shape' s hs (hsame ▸ hs')

theorem identifying_initial : initial.Identifying where
  ordered id data hd part hp := by
    rw [partsOf_of_get?_initial hd] at hp
    exact absurd hp List.not_mem_nil
  functions := ((closed_initial 0).proper rfl).functions
  signatures _ _ h := nomatch h
  distinct := by
    have hnodup : intrinsics.Nodup := by decide
    intro id id' data hd hd'
    have hd : intrinsics[id]? = some data := by simpa [initial, get?] using hd
    have hd' : intrinsics[id']? = some data := by simpa [initial, get?] using hd'
    have hlt := (List.getElem?_eq_some_iff.mp hd).1
    exact (List.getElem?_inj hlt hnodup).mp (hd.trans hd'.symm)
  distinctShapes _ _ _ h := nomatch h

theorem Identifying.intern (ht : t.Identifying) (hparts : ∀ part ∈ t.partsOf data, part < t.size)
    (hshape : ∀ shape, data = .function shape → shape < t.shapes.size) :
    (intern data t).2.Identifying := by
  have hextends := extends_intern data t
  refine ⟨fun id d hd part hp => ?_, fun id shape hd => ?_, fun shape s hs part hp => ?_,
    fun id id' d hd hd' => ?_, ht.distinctShapes⟩
  · have hp : part ∈ t.partsOf d := hp
    rcases get?_intern_cases hd with hd | ⟨rfl, rfl, -⟩
    · exact ht.ordered id d hd part hp
    · exact hparts part hp
  · rcases get?_intern_cases hd with hd | ⟨-, hd, -⟩
    · exact ht.functions id shape hd
    · exact hshape shape hd.symm
  · exact Nat.lt_of_lt_of_le (ht.signatures shape s hs part hp) hextends.size_le
  · rcases get?_intern_cases hd with hold | ⟨hid, he, hnew⟩ <;>
      rcases get?_intern_cases hd' with hold' | ⟨hid', he', hnew'⟩
    · exact ht.distinct id id' d hold hold'
    · exact absurd (he' ▸ hold) (hnew' id)
    · exact absurd (he ▸ hold') (hnew id')
    · rw [hid, hid']

theorem Identifying.internShape (ht : t.Identifying) (hparts : ∀ part ∈ s.parts, part < t.size) :
    (internShape s t).2.Identifying := by
  refine ⟨fun id d hd part hp => ht.ordered id d hd part ?_, fun id shape hd => ?_,
    fun shape r hr part hp => ?_, ht.distinct, fun shape shape' r hr hr' => ?_⟩
  · cases d with
    | function shape =>
      rw [partsOf, (extends_internShape s t).shape? (ht.functions id shape hd)] at hp
      exact hp
    | _ => exact hp
  · exact Nat.lt_of_lt_of_le (ht.functions id shape hd) (extends_internShape s t).shapes.size_le
  · rcases shape?_internShape_cases hr with hr | ⟨-, rfl, -⟩
    · exact ht.signatures shape r hr part hp
    · exact hparts part hp
  · rcases shape?_internShape_cases hr with hold | ⟨hshape, he, hnew⟩ <;>
      rcases shape?_internShape_cases hr' with hold' | ⟨hshape', he', hnew'⟩
    · exact ht.distinctShapes shape shape' r hold hold'
    · exact absurd (he' ▸ hold) (hnew' shape)
    · exact absurd (he ▸ hold') (hnew shape')
    · rw [hshape, hshape']

/-- The members of types of the table are types of the table. -/
theorem Identifying.lt_of_mem_flatten (ht : t.Identifying) (hids : ∀ id ∈ ids, id < t.size)
    {m : TypeId} (hm : m ∈ t.flatten ids) : m < t.size := by
  rw [flatten, List.mem_eraseDups, List.mem_flatMap] at hm
  obtain ⟨id, hid, hm⟩ := hm
  have hlt := hids id (List.mem_filter.mp hid).1
  unfold members at hm
  split at hm
  · next ms hd => exact Nat.lt_trans (ht.ordered id _ hd m hm) hlt
  · exact List.mem_singleton.mp hm ▸ hlt

end TypeTable

/-! ## Requests -/

/-- What can be asked of a table. -/
inductive TypeRequest
  | internShape (signature : Signature)
  | intern (data : TypeData)
  | instanceOf (cls : ClassKey) (args : List TypeId)
  | builtin (cls : BuiltinClass) (args : List TypeId)
  | declared (decl : DeclId) (name : String)
  | listOf (element : TypeId)
  | setOf (element : TypeId)
  | dictOf (key value : TypeId)
  | tupleOf (elements : List TypeId)
  | classObject (inner : TypeId)
  | function (signature : Signature)
  | boundMethod (method receiver : TypeId)
  | moduleObject (file : FileId) (name : String)
  | recursive (decl : DeclId) (name : String)
  | union (ids : List TypeId)
  | union2 (a b : TypeId)
deriving Repr, DecidableEq

namespace TypeRequest

/-- The answer to a request, with the table behind it: the number of a type or of a signature. -/
def run : TypeRequest → TypeM Nat
  | internShape signature => TypeTable.internShape signature
  | intern data => TypeTable.intern data
  | instanceOf cls args => TypeTable.instanceOf cls args
  | builtin cls args => TypeTable.builtin cls args
  | declared decl name => TypeTable.declared decl name
  | listOf element => TypeTable.listOf element
  | setOf element => TypeTable.setOf element
  | dictOf key value => TypeTable.dictOf key value
  | tupleOf elements => TypeTable.tupleOf elements
  | classObject inner => TypeTable.classObject inner
  | function signature => TypeTable.function signature
  | boundMethod method receiver => TypeTable.boundMethod method receiver
  | moduleObject file name => TypeTable.moduleObject file name
  | recursive decl name => TypeTable.recursive decl name
  | union ids => TypeTable.union ids
  | union2 a b => TypeTable.union2 a b

/-- The entry that is asked for. What a union is depends on its members, and a function has the
number that its signature gets. -/
def entry? : TypeRequest → Option TypeData
  | intern data => some data
  | instanceOf cls args => some (.inst cls args)
  | builtin cls args => some (.inst (.builtin cls) args)
  | declared decl name => some (.inst (.declared ⟨decl, name⟩) [])
  | listOf element => some (.inst (.builtin .list) [element])
  | setOf element => some (.inst (.builtin .set) [element])
  | dictOf key value => some (.inst (.builtin .dict) [key, value])
  | tupleOf elements => some (.inst (.builtin .tuple) elements)
  | classObject inner => some (.classObject inner)
  | boundMethod method receiver => some (.boundMethod method receiver)
  | moduleObject file name => some (.moduleObject file name)
  | recursive decl name => some (.recursive decl name)
  | internShape _ | function _ | union _ | union2 _ _ => none

/-- The types that a request mentions. -/
def mentions : TypeRequest → List TypeId
  | internShape signature | function signature => signature.parts
  | union ids => ids
  | union2 a b => [a, b]
  | request => request.entry?.elim [] TypeData.parts

/-- The signatures that a request mentions by number. -/
def shapes : TypeRequest → List ShapeId
  | intern (.function shape) => [shape]
  | _ => []

/-- Every request with an entry makes the type of this entry. -/
theorem run_of_entry? {request : TypeRequest} {data : TypeData} (h : request.entry? = some data) :
    request.run = TypeTable.intern data ∧ request.mentions = data.parts ∧
      ∀ shape, data = .function shape → shape ∈ request.shapes := by
  cases request with
  | intern data' =>
    cases h
    refine ⟨rfl, rfl, fun shape he => ?_⟩
    rw [he]
    exact List.mem_cons_self
  | internShape | function | union | union2 => exact nomatch h
  | _ =>
    cases h
    exact ⟨rfl, rfl, nofun⟩

end TypeRequest

/-- A number names an entry of the second array. That is as the first one, or it has one entry more,
which has the next number and this name. -/
structure Numbered {α : Type} (a b : Array α) (n : Nat) : Prop where
  inside : n < b.size
  kept : Keeps a b
  dense : b = a ∨ n = a.size ∧ b.size = a.size + 1

private theorem numbered_numberIn {α : Type} [BEq α] [LawfulBEq α] (a : Array α) (x : α) :
    Numbered a (numberIn a x).2 (numberIn a x).1 := by
  have hkept := keeps_numberIn a x
  have hfound := (findIdx?_beq_eq_some_iff.mp (findIdx?_numberIn a x)).1
  refine ⟨(Array.getElem?_eq_some_iff.mp hfound).1, hkept, ?_⟩
  rcases numberIn_cases a x with ⟨-, h⟩ | ⟨-, h⟩
  · exact .inl h
  · rw [h]
    exact .inr ⟨rfl, Array.size_push x⟩

namespace TypeTable

variable {t t' : TypeTable} {id : TypeId} {s : Signature} {ids : List TypeId}
  {request : TypeRequest}

/-- The table behind some requests. -/
def after (t : TypeTable) (requests : List TypeRequest) : TypeTable :=
  requests.foldl (fun t request => (request.run t).2) t

/-- Every request mentions only numbers that the table has given by then. -/
def Serves (t : TypeTable) : List TypeRequest → Prop
  | [] => True
  | request :: requests =>
    ((∀ id ∈ request.mentions, id < t.size) ∧ ∀ shape ∈ request.shapes, shape < t.shapes.size) ∧
      (request.run t).2.Serves requests

instance decidableServes (t : TypeTable) : (requests : List TypeRequest) → Decidable (t.Serves requests)
  | [] => .isTrue trivial
  | request :: requests =>
    have := decidableServes (request.run t).2 requests
    inferInstanceAs (Decidable (_ ∧ _))

/-- What the answer to a request is, and how the table has grown. -/
def Answers (t : TypeTable) (answer : Nat × TypeTable) : TypeRequest → Prop
  | .internShape _ => answer.2.types = t.types ∧ Numbered t.shapes answer.2.shapes answer.1
  | .function _ => Numbered t.types answer.2.types answer.1 ∧
      ∃ shape, answer.2.get? answer.1 = some (.function shape) ∧
        Numbered t.shapes answer.2.shapes shape
  | _ => Numbered t.types answer.2.types answer.1 ∧ answer.2.shapes = t.shapes

/-- What is found in a table under the answer to a request. -/
def Finds (t : TypeTable) (answer : Nat) : TypeRequest → Prop
  | .internShape s => t.shape? answer = some s
  | .function s => t.signature? answer = some s
  | request => ∀ data ∈ request.entry?, t.get? answer = some data

/-- What a request does to a table with one number for each tree. -/
private structure Answered (t : TypeTable) (request : TypeRequest) : Prop where
  identifying : (request.run t).2.Identifying
  lasting : t.Extends (request.run t).2
  answers : t.Answers (request.run t) request
  finds : (request.run t).2.Finds (request.run t).1 request

/-- What an entry refers to is there if what it names is. -/
theorem Identifying.lt_of_mem_partsOf (ht : t.Identifying) {data : TypeData}
    (hparts : ∀ part ∈ data.parts, part < t.size) :
    ∀ part ∈ t.partsOf data, part < t.size := by
  cases data with
  | function shape =>
    intro part hp
    rw [partsOf] at hp
    cases hs : t.shape? shape with
    | none =>
      rw [hs] at hp
      exact absurd hp List.not_mem_nil
    | some s =>
      rw [hs] at hp
      exact ht.signatures shape s hs part hp
  | _ => exact hparts

private theorem numbered_intern (data : TypeData) (t : TypeTable) :
    Numbered t.types (intern data t).2.types (intern data t).1 := numbered_numberIn t.types data

/-- A union is one of the types that are there or a new one with members that are there. -/
theorem Identifying.union (ht : t.Identifying) (hbase : TypeId.intrinsicCount ≤ t.size)
    (hids : ∀ id ∈ ids, id < t.size) :
    (TypeTable.union ids t).2.Identifying ∧
      Numbered t.types (TypeTable.union ids t).2.types (TypeTable.union ids t).1 ∧
      (TypeTable.union ids t).2.shapes = t.shapes := by
  have hflat (m : TypeId) (hm : m ∈ t.flatten ids) : m < t.size := ht.lt_of_mem_flatten hids hm
  have hsame {id : TypeId} (h : id < t.size) :
      Identifying (id, t).2 ∧ Numbered t.types (id, t).2.types id ∧ (id, t).2.shapes = t.shapes :=
    ⟨ht, ⟨h, .refl _, .inl rfl⟩, rfl⟩
  have hintrinsic {id : TypeId} (h : id < TypeId.intrinsicCount) : id < t.size :=
    Nat.lt_of_lt_of_le h hbase
  cases union_cases ids t with
  | unknown _ heq | any _ _ heq | none _ _ _ heq | tooMany _ _ _ heq =>
    exact heq ▸ hsame (hintrinsic (by decide))
  | one _ _ hone heq => exact heq ▸ hsame (hflat _ (by simp [hone]))
  | many _ _ _ _ heq => exact heq ▸ ⟨ht.intern hflat nofun, numbered_intern _ t, rfl⟩

private theorem signature?_of_get? {shape : ShapeId} (h : t.get? id = some (.function shape)) :
    t.signature? id = t.shape? shape := by
  rw [signature?, h]

private theorem Identifying.function (ht : t.Identifying)
    (hparts : ∀ part ∈ s.parts, part < t.size) :
    t.Answered (.function s) := by
  have hshape := shape?_internShape t s
  have hfirst := ht.internShape hparts
  have hlt := lt_size_of_shape? hshape
  have hget := get?_intern (TypeTable.internShape s t).2 (.function (TypeTable.internShape s t).1)
  refine ⟨hfirst.intern (hfirst.lt_of_mem_partsOf (List.forall_mem_nil _)) fun shape he => ?_,
    (extends_internShape s t).trans (extends_intern _ _), ⟨numbered_intern _ _, _, hget,
      numbered_numberIn t.shapes s⟩, ?_⟩
  · exact TypeData.function.inj he ▸ hlt
  · exact (signature?_of_get? hget).trans hshape

private theorem Identifying.run (ht : t.Identifying) (hbase : TypeId.intrinsicCount ≤ t.size)
    (hids : ∀ id ∈ request.mentions, id < t.size)
    (hshapes : ∀ shape ∈ request.shapes, shape < t.shapes.size) : t.Answered request := by
  have hunion {ids : List TypeId} (hids : ∀ id ∈ ids, id < t.size) : t.Answered (.union ids) := by
    obtain ⟨hidentifying, hnumbered, hshapes⟩ := ht.union hbase hids
    exact ⟨hidentifying, extends_union ids t, ⟨hnumbered, hshapes⟩, nofun⟩
  cases he : request.entry? with
  | some data =>
    obtain ⟨hrun, hmentions, hshape⟩ := TypeRequest.run_of_entry? he
    have hparts := ht.lt_of_mem_partsOf (hmentions ▸ hids)
    have hidentifying := ht.intern hparts fun shape h => hshapes shape (hshape shape h)
    have hfinds : ∀ d ∈ request.entry?,
        (TypeTable.intern data t).2.get? (TypeTable.intern data t).1 = some d := by
      intro d hd
      rw [he, Option.mem_some_iff] at hd
      exact hd ▸ get?_intern t data
    cases request with
    | internShape | function | union | union2 => exact nomatch he
    | _ =>
      refine ⟨hrun ▸ hidentifying, hrun ▸ extends_intern data t, ?_, ?_⟩
      · exact hrun ▸ ⟨numbered_intern data t, rfl⟩
      · exact hrun ▸ hfinds
  | none =>
    cases request with
    | internShape s =>
      exact ⟨ht.internShape hids, extends_internShape s t, ⟨rfl, numbered_numberIn t.shapes s⟩,
        shape?_internShape t s⟩
    | function s => exact ht.function hids
    | union ids => exact hunion hids
    | union2 a b =>
      have hrun : (TypeRequest.union2 a b).run t = if a = b then (a, t) else TypeTable.union [a, b] t := by
        change union2 a b t = _
        unfold TypeTable.union2
        split <;> rfl
      by_cases hab : a = b
      · rw [if_pos hab] at hrun
        have hnumbered : Numbered t.types t.types a :=
          ⟨hids a List.mem_cons_self, .refl _, .inl rfl⟩
        exact ⟨hrun ▸ ht, hrun ▸ .refl t, by rw [hrun]; exact ⟨hnumbered, rfl⟩, nofun⟩
      · rw [if_neg hab] at hrun
        obtain ⟨hidentifying, hlasting, hanswers, -⟩ := hunion hids
        exact ⟨hrun ▸ hidentifying, hrun ▸ hlasting, by rw [hrun]; exact hanswers, nofun⟩
    | _ => exact nomatch he

/-! ## Sequences of requests -/

/-- What holds of a table before some requests that it serves. -/
private structure Serving (t : TypeTable) (requests : List TypeRequest) : Prop where
  identifying : t.Identifying
  base : TypeId.intrinsicCount ≤ t.size
  serves : t.Serves requests

private theorem Serving.next {requests : List TypeRequest} (h : t.Serving (request :: requests)) :
    (request.run t).2.Serving requests ∧ t.Answered request := by
  have hanswered := h.identifying.run h.base h.serves.1.1 h.serves.1.2
  exact ⟨⟨hanswered.identifying, Nat.le_trans h.base hanswered.lasting.size_le, h.serves.2⟩,
    hanswered⟩

private theorem Serving.after {earlier later : List TypeRequest}
    (h : t.Serving (earlier ++ later)) :
    (t.after earlier).Serving later ∧ t.Extends (t.after earlier) := by
  induction earlier generalizing t with
  | nil => exact ⟨h, .refl t⟩
  | cons request earlier ih =>
    obtain ⟨hnext, hanswered⟩ := h.next
    obtain ⟨hlater, hextends⟩ := ih hnext
    exact ⟨hlater, hanswered.lasting.trans hextends⟩

private theorem after_append (t : TypeTable) (earlier later : List TypeRequest) :
    t.after (earlier ++ later) = (t.after earlier).after later := List.foldl_append

/-! ## Tables of any history -/

private theorem Finds.later {answer : Nat} (h : t.Finds answer request) (he : t.Extends t') :
    t'.Finds answer request := by
  cases request with
  | internShape s => exact he.shapes answer s h
  | function s =>
    rw [Finds, signature?] at h ⊢
    split at h
    · next shape hd =>
      rw [he.get? hd]
      exact he.shapes shape s h
    · cases h
  | _ => exact fun data hdata => he.get? (h data hdata)

/-- What a request means for the rest of a history that ends in the given table. -/
structure Settles (request : TypeRequest) (t final : TypeTable) : Prop where
  answers : t.Answers (request.run t) request
  lasting : (request.run t).2.Extends final
  lookup : final.Finds (request.run t).1 request

/-- **The identity of types is structural.** Behind every sequence of requests that mention only
types and signatures that were there by then: what was asked for is still found under the number that
was the answer; types and signatures were numbered without gaps, and no number has changed its
meaning; the parts of a type, those in the signature of a function included, have smaller numbers
than the type; and two types, or two signatures, have the same number exactly if they are the same
tree, in which signatures stand in the places of their numbers. -/
theorem settled_after (requests : List TypeRequest) (h : initial.Serves requests) :
    let final := initial.after requests
    (∀ earlier request later, requests = earlier ++ request :: later →
      Settles request (initial.after earlier) final) ∧
    (∀ id < final.size, ∃ data, final.get? id = some data ∧
      (∀ part ∈ final.partsOf data, part < id) ∧
      final.unfold id = final.treeOf final.unfold data) ∧
    (∀ id < final.size, ∀ id' < final.size, id = id' ↔ final.unfold id = final.unfold id') ∧
    (∀ shape < final.shapes.size, ∃ s, final.shape? shape = some s ∧
      (∀ part ∈ s.parts, part < final.size) ∧ final.unfoldShape shape = s.tree final.unfold) ∧
    ∀ shape < final.shapes.size, ∀ shape' < final.shapes.size,
      shape = shape' ↔ final.unfoldShape shape = final.unfoldShape shape' := by
  intro final
  have hstart {requests : List TypeRequest} (h : initial.Serves requests) :
      initial.Serving requests := ⟨identifying_initial, by decide, h⟩
  have hfinal : final.Identifying := by
    have h : initial.Serving (requests ++ []) := hstart (by rwa [List.append_nil])
    exact h.after.1.identifying
  refine ⟨?_, fun id hid => ?_, fun id hid id' hid' => ?_, fun shape hshape => ?_,
    fun shape hshape shape' hshape' => ?_⟩
  · rintro earlier request later rfl
    obtain ⟨hrequest, -⟩ := (hstart h).after
    obtain ⟨hlater, hanswered⟩ := hrequest.next
    have hlasting : (request.run (initial.after earlier)).2.Extends final := by
      have hlater : (request.run (initial.after earlier)).2.Serving (later ++ []) := by
        rwa [List.append_nil]
      rw [show final = _ from after_append initial earlier (request :: later)]
      exact hlater.after.2
    exact ⟨hanswered.answers, hlasting, hanswered.finds.later hlasting⟩
  · obtain ⟨data, hd⟩ := exists_get? hid
    exact ⟨data, hd, hfinal.ordered id data hd, hfinal.unfold_eq hd⟩
  · exact ⟨fun he => he ▸ rfl, hfinal.unfold_inj hid hid'⟩
  · obtain ⟨s, hs⟩ := exists_shape? hshape
    exact ⟨s, hs, hfinal.signatures shape s hs, by rw [unfoldShape, hs, Option.elim_some]⟩
  · exact ⟨fun he => he ▸ rfl, hfinal.unfoldShape_inj hshape hshape'⟩

/-- A list of integers, a function that takes one and gives it or `None`, the signature of that
function, the type of its number, and the list once more. -/
def exampleRequests : List TypeRequest :=
  let first : Signature := ⟨"first", [⟨"x", .positional, 12, false⟩], some 13, none⟩
  [.listOf .int, .union [12, .none], .function first, .internShape first, .intern (.function 0),
    .listOf .int]

/-- One shape and three types are made, and mean different things. -/
theorem settled_after_example :
    let final := initial.after exampleRequests
    initial.Serves exampleRequests ∧ (final.size, final.shapes.size) = (15, 1) ∧
      Settles (.intern (.function 0)) (initial.after (exampleRequests.take 4)) final ∧
      final.unfold 12 ≠ final.unfold 14 := by
  intro final
  have hserves : initial.Serves exampleRequests := by decide +kernel
  have hsize : (final.size, final.shapes.size) = (15, 1) := by decide +kernel
  have hlt : 14 < final.size := by rw [(Prod.mk.inj hsize).1]; decide
  obtain ⟨hsettled, -, hidentity, -⟩ := settled_after exampleRequests hserves
  refine ⟨hserves, hsize, hsettled (exampleRequests.take 4) _ _ rfl, fun he => ?_⟩
  have h := (hidentity 12 (Nat.lt_trans (by decide) hlt) 14 hlt).mpr he
  exact absurd h (by decide)

end TypeTable
end LiveCheck
