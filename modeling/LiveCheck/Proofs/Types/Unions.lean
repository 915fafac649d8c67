import LiveCheck.Proofs.FirstOccurrences
import LiveCheck.Proofs.TypeIdentity

/-!
# Unions in normal form

Whoever asks for a union names any types, and gets a union of their members: of at least two types,
no two the same, none of them a union itself, unknown, unchecked or without values. As long as
unions come about in no other way, a table has none but these.
-/

namespace LiveCheck

/-- Whether a type may be a member of a union. -/
def TypeData.isPlain : TypeData → Bool
  | .unknown | .never | .any | .union _ => false
  | _ => true

namespace TypeTable

variable {t t' : TypeTable} {id : TypeId} {ids ids' ms : List TypeId} {data : TypeData}
  {request : TypeRequest}

/-- A type of the table that may be a member of a union. -/
def IsPlain (t : TypeTable) (id : TypeId) : Prop :=
  ∃ data, t.get? id = some data ∧ data.isPlain = true

/-- What the members of a union are to be. -/
structure NormalMembers (t : TypeTable) (members : List TypeId) : Prop where
  two_le_length : 2 ≤ members.length
  length_le : members.length ≤ Limits.unionMembers
  nodup : members.Nodup
  plain : ∀ m ∈ members, t.IsPlain m

/-- A table with one number for each type, the fixed ones included, and with normal unions. -/
structure Tidy (t : TypeTable) : Prop where
  base : initial.Extends t
  identifying : t.Identifying
  normal : ∀ id members, t.get? id = some (.union members) → t.NormalMembers members

/-- A table that was built by asking for types. Requests mention types that are there, and a union
is asked for as the union of some types, never by its entry. -/
inductive Built : TypeTable → Prop
  | initial : Built initial
  | run {t : TypeTable} {request : TypeRequest} (ht : Built t)
      (hentry : ∀ members, request.entry? ≠ some (.union members))
      (hmentions : ∀ id ∈ request.mentions, id < t.size)
      (hshapes : ∀ shape ∈ request.shapes, shape < t.shapes.size) : Built (request.run t).2

/-- A tuple may be asked for once its elements are there. -/
theorem Built.tupleOf (ht : t.Built) (hids : ∀ id ∈ ids, id < t.size) :
    (TypeTable.tupleOf ids t).2.Built :=
  @Built.run _ (.tupleOf ids) ht nofun hids nofun

/-! ## Plain types -/

theorem IsPlain.later (hid : t.IsPlain id) (h : t.Extends t') : t'.IsPlain id := by
  obtain ⟨data, hd, hplain⟩ := hid
  exact ⟨data, h.get? hd, hplain⟩

theorem NormalMembers.later (hm : t.NormalMembers ms) (h : t.Extends t') :
    t'.NormalMembers ms :=
  ⟨hm.two_le_length, hm.length_le, hm.nodup, fun m hmem => (hm.plain m hmem).later h⟩

/-- What is no union is its own only member. -/
theorem members_of_not_union (hid : t.isUnion id = false) : t.members id = [id] := by
  unfold isUnion at hid
  unfold members
  split
  · next hd => simp [hd] at hid
  · rfl

/-- A union has members. -/
theorem exists_of_isUnion (hid : t.isUnion id = true) : ∃ ms, t.get? id = some (.union ms) := by
  unfold isUnion at hid
  split at hid
  · next ms hd => exact ⟨ms, hd⟩
  · cases hid

/-- A plain type is no union. -/
theorem IsPlain.isUnion (hid : t.IsPlain id) : t.isUnion id = false := by
  obtain ⟨data, hd, hplain⟩ := hid
  rw [TypeTable.isUnion, hd]
  cases data with
  | union => cases hplain
  | _ => rfl

theorem IsPlain.members (hid : t.IsPlain id) : t.members id = [id] :=
  members_of_not_union hid.isUnion

theorem IsPlain.ne (hid : t.IsPlain id) (hbase : initial.Extends t) :
    id ≠ .unknown ∧ id ≠ .never ∧ id ≠ .any := by
  obtain ⟨data, hd, hplain⟩ := hid
  refine ⟨hbase.ne rfl hd ?_, hbase.ne rfl hd ?_, hbase.ne rfl hd ?_⟩
  all_goals
    rintro rfl
    cases hplain

private theorem Tidy.isPlain (ht : t.Tidy) (hid : id < t.size) (hunion : t.isUnion id = false)
    (hunknown : id ≠ .unknown) (hnever : id ≠ .never) (hany : id ≠ .any) : t.IsPlain id := by
  obtain ⟨data, hd⟩ := exists_get? hid
  refine ⟨data, hd, ?_⟩
  cases data with
  | unknown => exact absurd (ht.identifying.distinct _ _ _ hd (ht.base.get? rfl)) hunknown
  | never => exact absurd (ht.identifying.distinct _ _ _ hd (ht.base.get? rfl)) hnever
  | any => exact absurd (ht.identifying.distinct _ _ _ hd (ht.base.get? rfl)) hany
  | union members => simp [TypeTable.isUnion, hd] at hunion
  | _ => rfl

/-- What some types stand for is plain, unless one of them is unknown or unchecked. -/
theorem Tidy.isPlain_of_mem_flatten (ht : t.Tidy) (hids : ∀ id ∈ ids, id < t.size)
    (hunknown : .unknown ∉ ids) (hany : .any ∉ ids) {m : TypeId} (hm : m ∈ t.flatten ids) :
    t.IsPlain m := by
  rw [flatten, List.mem_eraseDups, List.mem_flatMap] at hm
  obtain ⟨id, hid, hm⟩ := hm
  obtain ⟨hid, hnever⟩ := List.mem_filter.mp hid
  cases hunion : t.isUnion id with
  | false =>
    rw [members_of_not_union hunion, List.mem_singleton] at hm
    exact hm ▸ ht.isPlain (hids id hid) hunion (ne_of_mem_of_not_mem hid hunknown)
      (by simpa using hnever) (ne_of_mem_of_not_mem hid hany)
  | true =>
    obtain ⟨ms, hd⟩ := exists_of_isUnion hunion
    rw [members, hd] at hm
    exact (ht.normal id ms hd).plain m hm

/-! ## Tidy tables -/

private theorem tidy_initial : initial.Tidy where
  base := .refl initial
  identifying := identifying_initial
  normal id members hd := by
    have hnil : members = [] := parts_of_get?_initial hd
    have hall : ∀ i < 12, (initial.get? i).all (· != .union []) = true := by decide
    have := hall id (lt_size_of_get? hd)
    simp [hd, hnil] at this

private theorem Tidy.intern (ht : t.Tidy) (hparts : ∀ part ∈ data.parts, part < t.size)
    (hshape : ∀ shape, data = .function shape → shape < t.shapes.size)
    (hnormal : ∀ members, data = .union members → t.NormalMembers members) :
    (intern data t).2.Tidy := by
  have hextends := extends_intern data t
  have hidentifying := ht.identifying.intern (ht.identifying.lt_of_mem_partsOf hparts) hshape
  refine ⟨ht.base.trans hextends, hidentifying, fun id members hd => ?_⟩
  refine NormalMembers.later ?_ hextends
  rcases get?_intern_cases hd with hd | ⟨-, hd, -⟩
  · exact ht.normal id members hd
  · exact hnormal members hd.symm

private theorem Tidy.internShape (ht : t.Tidy) {s : Signature}
    (hparts : ∀ part ∈ s.parts, part < t.size) :
    (internShape s t).2.Tidy where
  base := ht.base.trans (extends_internShape s t)
  identifying := ht.identifying.internShape hparts
  normal id members hd := (ht.normal id members hd).later (extends_internShape s t)

theorem Tidy.normalMembers_flatten (ht : t.Tidy) (hids : ∀ id ∈ ids, id < t.size)
    (hunknown : .unknown ∉ ids) (hany : .any ∉ ids) (htwo : 2 ≤ (t.flatten ids).length)
    (hfew : (t.flatten ids).length ≤ Limits.unionMembers) : t.NormalMembers (t.flatten ids) :=
  ⟨htwo, hfew, nodup_eraseDups _, fun _ => ht.isPlain_of_mem_flatten hids hunknown hany⟩

theorem Tidy.union (ht : t.Tidy) (hids : ∀ id ∈ ids, id < t.size) : (union ids t).2.Tidy := by
  cases union_cases ids t with
  | unknown _ heq | any _ _ heq | none _ _ _ heq | one _ _ _ heq | tooMany _ _ _ heq =>
    exact heq ▸ ht
  | many hunknown hany htwo hfew heq =>
    refine heq ▸ ht.intern (fun m => ht.identifying.lt_of_mem_flatten hids) nofun fun members he => ?_
    exact TypeData.union.inj he ▸ ht.normalMembers_flatten hids hunknown hany htwo hfew

private theorem Tidy.run (ht : t.Tidy) (hentry : ∀ members, request.entry? ≠ some (.union members))
    (hmentions : ∀ id ∈ request.mentions, id < t.size)
    (hshapes : ∀ shape ∈ request.shapes, shape < t.shapes.size) : (request.run t).2.Tidy := by
  cases he : request.entry? with
  | some data =>
    obtain ⟨hrun, heq, hshape⟩ := TypeRequest.run_of_entry? he
    rw [hrun]
    refine ht.intern (heq ▸ hmentions) (fun shape h => hshapes shape (hshape shape h)) ?_
    exact fun members hdata => absurd (hdata ▸ he) (hentry members)
  | none =>
    cases request with
    | internShape s => exact ht.internShape hmentions
    | function s =>
      have hshape := lt_size_of_shape? (shape?_internShape t s)
      exact (ht.internShape hmentions).intern nofun
        (fun shape h => TypeData.function.inj h ▸ hshape) nofun
    | union ids => exact ht.union hmentions
    | union2 a b =>
      change (union2 a b t).2.Tidy
      unfold union2
      split
      · exact ht
      · exact ht.union hmentions
    | _ => cases he

/-- A table that operations have built is tidy. -/
theorem Built.tidy (ht : t.Built) : t.Tidy := by
  induction ht with
  | initial => exact tidy_initial
  | run _ hentry hmentions hshapes ih => exact ih.run hentry hmentions hshapes

/-- The parts of the types in a tidy table are in it. -/
theorem Tidy.closed (ht : t.Tidy) : t.Closed 0 where
  intrinsics := Nat.le_trans ht.base.size_le (size_le_extent 0 t)
  parts id data hd part hp := by
    have hpart := ht.identifying.ordered id data hd part (t.parts_subset_partsOf data hp)
    exact Nat.lt_of_lt_of_le (Nat.lt_trans hpart (lt_size_of_get? hd)) (size_le_extent 0 t)
  signatures shape s hs part hp :=
    Nat.lt_of_lt_of_le (ht.identifying.signatures shape s hs part hp) (size_le_extent 0 t)
  proper _ := ⟨ht.base, ht.identifying.functions, fun id ms hd m hm => ((ht.normal id ms hd).plain m hm).members⟩

/-! ## Unions of what is there -/

private theorem Tidy.intern_of_get? (ht : t.Tidy) (hd : t.get? id = some data) :
    TypeTable.intern data t = (id, t) := by
  rcases intern_cases data t with ⟨hd', heq⟩ | ⟨hnew, -⟩
  · exact Prod.ext (ht.identifying.distinct _ id data hd' hd) heq
  · exact absurd hd (hnew id)

/-- The union of some types depends on the types that they stand for. -/
theorem union_congr (hunknown : .unknown ∈ ids ↔ .unknown ∈ ids') (hany : .any ∈ ids ↔ .any ∈ ids')
    (hflatten : t.flatten ids = t.flatten ids') : union ids t = union ids' t := by
  have hunknown : ids.contains .unknown = ids'.contains .unknown := by
    rw [Bool.eq_iff_iff, List.contains_iff_mem, List.contains_iff_mem, hunknown]
  have hany : ids.contains .any = ids'.contains .any := by
    rw [Bool.eq_iff_iff, List.contains_iff_mem, List.contains_iff_mem, hany]
  rw [union, union, hunknown, hany, hflatten]

theorem flatten_singleton (hnever : id ≠ .never) : t.flatten [id] = (t.members id).eraseDups := by
  have hfilter : [id].filter (· != .never) = [id] := by simp [hnever]
  rw [flatten, hfilter, List.flatMap_singleton]

private theorem union_of_flatten_singleton (hunknown : .unknown ∉ ids) (hany : .any ∉ ids)
    (hflatten : t.flatten ids = [id]) : union ids t = (id, t) := by
  rw [union, if_neg (by simpa using hunknown), if_neg (by simpa using hany), hflatten]

private theorem union_of_flatten (hunknown : .unknown ∉ ids) (hany : .any ∉ ids)
    (hflatten : t.flatten ids = ms) (hms : t.NormalMembers ms) :
    union ids t = intern (.union ms) t := by
  match ms, hms.two_le_length, hms.length_le with
  | first :: second :: rest, _, hfew =>
    rw [union, if_neg (by simpa using hunknown), if_neg (by simpa using hany), hflatten]
    exact if_neg (Nat.not_lt_of_le hfew)

/-- A type that is no union is the union of itself. -/
theorem union_singleton_of_not_union (hid : t.isUnion id = false) : union [id] t = (id, t) := by
  by_cases hunknown : id = .unknown
  · rw [hunknown]
    rfl
  by_cases hany : id = .any
  · rw [hany]
    rfl
  by_cases hnever : id = .never
  · rw [hnever]
    rfl
  have hflatten : t.flatten [id] = [id] := by
    rw [flatten_singleton hnever, members_of_not_union hid]
    rfl
  exact union_of_flatten_singleton (by simpa using Ne.symm hunknown) (by simpa using Ne.symm hany)
    hflatten

theorem Tidy.ne_of_union (ht : t.Tidy) (hd : t.get? id = some (.union ms)) :
    id ≠ .unknown ∧ id ≠ .never ∧ id ≠ .any :=
  ⟨ht.base.ne rfl hd nofun, ht.base.ne rfl hd nofun, ht.base.ne rfl hd nofun⟩

theorem Tidy.flatten_of_union (ht : t.Tidy) (hd : t.get? id = some (.union ms)) :
    t.flatten [id] = ms := by
  rw [flatten_singleton (ht.ne_of_union hd).2.1, members, hd,
    eraseDups_of_nodup (ht.normal id ms hd).nodup]

/-- Every type is the union of itself. -/
theorem Tidy.union_singleton (ht : t.Tidy) (id : TypeId) : TypeTable.union [id] t = (id, t) := by
  cases hunion : t.isUnion id with
  | false => exact union_singleton_of_not_union hunion
  | true =>
    obtain ⟨ms, hd⟩ := exists_of_isUnion hunion
    obtain ⟨hunknown, -, hany⟩ := ht.ne_of_union hd
    rw [union_of_flatten (by simpa using Ne.symm hunknown) (by simpa using Ne.symm hany)
      (ht.flatten_of_union hd) (ht.normal id ms hd), ht.intern_of_get? hd]

end TypeTable
end LiveCheck
