import LiveCheck.Proofs.Types.Unions

/-!
# What the union of some types is

A union is made of the types that the given ones stand for, each once and in the order in which they
are met. In what groups types are joined makes no difference to what they are joined to, unless an
unchecked type hides that there are too many others.
-/

namespace LiveCheck.TypeTable

variable {t t' : TypeTable} {ids ids' xs ys : List TypeId} {id left right : TypeId}

/-- What some types are joined to, where `ms` are the types that they stand for: a type that was
there, or a union of these. -/
inductive Joined (t : TypeTable) (ids ms : List TypeId) : TypeId × TypeTable → Prop
  | unknown (hmem : .unknown ∈ ids) : Joined t ids ms (.unknown, t)
  | any (hunknown : .unknown ∉ ids) (hmem : .any ∈ ids) : Joined t ids ms (.any, t)
  | never (hall : ∀ id ∈ ids, id = .never) : Joined t ids ms (.never, t)
  | one {m : TypeId} (hunknown : .unknown ∉ ids) (hany : .any ∉ ids) (hms : ms = [m])
      (hplain : t.IsPlain m) : Joined t ids ms (m, t)
  | many {id : TypeId} {t' : TypeTable} (hunknown : .unknown ∉ ids) (hany : .any ∉ ids)
      (hd : t'.get? id = some (.union ms)) (hms : t'.NormalMembers ms) (hlater : t.Extends t') :
      Joined t ids ms (id, t')
  | tooMany (hunknown : .unknown ∉ ids) (hany : .any ∉ ids)
      (hmany : Limits.unionMembers < ms.length) : Joined t ids ms (.unknown, t)

/-- Types whose members are none have no values. -/
theorem Tidy.eq_never_of_flatten (ht : t.Tidy) (hflatten : t.flatten ids = []) (hid : id ∈ ids) :
    id = .never := by
  by_contra hnever
  have hnone (m : TypeId) (hm : m ∈ t.members id) : False := by
    have hmem : m ∈ t.flatten ids := by
      rw [flatten, List.mem_eraseDups, List.mem_flatMap]
      exact ⟨id, List.mem_filter.mpr ⟨hid, by simpa using hnever⟩, hm⟩
    rw [hflatten] at hmem
    cases hmem
  cases hunion : t.isUnion id with
  | false => exact hnone id (members_of_not_union hunion ▸ List.mem_singleton_self id)
  | true =>
    obtain ⟨ms, hd⟩ := exists_of_isUnion hunion
    have hpos := Nat.lt_of_lt_of_le Nat.two_pos (ht.normal id ms hd).two_le_length
    obtain ⟨m, hm⟩ := List.exists_mem_of_length_pos hpos
    refine hnone m ?_
    rw [members, hd]
    exact hm

private theorem Tidy.joined (ht : t.Tidy) (hids : ∀ id ∈ ids, id < t.size) :
    t.Joined ids (t.flatten ids) (TypeTable.union ids t) := by
  cases union_cases ids t with
  | unknown hmem heq => exact heq ▸ .unknown hmem
  | any hunknown hmem heq => exact heq ▸ .any hunknown hmem
  | none _ _ hflatten heq => exact heq ▸ .never fun id hid => ht.eq_never_of_flatten hflatten hid
  | @one m hunknown hany hflatten heq =>
    have hplain : t.IsPlain m := ht.isPlain_of_mem_flatten hids hunknown hany (by simp [hflatten])
    exact heq ▸ .one hunknown hany hflatten hplain
  | many hunknown hany htwo hfew heq =>
    have hms := ht.normalMembers_flatten hids hunknown hany htwo hfew
    rw [heq]
    have hlater := extends_intern (.union (t.flatten ids)) t
    exact .many hunknown hany (get?_intern t _) (hms.later hlater) hlater
  | tooMany hunknown hany hmany heq => exact heq ▸ .tooMany hunknown hany hmany

/-! ## Unions of unions -/

private theorem flatten_append (xs ys : List TypeId) :
    t.flatten (xs ++ ys) = (t.flatten xs ++ t.flatten ys).eraseDups := by
  rw [flatten, List.filter_append, List.flatMap_append, ← eraseDups_append_eraseDups]
  rfl

private theorem length_flatten_le (hids : ids ⊆ ids') :
    (t.flatten ids).length ≤ (t.flatten ids').length := by
  have hsubset : t.flatten ids ⊆ t.flatten ids' := by
    intro m hm
    rw [flatten, List.mem_eraseDups, List.mem_flatMap] at hm ⊢
    obtain ⟨id, hid, hm⟩ := hm
    obtain ⟨hid, hnever⟩ := List.mem_filter.mp hid
    exact ⟨id, List.mem_filter.mpr ⟨hids hid, hnever⟩, hm⟩
  exact (nodup_eraseDups _).length_le_of_subset hsubset

private theorem union_of_unknown_mem (hmem : .unknown ∈ ids) : union ids t = (.unknown, t) :=
  if_pos (List.contains_iff_mem.mpr hmem)

private theorem union_of_any_mem (hunknown : .unknown ∉ ids) (hmem : .any ∈ ids) :
    union ids t = (.any, t) := by
  rw [union, if_neg (by simpa using hunknown), if_pos (List.contains_iff_mem.mpr hmem)]

private theorem union_of_length_lt (hunknown : .unknown ∉ ids) (hany : .any ∉ ids)
    (hmany : Limits.unionMembers < (t.flatten ids).length) : union ids t = (.unknown, t) := by
  cases union_cases ids t with
  | unknown hmem => exact absurd hmem hunknown
  | any _ hmem => exact absurd hmem hany
  | none _ _ hflatten =>
    rw [hflatten] at hmany
    exact absurd hmany (Nat.not_lt_zero _)
  | one _ _ hflatten =>
    rw [hflatten] at hmany
    exact absurd (Nat.lt_one_iff.mp (Nat.lt_of_lt_of_le hmany (Nat.le_refl 1))) (by decide)
  | many _ _ _ hfew => exact absurd hmany (Nat.not_lt_of_le hfew)
  | tooMany _ _ _ heq => exact heq

/-- A union that was not widened stands for what its types stand for. -/
theorem Tidy.flatten_union (ht : t.Tidy) (hids : ∀ id ∈ ids, id < t.size)
    (hunknown : .unknown ∉ ids) (hany : .any ∉ ids)
    (hfew : (t.flatten ids).length ≤ Limits.unionMembers)
    (heq : TypeTable.union ids t = (id, t)) :
    id ≠ .unknown ∧ id ≠ .any ∧ t.flatten [id] = t.flatten ids := by
  have hjoined := ht.joined hids
  rw [heq] at hjoined
  generalize hms : t.flatten ids = ms at hjoined hfew
  cases hjoined with
  | unknown hmem => exact absurd hmem hunknown
  | any _ hmem => exact absurd hmem hany
  | never hall =>
    refine ⟨by decide, by decide, ?_⟩
    have hnone : ids.filter (· != .never) = [] := by simpa using hall
    rw [← hms, flatten, flatten, hnone]
    rfl
  | one _ _ hone hplain =>
    obtain ⟨hunknown, hnever, hany⟩ := hplain.ne ht.base
    rw [hone, flatten_singleton hnever, hplain.members]
    exact ⟨hunknown, hany, rfl⟩
  | many _ _ hd =>
    obtain ⟨hunknown, -, hany⟩ := ht.ne_of_union hd
    exact ⟨hunknown, hany, ht.flatten_of_union hd⟩
  | tooMany _ _ hmany => exact absurd hmany (Nat.not_lt_of_le hfew)

private theorem Tidy.union_ne_unknown (ht : t.Tidy) (hids : ∀ id ∈ ids, id < t.size)
    (hunknown : .unknown ∉ ids)
    (hfew : (t.flatten (ids.filter (· != .any))).length ≤ Limits.unionMembers)
    (heq : TypeTable.union ids t = (id, t)) : id ≠ .unknown := by
  by_cases hany : .any ∈ ids
  · rw [union_of_any_mem hunknown hany] at heq
    cases heq
    decide
  · have hall : ids.filter (· != .any) = ids :=
      List.filter_eq_self.mpr fun id hid => by simpa using ne_of_mem_of_not_mem hid hany
    exact (ht.flatten_union hids hunknown hany (hall ▸ hfew) heq).1

private theorem Tidy.any_mem_of_union (ht : t.Tidy) (hids : ∀ id ∈ ids, id < t.size)
    (heq : TypeTable.union ids t = (.any, t)) : .any ∈ ids := by
  by_contra hany
  by_cases hunknown : .unknown ∈ ids
  · rw [union_of_unknown_mem hunknown] at heq
    exact nomatch (Prod.mk.inj heq).1
  by_cases hmany : Limits.unionMembers < (t.flatten ids).length
  · rw [union_of_length_lt hunknown hany hmany] at heq
    exact nomatch (Prod.mk.inj heq).1
  · exact (ht.flatten_union hids hunknown hany (Nat.le_of_not_lt hmany) heq).2.1 rfl

private theorem Tidy.union_replace (ht : t.Tidy) (xs ys : List TypeId)
    (hids : ∀ id ∈ ids, id < t.size)
    (heq : TypeTable.union ids t = (id, t))
    (hhidden : .any ∈ xs ++ ids ++ ys → .unknown ∉ ids → id ≠ .unknown) :
    TypeTable.union (xs ++ [id] ++ ys) t = TypeTable.union (xs ++ ids ++ ys) t := by
  have hkept {m : TypeId} (hm : m ∈ xs ++ ids ++ ys) (hids : m ∈ ids → m = id) :
      m ∈ xs ++ [id] ++ ys := by
    simp only [List.mem_append, List.mem_singleton] at hm ⊢
    exact hm.imp_left (·.imp_right hids)
  have hnew {m : TypeId} (hm : m ∉ xs ++ ids ++ ys) (hid : id ≠ m) : m ∉ xs ++ [id] ++ ys := by
    simp only [List.mem_append, List.mem_singleton, not_or] at hm ⊢
    exact ⟨⟨hm.1.1, hid.symm⟩, hm.2⟩
  have hsubset : ids ⊆ xs ++ ids ++ ys := fun m hm => by simp [hm]
  by_cases hunknown : .unknown ∈ xs ++ ids ++ ys
  · rw [union_of_unknown_mem hunknown, union_of_unknown_mem (hkept hunknown fun h => ?_)]
    rw [union_of_unknown_mem h] at heq
    exact (Prod.mk.inj heq).1
  have hunknown' : .unknown ∉ ids := fun h => hunknown (hsubset h)
  by_cases hany : .any ∈ xs ++ ids ++ ys
  · have hunknown'' := hnew hunknown (hhidden hany hunknown')
    rw [union_of_any_mem hunknown hany, union_of_any_mem hunknown'' (hkept hany fun h => ?_)]
    rw [union_of_any_mem hunknown' h] at heq
    exact (Prod.mk.inj heq).1
  have hany' : .any ∉ ids := fun h => hany (hsubset h)
  by_cases hmany : Limits.unionMembers < (t.flatten ids).length
  · rw [union_of_length_lt hunknown' hany' hmany] at heq
    obtain rfl := (Prod.mk.inj heq).1
    rw [union_of_unknown_mem (by simp), union_of_length_lt hunknown hany]
    exact Nat.lt_of_lt_of_le hmany (length_flatten_le hsubset)
  -- The types were not widened, so what they are joined to stands for the same types.
  obtain ⟨hne, hne', hflatten⟩ :=
    ht.flatten_union hids hunknown' hany' (Nat.le_of_not_lt hmany) heq
  refine union_congr (iff_of_false (hnew hunknown hne) hunknown)
    (iff_of_false (hnew hany hne') hany) ?_
  rw [flatten_append (xs ++ [id]), flatten_append xs, hflatten, ← flatten_append xs,
    ← flatten_append]

private theorem Tidy.union_pair (ht : t.Tidy) (hxs : ∀ id ∈ xs, id < t.size)
    (hys : ∀ id ∈ ys, id < t.size)
    (hfew : .any ∉ xs ++ ys ∨
      (t.flatten ((xs ++ ys).filter (· != .any))).length ≤ Limits.unionMembers)
    (hleft : TypeTable.union xs t = (left, t)) (hright : TypeTable.union ys t = (right, t)) :
    TypeTable.union [left, right] t = TypeTable.union (xs ++ ys) t := by
  have hknown (hany : .any ∈ xs ++ ys) {ids : List TypeId} {id : TypeId} (hsubset : ids ⊆ xs ++ ys)
      (hids : ∀ id ∈ ids, id < t.size) (heq : TypeTable.union ids t = (id, t))
      (hunknown : .unknown ∉ ids) : id ≠ .unknown := by
    refine ht.union_ne_unknown hids hunknown (Nat.le_trans (length_flatten_le ?_)
      (hfew.resolve_left (not_not_intro hany))) heq
    exact fun id hid => List.mem_filter.mpr
      ⟨hsubset (List.mem_filter.mp hid).1, (List.mem_filter.mp hid).2⟩
  have hanyright (h : .any = right) : .any ∈ ys := ht.any_mem_of_union hys (h ▸ hright)
  have hfirst := ht.union_replace [] [right] hxs hleft fun hany => by
    refine hknown ?_ (List.subset_append_left xs ys) hxs hleft
    simp only [List.nil_append, List.mem_append, List.mem_singleton] at hany ⊢
    exact hany.imp_right hanyright
  have hsecond := ht.union_replace xs [] hys hright fun hany => by
    refine hknown ?_ (List.subset_append_right xs ys) hys hright
    simpa using hany
  simpa using hfirst.trans (by simpa using hsecond)

/-- The union of the unions of two lists of types. -/
def groupedUnion (xs ys : List TypeId) : TypeM TypeId := do
  let left ← union xs
  let right ← union ys
  union [left, right]

private theorem Tidy.groupedUnion_eq (ht : t.Tidy) (hxs : ∀ id ∈ xs, id < t.size)
    (hys : ∀ id ∈ ys, id < t.size)
    (hfew : .any ∉ xs ++ ys ∨
      (t.flatten ((xs ++ ys).filter (· != .any))).length ≤ Limits.unionMembers) :
    ∃ t', t'.Tidy ∧ t.Extends t' ∧ groupedUnion xs ys t = TypeTable.union (xs ++ ys) t' := by
  have hlater : t.Extends (TypeTable.union xs t).2 := extends_union xs t
  have hlater' := extends_union ys (TypeTable.union xs t).2
  have hxs' : ∀ id ∈ xs, id < (TypeTable.union xs t).2.size :=
    fun id hid => Nat.lt_of_lt_of_le (hxs id hid) hlater.size_le
  have hys' : ∀ id ∈ ys, id < (TypeTable.union xs t).2.size :=
    fun id hid => Nat.lt_of_lt_of_le (hys id hid) hlater.size_le
  have hboth := hlater.trans hlater'
  refine ⟨_, (ht.union hxs).union hys', hboth, ?_⟩
  refine ((ht.union hxs).union hys').union_pair
    (fun id hid => Nat.lt_of_lt_of_le (hxs id hid) hboth.size_le)
    (fun id hid => Nat.lt_of_lt_of_le (hys id hid) hboth.size_le) (hfew.imp_right fun hfew => ?_)
    (union_again hxs hlater') (union_again hys' (.refl _))
  rwa [hboth.flatten fun id hid => ?_]
  rcases List.mem_append.mp (List.mem_filter.mp hid).1 with hid | hid
  · exact hxs id hid
  · exact hys id hid

/-- **Unions are normal, and it makes no difference how they are grouped.** In a table built by
asking for types, types are joined to one that was there or to a union of at least two and not too
many of the types they stand for, in the order in which these are met; two lists may be joined in
one go or one by one, whichever is done first; and the union of two types is that of a list of
two. -/
theorem union_normalizes (ht : t.Built) (hxs : ∀ id ∈ xs, id < t.size)
    (hys : ∀ id ∈ ys, id < t.size) :
    (∃ ms, FirstOccurrences ((xs.filter (· != .never)).flatMap t.members) ms ∧
      t.Joined xs ms (union xs t)) ∧
    ((.any ∉ xs ++ ys ∨
        (t.flatten ((xs ++ ys).filter (· != .any))).length ≤ Limits.unionMembers) →
      (∀ t' : TypeTable, t'.Built → (union (xs ++ ys) t).2.Extends t' →
        (groupedUnion xs ys t').1 = (union (xs ++ ys) t).1) ∧
      ∀ t' : TypeTable, t'.Built → (groupedUnion xs ys t).2.Extends t' →
        (union (xs ++ ys) t').1 = (groupedUnion xs ys t).1) ∧
    ∀ a b, union2 a b t = union [a, b] t := by
  have hall : ∀ id ∈ xs ++ ys, id < t.size := fun id hid =>
    (List.mem_append.mp hid).elim (hxs id) (hys id)
  refine ⟨⟨_, firstOccurrences_eraseDups _, ht.tidy.joined hxs⟩, fun hfew => ⟨?_, ?_⟩, fun a b => ?_⟩
  · intro t' ht' hlater
    have hextends := (extends_union (xs ++ ys) t).trans hlater
    have hsize {id : TypeId} (hid : id < t.size) : id < t'.size :=
      Nat.lt_of_lt_of_le hid hextends.size_le
    have hfew' : .any ∉ xs ++ ys ∨
        (t'.flatten ((xs ++ ys).filter (· != .any))).length ≤ Limits.unionMembers :=
      hfew.imp_right fun hfew => by
        rwa [hextends.flatten fun id hid => hall id (List.mem_filter.mp hid).1]
    obtain ⟨t'', -, hlater', heq⟩ := ht'.tidy.groupedUnion_eq (fun id hid => hsize (hxs id hid))
      (fun id hid => hsize (hys id hid)) hfew'
    rw [heq, union_again hall (hlater.trans hlater')]
  · intro t' ht' hlater
    obtain ⟨t'', -, hlater', heq⟩ := ht.tidy.groupedUnion_eq hxs hys hfew
    rw [heq] at hlater ⊢
    rw [union_again (fun id hid => Nat.lt_of_lt_of_le (hall id hid) hlater'.size_le) hlater]
  · rw [union2]
    split
    · next heq =>
      subst heq
      have hflatten : t.flatten [a, a] = t.flatten [a] := by
        have happend : t.flatten [a, a] = (t.flatten [a] ++ t.flatten [a]).eraseDups :=
          flatten_append [a] [a]
        rw [happend, eraseDups_append_self, flatten, eraseDups_of_nodup (nodup_eraseDups _)]
      have hsame : union [a, a] t = union [a] t := union_congr (by simp) (by simp) hflatten
      rw [hsame, ht.tidy.union_singleton]
      rfl
    · rfl

/-- A table in which `list[int]` has the number 12 and `int | None` the number 13. -/
def listAndUnion : TypeTable :=
  (union [.int, .none] (listOf .int initial).2).2

private theorem built_listAndUnion : listAndUnion.Built := by
  have hlist : (listOf .int initial).2.Built :=
    @Built.run _ (.listOf .int) .initial nofun (by decide +kernel) nofun
  exact @Built.run _ (.union [.int, .none]) hlist nofun (by decide +kernel) nofun

/-- `list[int]`, `int`, `int | None` and Never are joined to one union, at once and in two
groups. -/
theorem union_normalizes_listAndUnion :
    let lists : List TypeId := [12, TypeId.int]
    let others : List TypeId := [13, TypeId.never]
    (∀ id ∈ lists, id < listAndUnion.size) ∧ (∀ id ∈ others, id < listAndUnion.size) ∧
      TypeId.any ∉ lists ++ others ∧
      (∃ ms, FirstOccurrences ((lists.filter (· != .never)).flatMap listAndUnion.members) ms ∧
        listAndUnion.Joined lists ms (union lists listAndUnion)) ∧
      (groupedUnion lists others (union (lists ++ others) listAndUnion).2).1 =
        (union (lists ++ others) listAndUnion).1 := by
  intro lists others
  have hlists : ∀ id ∈ lists, id < listAndUnion.size := by decide +kernel
  have hothers : ∀ id ∈ others, id < listAndUnion.size := by decide +kernel
  have hany : TypeId.any ∉ lists ++ others := by decide
  obtain ⟨hjoined, hgrouped, -⟩ := union_normalizes built_listAndUnion hlists hothers
  have hlater : (union (lists ++ others) listAndUnion).2.Built :=
    @Built.run _ (.union (lists ++ others)) built_listAndUnion nofun (by decide +kernel) nofun
  exact ⟨hlists, hothers, hany, hjoined, (hgrouped (.inl hany)).1 _ hlater (.refl _)⟩

end LiveCheck.TypeTable
