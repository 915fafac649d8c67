import LiveCheck.Proofs.NormalUnions
import LiveCheck.Proofs.Types.PlainComparison

/-!
# Unions as joins

The union of some types is the least type that all of them may stand for: it may stand for a type
exactly if all of them may, and a type that is no union may stand for it exactly if it may stand for
one of them.
-/

namespace LiveCheck.TypeTable

variable {t t' : TypeTable} {h : Hierarchy} {r : TypeId → TypeId → Bool} {data : TypeData}
  {ms ids : List TypeId} {s g u m : TypeId} {n k : Nat}

/-! ## Comparing one union -/

private def IsRecursive (t : TypeTable) (id : TypeId) : Prop :=
  ∃ decl name, t.get? id = some (.recursive decl name)

private theorem triviallyAssignable_iff : triviallyAssignable s g = true ↔
    s = g ∨ (s = .unknown ∨ s = .any ∨ s = .never) ∨ g = .unknown ∨ g = .any ∨ g = .object := by
  simp [triviallyAssignable, or_assoc]

private theorem structurallyAssignable_of_recursive (hs : s < t.size) (hg : g < t.size)
    (hrec : t.IsRecursive s ∨ t.IsRecursive g) :
    t.structurallyAssignable h r s g = true := by
  obtain ⟨data, hds⟩ := exists_get? hs
  obtain ⟨data', hdg⟩ := exists_get? hg
  unfold structurallyAssignable
  rw [hds, hdg]
  rcases hrec with ⟨decl, name, hrec⟩ | ⟨decl, name, hrec⟩
  · cases hds.symm.trans hrec
    rfl
  · cases hdg.symm.trans hrec
    cases data <;> rfl

private theorem structurallyAssignable_union_left (hu : t.get? u = some (.union ms))
    (hg : g < t.size)
    (hrec : ¬ t.IsRecursive g) :
    t.structurallyAssignable h r u g = ms.all fun m => r m g := by
  obtain ⟨data, hdg⟩ := exists_get? hg
  unfold structurallyAssignable
  rw [hu, hdg]
  cases data with
  | recursive decl name => exact absurd ⟨decl, name, hdg⟩ hrec
  | _ => rfl

private theorem structurallyAssignable_union_right (hs : s < t.size) (hrec : ¬ t.IsRecursive s)
    (hunion : t.isUnion s = false) (hu : t.get? u = some (.union ms)) :
    t.structurallyAssignable h r s u = ms.any fun m => r s m := by
  obtain ⟨data, hds⟩ := exists_get? hs
  unfold structurallyAssignable
  rw [hds, hu]
  cases data with
  | recursive decl name => exact absurd ⟨decl, name, hds⟩ hrec
  | union members => simp [isUnion, hds] at hunion
  | _ => rfl

section

variable (ht : t.Tidy)
include ht

private theorem structurallyAssignable_never (hs : s < t.size) (hrec : ¬ t.IsRecursive s)
    (hunion : t.isUnion s = false) : t.structurallyAssignable h r s .never = false := by
  obtain ⟨data, hds⟩ := exists_get? hs
  have hnever : t.get? .never = some .never := ht.base.get? rfl
  unfold structurallyAssignable
  rw [hds, hnever]
  cases data with
  | recursive decl name => exact absurd ⟨decl, name, hds⟩ hrec
  | union members => simp [isUnion, hds] at hunion
  | _ => rfl

private theorem Tidy.unguarded_iff : t.unguarded h s g = true ↔
    triviallyAssignable s g = true ∨ t.structurallyAssignable h (t.unguarded h) s g = true := by
  rw [ht.identifying.unguarded_eq, Bool.or_eq_true]

private theorem Tidy.unguarded_of_trivially (hs : triviallyAssignable s g = true) :
    t.unguarded h s g = true := ht.unguarded_iff.mpr (.inl hs)

private theorem Tidy.unguarded_of_recursive (hs : s < t.size) (hg : g < t.size)
    (hrec : t.IsRecursive s ∨ t.IsRecursive g) : t.unguarded h s g = true :=
  ht.unguarded_iff.mpr (.inr (structurallyAssignable_of_recursive hs hg hrec))

private theorem Tidy.lt_of_mem_union (hu : t.get? u = some (.union ms)) (hm : m ∈ ms) :
    m < t.size := by
  obtain ⟨data, hd, -⟩ := (ht.normal u ms hu).plain m hm
  exact lt_size_of_get? hd

private theorem Tidy.unguarded_union_right (hs : s < t.size) (hunion : t.isUnion s = false)
    (hu : t.get? u = some (.union ms)) :
    t.unguarded h s u = true ↔ ∃ m ∈ ms, t.unguarded h s m = true := by
  obtain ⟨first, hfirst⟩ : ∃ first, first ∈ ms :=
    List.exists_mem_of_length_pos (Nat.lt_of_lt_of_le Nat.two_pos (ht.normal u ms hu).two_le_length)
  by_cases hany : s = .unknown ∨ s = .any ∨ s = .never
  · have hall (g : TypeId) : t.unguarded h s g = true :=
      ht.unguarded_of_trivially (triviallyAssignable_iff.mpr (.inr (.inl hany)))
    exact iff_of_true (hall u) ⟨first, hfirst, hall first⟩
  by_cases hrec : t.IsRecursive s
  · exact iff_of_true (ht.unguarded_of_recursive hs (lt_size_of_get? hu) (.inl hrec))
      ⟨first, hfirst, ht.unguarded_of_recursive hs (ht.lt_of_mem_union hu hfirst) (.inl hrec)⟩
  have htrivially : ¬ triviallyAssignable s u = true := by
    obtain ⟨hunknown, -, hany'⟩ := ht.ne_of_union hu
    rw [triviallyAssignable_iff]
    rintro (rfl | hs | rfl | rfl | rfl)
    · simp [isUnion, hu] at hunion
    · exact hany hs
    · exact hunknown rfl
    · exact hany' rfl
    · cases hu.symm.trans (ht.base.get? rfl)
  rw [ht.unguarded_iff, or_iff_right htrivially,
    structurallyAssignable_union_right hs hrec hunion hu, List.any_eq_true]

private theorem Tidy.unguarded_union_left (hu : t.get? u = some (.union ms)) (hg : g < t.size) :
    t.unguarded h u g = true ↔ ∀ m ∈ ms, t.unguarded h m g = true := by
  by_cases hrec : t.IsRecursive g
  · exact iff_of_true (ht.unguarded_of_recursive (lt_size_of_get? hu) hg (.inr hrec))
      fun m hm => ht.unguarded_of_recursive (ht.lt_of_mem_union hu hm) hg (.inr hrec)
  have hstructurally : t.structurallyAssignable h (t.unguarded h) u g = true ↔
      ∀ m ∈ ms, t.unguarded h m g = true := by
    rw [structurallyAssignable_union_left hu hg hrec, List.all_eq_true]
  rw [ht.unguarded_iff, hstructurally]
  refine or_iff_right_of_imp fun htrivially m hm => ?_
  obtain ⟨hunknown, hnever, hany⟩ := ht.ne_of_union hu
  rcases triviallyAssignable_iff.mp htrivially with rfl | (hu | hu | hu) | hg
  · have hplain := (ht.normal u ms hu).plain m hm
    have hself : t.unguarded h m m = true :=
      ht.unguarded_of_trivially (triviallyAssignable_iff.mpr (.inl rfl))
    exact (ht.unguarded_union_right (ht.lt_of_mem_union hu hm) hplain.isUnion hu).mpr ⟨m, hm, hself⟩
  · exact absurd hu hunknown
  · exact absurd hu hany
  · exact absurd hu hnever
  · exact ht.unguarded_of_trivially (triviallyAssignable_iff.mpr (.inr (.inr hg)))

/-! ## Comparing what some types are joined to -/

private theorem Tidy.unguarded_iff_forall_members (hg : g < t.size) :
    t.unguarded h m g = true ↔ ∀ m' ∈ t.members m, t.unguarded h m' g = true := by
  cases hunion : t.isUnion m with
  | false => simp [members_of_not_union hunion]
  | true =>
    obtain ⟨ms, hd⟩ := exists_of_isUnion hunion
    rw [ht.unguarded_union_left hd hg, members, hd]

private theorem Tidy.unguarded_iff_exists_members (hs : s < t.size) (hunion : t.isUnion s = false) :
    t.unguarded h s m = true ↔ ∃ m' ∈ t.members m, t.unguarded h s m' = true := by
  cases hm : t.isUnion m with
  | false => simp [members_of_not_union hm]
  | true =>
    obtain ⟨ms, hd⟩ := exists_of_isUnion hm
    rw [ht.unguarded_union_right hs hunion hd, members, hd]

end

private theorem mem_flatten : m ∈ t.flatten ids ↔ ∃ id ∈ ids, id ≠ .never ∧ m ∈ t.members id := by
  simp [flatten, List.mem_eraseDups, and_assoc]

private theorem Tidy.unguarded_never_left (ht : t.Tidy) : t.unguarded h .never g = true :=
  ht.unguarded_of_trivially (triviallyAssignable_iff.mpr (by simp))

private theorem Tidy.unguarded_of_never (ht : t.Tidy) (hs : s < t.size) (hg : g < t.size)
    (hunion : t.isUnion s = false) (hnever : t.unguarded h s .never = true) :
    t.unguarded h s g = true := by
  by_cases hrec : t.IsRecursive s
  · exact ht.unguarded_of_recursive hs hg (.inl hrec)
  rw [ht.unguarded_iff, structurallyAssignable_never ht hs hrec hunion] at hnever
  refine ht.unguarded_of_trivially (triviallyAssignable_iff.mpr (.inr (.inl ?_)))
  rcases triviallyAssignable_iff.mp (hnever.resolve_right Bool.false_ne_true) with
    hs | hs | hg | hg | hg
  · exact .inr (.inr hs)
  · exact hs
  all_goals exact absurd hg (by decide)

private theorem Tidy.forall_unguarded_iff (ht : t.Tidy) (hg : g < t.size) :
    (∀ id ∈ ids, t.unguarded h id g = true) ↔ ∀ m ∈ t.flatten ids, t.unguarded h m g = true := by
  constructor
  · intro hall m hm
    obtain ⟨id, hid, -, hm⟩ := mem_flatten.mp hm
    exact (ht.unguarded_iff_forall_members hg).mp (hall id hid) m hm
  · intro hall id hid
    by_cases hnever : id = .never
    · rw [hnever]
      exact ht.unguarded_never_left
    · exact (ht.unguarded_iff_forall_members hg).mpr fun m hm =>
        hall m (mem_flatten.mpr ⟨id, hid, hnever, hm⟩)

private theorem Tidy.exists_unguarded_iff (ht : t.Tidy) (hids : ∀ id ∈ ids, id < t.size)
    (hs : s < t.size)
    (hunion : t.isUnion s = false) (hflatten : t.flatten ids ≠ []) :
    (∃ id ∈ ids, t.unguarded h s id = true) ↔ ∃ m ∈ t.flatten ids, t.unguarded h s m = true := by
  constructor
  · rintro ⟨id, hid, hyes⟩
    by_cases hnever : id = .never
    · obtain ⟨m, hm⟩ := List.exists_mem_of_ne_nil _ hflatten
      have hlt := ht.identifying.lt_of_mem_flatten hids hm
      exact ⟨m, hm, ht.unguarded_of_never hs hlt hunion (hnever ▸ hyes)⟩
    · obtain ⟨m, hm, hyes⟩ := (ht.unguarded_iff_exists_members hs hunion).mp hyes
      exact ⟨m, mem_flatten.mpr ⟨id, hid, hnever, hm⟩, hyes⟩
  · rintro ⟨m, hm, hyes⟩
    obtain ⟨id, hid, -, hm⟩ := mem_flatten.mp hm
    exact ⟨id, hid, (ht.unguarded_iff_exists_members hs hunion).mpr ⟨m, hm, hyes⟩⟩

section Joined

variable (ht : t.Tidy) (hms : ∀ m ∈ ms, m < t.size) (hunknown : .unknown ∉ ms) (hany : .any ∉ ms)
  (hfew : (t.flatten ms).length ≤ Limits.unionMembers) (heq : TypeTable.union ms t = (u, t))

include ht hms hunknown hany hfew heq

private theorem Tidy.unguarded_joined_left (hg : g < t.size) :
    t.unguarded h u g = true ↔ ∀ m ∈ ms, t.unguarded h m g = true := by
  obtain ⟨-, -, hflatten⟩ := ht.flatten_union hms hunknown hany hfew heq
  rw [ht.forall_unguarded_iff hg, ← hflatten, ← ht.forall_unguarded_iff hg,
    List.forall_mem_singleton]

private theorem Tidy.unguarded_joined_right (hne : ms ≠ []) (hu : u < t.size) (hs : s < t.size)
    (hunion : t.isUnion s = false) :
    t.unguarded h s u = true ↔ ∃ m ∈ ms, t.unguarded h s m = true := by
  obtain ⟨-, -, hflatten⟩ := ht.flatten_union hms hunknown hany hfew heq
  by_cases hnone : t.flatten ms = []
  · obtain rfl := ht.eq_never_of_flatten (hflatten.trans hnone) (List.mem_singleton_self u)
    obtain ⟨m, hm⟩ := List.exists_mem_of_ne_nil ms hne
    have hnever : ∀ m ∈ ms, m = .never := fun m hm => ht.eq_never_of_flatten hnone hm
    exact ⟨fun hyes => ⟨m, hm, hnever m hm ▸ hyes⟩, fun ⟨m, hm, hyes⟩ => hnever m hm ▸ hyes⟩
  · have hsingle : ∀ id ∈ [u], id < t.size := by simpa using hu
    rw [ht.exists_unguarded_iff hms hs hunion hnone, ← hflatten,
      ← ht.exists_unguarded_iff hsingle hs hunion (hflatten ▸ hnone)]
    simp

private theorem Tidy.nestedWithin_joined (hnested : ∀ m ∈ ms, t.NestedWithin n m) :
    t.NestedWithin (n + 1) u := by
  obtain ⟨-, -, hflatten⟩ := ht.flatten_union hms hunknown hany hfew heq
  have hmember : ∀ m ∈ t.flatten [u], t.NestedWithin n m := by
    intro m hm
    rw [hflatten] at hm
    obtain ⟨id, hid, -, hm⟩ := mem_flatten.mp hm
    cases hunion : t.isUnion id with
    | false =>
      rw [members_of_not_union hunion, List.mem_singleton] at hm
      exact hm ▸ hnested id hid
    | true =>
      obtain ⟨ids, hd⟩ := exists_of_isUnion hunion
      rw [members, hd] at hm
      have hid := (hnested id hid).mono (Nat.le_succ n)
      exact hid m (comparedParts_eq hd ▸ hm)
  cases hunion : t.isUnion u with
  | true =>
    obtain ⟨ids, hd⟩ := exists_of_isUnion hunion
    intro part hp
    rw [comparedParts_eq hd] at hp
    exact hmember part (ht.flatten_of_union hd ▸ hp)
  | false =>
    by_cases hnever : u = .never
    · have hd : t.get? .never = some .never := ht.base.get? rfl
      intro part hp
      rw [hnever, comparedParts_eq hd] at hp
      cases hp
    · have hself : u ∈ t.members u := by simp [members_of_not_union hunion]
      have hmem := mem_flatten.mpr ⟨u, List.mem_singleton_self u, hnever, hself⟩
      exact (hmember u hmem).mono (Nat.le_succ n)

end Joined

/-- The union of some types is their join: it may stand for a type exactly if all of them may, and
a type that is no union may stand for it exactly if it may stand for one of them. There may be
neither unknown nor unchecked types nor too many among them, and together with the type that they
are compared with they must not be nested too deeply. -/
theorem union_is_join (ht : t.Built) (hms : ∀ m ∈ ms, m < t.size) (hne : ms ≠ [])
    (hunknown : .unknown ∉ ms) (hany : .any ∉ ms)
    (hfew : (t.flatten ms).length ≤ Limits.unionMembers) (ht' : t'.Built)
    (hlater : (union ms t).2.Extends t') (hnested : ∀ m ∈ ms, t'.NestedWithin n m)
    (hle : n + k ≤ Limits.assignability + 1) (h : Hierarchy) :
    (∀ g < t'.size, t'.NestedWithin k g →
      (t'.assignable h (union ms t).1 g = true ↔ ∀ m ∈ ms, t'.assignable h m g = true)) ∧
    ∀ s < t'.size, t'.NestedWithin k s → t'.isUnion s = false →
      (t'.assignable h s (union ms t).1 = true ↔ ∃ m ∈ ms, t'.assignable h s m = true) := by
  have htidy := ht'.tidy
  have hextends := (extends_union ms t).trans hlater
  have hms' : ∀ m ∈ ms, m < t'.size := fun m hm => Nat.lt_of_lt_of_le (hms m hm) hextends.size_le
  have hfew' : (t'.flatten ms).length ≤ Limits.unionMembers := by rwa [hextends.flatten hms]
  have heq := union_again hms hlater
  have hu : (union ms t).1 < t'.size :=
    Nat.lt_of_lt_of_le (ht.tidy.identifying.union ht.tidy.base.size_le hms).2.1.inside hlater.size_le
  have hunion := htidy.nestedWithin_joined hms' hunknown hany hfew' heq hnested
  constructor
  · intro g hg hk
    rw [htidy.assignable_eq_unguarded ⟨n + 1, k, hunion, hk, by omega⟩,
      htidy.unguarded_joined_left hms' hunknown hany hfew' heq hg]
    exact forall₂_congr fun m hm => by
      rw [htidy.assignable_eq_unguarded ⟨n, k, hnested m hm, hk, by omega⟩]
  · intro s hs hk hplain
    rw [htidy.assignable_eq_unguarded ⟨k, n + 1, hk, hunion, by omega⟩,
      htidy.unguarded_joined_right hms' hunknown hany hfew' heq hne hu hs hplain]
    exact exists_congr fun m => and_congr_right fun hm => by
      rw [htidy.assignable_eq_unguarded ⟨k, n, hk, hnested m hm, by omega⟩]

/-- A table in which `list[int]` has the number 12 and `float | list[int]` the number 13. -/
def floatsAndLists : TypeTable :=
  (union [.float, 12] (listOf .int initial).2).2

/-- `int | list[int]` may stand for `float | list[int]`, and `bool` for `int | list[int]`. -/
theorem union_is_join_floatsAndLists :
    let ms : List TypeId := [TypeId.int, 12, TypeId.never]
    let t' := (union ms floatsAndLists).2
    floatsAndLists.Built ∧ t'.Built ∧ (∀ m ∈ ms, m < floatsAndLists.size) ∧ ms ≠ [] ∧
      TypeId.unknown ∉ ms ∧ TypeId.any ∉ ms ∧
      (floatsAndLists.flatten ms).length ≤ Limits.unionMembers ∧
      (∀ m ∈ ms, t'.NestedWithin 2 m) ∧ t'.NestedWithin 3 13 ∧
      t'.NestedWithin 3 TypeId.bool ∧ t'.isUnion TypeId.bool = false ∧
      t'.assignable (fun _ => []) (union ms floatsAndLists).1 13 = true ∧
      t'.assignable (fun _ => []) TypeId.bool (union ms floatsAndLists).1 = true := by
  intro ms t'
  have hlist : (listOf .int initial).2.Built :=
    @Built.run _ (.listOf .int) .initial nofun (by decide +kernel) nofun
  have ht : floatsAndLists.Built :=
    @Built.run _ (.union [.float, 12]) hlist nofun (by decide +kernel) nofun
  have hms : ∀ m ∈ ms, m < floatsAndLists.size := by decide +kernel
  have ht' : t'.Built := @Built.run _ (.union ms) ht nofun hms nofun
  have hunknown : TypeId.unknown ∉ ms := by decide
  have hany : TypeId.any ∉ ms := by decide
  have hfew : (floatsAndLists.flatten ms).length ≤ Limits.unionMembers := by decide +kernel
  have hnested : ∀ m ∈ ms, t'.NestedWithin 2 m := by decide +kernel
  have hunion : t'.NestedWithin 3 13 := by decide +kernel
  have hbool : t'.NestedWithin 3 TypeId.bool := by decide +kernel
  have hplain : t'.isUnion TypeId.bool = false := by decide +kernel
  obtain ⟨hleft, hright⟩ := union_is_join (k := 3) ht hms (by decide) hunknown hany hfew ht'
    (.refl t') hnested (by decide) fun _ => []
  refine ⟨ht, ht', hms, by decide, hunknown, hany, hfew, hnested, hunion, hbool, hplain, ?_, ?_⟩
  · exact (hleft 13 (by decide +kernel) hunion).mpr (by decide +kernel)
  · exact (hright TypeId.bool (by decide +kernel) hbool hplain).mpr (by decide +kernel)

end LiveCheck.TypeTable
