import LiveCheck.Proofs.Types.PlainComparison

/-!
# Comparing tuples

Tuples are compared element by element: a tuple may stand for one of the same length if each element
may stand for the one at its place, and for `tuple[T, ...]` if each element may stand for `T`. The
exception is `tuple[()]`. It has no arguments, and a type without arguments is taken for a class
whose arguments are not given, so every tuple may stand for it.
-/

namespace LiveCheck

variable {h : Hierarchy} {r : TypeId → TypeId → Bool} {xs ys : List TypeId} {element : TypeId}

/-! ## Elements -/

private theorem isVariadic_eq_false (hxs : TypeId.ellipsis ∉ xs) : isVariadic xs = false := by
  by_contra hvariadic
  have hvariadic := Bool.eq_true_of_not_eq_false hvariadic
  obtain ⟨element, rfl⟩ := TypeTable.exists_eq_of_isVariadic hvariadic
  exact hxs (.tail _ (.head _))

private theorem tupleAssignable_iff_forall₂ (hxs : TypeId.ellipsis ∉ xs)
    (hys : TypeId.ellipsis ∉ ys) :
    tupleAssignable r xs ys = true ↔ List.Forall₂ (fun x y => r x y = true) xs ys := by
  rw [tupleAssignable, isVariadic_eq_false hys, isVariadic_eq_false hxs, if_neg Bool.false_ne_true,
    if_neg Bool.false_ne_true, Bool.and_eq_true, beq_iff_eq, pairwise, List.all_eq_true,
    List.forall₂_iff_zip]
  exact and_congr_right fun _ => ⟨fun hall _ _ hp => hall _ hp, fun hall p hp => hall hp⟩

private theorem tupleAssignable_variadic_iff (hxs : TypeId.ellipsis ∉ xs) :
    tupleAssignable r xs [element, .ellipsis] = true ↔ ∀ x ∈ xs, r x element = true := by
  have hkept : xs.filter (· != TypeId.ellipsis) = xs :=
    List.filter_eq_self.mpr fun x hx => bne_iff_ne.mpr (ne_of_mem_of_not_mem hx hxs)
  have hvariadic : isVariadic [element, .ellipsis] = true := beq_self_eq_true _
  rw [tupleAssignable, if_pos hvariadic, hkept, List.all_eq_true, List.headD_cons]

private theorem instanceAssignable_tuple :
    instanceAssignable h r (.builtin .tuple) xs (.builtin .tuple) ys =
      (ys.isEmpty || tupleAssignable r xs ys) := by
  have hpromotes : (ClassKey.builtin .tuple).promotesTo (.builtin .tuple) = false := rfl
  have hsub : isSubclass h (.builtin .tuple) (.builtin .tuple) = true := by
    rw [isSubclass, beq_self_eq_true, Bool.true_or]
  have hbuiltin : ((ClassKey.builtin .tuple).builtin? == some .tuple) = true := rfl
  rw [instanceAssignable, hpromotes, hsub, bne_self_eq_false, Bool.or_false, hbuiltin]
  cases ys <;> rfl

namespace TypeTable

variable {t : TypeTable} {s g v x y : TypeId}

/-! ## Tuples in a table -/

private theorem get?_of_tupleOf (hs : tupleOf xs t = (s, t)) :
    t.get? s = some (.inst (.builtin .tuple) xs) := by
  have hget := get?_intern t (.inst (.builtin .tuple) xs)
  have heq : intern (.inst (.builtin .tuple) xs) t = (s, t) := hs
  rwa [heq] at hget

private theorem tupleOf_of_find? (hs : t.find? (.inst (.builtin .tuple) xs) = some s) :
    tupleOf xs t = (s, t) := intern_of_find? hs

private theorem Tidy.unguarded_tuples (ht : t.Tidy)
    (hs : t.get? s = some (.inst (.builtin .tuple) xs))
    (hg : t.get? g = some (.inst (.builtin .tuple) ys)) :
    t.unguarded h s g = true ↔
      s = g ∨ ys = [] ∨ tupleAssignable (t.unguarded h) xs ys = true := by
  have hplain {id : TypeId} {args : List TypeId}
      (hd : t.get? id = some (.inst (.builtin .tuple) args)) :
      id ≠ .unknown ∧ id ≠ .never ∧ id ≠ .any := IsPlain.ne ⟨_, hd, rfl⟩ ht.base
  have hobject : g ≠ .object := by
    rintro rfl
    cases hg.symm.trans (ht.base.get? rfl)
  have htrivially : triviallyAssignable s g = (s == g) := by
    obtain ⟨hsunknown, hsnever, hsany⟩ := hplain hs
    obtain ⟨hgunknown, -, hgany⟩ := hplain hg
    rw [triviallyAssignable, beq_false_of_ne hsunknown, beq_false_of_ne hsnever,
      beq_false_of_ne hsany, beq_false_of_ne hgunknown, beq_false_of_ne hgany,
      beq_false_of_ne hobject]
    simp only [Bool.or_false]
  have hstructurally : t.structurallyAssignable h (t.unguarded h) s g =
      (ys.isEmpty || tupleAssignable (t.unguarded h) xs ys) := by
    rw [structurallyAssignable, hs, hg]
    exact instanceAssignable_tuple
  rw [ht.identifying.unguarded_eq, htrivially, hstructurally, Bool.or_eq_true, Bool.or_eq_true,
    beq_iff_eq, List.isEmpty_iff]

private theorem Tidy.assignable_eq_unguarded_of_mem (ht : t.Tidy)
    (hshallow : t.Shallow (Limits.assignability + 2) s g)
    (hs : t.get? s = some (.inst (.builtin .tuple) xs))
    (hg : t.get? g = some (.inst (.builtin .tuple) ys)) (hx : x ∈ xs) (hy : y ∈ ys) :
    t.assignable h x y = t.unguarded h x y := by
  obtain ⟨n, m, hn, hm, hle⟩ := hshallow
  cases n with
  | zero => exact hn.elim
  | succ n =>
    cases m with
    | zero => exact hm.elim
    | succ m =>
      refine ht.assignable_eq_unguarded ⟨n, m, hn x ?_, hm y ?_, by omega⟩
      · rwa [comparedParts_eq hs]
      · rwa [comparedParts_eq hg]

private theorem Identifying.unguarded_refl (ht : t.Identifying) : t.unguarded h x x = true := by
  rw [ht.unguarded_eq, triviallyAssignable, beq_self_eq_true]
  rfl

/-- **Tuples are compared element by element**, except with the tuple that has no elements, for
which every tuple may stand. For every hierarchy and all lists of types without `...`, of which
tuples are made that the guard has room for, a tuple may stand for another with elements exactly if
they have the same length and each element may stand for the one at its place, and for
`tuple[T, ...]` exactly if each element may stand for `T`. -/
theorem tuples_assignable_iff (ht : t.Built) (h : Hierarchy) (hxs : TypeId.ellipsis ∉ xs)
    (hys : TypeId.ellipsis ∉ ys) (hs : tupleOf xs t = (s, t)) (hg : tupleOf ys t = (g, t))
    (hv : tupleOf [element, .ellipsis] t = (v, t))
    (hsg : t.Shallow (Limits.assignability + 2) s g)
    (hsv : t.Shallow (Limits.assignability + 2) s v) :
    (t.assignable h s g = true ↔
      ys = [] ∨ List.Forall₂ (fun x y => t.assignable h x y = true) xs ys) ∧
    (t.assignable h s v = true ↔ ∀ x ∈ xs, t.assignable h x element = true) := by
  have htidy := ht.tidy
  have hs := get?_of_tupleOf hs
  have hg := get?_of_tupleOf hg
  have hv := get?_of_tupleOf hv
  constructor
  · have hsame : List.Forall₂ (fun x y => t.assignable h x y = true) xs ys ↔
        List.Forall₂ (fun x y => t.unguarded h x y = true) xs ys := by
      simp only [List.forall₂_iff_zip]
      refine and_congr_right fun _ => forall₂_congr fun x y => imp_congr_right fun hp => ?_
      obtain ⟨hx, hy⟩ := List.of_mem_zip hp
      rw [htidy.assignable_eq_unguarded_of_mem hsg hs hg hx hy]
    rw [htidy.assignable_eq_unguarded hsg, htidy.unguarded_tuples hs hg,
      tupleAssignable_iff_forall₂ hxs hys, hsame]
    refine ⟨fun hyes => hyes.elim (fun heq => .inr ?_) id, .inr⟩
    obtain ⟨-, rfl⟩ := TypeData.inst.inj (Option.some.inj ((heq ▸ hs).symm.trans hg))
    exact List.forall₂_same.mpr fun x _ => htidy.identifying.unguarded_refl
  · have hne : s ≠ v := by
      rintro rfl
      obtain ⟨-, rfl⟩ := TypeData.inst.inj (Option.some.inj (hs.symm.trans hv))
      exact hxs (.tail _ (.head _))
    have hsame : (∀ x ∈ xs, t.assignable h x element = true) ↔
        ∀ x ∈ xs, t.unguarded h x element = true :=
      forall₂_congr fun x hx => by
        rw [htidy.assignable_eq_unguarded_of_mem hsv hs hv hx (.head _)]
    rw [htidy.assignable_eq_unguarded hsv, htidy.unguarded_tuples hs hv,
      tupleAssignable_variadic_iff hxs, hsame]
    exact ⟨fun hyes => (hyes.resolve_left hne).resolve_left (List.cons_ne_nil _ _), .inr ∘ .inr⟩

/-- A table in which `tuple[int, bool]` has the number 12, `tuple[float, int]` the number 13 and
`tuple[float, ...]` the number 14. -/
def numberTuples : TypeTable :=
  (tupleOf [.float, .ellipsis] (tupleOf [.float, .int] (tupleOf [.int, .bool] initial).2).2).2

private theorem built_numberTuples : numberTuples.Built := by
  have hpair : (tupleOf [.int, .bool] initial).2.Built := Built.initial.tupleOf (by decide +kernel)
  exact (hpair.tupleOf (by decide +kernel)).tupleOf (by decide +kernel)

/-- A tuple for one of its length, and for one of any. -/
theorem tuples_assignable_iff_numberTuples :
    numberTuples.assignable (fun _ => []) 12 13 = true ∧
      numberTuples.assignable (fun _ => []) 12 14 = true := by
  have hpairs : numberTuples.find? (.inst (.builtin .tuple) [.int, .bool]) = some 12 ∧
      numberTuples.find? (.inst (.builtin .tuple) [.float, .int]) = some 13 ∧
      numberTuples.find? (.inst (.builtin .tuple) [.float, .ellipsis]) = some 14 := by
    decide +kernel
  obtain ⟨hpair, hmany⟩ := tuples_assignable_iff built_numberTuples (fun _ => []) (by decide)
    (by decide) (tupleOf_of_find? hpairs.1) (tupleOf_of_find? hpairs.2.1)
    (tupleOf_of_find? hpairs.2.2) ⟨2, 2, by decide +kernel, by decide +kernel, by decide⟩
    ⟨2, 2, by decide +kernel, by decide +kernel, by decide⟩
  exact ⟨hpair.mpr (.inr (.cons (by decide +kernel) (.cons (by decide +kernel) .nil))),
    hmany.mpr (by decide +kernel)⟩

/-- A table in which `tuple[int]` has the number 12 and `tuple[()]` the number 13. -/
def emptyTuple : TypeTable := (tupleOf [] (tupleOf [.int] initial).2).2

/-- `tuple[int]` may stand for `tuple[()]`, which has another length. -/
theorem not_pointwise_emptyTuple :
    tupleOf [.int] emptyTuple = (12, emptyTuple) ∧ tupleOf [] emptyTuple = (13, emptyTuple) ∧
      emptyTuple.assignable (fun _ => []) 12 13 = true ∧
      ¬ List.Forall₂ (fun x y => emptyTuple.assignable (fun _ => []) x y = true) [.int] [] :=
  ⟨tupleOf_of_find? (by decide +kernel), tupleOf_of_find? (by decide +kernel), by decide +kernel,
    nofun⟩

end TypeTable
end LiveCheck
