import LiveCheck.Proofs.Types.Comparison

/-!
# Comparing instances

Instances of a class may stand where instances of a class above it are expected, and numbers where
others are expected that they are promoted to. If the classes that a program declares are promoted
as the numbers above them are, and none is below the class of `...`, then this is transitive, as
long as it is for the type arguments.
-/

namespace LiveCheck

/-! ## Classes that stand for one another -/

namespace BuiltinClass

private theorem mem_all (cls : BuiltinClass) : cls ∈ all := by cases cls <;> decide

private theorem promotes_trans {a b c : BuiltinClass} (hab : promotes a b = true)
    (hbc : promotes b c = true) : promotes a c = true := by
  have hall : ∀ a ∈ all, ∀ b ∈ all, promotes a b = true → ∀ c ∈ all, promotes b c = true →
      promotes a c = true := by decide +kernel
  exact hall a (mem_all a) b (mem_all b) hab c (mem_all c) hbc

private theorem promotes_of_mem_above {a b c : BuiltinClass} (hab : b ∈ a.above)
    (hbc : promotes b c = true) : promotes a c = true := by
  have hall : ∀ a ∈ all, ∀ b ∈ a.above, ∀ c ∈ all, promotes b c = true →
      promotes a c = true := by decide +kernel
  exact hall a (mem_all a) b hab c (mem_all c) hbc

private theorem promotes_or_object {a b c : BuiltinClass} (hab : promotes a b = true)
    (hbc : c ∈ b.above) :
    promotes a c = true ∨ c = object := by
  have hall : ∀ a ∈ all, ∀ b ∈ all, promotes a b = true → ∀ c ∈ b.above,
      promotes a c = true ∨ c = object := by decide +kernel
  exact hall a (mem_all a) b (mem_all b) hab c hbc

private theorem eq_of_standing {a b : BuiltinClass} (hab : promotes a b = true ∨ b ∈ a.above)
    (hba : promotes b a = true ∨ a ∈ b.above) : a = b := by
  have hall : ∀ a ∈ all, ∀ b ∈ all, promotes a b = true ∨ b ∈ a.above →
      promotes b a = true ∨ a ∈ b.above → a = b := by decide +kernel
  exact hall a (mem_all a) b (mem_all b) hab hba

private theorem object_mem_above (a : BuiltinClass) : object ∈ a.above := by cases a <;> decide

private theorem promotes_self (a : BuiltinClass) : promotes a a = false := by cases a <;> decide

theorem eq_of_ellipsis_mem_above {a : BuiltinClass} (ha : ellipsis ∈ a.above) : a = ellipsis := by
  revert ha
  cases a <;> decide

end BuiltinClass

/-- Classes that a program declares are promoted as the numbers above them are, and none of them is
below the class of `...`. -/
structure Conforms (h : Hierarchy) : Prop where
  numbers : ∀ cls s u, Below h (.declared cls) (.builtin s) → promotes s u = true →
    Below h (.declared cls) (.builtin u)
  ellipsis : ∀ cls, ¬ Below h (.declared cls) (.builtin .ellipsis)

/-- Values of the one class may stand where values of the other are expected. -/
def StandsFor (h : Hierarchy) (sub sup : ClassKey) : Prop :=
  sub.promotesTo sup = true ∨ isSubclass h sub sup = true

variable {h : Hierarchy} {a b c : ClassKey} {as bs cs : List TypeId}
  {r : TypeId → TypeId → Bool}

theorem exists_of_promotesTo (hab : a.promotesTo b = true) :
    ∃ s u, a = .builtin s ∧ b = .builtin u ∧ promotes s u = true := by
  cases a with
  | declared cls => exact nomatch hab
  | builtin s =>
    cases b with
    | declared cls => exact nomatch hab
    | builtin u => exact ⟨s, u, rfl, rfl, hab⟩

theorem isSubclass_object (hshort : ShortChains h) (a : ClassKey) :
    isSubclass h a .object = true := (isSubclass_iff hshort).mpr (.inr rfl)

/-- Built-in classes stand for one another whatever is declared. -/
theorem StandsFor.builtin (hshort : ShortChains h) {s : BuiltinClass}
    (hs : StandsFor h (.builtin s) b) :
    ∃ u, b = .builtin u ∧ (promotes s u = true ∨ u ∈ s.above) := by
  rcases hs with hpromotes | hsub
  · obtain ⟨s', u, hs', rfl, hsu⟩ := exists_of_promotesTo hpromotes
    cases hs'
    exact ⟨u, rfl, .inl hsu⟩
  · rcases (isSubclass_iff hshort).mp hsub with hbelow | rfl
    · obtain ⟨u, hu, rfl⟩ := below_builtin hbelow
      exact ⟨u, rfl, .inr hu⟩
    · exact ⟨.object, rfl, .inr s.object_mem_above⟩

private theorem standsFor_trans (hshort : ShortChains h) (hh : Conforms h) (hab : StandsFor h a b)
    (hbc : StandsFor h b c) : StandsFor h a c := by
  rcases hab with hab | hab
  · obtain ⟨s, u, rfl, rfl, hsu⟩ := exists_of_promotesTo hab
    obtain ⟨v, rfl, huv | huv⟩ := hbc.builtin hshort
    · exact .inl (BuiltinClass.promotes_trans hsu huv)
    · rcases BuiltinClass.promotes_or_object hsu huv with hsv | rfl
      · exact .inl hsv
      · exact .inr (isSubclass_object hshort _)
  · rcases hbc with hbc | hbc
    · obtain ⟨u, v, rfl, rfl, huv⟩ := exists_of_promotesTo hbc
      have hbelow : Below h a (.builtin u) := by
        refine ((isSubclass_iff hshort).mp hab).resolve_right fun heq => ?_
        cases heq
        exact nomatch huv
      cases a with
      | builtin s =>
        obtain ⟨u', hu', heq⟩ := below_builtin hbelow
        cases heq
        exact .inl (BuiltinClass.promotes_of_mem_above hu' huv)
      | declared cls => exact .inr ((isSubclass_iff hshort).mpr (.inl (hh.numbers _ _ _ hbelow huv)))
    · exact .inr (isSubclass_trans hshort hab hbc)

/-! ## Type arguments -/

/-- A class has all of its type arguments, and no more. The class of classes has none here: with
one, it is the type of a class. -/
def ClassKey.Takes : ClassKey → List TypeId → Prop
  | .builtin .tuple, args => args ≠ []
  | .builtin .type, args => args = []
  | .builtin cls, args => cls.arity? = some args.length
  | .declared _, args => args = []

private theorem ClassKey.Takes.length_eq (has : a.Takes as) (hbs : a.Takes bs)
    (htuple : a ≠ .builtin .tuple) : as.length = bs.length := by
  cases a with
  | declared cls => rw [show as = [] from has, show bs = [] from hbs]
  | builtin cls =>
    cases cls with
    | tuple => exact absurd rfl htuple
    | type => rw [show as = [] from has, show bs = [] from hbs]
    | _ => exact Option.some.inj (has.symm.trans hbs)

private theorem pairwise_iff (hlength : as.length = bs.length) :
    pairwise r as bs = true ↔ List.Forall₂ (fun x y => r x y = true) as bs := by
  rw [List.forall₂_iff_zip, pairwise, List.all_eq_true]
  exact ⟨fun hall => ⟨hlength, fun hmem => hall _ hmem⟩, fun hall p hmem => hall.2 hmem⟩

private theorem forall₂_trans {R : TypeId → TypeId → Prop} (hab : List.Forall₂ R as bs)
    (hbc : List.Forall₂ R bs cs)
    (htrans : ∀ x ∈ as, ∀ y ∈ bs, ∀ z ∈ cs, R x y → R y z → R x z) : List.Forall₂ R as cs := by
  induction hab generalizing cs with
  | nil =>
    cases hbc
    exact .nil
  | cons hxy _ ih =>
    cases hbc with
    | cons hyz hbc =>
      refine .cons (htrans _ (.head _) _ (.head _) _ (.head _) hxy hyz) (ih hbc ?_)
      exact fun x hx y hy z hz => htrans x (.tail _ hx) y (.tail _ hy) z (.tail _ hz)

private theorem pairwise_trans (hab : as.length = bs.length) (hbc : bs.length = cs.length)
    (htrans : ∀ x ∈ as, ∀ y ∈ bs, ∀ z ∈ cs, r x y = true → r y z = true → r x z = true)
    (h₁ : pairwise r as bs = true) (h₂ : pairwise r bs cs = true) : pairwise r as cs = true := by
  rw [pairwise_iff hab] at h₁
  rw [pairwise_iff hbc] at h₂
  exact (pairwise_iff (hab.trans hbc)).mpr (forall₂_trans h₁ h₂ htrans)

theorem tupleAssignable_variadic {element : TypeId} :
    tupleAssignable r as [element, .ellipsis] = true ↔
      ∀ x ∈ as, x ≠ .ellipsis → r x element = true := by
  have hvariadic : isVariadic [element, .ellipsis] = true := rfl
  rw [tupleAssignable, if_pos hvariadic, List.all_eq_true]
  simp only [List.mem_filter, bne_iff_ne, List.headD_cons, and_imp]

theorem tupleAssignable_fixed (hbs : isVariadic bs = false) :
    tupleAssignable r as bs = true ↔
      isVariadic as = false ∧ as.length = bs.length ∧ pairwise r as bs = true := by
  rw [tupleAssignable, hbs, if_neg Bool.false_ne_true]
  cases isVariadic as <;> simp

private theorem tupleAssignable_trans
    (htrans : ∀ x ∈ as, ∀ y ∈ bs, ∀ z ∈ cs, r x y = true → r y z = true → r x z = true)
    (hend : ∀ x ∈ as, r x .ellipsis = true → x = .ellipsis)
    (h₁ : tupleAssignable r as bs = true) (h₂ : tupleAssignable r bs cs = true) :
    tupleAssignable r as cs = true := by
  cases hcs : isVariadic cs with
  | true =>
    obtain ⟨z, rfl⟩ := TypeTable.exists_eq_of_isVariadic hcs
    rw [tupleAssignable_variadic] at h₂ ⊢
    intro x hx hne
    obtain ⟨y, hy, hxy⟩ : ∃ y ∈ bs, r x y = true := by
      cases hbs : isVariadic bs with
      | true =>
        obtain ⟨y, rfl⟩ := TypeTable.exists_eq_of_isVariadic hbs
        exact ⟨y, .head _, tupleAssignable_variadic.mp h₁ x hx hne⟩
      | false =>
        obtain ⟨-, hlength, hpairs⟩ := (tupleAssignable_fixed hbs).mp h₁
        obtain ⟨i, hi, rfl⟩ := List.getElem_of_mem hx
        exact ⟨bs[i], List.getElem_mem _, ((pairwise_iff hlength).mp hpairs).get hi (hlength ▸ hi)⟩
    have hyne : y ≠ .ellipsis := by
      rintro rfl
      exact hne (hend x hx hxy)
    exact htrans x hx y hy z (.head _) hxy (h₂ y hy hyne)
  | false =>
    rw [tupleAssignable_fixed hcs] at h₂ ⊢
    obtain ⟨hbs, hbc, hpairs₂⟩ := h₂
    obtain ⟨has, hab, hpairs₁⟩ := (tupleAssignable_fixed hbs).mp h₁
    exact ⟨has, hab.trans hbc, pairwise_trans hab hbc htrans hpairs₁ hpairs₂⟩

theorem instanceAssignable_iff :
    instanceAssignable h r a as b bs = true ↔
      a.promotesTo b = true ∨ isSubclass h a b = true ∧ (bs = [] ∨ a ≠ b ∨
        (if a.builtin? == some .tuple then tupleAssignable r as bs else pairwise r as bs) = true) := by
  rw [instanceAssignable]
  cases a.promotesTo b <;> cases isSubclass h a b <;> simp
  split <;> grind

theorem standsFor_of_instanceAssignable (hab : instanceAssignable h r a as b bs = true) :
    StandsFor h a b := (instanceAssignable_iff.mp hab).imp_right And.left

private theorem ClassKey.not_promotesTo_self (a : ClassKey) : a.promotesTo a = false := by
  cases a with
  | builtin cls => exact cls.promotes_self
  | declared cls => rfl

/-- Instances of one class are compared by their type arguments. -/
theorem instanceAssignable_self (has : a.Takes as) (hbs : a.Takes bs) :
    instanceAssignable h r a as a bs = true ↔
      (if a = .builtin .tuple then tupleAssignable r as bs else pairwise r as bs) = true := by
  have hsub : isSubclass h a a = true := by rw [isSubclass, BEq.rfl, Bool.true_or]
  rw [instanceAssignable_iff, a.not_promotesTo_self, hsub]
  by_cases htuple : a = .builtin .tuple
  · subst htuple
    have hbuiltin : ((ClassKey.builtin .tuple).builtin? == some .tuple) = true := rfl
    simp [hbuiltin, show bs ≠ [] from hbs]
  · have hbuiltin : (a.builtin? == some .tuple) = false := by
      refine beq_false_of_ne fun heq => htuple ?_
      cases a with
      | builtin cls => rw [show cls = .tuple from Option.some.inj heq]
      | declared cls => cases heq
    -- Without type arguments there is nothing to compare.
    have hnil : bs = [] → pairwise r as bs = true := by
      rintro rfl
      rw [List.length_eq_zero_iff.mp (has.length_eq hbs htuple)]
      rfl
    simp only [hbuiltin, htuple, if_neg, not_false_eq_true, Bool.false_eq_true, false_or, true_and,
      ne_eq, not_true_eq_false]
    exact or_iff_right_of_imp hnil

private theorem eq_of_standsFor_builtin (hshort : ShortChains h) {cls : BuiltinClass}
    (hab : StandsFor h (.builtin cls) b) (hba : StandsFor h b (.builtin cls)) :
    b = .builtin cls := by
  obtain ⟨u, rfl, hu⟩ := hab.builtin hshort
  obtain ⟨v, hv, hu'⟩ := hba.builtin hshort
  cases hv
  rw [BuiltinClass.eq_of_standing hu hu']

/-- Being assignable is transitive for instances if it is for their type arguments. -/
theorem instanceAssignable_trans (hshort : ShortChains h) (hh : Conforms h) (has : a.Takes as)
    (hbs : b.Takes bs) (hcs : c.Takes cs)
    (htrans : ∀ x ∈ as, ∀ y ∈ bs, ∀ z ∈ cs, r x y = true → r y z = true → r x z = true)
    (hend : ∀ x ∈ as, r x .ellipsis = true → x = .ellipsis)
    (h₁ : instanceAssignable h r a as b bs = true) (h₂ : instanceAssignable h r b bs c cs = true) :
    instanceAssignable h r a as c cs = true := by
  have hab := standsFor_of_instanceAssignable h₁
  have hbc := standsFor_of_instanceAssignable h₂
  have hac := standsFor_trans hshort hh hab hbc
  by_cases hne : a = c
  · subst hne
    cases a with
    | declared cls =>
      exact instanceAssignable_iff.mpr (hac.imp_right fun hsub => ⟨hsub, .inl hcs⟩)
    | builtin cls =>
      obtain rfl := eq_of_standsFor_builtin hshort hab hbc
      rw [instanceAssignable_self has hbs] at h₁
      rw [instanceAssignable_self hbs hcs] at h₂
      rw [instanceAssignable_self has hcs]
      split at h₁
      · next htuple =>
        rw [if_pos htuple] at h₂ ⊢
        exact tupleAssignable_trans htrans hend h₁ h₂
      · next htuple =>
        rw [if_neg htuple] at h₂ ⊢
        exact pairwise_trans (has.length_eq hbs htuple) (hbs.length_eq hcs htuple) htrans h₁ h₂
  · exact instanceAssignable_iff.mpr (hac.imp_right fun hsub => ⟨hsub, .inr (.inl hne)⟩)

end LiveCheck
