import LiveCheck.Proofs.TypeIdentity
import LiveCheck.Proofs.Types.Instances

/-!
# When being assignable is transitive

Numbers are promoted class by class: `bool` is named beside `int`, but the classes that a program
declares below `int` are not. And tuples of any length take no notice of `...` among the elements of
a tuple. For types that are made of classes, complete containers, class objects and unions this is
all that stands in the way: being assignable is transitive if and only if every class that is
declared below a number is also below what that number stands for, and none is below the class of
`...`.
-/

namespace LiveCheck.TypeTable

variable {t : TypeTable} {h : Hierarchy} {id a b c s g inner inner' : TypeId}
  {n m k : Nat} {cls cls' : ClassKey} {args args' members : List TypeId}

/-- Types with some number of levels that are made of instances of classes with all of their type
arguments, of class objects, and of unions of at least two of them. -/
inductive Concrete (t : TypeTable) : Nat → TypeId → Prop
  | inst {n : Nat} {id : TypeId} {cls : ClassKey} {args : List TypeId} :
    t.get? id = some (.inst cls args) → cls.Takes args → (∀ arg ∈ args, Concrete t n arg) →
    Concrete t (n + 1) id
  | classObject {n : Nat} {id inner : TypeId} :
    t.get? id = some (.classObject inner) → Concrete t n inner → Concrete t (n + 1) id
  | union {n : Nat} {id : TypeId} {members : List TypeId} :
    t.get? id = some (.union members) → 2 ≤ members.length → members.Nodup →
    (∀ m ∈ members, t.isUnion m = false) → (∀ m ∈ members, Concrete t n m) → Concrete t (n + 1) id

/-- A table that the initial one may grow to: no entry occurs twice. -/
structure Grown (t : TypeTable) : Prop where
  base : initial.Extends t
  identifying : t.Identifying

private theorem Concrete.nestedWithin (hid : t.Concrete n id) : t.NestedWithin n id := by
  induction hid with
  | inst hd _ _ ih =>
    intro part hp
    rw [comparedParts_eq hd] at hp
    exact ih part hp
  | classObject hd _ ih =>
    intro part hp
    rw [comparedParts_eq hd] at hp
    exact List.mem_singleton.mp hp ▸ ih
  | union hd _ _ _ _ ih =>
    intro part hp
    rw [comparedParts_eq hd] at hp
    exact ih part hp

private theorem Concrete.mono (hid : t.Concrete n id) (hle : n ≤ m) : t.Concrete m id := by
  induction hid generalizing m with
  | inst hd htakes _ ih =>
    obtain ⟨m, rfl⟩ := Nat.exists_eq_add_of_le' (Nat.lt_of_lt_of_le (Nat.succ_pos _) hle)
    exact .inst hd htakes fun arg harg => ih arg harg (Nat.le_of_succ_le_succ hle)
  | classObject hd _ ih =>
    obtain ⟨m, rfl⟩ := Nat.exists_eq_add_of_le' (Nat.lt_of_lt_of_le (Nat.succ_pos _) hle)
    exact .classObject hd (ih (Nat.le_of_succ_le_succ hle))
  | union hd hlength hnodup hflat _ ih =>
    obtain ⟨m, rfl⟩ := Nat.exists_eq_add_of_le' (Nat.lt_of_lt_of_le (Nat.succ_pos _) hle)
    exact .union hd hlength hnodup hflat fun x hx => ih x hx (Nat.le_of_succ_le_succ hle)

private theorem Concrete.takes (hid : t.Concrete n id) (hd : t.get? id = some (.inst cls args)) :
    cls.Takes args := by
  cases hid with
  | inst hd' htakes =>
    cases hd.symm.trans hd'
    exact htakes
  | classObject hd' | union hd' => exact nomatch hd.symm.trans hd'

/-! ## The entries of a table -/

private theorem get?_object (ht : t.Grown) : t.get? .object = some (.inst .object []) :=
  ht.base.get? rfl

private theorem get?_ellipsis (ht : t.Grown) :
    t.get? .ellipsis = some (.inst (.builtin .ellipsis) []) :=
  ht.base.get? rfl

private theorem Concrete.triviallyAssignable_iff (ht : t.Grown) (hs : t.Concrete n s)
    (hg : t.Concrete m g) : triviallyAssignable s g = true ↔ s = g ∨ g = .object := by
  have hunknown : t.get? .unknown = some .unknown := ht.base.get? rfl
  have hany : t.get? .any = some .any := ht.base.get? rfl
  have hnever : t.get? .never = some .never := ht.base.get? rfl
  have hproper : ∀ {n id}, t.Concrete n id → id ≠ .unknown ∧ id ≠ .any ∧ id ≠ .never := by
    intro n id hid
    refine ⟨?_, ?_, ?_⟩ <;> rintro rfl <;> cases hid <;> simp_all
  obtain ⟨hs₁, hs₂, hs₃⟩ := hproper hs
  obtain ⟨hg₁, hg₂, -⟩ := hproper hg
  simp [triviallyAssignable, hs₁, hs₂, hs₃, hg₁, hg₂]

private theorem assignable_self (id : TypeId) : t.assignable h id id = true :=
  assignable_of_trivially (by rw [triviallyAssignable, BEq.rfl]; rfl)

private theorem assignable_object (id : TypeId) : t.assignable h id .object = true :=
  assignable_of_trivially (by rw [triviallyAssignable, BEq.rfl, Bool.or_true])

/-! ## What a comparison of concrete types says -/

section Comparisons

variable (ht : t.Grown) (hs : t.Concrete n s) (hg : t.Concrete m g)
  (hlevels : n + m ≤ Limits.assignability)

include ht hs hg hlevels

private theorem assignable_iff :
    t.assignable h s g = true ↔
      (s = g ∨ g = .object) ∨ t.structurallyAssignable h (t.assignable h) s g = true := by
  rw [assignable_eq ⟨n, m, hs.nestedWithin, hg.nestedWithin, hlevels⟩, Bool.or_eq_true,
    hs.triviallyAssignable_iff ht hg]

private theorem assignable_union_left (hd : t.get? s = some (.union members)) :
    t.assignable h s g = true ↔ s = g ∨ ∀ x ∈ members, t.assignable h x g = true := by
  have hstructural : t.structurallyAssignable h (t.assignable h) s g =
      members.all fun x => t.assignable h x g := by
    cases hg <;> simp only [structurallyAssignable, *]
  rw [assignable_iff ht hs hg hlevels, hstructural, List.all_eq_true]
  constructor
  · rintro ((heq | rfl) | hall)
    · exact .inl heq
    · exact .inr fun x _ => assignable_object x
    · exact .inr hall
  · rintro (heq | hall)
    · exact .inl (.inl heq)
    · exact .inr hall

private theorem assignable_union_right (hplain : t.isUnion s = false)
    (hd : t.get? g = some (.union members)) :
    t.assignable h s g = true ↔ ∃ x ∈ members, t.assignable h s x = true := by
  have hstructural : t.structurallyAssignable h (t.assignable h) s g =
      members.any fun x => t.assignable h s x := by
    cases hs with
    | union hs => simp [isUnion, hs] at hplain
    | inst hs | classObject hs => simp only [structurallyAssignable, hs, hd]
  rw [assignable_iff ht hs hg hlevels, hstructural, List.any_eq_true]
  refine or_iff_right ?_
  rintro (rfl | rfl)
  · simp [isUnion, hd] at hplain
  · rw [get?_object ht] at hd
    exact nomatch hd

private theorem assignable_inst (hd : t.get? s = some (.inst cls args))
    (hd' : t.get? g = some (.inst cls' args')) (hshort : ShortChains h) :
    t.assignable h s g = true ↔
      s = g ∨ instanceAssignable h (t.assignable h) cls args cls' args' = true := by
  rw [assignable_iff ht hs hg hlevels]
  simp only [structurallyAssignable, hd, hd']
  constructor
  · rintro ((heq | rfl) | hinst)
    · exact .inl heq
    · rw [get?_object ht] at hd'
      cases hd'
      exact .inr (instanceAssignable_iff.mpr (.inr ⟨isSubclass_object hshort cls, .inl rfl⟩))
    · exact .inr hinst
  · rintro (heq | hinst)
    · exact .inl (.inl heq)
    · exact .inr hinst

private theorem assignable_tuple (hd : t.get? s = some (.inst (.builtin .tuple) args))
    (hd' : t.get? g = some (.inst (.builtin .tuple) args')) (hshort : ShortChains h) :
    t.assignable h s g = true ↔ s = g ∨ tupleAssignable (t.assignable h) args args' = true := by
  rw [assignable_inst ht hs hg hlevels hd hd' hshort,
    instanceAssignable_self (hs.takes hd) (hg.takes hd'), if_pos rfl]

private theorem assignable_classObject (hd : t.get? s = some (.classObject inner))
    (hd' : t.get? g = some (.classObject inner')) :
    t.assignable h s g = true ↔ t.assignable h inner inner' = true := by
  rw [assignable_iff ht hs hg hlevels]
  simp only [structurallyAssignable, hd, hd']
  refine or_iff_right_of_imp ?_
  rintro (rfl | rfl)
  · cases hd.symm.trans hd'
    exact assignable_self inner
  · rw [get?_object ht] at hd'
    exact nomatch hd'

private theorem assignable_classObject_inst (hd : t.get? s = some (.classObject inner))
    (hd' : t.get? g = some (.inst cls args)) :
    t.assignable h s g = true ↔ cls = .builtin .type ∨ cls = .object := by
  have htakes := hg.takes hd'
  rw [assignable_iff ht hs hg hlevels]
  constructor
  · rintro ((rfl | rfl) | hstructural)
    · exact nomatch hd.symm.trans hd'
    · rw [get?_object ht] at hd'
      cases hd'
      exact .inr rfl
    · simp only [structurallyAssignable, hd, hd'] at hstructural
      split at hstructural <;> simp_all
  · rintro (rfl | rfl)
    · obtain rfl : args = [] := htakes
      exact .inr (by simp only [structurallyAssignable, hd, hd'])
    · obtain rfl : args = [] := List.length_eq_zero_iff.mp (Option.some.inj htakes).symm
      exact .inl (.inr (ht.identifying.distinct _ _ _ hd' (get?_object ht)))

private theorem not_assignable_inst_classObject (hd : t.get? s = some (.inst cls args))
    (hd' : t.get? g = some (.classObject inner)) : t.assignable h s g = false := by
  rw [Bool.eq_false_iff, Ne, assignable_iff ht hs hg hlevels]
  rintro ((rfl | rfl) | hstructural)
  · exact nomatch hd.symm.trans hd'
  · rw [get?_object ht] at hd'
    exact nomatch hd'
  · simp [structurallyAssignable, hd, hd'] at hstructural

end Comparisons

/-! ## From type to type -/

private theorem Concrete.shape (hid : t.Concrete n id) :
    (∃ members, t.get? id = some (.union members)) ∨ t.isUnion id = false ∧
      ((∃ cls args, t.get? id = some (.inst cls args)) ∨
        ∃ inner, t.get? id = some (.classObject inner)) := by
  cases hid with
  | inst hd => exact .inr ⟨by rw [isUnion, hd], .inl ⟨_, _, hd⟩⟩
  | classObject hd => exact .inr ⟨by rw [isUnion, hd], .inr ⟨_, hd⟩⟩
  | union hd => exact .inl ⟨_, hd⟩

private theorem Concrete.eq_ellipsis (ht : t.Grown) (hshort : ShortChains h) (hh : Conforms h)
    (hs : t.Concrete n s) (hn : n + 1 ≤ Limits.assignability)
    (ha : t.assignable h s .ellipsis = true) : s = .ellipsis := by
  have hd := get?_ellipsis ht
  have hend : t.Concrete 1 .ellipsis := .inst hd rfl nofun
  induction hs with
  | @inst n s cls args hs htakes hargs =>
    refine ((assignable_inst ht (.inst hs htakes hargs) hend hn hs hd hshort).mp ha).elim id ?_
    intro hinst
    rcases standsFor_of_instanceAssignable hinst with hpromotes | hsub
    · obtain ⟨c, e, -, he, hce⟩ := exists_of_promotesTo hpromotes
      cases he
      cases c <;> exact nomatch hce
    · have hbelow := ((isSubclass_iff hshort).mp hsub).resolve_right (by decide)
      cases cls with
      | declared cls => exact absurd hbelow (hh.ellipsis cls)
      | builtin c =>
        obtain ⟨e, he, heq⟩ := below_builtin hbelow
        cases heq
        obtain rfl := BuiltinClass.eq_of_ellipsis_mem_above he
        obtain rfl : args = [] := List.length_eq_zero_iff.mp (Option.some.inj htakes).symm
        exact ht.identifying.distinct _ _ _ hs hd
  | classObject hs hinner =>
    have := (assignable_classObject_inst ht (.classObject hs hinner) hend hn hs hd).mp ha
    rcases this with heq | heq <;> exact nomatch heq
  | @union n s members hs hlength hnodup hflat hmembers ih =>
    -- All members would be `...`, but there are two of them.
    have hall :=
      (assignable_union_left ht (.union hs hlength hnodup hflat hmembers) hend hn hs).mp ha
    refine hall.elim id fun hall => ?_
    have heq : ∀ x ∈ members, x = .ellipsis := fun x hx => ih x hx (by omega) (hall x hx)
    match members, hlength, hnodup with
    | x :: y :: _, _, hnodup =>
      have hx := heq x (.head _)
      have hy := heq y (.tail _ (.head _))
      simp [hx, hy] at hnodup

private theorem eq_of_standsFor_type (hshort : ShortChains h)
    (hcls : cls = .builtin .type ∨ cls = .object)
    (hs : StandsFor h cls cls') : cls' = .builtin .type ∨ cls' = .object := by
  have hall : ∀ c u : BuiltinClass, c = .type ∨ c = .object → promotes c u = true ∨ u ∈ c.above →
      u = .type ∨ u = .object := by
    rintro c u (rfl | rfl) <;> cases u <;> decide
  obtain ⟨c, rfl, hc⟩ : ∃ c, cls = .builtin c ∧ (c = .type ∨ c = .object) := by
    rcases hcls with rfl | rfl
    · exact ⟨.type, rfl, .inl rfl⟩
    · exact ⟨.object, rfl, .inr rfl⟩
  obtain ⟨u, rfl, hu⟩ := hs.builtin hshort
  exact (hall c u hc hu).imp (congrArg ClassKey.builtin) (congrArg ClassKey.builtin)

private def TransitiveBelow (t : TypeTable) (h : Hierarchy) (k : Nat) : Prop :=
  ∀ n m l a b c, n + m + l < k → 2 * n ≤ Limits.assignability → 2 * m ≤ Limits.assignability →
    2 * l ≤ Limits.assignability → t.Concrete n a → t.Concrete m b → t.Concrete l c →
    t.assignable h a b = true → t.assignable h b c = true → t.assignable h a c = true

section Steps

variable {l : Nat} (ht : t.Grown) (hshort : ShortChains h) (ih : t.TransitiveBelow h (n + m + l))
  (hn : 2 * n ≤ Limits.assignability) (hm : 2 * m ≤ Limits.assignability)
  (hl : 2 * l ≤ Limits.assignability) (ha : t.Concrete n a) (hb : t.Concrete m b)
  (hc : t.Concrete l c) (hab : t.assignable h a b = true) (hbc : t.assignable h b c = true)

include ht ih hn hm hl ha hb hc hab hbc

private theorem assignable_trans_union_left (hd : t.get? a = some (.union members)) :
    t.assignable h a c = true := by
  rcases (assignable_union_left ht ha hb (by omega) hd).mp hab with rfl | hall
  · exact hbc
  · refine (assignable_union_left ht ha hc (by omega) hd).mpr (.inr fun x hx => ?_)
    cases ha with
    | inst ha | classObject ha => exact nomatch hd.symm.trans ha
    | @union n _ _ ha _ _ _ hmembers =>
      cases hd.symm.trans ha
      exact ih n m l x b c (by omega) (by omega) hm hl (hmembers x hx) hb hc (hall x hx) hbc

private theorem assignable_trans_union_mid (hplain : t.isUnion a = false)
    (hd : t.get? b = some (.union members)) : t.assignable h a c = true := by
  obtain ⟨x, hx, hax⟩ := (assignable_union_right ht ha hb (by omega) hplain hd).mp hab
  rcases (assignable_union_left ht hb hc (by omega) hd).mp hbc with rfl | hall
  · exact hab
  · cases hb with
    | inst hb | classObject hb => exact nomatch hd.symm.trans hb
    | @union m _ _ hb _ _ _ hmembers =>
      cases hd.symm.trans hb
      exact ih n m l a x c (by omega) hn (by omega) hl ha (hmembers x hx) hc hax (hall x hx)

private theorem assignable_trans_union_right (hplain : t.isUnion a = false)
    (hplain' : t.isUnion b = false)
    (hd : t.get? c = some (.union members)) : t.assignable h a c = true := by
  obtain ⟨x, hx, hbx⟩ := (assignable_union_right ht hb hc (by omega) hplain' hd).mp hbc
  refine (assignable_union_right ht ha hc (by omega) hplain hd).mpr ⟨x, hx, ?_⟩
  cases hc with
  | inst hc | classObject hc => exact nomatch hd.symm.trans hc
  | @union l _ _ hc _ _ _ hmembers =>
    cases hd.symm.trans hc
    exact ih n m l a b x (by omega) hn hm (by omega) ha hb (hmembers x hx) hab hbx

include hshort

private theorem assignable_trans_inst (hh : Conforms h) (hda : t.get? a = some (.inst cls args))
    (hplain : t.isUnion b = false) (hplain' : t.isUnion c = false) :
    t.assignable h a c = true := by
  cases hb with
  | union hdb => simp [isUnion, hdb] at hplain
  | classObject hdb hinner =>
    rw [not_assignable_inst_classObject ht ha (.classObject hdb hinner) (by omega) hda hdb] at hab
    exact nomatch hab
  | @inst m _ kb bs hdb htakes' hargs' =>
    have hb : t.Concrete (m + 1) b := .inst hdb htakes' hargs'
    cases hc with
    | union hdc => simp [isUnion, hdc] at hplain'
    | classObject hdc hinner =>
      rw [not_assignable_inst_classObject ht hb (.classObject hdc hinner) (by omega) hdb hdc] at hbc
      exact nomatch hbc
    | @inst l _ kc cs hdc htakes'' hargs'' =>
      have hc : t.Concrete (l + 1) c := .inst hdc htakes'' hargs''
      rcases (assignable_inst ht ha hb (by omega) hda hdb hshort).mp hab with rfl | hab'
      · exact hbc
      rcases (assignable_inst ht hb hc (by omega) hdb hdc hshort).mp hbc with rfl | hbc'
      · exact hab
      refine (assignable_inst ht ha hc (by omega) hda hdc hshort).mpr (.inr ?_)
      cases ha with
      | classObject ha | union ha => exact nomatch hda.symm.trans ha
      | @inst n _ _ _ ha htakes hargs =>
        cases hda.symm.trans ha
        refine instanceAssignable_trans hshort hh htakes htakes' htakes'' ?_ ?_ hab' hbc'
        · intro x hx y hy z hz
          exact ih n m l x y z (by omega) (by omega) (by omega) (by omega) (hargs x hx)
            (hargs' y hy) (hargs'' z hz)
        · exact fun x hx => (hargs x hx).eq_ellipsis ht hshort hh (by omega)

private theorem assignable_trans_classObject (hda : t.get? a = some (.classObject inner))
    (hplain : t.isUnion b = false) (hplain' : t.isUnion c = false) :
    t.assignable h a c = true := by
  cases hb with
  | union hb => simp [isUnion, hb] at hplain
  | @inst m _ kb bs hdb htakes hargs =>
    have hb : t.Concrete (m + 1) b := .inst hdb htakes hargs
    have hkb := (assignable_classObject_inst ht ha hb (by omega) hda hdb).mp hab
    cases hc with
    | union hc => simp [isUnion, hc] at hplain'
    | classObject hc hinner =>
      rw [not_assignable_inst_classObject ht hb (.classObject hc hinner) (by omega) hdb hc] at hbc
      exact nomatch hbc
    | @inst l _ kc cs hdc htakes' hargs' =>
      have hc : t.Concrete (l + 1) c := .inst hdc htakes' hargs'
      rcases (assignable_inst ht hb hc (by omega) hdb hdc hshort).mp hbc with rfl | hbc'
      · exact hab
      · refine (assignable_classObject_inst ht ha hc (by omega) hda hdc).mpr ?_
        exact eq_of_standsFor_type hshort hkb (standsFor_of_instanceAssignable hbc')
  | @classObject m _ innerB hdb hinnerB =>
    have hb : t.Concrete (m + 1) b := .classObject hdb hinnerB
    have hinner := (assignable_classObject ht ha hb (by omega) hda hdb).mp hab
    cases hc with
    | union hc => simp [isUnion, hc] at hplain'
    | @inst l _ kc cs hdc htakes hargs =>
      have hc : t.Concrete (l + 1) c := .inst hdc htakes hargs
      rw [assignable_classObject_inst ht hb hc (by omega) hdb hdc] at hbc
      exact (assignable_classObject_inst ht ha hc (by omega) hda hdc).mpr hbc
    | @classObject l _ innerC hdc hinnerC =>
      have hc : t.Concrete (l + 1) c := .classObject hdc hinnerC
      have hinner' := (assignable_classObject ht hb hc (by omega) hdb hdc).mp hbc
      refine (assignable_classObject ht ha hc (by omega) hda hdc).mpr ?_
      cases ha with
      | inst ha | union ha => exact nomatch hda.symm.trans ha
      | @classObject n _ _ ha hinnerA =>
        cases hda.symm.trans ha
        exact ih n m l inner innerB innerC (by omega) (by omega) (by omega) (by omega) hinnerA
          hinnerB hinnerC hinner hinner'

end Steps

private theorem transitiveBelow (ht : t.Grown) (hshort : ShortChains h) (hh : Conforms h)
    (k : Nat) :
    t.TransitiveBelow h k := by
  induction k with
  | zero =>
    intro n m l a b c hk
    exact absurd hk (Nat.not_lt_zero _)
  | succ k ihk =>
    intro n m l a b c hk hn hm hl ha hb hc hab hbc
    have ih : t.TransitiveBelow h (n + m + l) := fun n' m' l' a' b' c' hk' =>
      ihk n' m' l' a' b' c' (by omega)
    rcases ha.shape with ⟨members, hda⟩ | ⟨hpa, hda⟩
    · exact assignable_trans_union_left ht ih hn hm hl ha hb hc hab hbc hda
    rcases hb.shape with ⟨members, hdb⟩ | ⟨hpb, -⟩
    · exact assignable_trans_union_mid ht ih hn hm hl ha hb hc hab hbc hpa hdb
    rcases hc.shape with ⟨members, hdc⟩ | ⟨hpc, -⟩
    · exact assignable_trans_union_right ht ih hn hm hl ha hb hc hab hbc hpa hpb hdc
    rcases hda with ⟨cls, args, hda⟩ | ⟨inner, hda⟩
    · exact assignable_trans_inst ht hshort ih hn hm hl ha hb hc hab hbc hh hda hpb hpc
    · exact assignable_trans_classObject ht hshort ih hn hm hl ha hb hc hab hbc hda hpb hpc

/-! ## What stands in the way -/

private theorem Grown.exists_type (ht : t.Grown) (data : TypeData)
    (hparts : ∀ part ∈ data.parts, part < t.size) (hf : ∀ shape, data ≠ .function shape) :
    ∃ t' id, t'.Grown ∧ t.Extends t' ∧ t'.get? id = some data := by
  have hidentifying := ht.identifying.intern (ht.identifying.lt_of_mem_partsOf hparts)
    fun shape he => absurd he (hf shape)
  have hextends := extends_intern data t
  exact ⟨_, _, ⟨ht.base.trans hextends, hidentifying⟩, hextends, get?_intern t data⟩

private theorem grown_initial : initial.Grown := ⟨.refl initial, identifying_initial⟩

private theorem takes_of_promotes {s u : BuiltinClass} (hsu : promotes s u = true) :
    (ClassKey.builtin s).Takes [] ∧ (ClassKey.builtin u).Takes [] ∧ u ≠ .object := by
  unfold promotes at hsu
  split at hsu <;> first | exact ⟨rfl, rfl, nofun⟩ | exact nomatch hsu

/-- Being assignable is transitive on the concrete types of all tables. -/
def TransitiveAssignability (h : Hierarchy) : Prop :=
  ∀ t : TypeTable, t.Grown → ∀ a b c, t.Concrete (Limits.assignability / 2) a →
    t.Concrete (Limits.assignability / 2) b → t.Concrete (Limits.assignability / 2) c →
    t.assignable h a b = true → t.assignable h b c = true → t.assignable h a c = true

private theorem below_of_promotes (hshort : ShortChains h) (htrans : TransitiveAssignability h)
    {cls : DeclaredClass} {s u : BuiltinClass} (hbelow : Below h (.declared cls) (.builtin s))
    (hsu : promotes s u = true) : Below h (.declared cls) (.builtin u) := by
  obtain ⟨hs, hu, hne⟩ := takes_of_promotes hsu
  obtain ⟨t₁, a, ht₁, -, hda⟩ := grown_initial.exists_type (.inst (.declared cls) []) nofun nofun
  obtain ⟨t₂, b, ht₂, h₁₂, hdb⟩ := ht₁.exists_type (.inst (.builtin s) []) nofun nofun
  obtain ⟨t, c, ht, h₂, hdc⟩ := ht₂.exists_type (.inst (.builtin u) []) nofun nofun
  replace hda := h₂.get? (h₁₂.get? hda)
  replace hdb := h₂.get? hdb
  have ha : t.Concrete 1 a := .inst hda rfl nofun
  have hb : t.Concrete 1 b := .inst hdb hs nofun
  have hc : t.Concrete 1 c := .inst hdc hu nofun
  have hab : t.assignable h a b = true := by
    refine (assignable_inst ht ha hb (by decide) hda hdb hshort).mpr (.inr ?_)
    exact instanceAssignable_iff.mpr (.inr ⟨(isSubclass_iff hshort).mpr (.inl hbelow), .inl rfl⟩)
  have hbc : t.assignable h b c = true := by
    refine (assignable_inst ht hb hc (by decide) hdb hdc hshort).mpr (.inr ?_)
    exact instanceAssignable_iff.mpr (.inl hsu)
  have hac := htrans t ht a b c (ha.mono (by decide)) (hb.mono (by decide)) (hc.mono (by decide))
    hab hbc
  rcases (assignable_inst ht ha hc (by decide) hda hdc hshort).mp hac with rfl | hac
  · exact nomatch hda.symm.trans hdc
  · rcases standsFor_of_instanceAssignable hac with hpromotes | hsub
    · exact nomatch hpromotes
    · refine ((isSubclass_iff hshort).mp hsub).resolve_right fun heq => hne ?_
      cases heq
      rfl

private theorem not_below_ellipsis (hshort : ShortChains h) (htrans : TransitiveAssignability h)
    (cls : DeclaredClass) : ¬ Below h (.declared cls) (.builtin .ellipsis) := by
  intro hbelow
  obtain ⟨t₁, e, ht₁, -, hde⟩ := grown_initial.exists_type (.inst (.declared cls) [])
    (List.forall_mem_nil _) (by simp)
  have hint : t₁.get? .int = some (.inst (.builtin .int) []) := ht₁.base.get? rfl
  obtain ⟨t₂, i, ht₂, h₁, hdi⟩ := ht₁.exists_type (.classObject .int)
    (by simpa [TypeData.parts] using lt_size_of_get? hint) (by simp)
  obtain ⟨t₃, a, ht₃, h₂, hda⟩ := ht₂.exists_type (.inst (.builtin .tuple) [e])
    (by simpa [TypeData.parts] using lt_size_of_get? (h₁.get? hde)) (by simp)
  obtain ⟨t₄, b, ht₄, h₃, hdb⟩ := ht₃.exists_type (.inst (.builtin .tuple) [.ellipsis])
    (by simpa [TypeData.parts] using lt_size_of_get? (get?_ellipsis ht₃)) (by simp)
  obtain ⟨t, c, ht, h₄, hdc⟩ := ht₄.exists_type (.inst (.builtin .tuple) [i, .ellipsis]) (by
    simpa [TypeData.parts] using
      And.intro (lt_size_of_get? (h₃.get? (h₂.get? hdi)))
        (lt_size_of_get? (get?_ellipsis ht₄))) (by simp)
  replace hde := h₄.get? (h₃.get? (h₂.get? (h₁.get? hde)))
  replace hdi := h₄.get? (h₃.get? (h₂.get? hdi))
  replace hda := h₄.get? (h₃.get? hda)
  replace hdb := h₄.get? hdb
  have hends : t.Concrete 1 .ellipsis := .inst (get?_ellipsis ht) rfl (List.forall_mem_nil _)
  have he : t.Concrete 1 e := .inst hde rfl (List.forall_mem_nil _)
  have hi : t.Concrete 2 i :=
    .classObject hdi (.inst (ht.base.get? rfl) rfl (List.forall_mem_nil _))
  have ha : t.Concrete 2 a := .inst hda (List.cons_ne_nil _ _) (by simpa using he)
  have hb : t.Concrete 2 b := .inst hdb (List.cons_ne_nil _ _) (by simpa using hends)
  have hc : t.Concrete 3 c :=
    .inst hdc (List.cons_ne_nil _ _) (by simpa using ⟨hi, hends.mono (by decide)⟩)
  have hab : t.assignable h a b = true := by
    have hstands : t.assignable h e .ellipsis = true := by
      refine (assignable_inst ht he hends (by decide) hde (get?_ellipsis ht) hshort).mpr (.inr ?_)
      exact instanceAssignable_iff.mpr (.inr ⟨(isSubclass_iff hshort).mpr (.inl hbelow), .inl rfl⟩)
    refine (assignable_tuple ht ha hb (by decide) hda hdb hshort).mpr (.inr ?_)
    exact (tupleAssignable_fixed rfl).mpr ⟨rfl, rfl, by simp [pairwise, hstands]⟩
  have hbc : t.assignable h b c = true := by
    refine (assignable_tuple ht hb hc (by decide) hdb hdc hshort).mpr (.inr ?_)
    exact tupleAssignable_variadic.mpr fun x hx hne => absurd (List.mem_singleton.mp hx) hne
  have hac := htrans t ht a b c (ha.mono (by decide)) (hb.mono (by decide)) (hc.mono (by decide))
    hab hbc
  rcases (assignable_tuple ht ha hc (by decide) hda hdc hshort).mp hac with rfl | hac
  · cases hda.symm.trans hdc
  · have hne : e ≠ .ellipsis := by
      rintro rfl
      cases hde.symm.trans (get?_ellipsis ht)
    have hei := tupleAssignable_variadic.mp hac e (.head _) hne
    rw [not_assignable_inst_classObject ht he hi (by decide) hde hdi] at hei
    cases hei

/-- Being assignable is transitive exactly if declared classes are promoted as the numbers above
them are, and none is below the class of `...`. -/
theorem transitiveAssignability_iff (hshort : ShortChains h) :
    TransitiveAssignability h ↔ Conforms h := by
  constructor
  · intro htrans
    exact ⟨fun cls s u hbelow hsu => below_of_promotes hshort htrans hbelow hsu,
      not_below_ellipsis hshort htrans⟩
  · intro hh t ht a b c ha hb hc
    exact transitiveBelow ht hshort hh _ _ _ _ a b c (Nat.lt_succ_self _) (by decide) (by decide)
      (by decide) ha hb hc

/-- Every declared class has the one base `int`. -/
def belowInt : Hierarchy := fun _ => [.builtin .int]

private theorem shortChains_belowInt : ShortChains belowInt := by
  let rank (key : ClassKey) : Nat :=
    key.builtin?.elim (BuiltinClass.int.above.length + 1) (·.above.length)
  refine shortChains_of_rank rank ?_ ?_
  · rintro (cls | cls) base hbase
    · obtain ⟨b, hb, rfl⟩ := exists_of_hasBase_builtin hbase
      exact cls.length_above_base_lt b hb
    · obtain rfl := List.mem_singleton.mp hbase
      exact Nat.lt_succ_self _
  · rintro (cls | cls)
    · cases cls <;> decide
    · exact (by decide : BuiltinClass.int.above.length + 1 < Limits.resolutionOrder)

/-- An instance of a class below `int` may stand for `int`, and `int` may stand for `float`, but the
instance may not. -/
theorem transitiveAssignability_fails_belowInt :
    ShortChains belowInt ∧ ¬ TransitiveAssignability belowInt := by
  refine ⟨shortChains_belowInt, fun htrans => ?_⟩
  have hh := (transitiveAssignability_iff shortChains_belowInt).mp htrans
  have hint : Below belowInt (.declared ⟨⟨0, 0⟩, "C"⟩) (.builtin .int) := .single (.head _)
  obtain heq | ⟨base, hbase, hbelow⟩ := (hh.numbers _ _ .float hint rfl).cases_head
  · exact nomatch heq
  · obtain rfl := List.mem_singleton.mp hbase
    obtain ⟨u, hu, heq⟩ := below_builtin hbelow
    cases heq
    exact absurd hu (by decide)

end LiveCheck.TypeTable
