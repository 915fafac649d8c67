import LiveCheck.Proofs.Types.PlainComparison
import LiveCheck.Proofs.DistributedOperators

/-!
# Operators on tuples

Operators keep types well formed, with one exception: `+` puts the arguments of the right tuple
behind those of the left one, also if one of them is a tuple of any length. So `tuple[int, ...]` and
`tuple[str]` give three arguments with `...` in the middle, which nobody reads as they are meant.
-/

/-!
## Well-formed tuples

The arguments of a tuple are the types of its elements, or one type and `...` behind it: the type
`tuple[T, ...]` of the tuples of any length. Whoever asks whether a tuple has any length asks for
these two arguments. So types are only read as they are meant if `...` stands nowhere else.
-/

namespace LiveCheck

variable {args args' : List TypeId}

/-! ### The arguments of a tuple -/

/-- If `...` is among the arguments of a tuple, then they are those of `tuple[T, ...]`. -/
def TupleArguments (args : List TypeId) : Prop :=
  TypeId.ellipsis ∈ args → ∃ element ≠ TypeId.ellipsis, args = [element, .ellipsis]

private theorem TupleArguments.isVariadic_iff (h : TupleArguments args) :
    isVariadic args = true ↔ TypeId.ellipsis ∈ args := by
  constructor
  · intro hvariadic
    obtain ⟨element, rfl⟩ := TypeTable.exists_eq_of_isVariadic hvariadic
    exact .tail _ (.head _)
  · intro hmem
    obtain ⟨element, -, rfl⟩ := h hmem
    exact beq_self_eq_true _

/-- Two lists of arguments, one for tuples of any length and the other not empty. -/
def Entangled (args args' : List TypeId) : Prop :=
  isVariadic args = true ∧ args' ≠ [] ∨ args ≠ [] ∧ isVariadic args' = true

private theorem tupleArguments_append_iff (h : TupleArguments args) (h' : TupleArguments args') :
    TupleArguments (args ++ args') ↔ ¬ Entangled args args' := by
  rw [Entangled, h.isVariadic_iff, h'.isVariadic_iff]
  constructor
  · rintro happend (⟨hmem, hne⟩ | ⟨hne, hmem⟩)
    · obtain ⟨element, -, rfl⟩ := h hmem
      obtain ⟨_, -, heq⟩ := happend (List.mem_append_left _ hmem)
      exact hne (by simpa using (congrArg List.length heq))
    · obtain ⟨element, -, rfl⟩ := h' hmem
      obtain ⟨_, -, heq⟩ := happend (List.mem_append_right _ hmem)
      exact hne (by simpa using (congrArg List.length heq))
  · intro hclear hmem
    rcases List.mem_append.mp hmem with hmem | hmem
    · have hnil : args' = [] := by
        by_contra hne
        exact hclear (.inl ⟨hmem, hne⟩)
      rw [hnil, List.append_nil]
      exact h hmem
    · have hnil : args = [] := by
        by_contra hne
        exact hclear (.inr ⟨hne, hmem⟩)
      rw [hnil, List.nil_append]
      exact h' hmem

namespace TypeTable

variable {t t' : TypeTable} {id part : TypeId} {data : TypeData}

/-! ### Well-formed types -/

/-- All tuples that a type refers to, at whatever depth, have the arguments of a tuple. -/
def WellFormed (t : TypeTable) (id : TypeId) : Prop :=
  ∀ part args, t.Reaches t.partsOf id part →
    t.get? part = some (.inst (.builtin .tuple) args) → TupleArguments args

private theorem wellFormed_iff (hd : t.get? id = some data) : t.WellFormed id ↔
    (∀ args, data = .inst (.builtin .tuple) args → TupleArguments args) ∧
      ∀ part ∈ t.partsOf data, t.WellFormed part := by
  have hedges : t.edgesOf t.partsOf id = t.partsOf data := by
    rw [edgesOf, hd, Option.elim_some]
  constructor
  · intro h
    refine ⟨fun args hdata => h id args .refl (hdata ▸ hd), fun part hpart other args hreach => ?_⟩
    exact h other args (hreach.head (hedges.symm ▸ hpart))
  · rintro ⟨hown, hparts⟩ other args hreach hother
    obtain rfl | ⟨part, hpart, hreach⟩ := hreach.cases_head
    · exact hown args (Option.some.inj (hd.symm.trans hother))
    · exact hparts part (hedges ▸ hpart) other args hreach hother

private theorem WellFormed.of_mem_parts (h : t.WellFormed id) (hd : t.get? id = some data)
    (hpart : part ∈ data.parts) : t.WellFormed part :=
  ((wellFormed_iff hd).mp h).2 part (t.parts_subset_partsOf data hpart)

private theorem wellFormed_intrinsic (hbase : initial.Extends t)
    (hid : id < TypeId.intrinsicCount) :
    t.WellFormed id := by
  obtain ⟨data, hd⟩ : ∃ data, initial.get? id = some data := exists_get? hid
  have hall : ∀ i < TypeId.intrinsicCount, initial.builtin? i ≠ some .tuple := by decide
  refine (wellFormed_iff (hbase.get? hd)).mpr ⟨?_, ?_⟩
  · rintro args rfl
    exact absurd (by rw [builtin?, builtinParts?, hd]; rfl) (hall id hid)
  · rw [hbase.partsOf (closed_initial 0) hd, partsOf_of_get?_initial hd]
    exact List.forall_mem_nil _

private theorem Extends.wellFormed_iff (h : t.Extends t') (ht : t.Closed 0) (hid : id < t.size) :
    t'.WellFormed id ↔ t.WellFormed id := by
  have hsame (id : TypeId) (data : TypeData) (hd : t.get? id = some data) :
      t'.partsOf data = t.partsOf data := h.partsOf ht hd
  constructor
  · exact fun hid part args hreach hpart => hid part args (hreach.later h hsame) (h.get? hpart)
  · intro hwell part args hreach hpart
    obtain ⟨hearlier, hlt⟩ := hreach.earlier h
      (fun id data hd => ⟨hsame id data hd, fun _ => ht.partsOf_lt_size hd⟩) hid
    obtain ⟨data, hd⟩ := exists_get? hlt
    exact hwell part args hearlier (hd.trans ((h.get? hd).symm.trans hpart))

end TypeTable
end LiveCheck

namespace LiveCheck

private theorem forall_mem_iff_of_forall₂ {α β : Type} {l : List α} {l' : List β} {P : α → Prop}
    {Q : β → Prop} (h : List.Forall₂ (fun a b => Q b ↔ P a) l l') :
    (∀ b ∈ l', Q b) ↔ ∀ a ∈ l, P a := by
  induction h with
  | nil => simp
  | cons hiff _ ih => rw [List.forall_mem_cons, List.forall_mem_cons, hiff, ih]

namespace TypeTable

variable {α : Type} {op : BinaryOp} {t s s' : TypeTable} {left right id : TypeId} {data : TypeData}
  {cls cls' : BuiltinClass} {args args' ids : List TypeId} {l : List α} {clash : Prop}

/-! ## Later tables -/

private theorem Later.refl (ht : t.Closed 0) : Later t t := ⟨.refl t, ht⟩

private theorem Later.trans (h : Later t s) (h' : Later s s') : Later t s' :=
  ⟨h.kept.trans h'.kept, h'.closed⟩

private theorem forall₂_of_collect {f : α → TypeM (Option TypeId)}
    {R : α → TypeId → TypeTable → Prop}
    (hf : ∀ a ∈ l, ∀ s, Later t s → ∀ id s', f a s = (some id, s') → Later s s' ∧ R a id s')
    (hR : ∀ a id s s', Later t s → Later s s' → R a id s → R a id s') (hs : Later t s)
    (h : collect f l s = (some ids, s')) :
    Later s s' ∧ List.Forall₂ (fun a id => R a id s') l ids := by
  induction l generalizing s ids with
  | nil =>
    cases h
    exact ⟨.refl hs.closed, .nil⟩
  | cons a l ih =>
    rw [collect_cons] at h
    rcases hfirst : f a s with ⟨_ | id, s₁⟩
    · rw [hfirst] at h
      cases h
    · obtain ⟨hlater, hresult⟩ := hf a (.head _) s hs id s₁ hfirst
      rw [hfirst] at h
      rcases hrest : collect f l s₁ with ⟨_ | rest, s₂⟩
      · simp only [hrest] at h
        cases h
      · simp only [hrest] at h
        cases h
        have hs₁ := hs.trans hlater
        obtain ⟨hend, hall⟩ := ih (fun a ha => hf a (.tail _ ha)) hs₁ hrest
        exact ⟨hlater.trans hend, .cons (hR a id s₁ s' hs₁ hend hresult) hall⟩

/-! ## Making well-formed types -/

/-- A well-formed type of the table. -/
private structure Regular (t : TypeTable) (id : TypeId) : Prop where
  inside : id < t.size
  wellFormed : t.WellFormed id

/-- A computation has made a well-formed type. -/
private structure Makes (t : TypeTable) (r : TypeId × TypeTable) : Prop extends Later t r.2 where
  regular : r.2.Regular r.1

private theorem Regular.later (hid : t.Regular id) (ht : t.Closed 0) (h : t.Extends s) :
    s.Regular id :=
  ⟨Nat.lt_of_lt_of_le hid.inside h.size_le, (h.wellFormed_iff ht hid.inside).mpr hid.wellFormed⟩

private theorem regular_intrinsic (ht : t.Closed 0) (hid : id < TypeId.intrinsicCount) :
    t.Regular id :=
  have hbase := (ht.proper rfl).base
  ⟨Nat.lt_of_lt_of_le hid hbase.size_le, wellFormed_intrinsic hbase hid⟩

private theorem Regular.of_mem_parts (hid : t.Regular id) (ht : t.Closed 0)
    (hd : t.get? id = some data)
    {part : TypeId} (hpart : part ∈ data.parts) : t.Regular part :=
  ⟨ht.part_lt_size hd hpart, hid.wellFormed.of_mem_parts hd hpart⟩

private theorem Regular.of_mem_members (hid : t.Regular id) (ht : t.Closed 0) {m : TypeId}
    (hm : m ∈ t.members id) : t.Regular m := by
  unfold members at hm
  split at hm
  · next ms hd => exact hid.of_mem_parts ht hd hm
  · exact List.mem_singleton.mp hm ▸ hid

private theorem regular_argument (ht : t.Closed 0) (hargs : ∀ a ∈ args, t.Regular a) (index : Nat) :
    t.Regular (argument args index) := by
  unfold argument
  rw [List.getD_eq_getElem?_getD]
  cases hi : args[index]? with
  | none => exact regular_intrinsic ht (by decide)
  | some a => exact hargs a (List.mem_of_getElem? hi)

private theorem wellFormed_intern_iff (ht : t.Closed 0)
    (hparts : ∀ part ∈ data.parts, t.Regular part)
    (hf : ∀ shape, data ≠ .function shape) :
    (intern data t).2.WellFormed (intern data t).1 ↔
      ∀ args, data = .inst (.builtin .tuple) args → TupleArguments args := by
  rw [wellFormed_iff (get?_intern t data), partsOf_of_ne_function hf]
  refine and_iff_left fun part hpart => ?_
  exact ((hparts part hpart).later ht (extends_intern data t)).wellFormed

private theorem later_intern (ht : t.Closed 0) (hparts : ∀ part ∈ data.parts, t.Regular part)
    (hf : ∀ shape, data ≠ .function shape) (hflat : t.Flat data) : Later t (intern data t).2 := by
  have hinside (part : TypeId) (hpart : part ∈ data.parts) : part < t.extent 0 :=
    extent_zero t ▸ (hparts part hpart).inside
  have houtcome := outcome_intern ht
    ⟨fun part hpart => .inr (hinside part hpart), fun shape he => absurd he (hf shape), fun _ => hflat⟩
  exact ⟨houtcome.step, houtcome.ok⟩

private theorem makes_intern (ht : t.Closed 0) (hparts : ∀ part ∈ data.parts, t.Regular part)
    (hf : ∀ shape, data ≠ .function shape) (hflat : t.Flat data)
    (hown : ∀ args, data = .inst (.builtin .tuple) args → TupleArguments args) :
    Makes t (intern data t) :=
  ⟨later_intern ht hparts hf hflat, lt_size_of_get? (get?_intern t data),
    (wellFormed_intern_iff ht hparts hf).mpr hown⟩

private theorem Makes.bind {m : TypeM TypeId} {k : TypeId → TypeM TypeId} (hm : Makes t (m t))
    (hk : ∀ id s, Later t s → s.Regular id → Makes s (k id s)) : Makes t ((m >>= k) t) :=
  have hrest := hk (m t).1 (m t).2 hm.toLater hm.regular
  ⟨hm.toLater.trans hrest.toLater, hrest.regular⟩

/-! ### Unions -/

private theorem regular_of_mem_flatten (ht : t.Closed 0) (hids : ∀ id ∈ ids, t.Regular id)
    {m : TypeId}
    (hm : m ∈ t.flatten ids) : t.Regular m := by
  rw [flatten, List.mem_eraseDups, List.mem_flatMap] at hm
  obtain ⟨id, hid, hm⟩ := hm
  exact (hids id (List.mem_filter.mp hid).1).of_mem_members ht hm

private theorem makes_union (ht : t.Closed 0) (hids : ∀ id ∈ ids, t.Regular id) :
    Makes t (union ids t) := by
  have hfixed {id : TypeId} (hid : id < TypeId.intrinsicCount) : Makes t (id, t) :=
    ⟨.refl ht, regular_intrinsic ht hid⟩
  cases union_cases ids t with
  | unknown _ heq | any _ _ heq | none _ _ _ heq | tooMany _ _ _ heq =>
    exact heq ▸ hfixed (by decide)
  | one _ _ hflat heq =>
    exact heq ▸ ⟨.refl ht, regular_of_mem_flatten ht hids (hflat ▸ .head _)⟩
  | many _ _ _ _ heq =>
    exact heq ▸ makes_intern ht (fun m => regular_of_mem_flatten ht hids) nofun
      ((ht.proper rfl).flat_flatten ids) nofun

private theorem makes_union2 (ht : t.Closed 0) (hl : t.Regular left) (hr : t.Regular right) :
    Makes t (union2 left right t) := by
  unfold union2
  split
  · exact ⟨.refl ht, hl⟩
  · exact makes_union ht (List.forall_mem_cons.mpr ⟨hl, List.forall_mem_singleton.mpr hr⟩)

private theorem mem_flatten_of_plain (hids : ∀ id ∈ ids, t.IsPlain id) (hbase : initial.Extends t) :
    id ∈ t.flatten ids ↔ id ∈ ids := by
  rw [flatten, List.mem_eraseDups, List.mem_flatMap]
  constructor
  · rintro ⟨other, hother, hid⟩
    have hother := (List.mem_filter.mp hother).1
    rw [(hids other hother).members, List.mem_singleton] at hid
    exact hid ▸ hother
  · intro hid
    have hnever : (id != .never) = true := bne_iff_ne.mpr ((hids id hid).ne hbase).2.1
    refine ⟨id, List.mem_filter.mpr ⟨hid, hnever⟩, ?_⟩
    rw [(hids id hid).members]
    exact .head _

private theorem wellFormed_union_iff (ht : t.Closed 0) (hids : ∀ id ∈ ids, t.IsPlain id) :
    (union ids t).2.WellFormed (union ids t).1 ↔
      (union ids t).1 = .unknown ∨ ∀ id ∈ ids, t.WellFormed id := by
  have hbase := (ht.proper rfl).base
  have hmem {id : TypeId} : id ∈ t.flatten ids ↔ id ∈ ids := mem_flatten_of_plain hids hbase
  have hunknown : t.WellFormed .unknown := wellFormed_intrinsic hbase (by decide)
  have hnever : t.WellFormed .never := wellFormed_intrinsic hbase (by decide)
  cases union_cases ids t with
  | unknown _ heq | tooMany _ _ _ heq =>
    rw [heq]
    exact iff_of_true hunknown (.inl rfl)
  | any _ hany => exact absurd rfl ((hids _ hany).ne hbase).2.2
  | none _ _ hflat heq =>
    have hnil : ∀ id ∈ ids, t.WellFormed id := fun id hid =>
      absurd (hmem.mpr hid) (hflat ▸ List.not_mem_nil)
    rw [heq]
    exact iff_of_true hnever (.inr hnil)
  | @one only _ _ hflat heq =>
    have honly {id : TypeId} : id ∈ ids ↔ id = only := by rw [← hmem, hflat, List.mem_singleton]
    rw [heq]
    simp only [honly, forall_eq]
    exact (or_iff_right ((hids only (honly.mpr rfl)).ne hbase).1).symm
  | many _ _ _ _ heq =>
    have hne : (intern (.union (t.flatten ids)) t).1 ≠ .unknown := by
      intro hunknown
      have hget := get?_intern t (.union (t.flatten ids))
      have hextends := hbase.trans (extends_intern (.union (t.flatten ids)) t)
      rw [hunknown, hextends.get? rfl] at hget
      cases hget
    rw [heq, wellFormed_iff (get?_intern t _), or_iff_right hne]
    refine ⟨fun h id hid => ?_, fun h => ⟨nofun, fun id hid => ?_⟩⟩
    · obtain ⟨data, hd, -⟩ := hids id hid
      exact ((extends_intern _ t).wellFormed_iff ht (lt_size_of_get? hd)).mp (h.2 id (hmem.mpr hid))
    · have hid := hmem.mp hid
      obtain ⟨data, hd, -⟩ := hids id hid
      exact ((extends_intern _ t).wellFormed_iff ht (lt_size_of_get? hd)).mpr (h id hid)

/-! ## Operators on two instances -/

private def Gives (clash : Prop) (t : TypeTable) (r : Option TypeId × TypeTable) : Prop :=
  ∀ id, r.1 = some id →
    Later t r.2 ∧ r.2.IsPlain id ∧ (r.2.WellFormed id ↔ ¬ clash)

private theorem gives_none : Gives clash t (none, t) := nofun

private theorem gives_pure (ht : t.Closed 0) (hid : t.Regular id) (hplain : t.IsPlain id)
    (hclear : ¬ clash) : Gives clash t (some id, t) := by
  rintro _ ⟨⟩
  exact ⟨.refl ht, hplain, iff_of_true hid.wellFormed hclear⟩

private theorem gives_ite (ht : t.Closed 0) (hid : t.Regular id) (hplain : t.IsPlain id) (c : Bool)
    (hclear : ¬ clash) : Gives clash t (if c then some id else none, t) := by
  cases c
  · exact gives_none
  · exact gives_pure ht hid hplain hclear

private theorem gives_of_makes {m : TypeM TypeId} (hm : Makes t (m t))
    (hplain : (m t).2.IsPlain (m t).1)
    (hclear : ¬ clash) : Gives clash t ((some <$> m) t) := by
  rintro _ ⟨⟩
  exact ⟨hm.toLater, hplain, iff_of_true hm.regular.wellFormed hclear⟩

private theorem isPlain_builtin (t : TypeTable) (cls : BuiltinClass) (args : List TypeId) :
    (builtin cls args t).2.IsPlain (builtin cls args t).1 := ⟨_, get?_intern t _, rfl⟩

private theorem makes_builtin (ht : t.Closed 0) (hargs : ∀ a ∈ args, t.Regular a)
    (hcls : cls ≠ .tuple) :
    Makes t (builtin cls args t) :=
  makes_intern ht hargs nofun nofun fun _ heq => by cases heq; exact absurd rfl hcls

private def Clash (op : BinaryOp) (cls : BuiltinClass) (args : List TypeId) (cls' : BuiltinClass)
    (args' : List TypeId) : Prop :=
  op = .add ∧ cls = .tuple ∧ cls' = .tuple ∧ Entangled args args'

private theorem isPlain_numericOperation? (hbase : initial.Extends t) {rank : Nat}
    (hid : numericOperation? op cls cls' rank = some id) : t.IsPlain id := by
  have hmem : id ∈ [TypeId.int, .float, .complex, .bool] := by
    have hrank (r : Nat) : numericType r ∈ [TypeId.int, .float, .complex] := by
      unfold numericType
      split <;> decide
    unfold numericOperation? at hid
    grind
  have hall : ∀ i ∈ [TypeId.int, TypeId.float, .complex, .bool],
      ((initial.get? i).any TypeData.isPlain) = true := by decide
  obtain ⟨data, hd, hplain⟩ := Option.any_eq_true _ _ |>.mp (hall id hmem)
  exact IsPlain.later ⟨data, hd, hplain⟩ hbase

private theorem gives_tupleOf (ht : t.Closed 0) (ha : ∀ a ∈ args, t.Regular a)
    (ha' : ∀ a ∈ args', t.Regular a) (hargs : TupleArguments args) (hargs' : TupleArguments args') :
    Gives (Clash .add .tuple args .tuple args') t ((some <$> tupleOf (args ++ args')) t) := by
  have hparts : ∀ a ∈ (TypeData.inst (.builtin .tuple) (args ++ args')).parts, t.Regular a :=
    List.forall_mem_append.mpr ⟨ha, ha'⟩
  have hclash : Clash .add .tuple args .tuple args' ↔ Entangled args args' := by simp [Clash]
  rintro _ ⟨⟩
  refine ⟨later_intern ht hparts nofun nofun, isPlain_builtin t .tuple _, ?_⟩
  refine (wellFormed_intern_iff ht hparts nofun).trans ?_
  rw [hclash, ← tupleArguments_append_iff hargs hargs']
  exact ⟨fun h => h _ rfl, fun h _ heq => by cases heq; exact h⟩

section Instances

variable (ht : t.Closed 0) (hl : t.Regular left) (hr : t.Regular right) (hpl : t.IsPlain left)
  (hpr : t.IsPlain right) (ha : ∀ a ∈ args, t.Regular a) (ha' : ∀ a ∈ args', t.Regular a)
  (htuple : cls = .tuple → TupleArguments args) (htuple' : cls' = .tuple → TupleArguments args')

include ht hl hr hpl hpr ha ha' htuple htuple'

private theorem gives_containerOperation? (op : BinaryOp) : Gives (Clash op cls args cls' args') t
    (containerOperation? op left cls args right cls' args' t) := by
  have hbase := (ht.proper rfl).base
  have hstr : t.Regular .str := regular_intrinsic ht (by decide)
  have hbytes : t.Regular .bytes := regular_intrinsic ht (by decide)
  have hpstr : t.IsPlain .str := IsPlain.later ⟨_, rfl, rfl⟩ hbase
  have hpbytes : t.IsPlain .bytes := IsPlain.later ⟨_, rfl, rfl⟩ hbase
  have hmember (i : Nat) : ∀ a ∈ [argument args i], t.Regular a :=
    List.forall_mem_singleton.mpr (regular_argument ht ha i)
  have hjoin (i : Nat) {s : TypeTable} (hs : Later t s) :
      Makes s (union2 (argument args i) (argument args' i) s) :=
    makes_union2 hs.closed ((regular_argument ht ha i).later ht hs.kept)
      ((regular_argument ht ha' i).later ht hs.kept)
  have hcontainer (cls : BuiltinClass) (hcls : cls ≠ .tuple) (i : Nat) :
      Makes t ((union2 (argument args i) (argument args' i) >>= fun id => builtin cls [id]) t) :=
    (hjoin i (.refl ht)).bind fun _ _ hs hid =>
      makes_builtin hs.closed (List.forall_mem_singleton.mpr hid) hcls
  unfold containerOperation?
  split
  · exact gives_pure ht hstr hpstr fun h => nomatch h.2.1
  · exact gives_pure ht hstr hpstr fun h => nomatch h.1
  · exact gives_pure ht hbytes hpbytes fun h => nomatch h.2.1
  · exact gives_pure ht hbytes hpbytes fun h => nomatch h.1
  · exact gives_of_makes (hcontainer .list nofun 0) (isPlain_builtin _ _ _) fun h => nomatch h.2.1
  · exact gives_tupleOf ht ha ha' (htuple rfl) (htuple' rfl)
  · exact gives_of_makes (hcontainer .set nofun 0) (isPlain_builtin _ _ _) fun h => nomatch h.1
  · exact gives_of_makes (makes_builtin ht (hmember 0) nofun) (isPlain_builtin _ _ _)
      fun h => nomatch h.1
  · exact gives_of_makes (makes_builtin ht (hmember 0) nofun) (isPlain_builtin _ _ _)
      fun h => nomatch h.1
  · exact gives_of_makes (makes_builtin ht (hmember 0) nofun) (isPlain_builtin _ _ _)
      fun h => nomatch h.1
  · have hdict : Makes t ((union2 (argument args 0) (argument args' 0) >>= fun key =>
        union2 (argument args 1) (argument args' 1) >>= fun value =>
          builtin .dict [key, value]) t) :=
      (hjoin 0 (.refl ht)).bind fun key s hs hkey => (hjoin 1 hs).bind fun value s' hs' hvalue =>
        makes_builtin hs'.closed (List.forall_mem_cons.mpr
          ⟨hkey.later hs.closed hs'.kept, List.forall_mem_singleton.mpr hvalue⟩) nofun
    exact gives_of_makes hdict (isPlain_builtin _ _ _) fun h => nomatch h.1
  · exact gives_ite ht hstr hpstr _ fun h => nomatch h.1
  · exact gives_ite ht hbytes hpbytes _ fun h => nomatch h.1
  · exact gives_ite ht hl hpl _ fun h => nomatch h.1
  · exact gives_ite ht hstr hpstr _ fun h => nomatch h.1
  · exact gives_ite ht hr hpr _ fun h => nomatch h.1
  · exact gives_none

end Instances

private theorem get?_of_builtinParts? (hparts : t.builtinParts? id = some (cls, args)) :
    t.get? id = some (.inst (.builtin cls) args) := by
  unfold builtinParts? at hparts
  split at hparts
  · next hd => cases hparts; exact hd
  · cases hparts

private theorem Regular.arguments (hid : t.Regular id) (ht : t.Closed 0)
    (hparts : t.builtinParts? id = some (cls, args)) :
    (∀ a ∈ args, t.Regular a) ∧ (cls = .tuple → TupleArguments args) := by
  have hd := get?_of_builtinParts? hparts
  refine ⟨fun a ha => hid.of_mem_parts ht hd ha, ?_⟩
  rintro rfl
  exact ((TypeTable.wellFormed_iff hd).mp hid.wellFormed).1 args rfl

/-- `+` puts two tuples one behind the other, one of any length and the other with elements. -/
def Splices (t : TypeTable) (op : BinaryOp) (p : TypeId × TypeId) : Prop :=
  op = .add ∧ ∃ args args', t.builtinParts? p.1 = some (.tuple, args) ∧
    t.builtinParts? p.2 = some (.tuple, args') ∧ Entangled args args'

private theorem splices_iff_clash (hl : t.builtinParts? left = some (cls, args))
    (hr : t.builtinParts? right = some (cls', args')) :
    t.Splices op (left, right) ↔ Clash op cls args cls' args' := by
  simp only [Splices, Clash, hl, hr, Option.some.injEq, Prod.mk.injEq]
  constructor
  · rintro ⟨rfl, _, _, ⟨rfl, rfl⟩, ⟨rfl, rfl⟩, h⟩
    exact ⟨rfl, rfl, rfl, h⟩
  · rintro ⟨rfl, rfl, rfl, h⟩
    exact ⟨rfl, args, args', ⟨rfl, rfl⟩, ⟨rfl, rfl⟩, h⟩

private theorem Extends.splices_iff (h : t.Extends s) {p : TypeId × TypeId} (hl : p.1 < t.size)
    (hr : p.2 < t.size) : s.Splices op p ↔ t.Splices op p := by
  rw [Splices, Splices, h.builtinParts? hl, h.builtinParts? hr]

private theorem gives_simpleOperation? (op : BinaryOp) (ht : t.Closed 0) (hl : t.Regular left)
    (hr : t.Regular right) :
    Gives (t.Splices op (left, right)) t (simpleOperation? op left right t) := by
  have hbase := (ht.proper rfl).base
  rw [simpleOperation?_apply]
  rcases hlparts : t.builtinParts? left with _ | ⟨cls, args⟩
  · exact gives_none
  rcases hrparts : t.builtinParts? right with _ | ⟨cls', args'⟩
  · exact gives_none
  obtain ⟨ha, htuple⟩ := hl.arguments ht hlparts
  obtain ⟨ha', htuple'⟩ := hr.arguments ht hrparts
  have hcontainer := gives_containerOperation? ht hl hr ⟨_, get?_of_builtinParts? hlparts, rfl⟩
    ⟨_, get?_of_builtinParts? hrparts, rfl⟩ ha ha' htuple htuple' op
  rw [splices_iff_clash hlparts hrparts]
  dsimp only
  rcases hrank : cls.numericRank? with _ | rank
  · exact hcontainer
  rcases cls'.numericRank? with _ | rank'
  · exact hcontainer
  · intro id hid
    have hclear : ¬ Clash op cls args cls' args' := by
      rintro ⟨-, rfl, -⟩
      cases hrank
    have hknown := known_numericOperation? (n := 0) op cls cls' _ id hid
    exact gives_pure ht (regular_intrinsic ht (hknown.resolve_right (Nat.not_lt_zero _)))
      (isPlain_numericOperation? hbase hid) hclear id rfl

/-! ## Operators -/

private theorem wellFormed_joinAll_iff (ht : t.Closed 0) (hl : t.Regular left)
    (hr : t.Regular right)
    (h : joinAll (fun p => simpleOperation? op p.1 p.2) (t.memberPairs left right) t =
      (some id, t')) :
    t'.WellFormed id ↔ id = .unknown ∨ ∀ p ∈ t.memberPairs left right, ¬ t.Splices op p := by
  have hmembers : ∀ p ∈ t.memberPairs left right, t.Regular p.1 ∧ t.Regular p.2 := fun p hp =>
    ⟨hl.of_mem_members ht (mem_memberPairs hp).1, hr.of_mem_members ht (mem_memberPairs hp).2⟩
  rw [joinAll_apply] at h
  rcases hcollect : collect (fun p => simpleOperation? op p.1 p.2) (t.memberPairs left right) t with
    ⟨_ | ids, s⟩
  · rw [hcollect] at h
    cases h
  · rw [hcollect] at h
    obtain ⟨hlater, hall⟩ := forall₂_of_collect
      (R := fun p id s => s.IsPlain id ∧ (s.WellFormed id ↔ ¬ t.Splices op p))
      (fun p hp s hs id s' hrun => by
        obtain ⟨hleft, hright⟩ := hmembers p hp
        have hgives := gives_simpleOperation? op hs.closed (hleft.later ht hs.kept)
          (hright.later ht hs.kept) id (by rw [hrun])
        rw [hrun, hs.kept.splices_iff hleft.inside hright.inside] at hgives
        exact hgives)
      (fun p id s s' hs hs' hresult => by
        obtain ⟨data, hd, -⟩ := hresult.1
        refine ⟨hresult.1.later hs'.kept, ?_⟩
        rw [hs'.kept.wellFormed_iff hs.closed (lt_size_of_get? hd), hresult.2])
      (.refl ht) hcollect
    cases h
    have hplain : (∀ id ∈ ids, s.IsPlain id) ↔ ∀ p ∈ t.memberPairs left right, True :=
      forall_mem_iff_of_forall₂ (hall.imp fun _ _ hresult => iff_true_intro hresult.1)
    rw [wellFormed_union_iff hlater.closed (hplain.mpr fun _ _ => trivial),
      forall_mem_iff_of_forall₂ (hall.imp fun _ _ hresult => hresult.2)]

private theorem Regular.of_formOf? (hid : t.Regular id) (ht : t.Closed 0) {form : TypeId}
    (hform : t.formOf? id = some form) : t.Regular form := by
  unfold formOf? inner? at hform
  split at hform
  · next inner hinner =>
    cases hform
    split at hinner
    · next hd => cases hinner; exact hid.of_mem_parts ht hd (.head _)
    · cases hinner
  · split at hform
    · cases hform
      exact regular_intrinsic ht (by decide)
    · cases hform

private theorem makes_form (ht : t.Closed 0) (hl : t.Regular left) (hr : t.Regular right)
    {l r : TypeId}
    (hform : t.unionForm? left right = some (l, r)) :
    Makes t ((union2 l r >>= classObject) t) := by
  unfold unionForm? at hform
  split at hform
  · next hlform hrform =>
    split at hform
    · cases hform
    · cases hform
      exact (makes_union2 ht (hl.of_formOf? ht hlform) (hr.of_formOf? ht hrform)).bind
        fun id s hs hid =>
          makes_intern hs.closed (List.forall_mem_singleton.mpr hid) nofun nofun nofun
  · cases hform

/-! ### Operands that are not looked at -/

private theorem operation?_of_unknown (h : left = .unknown ∨ right = .unknown) :
    operation? op left right t = (some .unknown, t) := by
  unfold operation?
  rw [if_pos (by simpa using h)]
  rfl

private theorem operation?_of_any (hunknown : ¬ (left = .unknown ∨ right = .unknown))
    (h : left = .any ∨ right = .any) : operation? op left right t = (some .any, t) := by
  unfold operation?
  rw [if_neg (by simpa using hunknown), if_pos (by simpa using h)]
  rfl

private theorem not_splices_of_any (hbase : initial.Extends t) (h : left = .any ∨ right = .any) :
    ∀ p ∈ t.memberPairs left right, ¬ t.Splices op p := by
  have hany : t.get? .any = some .any := hbase.get? rfl
  have hmembers : t.members .any = [.any] := by rw [members, hany]
  have hparts : t.builtinParts? .any = none := by rw [builtinParts?, hany]
  rintro ⟨l, r⟩ hp ⟨-, args, args', hl, hr, -⟩
  obtain ⟨hml, hmr⟩ := mem_memberPairs hp
  rcases h with rfl | rfl
  · rw [hmembers, List.mem_singleton] at hml
    rw [hml, hparts] at hl
    cases hl
  · rw [hmembers, List.mem_singleton] at hmr
    rw [hmr, hparts] at hr
    cases hr

private theorem memberPairs_of_not_union (hl : t.isUnion left = false)
    (hr : t.isUnion right = false) :
    t.memberPairs left right = [(left, right)] := by
  rw [memberPairs, members_of_not_union hl, members_of_not_union hr]
  rfl

/-- **Operators keep types well formed**, unless they splice tuples. For every operator and all
well-formed types, what the operator gives is well formed exactly if it does not put a tuple of any
length in front of or behind a tuple with elements, nor do so for members of unions, or if so many
results were to be joined that it gives nothing but the unknown type. In a well-formed type a tuple
is read as one of any length exactly if `...` is among its arguments. -/
theorem operation?_wellFormed_iff (ht : t.Built) (hl : left < t.size) (hr : right < t.size)
    (hleft : t.WellFormed left) (hright : t.WellFormed right)
    (h : operation? op left right t = (some id, t')) :
    (t'.WellFormed id ↔
      id = .unknown ∨ ∀ p ∈ t.memberPairs left right, ¬ t.Splices op p) ∧
    (t'.WellFormed id → ∀ part args, t'.Reaches t'.partsOf id part →
      t'.get? part = some (.inst (.builtin .tuple) args) →
        (isVariadic args = true ↔ TypeId.ellipsis ∈ args)) := by
  refine ⟨?_, fun hid part args hreach hpart => (hid part args hreach hpart).isVariadic_iff⟩
  have htidy := ht.tidy
  have hclosed := htidy.closed
  have hl : t.Regular left := ⟨hl, hleft⟩
  have hr : t.Regular right := ⟨hr, hright⟩
  by_cases hunknown : left = .unknown ∨ right = .unknown
  · rw [operation?_of_unknown hunknown] at h
    cases h
    exact iff_of_true (regular_intrinsic hclosed (by decide)).wellFormed (.inl rfl)
  by_cases hany : left = .any ∨ right = .any
  · rw [operation?_of_any hunknown hany] at h
    cases h
    exact iff_of_true (regular_intrinsic hclosed (by decide)).wellFormed
      (.inr (not_splices_of_any htidy.base hany))
  obtain ⟨hlunknown, hrunknown⟩ := not_or.mp hunknown
  obtain ⟨hlany, hrany⟩ := not_or.mp hany
  by_cases hunion : t.isUnion left = true ∨ t.isUnion right = true
  · rw [htidy.operation?_of_union ⟨hlunknown, hlany⟩ ⟨hrunknown, hrany⟩ hunion] at h
    exact wellFormed_joinAll_iff hclosed hl hr h
  rw [not_or, Bool.not_eq_true, Bool.not_eq_true] at hunion
  by_cases hform : op = .bitOr → t.unionForm? left right = none
  · rw [operation?_of_not_form ⟨hlunknown, hlany⟩ ⟨hrunknown, hrany⟩ hform hunion.1 hunion.2] at h
    have hgives := gives_simpleOperation? op hclosed hl hr id (by rw [h])
    rw [h] at hgives
    obtain ⟨hlater, hplain, hiff⟩ := hgives
    rw [memberPairs_of_not_union hunion.1 hunion.2, List.forall_mem_singleton, hiff]
    exact (or_iff_right (hplain.ne (htidy.base.trans hlater.kept)).1).symm
  · rw [Classical.not_imp] at hform
    obtain ⟨rfl, hform⟩ := hform
    obtain ⟨⟨l, r⟩, hform⟩ := Option.ne_none_iff_exists'.mp hform
    rw [operation?_of_form ⟨hlunknown, hlany⟩ ⟨hrunknown, hrany⟩ hform] at h
    have hmakes := makes_form hclosed hl hr hform
    cases h
    exact iff_of_true hmakes.regular.wellFormed (.inr fun p _ hsplices => nomatch hsplices.1)

private theorem wellFormed_tuple (hbase : initial.Extends t)
    (hd : t.get? id = some (.inst (.builtin .tuple) args)) (hargs : TupleArguments args)
    (hfixed : ∀ a ∈ args, a < TypeId.intrinsicCount) : t.WellFormed id :=
  (wellFormed_iff hd).mpr ⟨fun _ heq => by cases heq; exact hargs,
    fun a ha => wellFormed_intrinsic hbase (hfixed a ha)⟩

private theorem tupleArguments_of_notMem (hargs : TypeId.ellipsis ∉ args) : TupleArguments args :=
  fun hmem => absurd hmem hargs

/-- A table in which `tuple[int, ...]` has the number 12, `tuple[()]` the number 13 and the union of
the two the number 14. -/
def joinedTuples : TypeTable :=
  (union [12, 13] (tupleOf [] (tupleOf [.int, .ellipsis] initial).2).2).2

/-- A tuple of any length may be put in front of `tuple[()]`, also as a member of a union. -/
theorem operation?_wellFormed_joinedTuples :
    joinedTuples.WellFormed 14 ∧ joinedTuples.WellFormed 13 ∧
      ∃ t', operation? .add 14 13 joinedTuples = (some 14, t') ∧ t'.WellFormed 14 := by
  have hmany : (tupleOf [.int, .ellipsis] initial).2.Built :=
    Built.initial.tupleOf (by decide +kernel)
  have hempty : (tupleOf [] (tupleOf [.int, .ellipsis] initial).2).2.Built := hmany.tupleOf nofun
  have hbuilt : joinedTuples.Built :=
    @Built.run _ (.union [12, 13]) hempty nofun (by decide +kernel) nofun
  have hbase := hbuilt.tidy.base
  have h12 : joinedTuples.WellFormed 12 :=
    wellFormed_tuple hbase (by decide +kernel) (fun _ => ⟨.int, by decide, rfl⟩) (by decide)
  have h13 : joinedTuples.WellFormed 13 :=
    wellFormed_tuple hbase (by decide +kernel) (tupleArguments_of_notMem List.not_mem_nil) nofun
  have h14 : joinedTuples.WellFormed 14 := by
    have hd : joinedTuples.get? 14 = some (.union [12, 13]) := by decide +kernel
    exact (wellFormed_iff hd).mpr
      ⟨nofun, List.forall_mem_cons.mpr ⟨h12, List.forall_mem_singleton.mpr h13⟩⟩
  have hrun : (operation? .add 14 13 joinedTuples).1 = some 14 := by decide +kernel
  have hclear : ∀ p ∈ joinedTuples.memberPairs 14 13, ¬ joinedTuples.Splices .add p := by
    rintro ⟨l, r⟩ hp ⟨-, args, args', -, hr, hentangled⟩
    have hmembers : joinedTuples.members 13 = [13] := by decide +kernel
    have hparts : joinedTuples.builtinParts? 13 = some (.tuple, []) := by decide +kernel
    have hr13 := (mem_memberPairs hp).2
    rw [hmembers, List.mem_singleton] at hr13
    rw [hr13, hparts] at hr
    cases hr
    exact hentangled.elim (fun h => h.2 rfl) (fun h => nomatch h.2)
  refine ⟨h14, h13, (operation? .add 14 13 joinedTuples).2, Prod.ext hrun rfl, ?_⟩
  exact (operation?_wellFormed_iff hbuilt (by decide +kernel) (by decide +kernel) h14 h13
    (Prod.ext hrun rfl)).1.mpr (.inr hclear)

/-- A table in which `tuple[int, ...]` has the number 12, `tuple[str]` the number 13 and
`tuple[int, object, str]` the number 14. -/
def splicedTuples : TypeTable :=
  (tupleOf [.int, .object, .str] (tupleOf [.str] (tupleOf [.int, .ellipsis] initial).2).2).2

/-- `+` makes a type of `tuple[int, ...]` and `tuple[str]` that is not well formed, and that is read
as one of tuples with three elements. -/
theorem not_wellFormed_splicedTuples :
    splicedTuples.WellFormed 12 ∧ splicedTuples.WellFormed 13 ∧
      ∃ t', operation? .add 12 13 splicedTuples = (some 15, t') ∧
        t'.get? 15 = some (.inst (.builtin .tuple) [.int, .ellipsis, .str]) ∧
        ¬ t'.WellFormed 15 ∧ t'.format 15 = "tuple[int, ..., str]" ∧
        t'.assignable (fun _ => []) 15 14 = true := by
  have hrun : (operation? .add 12 13 splicedTuples).1 = some 15 := by decide +kernel
  have hd : (operation? .add 12 13 splicedTuples).2.get? 15 =
      some (.inst (.builtin .tuple) [.int, .ellipsis, .str]) := by decide +kernel
  have hbase : initial.Extends splicedTuples :=
    ((extends_intern _ _).trans (extends_intern _ _)).trans (extends_intern _ _)
  have hstr : splicedTuples.get? 13 = some (.inst (.builtin .tuple) [.str]) := by decide +kernel
  refine ⟨wellFormed_tuple hbase (by decide +kernel) (fun _ => ⟨.int, by decide, rfl⟩) (by decide),
    wellFormed_tuple hbase hstr (tupleArguments_of_notMem (by decide)) (by decide),
    (operation? .add 12 13 splicedTuples).2, Prod.ext hrun rfl, hd, fun hwell => ?_,
    by decide +kernel, by decide +kernel⟩
  obtain ⟨element, -, heq⟩ := ((wellFormed_iff hd).mp hwell).1 _ rfl (.tail _ (.head _))
  cases heq

end TypeTable
end LiveCheck
