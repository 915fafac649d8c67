import LiveCheck.Proofs.Types.Operations
import LiveCheck.Proofs.Types.Unions

/-!
# Operators on unions

An operator applied to a union is applied to each member, and the results are joined; it is not
defined for the union if it is not defined for one of the members. There is one exception: classes
are joined to a type expression only where both operands are single classes, so `|` is not defined
for a union of classes although it is defined for each of them.
-/

namespace LiveCheck

/-! ## Traversals -/

section Traversals

variable {σ α β : Type} {P : σ → Prop} {f g : α → StateM σ (Option β)} {l : List α} {s : σ}
  {defined : α → Bool}

/-- The results of a computation for all members of a list. The first result that is missing ends
the traversal. -/
def collect (f : α → StateM σ (Option β)) (l : List α) : StateM σ (Option (List β)) :=
  OptionT.run (l.mapM fun a => OptionT.mk (f a))

theorem run_optionBind (m : OptionT (StateM σ) α) (k : α → OptionT (StateM σ) β) (s : σ) :
    (m >>= k).run s =
      match m.run s with
      | (none, s) => (none, s)
      | (some a, s) => (k a).run s := by
  have hrun : (m >>= k).run s =
      (m.run s).1.elim (none, (m.run s).2) fun a => (k a).run (m.run s).2 := by
    rw [OptionT.run_bind]
    change (m.run s).1.elim (pure none) (fun a => (k a).run) (m.run s).2 = _
    cases (m.run s).1 <;> rfl
  rw [hrun]
  generalize m.run s = result
  rcases result with ⟨_ | a, s⟩ <;> rfl

theorem collect_cons (a : α) (l : List α) (s : σ) : collect f (a :: l) s =
    match f a s with
    | (none, s) => (none, s)
    | (some b, s) =>
      match collect f l s with
      | (none, s) => (none, s)
      | (some bs, s) => (some (b :: bs), s) := by
  rw [collect, List.mapM_cons, run_optionBind]
  rw [OptionT.run_mk]
  generalize f a s = result
  rcases result with ⟨_ | b, s⟩
  · rfl
  · refine (run_optionBind _ _ s).trans ?_
    dsimp only
    rw [← collect]
    generalize collect f l s = rest
    rcases rest with ⟨_ | bs, s⟩ <;> rfl

private theorem collect_congr (hfg : ∀ a ∈ l, ∀ s, P s → f a s = g a s)
    (hstep : ∀ a ∈ l, ∀ s, P s → P (f a s).2) (hs : P s) : collect f l s = collect g l s := by
  induction l generalizing s with
  | nil => rfl
  | cons a l ih =>
    have hlater := hstep a (.head _) s hs
    rw [collect_cons, collect_cons, ← hfg a (.head _) s hs]
    generalize f a s = result at hlater
    rcases result with ⟨_ | b, s⟩
    · rfl
    · simp only [ih (fun a ha => hfg a (.tail _ ha)) (fun a ha => hstep a (.tail _ ha)) hlater]

private theorem isSome_collect (hdefined : ∀ a ∈ l, ∀ s, P s → (f a s).1.isSome = defined a)
    (hstep : ∀ a ∈ l, ∀ s, P s → P (f a s).2) (hs : P s) :
    (collect f l s).1.isSome = l.all defined := by
  induction l generalizing s with
  | nil => rfl
  | cons a l ih =>
    have hlater := hstep a (.head _) s hs
    rw [collect_cons, List.all_cons, ← hdefined a (.head _) s hs]
    generalize f a s = result at hlater
    rcases result with ⟨_ | b, s⟩
    · rfl
    · have hrest := ih (fun a ha => hdefined a (.tail _ ha)) (fun a ha => hstep a (.tail _ ha)) hlater
      rw [← hrest, Option.isSome_some, Bool.true_and]
      dsimp only
      generalize collect f l s = rest
      rcases rest with ⟨_ | bs, s⟩ <;> rfl

end Traversals

namespace TypeTable

variable {α : Type} {op : BinaryOp} {t t' : TypeTable} {left right id : TypeId} {data : TypeData}
  {cls cls' : BuiltinClass} {args args' : List TypeId} {f : α → TypeM (Option TypeId)} {l : List α}
  {m : TypeM α} {p : TypeId × TypeId}

/-- The union of the results of a computation for all members of a list, if none is missing. -/
def joinAll (f : α → TypeM (Option TypeId)) (l : List α) : TypeM (Option TypeId) :=
  OptionT.run do union (← l.mapM fun a => OptionT.mk (f a))

/-- Each member of the left type with each member of the right one. -/
def memberPairs (t : TypeTable) (left right : TypeId) : List (TypeId × TypeId) :=
  (t.members left).flatMap fun l => (t.members right).map (l, ·)

/-- An operator applied to each member of the left type with each member of the right one. -/
def memberwise? (op : BinaryOp) (left right : TypeId) : TypeM (Option TypeId) := fun t =>
  joinAll (fun p => operation? op p.1 p.2) (t.memberPairs left right) t

theorem joinAll_apply (f : α → TypeM (Option TypeId)) (l : List α) (t : TypeTable) :
    joinAll f l t =
      match collect f l t with
      | (none, t) => (none, t)
      | (some ids, t) => (some (union ids t).1, (union ids t).2) := by
  refine (run_optionBind _ _ t).trans ?_
  rw [← collect]
  generalize collect f l t = result
  rcases result with ⟨_ | ids, t⟩ <;> rfl

private theorem isSome_joinAll : (joinAll f l t).1.isSome = (collect f l t).1.isSome := by
  rw [joinAll_apply]
  generalize collect f l t = result
  rcases result with ⟨_ | ids, t⟩ <;> rfl

/-! ## What an operator comes to -/

section Apply

variable (hleft : left ≠ .unknown ∧ left ≠ .any) (hright : right ≠ .unknown ∧ right ≠ .any)

include hleft hright

private theorem operation?_apply : operation? op left right t =
    (match if op == BinaryOp.bitOr then t.unionForm? left right else none with
      | some (l, r) => some <$> (union2 l r >>= classObject)
      | none =>
        match t.members left, t.members right with
        | [_], [_] => simpleOperation? op left right
        | lefts, rights =>
          joinAll (fun p : TypeId × TypeId => simpleOperation? op p.1 p.2)
            (lefts.flatMap fun l => rights.map (l, ·))) t := by
  unfold operation?
  rw [if_neg (by simp [hleft.1, hright.1]), if_neg (by simp [hleft.2, hright.2])]
  rfl

/-- Two classes are joined to a type expression. -/
theorem operation?_of_form {l r : TypeId} (hform : t.unionForm? left right = some (l, r)) :
    operation? BinaryOp.bitOr left right t = (some <$> (union2 l r >>= classObject)) t := by
  rw [operation?_apply hleft hright, if_pos (beq_self_eq_true _), hform]

theorem operation?_of_not_form (hform : op = .bitOr → t.unionForm? left right = none)
    (hl : t.isUnion left = false) (hr : t.isUnion right = false) :
    operation? op left right t = simpleOperation? op left right t := by
  have hnone : (if op == .bitOr then t.unionForm? left right else none) = none := by
    simpa using hform
  rw [operation?_apply hleft hright, hnone, members_of_not_union hl, members_of_not_union hr]

end Apply

/-! ### Operands that are unions -/

private theorem Tidy.formOf?_of_union (ht : t.Tidy) (hid : t.isUnion id = true) :
    t.formOf? id = none := by
  obtain ⟨ms, hd⟩ := exists_of_isUnion hid
  have hnone : id ≠ .none := by
    rintro rfl
    exact nomatch hd.symm.trans (ht.base.get? rfl)
  simp [formOf?, inner?, hd, hnone]

private theorem Tidy.unionForm?_of_union (ht : t.Tidy)
    (hunion : t.isUnion left = true ∨ t.isUnion right = true) : t.unionForm? left right = none := by
  unfold unionForm?
  rcases hunion with hunion | hunion
  · rw [ht.formOf?_of_union hunion]
  · rw [ht.formOf?_of_union hunion]
    split <;> first | rfl | contradiction

private theorem Tidy.two_le_length_members (ht : t.Tidy) (hid : t.isUnion id = true) :
    2 ≤ (t.members id).length := by
  obtain ⟨ms, hd⟩ := exists_of_isUnion hid
  rw [members, hd]
  exact (ht.normal id ms hd).two_le_length

/-- On unions an operator joins what it gives for the members, which are looked at as values. -/
theorem Tidy.operation?_of_union (ht : t.Tidy) (hleft : left ≠ .unknown ∧ left ≠ .any)
    (hright : right ≠ .unknown ∧ right ≠ .any)
    (hunion : t.isUnion left = true ∨ t.isUnion right = true) :
    operation? op left right t =
      joinAll (fun p => simpleOperation? op p.1 p.2) (t.memberPairs left right) t := by
  have hnone : (if op == BinaryOp.bitOr then t.unionForm? left right else none) = none := by
    rw [ht.unionForm?_of_union hunion, ite_self]
  have htwo : 2 ≤ (t.members left).length ∨ 2 ≤ (t.members right).length :=
    hunion.imp ht.two_le_length_members ht.two_le_length_members
  rw [operation?_apply hleft hright, hnone, memberPairs]
  generalize t.members left = lefts, t.members right = rights at htwo
  dsimp only
  split
  · simp at htwo
  · rfl

/-! ## What is defined -/

private def Definite (m : TypeM (Option TypeId)) : Prop := ∃ defined, ∀ t, (m t).1.isSome = defined

private theorem definite_pure (o : Option TypeId) : Definite (pure o) := ⟨o.isSome, fun _ => rfl⟩

private theorem definite_map (m : TypeM TypeId) : Definite (some <$> m) := ⟨true, fun _ => rfl⟩

private theorem definite_containerOperation? :
    Definite (containerOperation? op left cls args right cls' args') := by
  unfold containerOperation?
  split
  case h_11 => exact ⟨true, fun _ => rfl⟩
  all_goals first
    | exact definite_pure _
    | exact definite_map _

theorem simpleOperation?_apply : simpleOperation? op left right t =
    (match t.builtinParts? left, t.builtinParts? right with
      | some (cls, args), some (cls', args') =>
        match cls.numericRank?, cls'.numericRank? with
        | some rank, some rank' => pure (numericOperation? op cls cls' (max rank rank'))
        | _, _ => containerOperation? op left cls args right cls' args'
      | _, _ => pure none) t := rfl

private theorem isSome_simpleOperation?_congr (hl : t'.builtinParts? left = t.builtinParts? left)
    (hr : t'.builtinParts? right = t.builtinParts? right) :
    (simpleOperation? op left right t').1.isSome = (simpleOperation? op left right t).1.isSome := by
  have hdefinite (m : TypeM (Option TypeId)) (hm : Definite m) :
      (m t').1.isSome = (m t).1.isSome := by
    obtain ⟨defined, hdefined⟩ := hm
    rw [hdefined, hdefined]
  rw [simpleOperation?_apply, simpleOperation?_apply, hl, hr]
  refine hdefinite _ ?_
  split
  · split
    · exact definite_pure _
    · exact definite_containerOperation?
  · exact definite_pure none

private theorem Extends.get?_eq (h : t.Extends t') (hid : id < t.size) :
    t'.get? id = t.get? id := by
  obtain ⟨data, hd⟩ := exists_get? hid
  rw [hd, h.get? hd]

theorem Extends.builtinParts? (h : t.Extends t') (hid : id < t.size) :
    t'.builtinParts? id = t.builtinParts? id := by
  rw [TypeTable.builtinParts?, TypeTable.builtinParts?, h.get?_eq hid]

private theorem Extends.unionForm? (h : t.Extends t') (hl : left < t.size) (hr : right < t.size) :
    t'.unionForm? left right = t.unionForm? left right := by
  simp only [TypeTable.unionForm?, TypeTable.formOf?, TypeTable.inner?, h.get?_eq hl, h.get?_eq hr]

private theorem Extends.isUnion (h : t.Extends t') (hid : id < t.size) :
    t'.isUnion id = t.isUnion id := by
  rw [TypeTable.isUnion, TypeTable.isUnion, h.get?_eq hid]

private theorem builtinParts?_of_form {form : TypeId} (hform : t.formOf? id = some form)
    (hid : id ≠ .none) : t.builtinParts? id = none := by
  unfold formOf? inner? at hform
  unfold builtinParts?
  cases hd : t.get? id with
  | none => rfl
  | some data =>
    cases data with
    | inst => simp [hd, hid] at hform
    | _ => rfl

private theorem simpleOperation?_of_form {form : TypeId × TypeId}
    (hform : t.unionForm? left right = some form) :
    simpleOperation? op left right t = (none, t) := by
  rw [simpleOperation?_apply]
  unfold unionForm? at hform
  split at hform
  · next hl hr =>
    split at hform
    · cases hform
    · next hboth =>
      by_cases hnone : left = .none
      · have hright : right ≠ .none := fun h => hboth (by simp [hnone, h])
        rw [builtinParts?_of_form hr hright]
        cases t.builtinParts? left <;> rfl
      · rw [builtinParts?_of_form hl hnone]
        rfl
  · cases hform

/-! ## Results are no unions -/

private def GivesMember (result : Option TypeId × TypeTable) : Prop :=
  ∀ id, result.1 = some id → result.2.isUnion id = false

private theorem isUnion_intern (hdata : ∀ ms, data ≠ .union ms) (t : TypeTable) :
    (intern data t).2.isUnion (intern data t).1 = false := by
  rw [isUnion, get?_intern]
  cases data with
  | union ms => exact absurd rfl (hdata ms)
  | _ => rfl

private theorem givesMember_none : GivesMember (none, t) := nofun

private theorem givesMember_pure (hid : t.isUnion id = false) : GivesMember (some id, t) := by
  rintro _ ⟨⟩
  exact hid

private theorem givesMember_ite {c : Bool} (hid : t.isUnion id = false) :
    GivesMember (if c then some id else none, t) := by
  cases c
  · exact givesMember_none
  · exact givesMember_pure hid

private theorem givesMember_intern (hdata : ∀ ms, data ≠ .union ms) :
    GivesMember ((some <$> intern data) t) := by
  rintro _ ⟨⟩
  exact isUnion_intern hdata t

private theorem givesMember_bind {k : α → TypeM (Option TypeId)} (hk : ∀ a t, GivesMember (k a t)) :
    GivesMember ((m >>= k) t) :=
  hk (m t).1 (m t).2

private theorem givesMember_map_bind {k : α → TypeM TypeId}
    (hk : ∀ a t, GivesMember ((some <$> k a) t)) :
    GivesMember ((some <$> (m >>= k)) t) :=
  hk (m t).1 (m t).2

private theorem isUnion_intrinsic (hbase : initial.Extends t) (hid : id < TypeId.intrinsicCount) :
    t.isUnion id = false := by
  have hall : ∀ i < TypeId.intrinsicCount, initial.isUnion i = false := by decide
  rw [hbase.isUnion hid, hall id hid]

private theorem givesMember_numericOperation? (hbase : initial.Extends t) (rank : Nat) :
    GivesMember (numericOperation? op cls cls' rank, t) := by
  intro id hid
  have hknown := known_numericOperation? (n := 0) op cls cls' rank id hid
  exact isUnion_intrinsic hbase (hknown.resolve_right (Nat.not_lt_zero id))

section Results

variable (hbase : initial.Extends t) (hl : t.isUnion left = false) (hr : t.isUnion right = false)

include hbase hl hr

private theorem givesMember_containerOperation? :
    GivesMember (containerOperation? op left cls args right cls' args' t) := by
  have hstr : t.isUnion .str = false := isUnion_intrinsic hbase (by decide)
  have hbytes : t.isUnion .bytes = false := isUnion_intrinsic hbase (by decide)
  unfold containerOperation?
  split
  · exact givesMember_pure hstr
  · exact givesMember_pure hstr
  · exact givesMember_pure hbytes
  · exact givesMember_pure hbytes
  · exact givesMember_map_bind fun _ _ => givesMember_intern nofun
  · exact givesMember_intern nofun
  · exact givesMember_map_bind fun _ _ => givesMember_intern nofun
  · exact givesMember_intern nofun
  · exact givesMember_intern nofun
  · exact givesMember_intern nofun
  · exact givesMember_bind fun _ _ => givesMember_bind fun _ _ => givesMember_intern nofun
  · exact givesMember_ite hstr
  · exact givesMember_ite hbytes
  · exact givesMember_ite hl
  · exact givesMember_ite hstr
  · exact givesMember_ite hr
  · exact givesMember_none

private theorem givesMember_simpleOperation? : GivesMember (simpleOperation? op left right t) := by
  rw [simpleOperation?_apply]
  generalize t.builtinParts? left = lparts, t.builtinParts? right = rparts
  rcases lparts with _ | ⟨cls, args⟩ <;> rcases rparts with _ | ⟨cls', args'⟩
  case some.some =>
    dsimp only
    generalize cls.numericRank? = lrank, cls'.numericRank? = rrank
    rcases lrank with _ | lrank <;> rcases rrank with _ | rrank
    case some.some => exact givesMember_numericOperation? hbase _
    all_goals exact givesMember_containerOperation? hbase hl hr
  all_goals exact givesMember_none

private theorem givesMember_operation? (hleft : left ≠ .unknown ∧ left ≠ .any)
    (hright : right ≠ .unknown ∧ right ≠ .any) : GivesMember (operation? op left right t) := by
  by_cases hform : op = .bitOr → t.unionForm? left right = none
  · rw [operation?_of_not_form hleft hright hform hl hr]
    exact givesMember_simpleOperation? hbase hl hr
  · rw [Classical.not_imp] at hform
    obtain ⟨rfl, hform⟩ := hform
    obtain ⟨form, hform⟩ := Option.ne_none_iff_exists'.mp hform
    rw [operation?_of_form hleft hright hform]
    exact givesMember_map_bind fun _ _ => givesMember_intern nofun

end Results

/-! ## Operands -/

/-- A type of the table that is neither unknown nor unchecked. -/
structure Operand (t : TypeTable) (id : TypeId) : Prop where
  inside : id < t.size
  checked : id ≠ .unknown ∧ id ≠ .any

/-- An operand that is no union. -/
private structure SingleOperand (t : TypeTable) (id : TypeId) : Prop extends t.Operand id where
  single : t.isUnion id = false

/-- The table is what has become of an earlier one. -/
structure Later (t t' : TypeTable) : Prop where
  kept : t.Extends t'
  closed : t'.Closed 0

private theorem Later.run (h : Later t t') {m : TypeM (Option TypeId)}
    (hm : (growth 0).Sound (t'.extent 0) m (Discipline.ifSome TypeId.Known)) :
    Later t (m t').2 := by
  have houtcome := hm t' h.closed (Nat.le_refl _)
  exact ⟨h.kept.trans houtcome.step, houtcome.ok⟩

private theorem SingleOperand.later (hid : t.SingleOperand id) (h : t.Extends t') :
    t'.SingleOperand id :=
  ⟨⟨Nat.lt_of_lt_of_le hid.inside h.size_le, hid.checked⟩, by rw [h.isUnion hid.inside, hid.single]⟩

private theorem SingleOperand.known (hid : t.SingleOperand id) (h : t.Extends t') :
    id.Known (t'.extent 0) :=
  .inr (Nat.lt_of_lt_of_le (hid.later h).inside (size_le_extent 0 t'))

private theorem Tidy.singleOperand_of_mem (ht : t.Tidy) (hid : t.Operand id) {m : TypeId}
    (hm : m ∈ t.members id) : t.SingleOperand m := by
  cases hunion : t.isUnion id with
  | false =>
    rw [members_of_not_union hunion, List.mem_singleton] at hm
    exact hm ▸ ⟨hid, hunion⟩
  | true =>
    obtain ⟨ms, hd⟩ := exists_of_isUnion hunion
    rw [members, hd] at hm
    have hplain := (ht.normal id ms hd).plain m hm
    obtain ⟨hunknown, -, hany⟩ := hplain.ne ht.base
    obtain ⟨data, hdata, -⟩ := hplain
    exact ⟨⟨lt_size_of_get? hdata, hunknown, hany⟩, ((ht.normal id ms hd).plain m hm).isUnion⟩

theorem mem_memberPairs (hp : p ∈ t.memberPairs left right) :
    p.1 ∈ t.members left ∧ p.2 ∈ t.members right := by
  obtain ⟨l, hl, hp⟩ := List.mem_flatMap.mp hp
  obtain ⟨r, hr, rfl⟩ := List.mem_map.mp hp
  exact ⟨hl, hr⟩

section Single

variable (hl : t.SingleOperand left) (hr : t.SingleOperand right)

include hl hr

private theorem isSome_operation?_congr (h : t.Extends t') :
    (operation? op left right t').1.isSome = (operation? op left right t).1.isSome := by
  have hl' := hl.later h
  have hr' := hr.later h
  have hsame := h.unionForm? hl.inside hr.inside
  by_cases hform : op = .bitOr → t.unionForm? left right = none
  · rw [operation?_of_not_form hl.checked hr.checked hform hl.single hr.single,
      operation?_of_not_form hl.checked hr.checked (hsame ▸ hform) hl'.single hr'.single]
    exact isSome_simpleOperation?_congr (h.builtinParts? hl.inside) (h.builtinParts? hr.inside)
  · rw [Classical.not_imp] at hform
    obtain ⟨rfl, hform⟩ := hform
    obtain ⟨form, hform⟩ := Option.ne_none_iff_exists'.mp hform
    rw [operation?_of_form hl.checked hr.checked hform,
      operation?_of_form hl.checked hr.checked (hsame.trans hform)]
    rfl

end Single

/-! ## Operators on members -/

private theorem memberwise?_of_single (hbase : initial.Extends t) (hl : t.SingleOperand left)
    (hr : t.SingleOperand right) : memberwise? op left right t = operation? op left right t := by
  have hpairs : t.memberPairs left right = [(left, right)] := by
    rw [memberPairs, members_of_not_union hl.single, members_of_not_union hr.single]
    rfl
  have hmember : GivesMember (operation? op left right t) :=
    givesMember_operation? hbase hl.single hr.single hl.checked hr.checked
  rw [memberwise?, hpairs, joinAll_apply, collect_cons]
  generalize operation? op left right t = result at hmember
  obtain ⟨_ | id, t'⟩ := result
  · rfl
  · have hunion := union_singleton_of_not_union (hmember id rfl)
    change (some (TypeTable.union [id] t').1, (TypeTable.union [id] t').2) = (some id, t')
    rw [hunion]

section Pairs

variable (ht : t.Tidy) (hl : t.Operand left) (hr : t.Operand right)

include ht hl hr

private theorem Tidy.singleOperands_of_mem (hp : p ∈ t.memberPairs left right) :
    t.SingleOperand p.1 ∧ t.SingleOperand p.2 :=
  ⟨ht.singleOperand_of_mem hl (mem_memberPairs hp).1,
    ht.singleOperand_of_mem hr (mem_memberPairs hp).2⟩

private theorem Tidy.isSome_memberwise? : (memberwise? op left right t).1.isSome =
    (t.memberPairs left right).all fun p => (operation? op p.1 p.2 t).1.isSome := by
  rw [memberwise?, isSome_joinAll]
  refine isSome_collect (P := Later t) (fun p hp t' ht' => ?_) (fun p hp t' ht' => ?_)
    ⟨.refl t, ht.closed⟩
  · obtain ⟨hl, hr⟩ := ht.singleOperands_of_mem hl hr hp
    exact isSome_operation?_congr hl hr ht'.kept
  · obtain ⟨hl, hr⟩ := ht.singleOperands_of_mem hl hr hp
    exact ht'.run (sound_operation? op (hl.known ht'.kept) (hr.known ht'.kept))

private theorem Tidy.isSome_operation?_of_union
    (hunion : t.isUnion left = true ∨ t.isUnion right = true) :
    (operation? op left right t).1.isSome =
      (t.memberPairs left right).all fun p => (simpleOperation? op p.1 p.2 t).1.isSome := by
  rw [ht.operation?_of_union hl.checked hr.checked hunion, isSome_joinAll]
  refine isSome_collect (P := Later t) (fun p hp t' ht' => ?_) (fun p hp t' ht' => ?_)
    ⟨.refl t, ht.closed⟩
  · obtain ⟨hl, hr⟩ := ht.singleOperands_of_mem hl hr hp
    exact isSome_simpleOperation?_congr (ht'.kept.builtinParts? hl.inside)
      (ht'.kept.builtinParts? hr.inside)
  · obtain ⟨hl, hr⟩ := ht.singleOperands_of_mem hl hr hp
    exact ht'.run (sound_simpleOperation? op (hl.known ht'.kept) (hr.known ht'.kept))

private theorem Tidy.operation?_eq_memberwise?
    (hunion : t.isUnion left = true ∨ t.isUnion right = true)
    (hforms : ∀ p ∈ t.memberPairs left right, op = .bitOr → t.unionForm? p.1 p.2 = none) :
    operation? op left right t = memberwise? op left right t := by
  have hcollect : collect (fun p => simpleOperation? op p.1 p.2) (t.memberPairs left right) t =
      collect (fun p => operation? op p.1 p.2) (t.memberPairs left right) t := by
    refine collect_congr (P := Later t) (fun p hp t' ht' => ?_) (fun p hp t' ht' => ?_)
      ⟨.refl t, ht.closed⟩
    · obtain ⟨hl, hr⟩ := ht.singleOperands_of_mem hl hr hp
      have hform := ht'.kept.unionForm? hl.inside hr.inside ▸ hforms p hp
      exact (operation?_of_not_form hl.checked hr.checked hform (hl.later ht'.kept).single
        (hr.later ht'.kept).single).symm
    · obtain ⟨hl, hr⟩ := ht.singleOperands_of_mem hl hr hp
      exact ht'.run (sound_simpleOperation? op (hl.known ht'.kept) (hr.known ht'.kept))
  rw [ht.operation?_of_union hl.checked hr.checked hunion, memberwise?, joinAll_apply,
    joinAll_apply, hcollect]

end Pairs

/-- Two members of the operands are classes that `|` would join to a type expression, but the
operands are not both classes themselves. -/
def OverlooksForm (t : TypeTable) (op : BinaryOp) (left right : TypeId) : Prop :=
  op = .bitOr ∧ (t.isUnion left = true ∨ t.isUnion right = true) ∧
    ∃ p ∈ t.memberPairs left right, (t.unionForm? p.1 p.2).isSome

/-- An operator is distributed over the members of unions: it gives the union of what it gives for
each two members, the first member of the left type first, unless this overlooks that two of them
are joined to a type expression. Then it gives nothing, as it does where nothing is given for two
members. -/
theorem operation?_distributes_iff (ht : t.Built) (hl : t.Operand left) (hr : t.Operand right)
    (op : BinaryOp) :
    ((∀ p ∈ t.memberPairs left right, (operation? op p.1 p.2 t).1.isSome) →
      ∃ joined t', memberwise? op left right t = (some joined, t') ∧
        (operation? op left right t = (some joined, t') ↔ ¬ t.OverlooksForm op left right)) ∧
    (t.OverlooksForm op left right → (operation? op left right t).1 = none) ∧
    ((∃ p ∈ t.memberPairs left right, (operation? op p.1 p.2 t).1 = none) →
      (operation? op left right t).1 = none) := by
  have htidy := ht.tidy
  have hoverlooked (h : t.OverlooksForm op left right) : (operation? op left right t).1 = none := by
    obtain ⟨-, hunion, p, hp, hform⟩ := h
    obtain ⟨form, hform⟩ := Option.isSome_iff_exists.mp hform
    rw [← Option.not_isSome_iff_eq_none, htidy.isSome_operation?_of_union hl hr hunion,
      Bool.not_eq_true, List.all_eq_false]
    exact ⟨p, hp, by simp [simpleOperation?_of_form hform]⟩
  have hagree (h : ¬ t.OverlooksForm op left right) :
      operation? op left right t = memberwise? op left right t := by
    by_cases hunion : t.isUnion left = true ∨ t.isUnion right = true
    · refine htidy.operation?_eq_memberwise? hl hr hunion fun p hp hop => ?_
      by_contra hform
      exact h ⟨hop, hunion, p, hp, Option.isSome_iff_ne_none.mpr hform⟩
    · rw [not_or, Bool.not_eq_true, Bool.not_eq_true] at hunion
      exact (memberwise?_of_single htidy.base ⟨hl, hunion.1⟩ ⟨hr, hunion.2⟩).symm
  refine ⟨fun hdefined => ?_, hoverlooked, ?_⟩
  · have hsome : (memberwise? op left right t).1.isSome := by
      rw [htidy.isSome_memberwise? hl hr]
      exact List.all_eq_true.mpr hdefined
    obtain ⟨joined, hjoined⟩ := Option.isSome_iff_exists.mp hsome
    have hrun : memberwise? op left right t = (some joined, (memberwise? op left right t).2) :=
      Prod.ext hjoined rfl
    refine ⟨joined, _, hrun, fun heq h => ?_, fun h => (hagree h).trans hrun⟩
    have hnone := hoverlooked h
    rw [heq] at hnone
    cases hnone
  · rintro ⟨p, hp, hnone⟩
    by_cases h : t.OverlooksForm op left right
    · exact hoverlooked h
    · rw [hagree h, ← Option.not_isSome_iff_eq_none, htidy.isSome_memberwise? hl hr,
        Bool.not_eq_true, List.all_eq_false]
      exact ⟨p, hp, by simp [hnone]⟩

/-- A table in which `int | float` has the number 12. -/
def joinedNumbers : TypeTable := (union [.int, .float] initial).2

/-- `int | float` and `int` are added member by member. -/
theorem operation?_distributes_joinedNumbers :
    joinedNumbers.Built ∧ joinedNumbers.Operand 12 ∧ joinedNumbers.Operand TypeId.int ∧
      (∀ p ∈ joinedNumbers.memberPairs 12 TypeId.int,
        (operation? .add p.1 p.2 joinedNumbers).1.isSome) ∧
      ¬ joinedNumbers.OverlooksForm .add 12 TypeId.int ∧
      ∃ joined t', memberwise? .add 12 TypeId.int joinedNumbers = (some joined, t') ∧
        operation? .add 12 TypeId.int joinedNumbers = (some joined, t') := by
  have ht : joinedNumbers.Built :=
    @Built.run _ (.union [.int, .float]) .initial nofun (by decide +kernel) nofun
  have hl : joinedNumbers.Operand 12 := ⟨by decide +kernel, by decide, by decide⟩
  have hr : joinedNumbers.Operand TypeId.int := ⟨by decide +kernel, by decide, by decide⟩
  have hdefined : ∀ p ∈ joinedNumbers.memberPairs 12 TypeId.int,
      (operation? .add p.1 p.2 joinedNumbers).1.isSome := by decide +kernel
  have hforms : ¬ joinedNumbers.OverlooksForm .add 12 TypeId.int := fun h => nomatch h.1
  obtain ⟨joined, t', hjoined, hiff⟩ := (operation?_distributes_iff ht hl hr .add).1 hdefined
  exact ⟨ht, hl, hr, hdefined, hforms, joined, t', hjoined, hiff.mpr hforms⟩

/-- A table in which the classes `int`, `str` and `float` have the numbers 12, 13 and 15, and the
union of the first two the number 14. -/
def joinedClasses : TypeTable :=
  (classObject .float (union [12, 13] (classObject .str (classObject .int initial).2).2).2).2

/-- `|` joins each of the classes `int` and `str` with `float`, but it is not defined for the union
of the two. -/
theorem not_distributes_joinedClasses :
    (∀ p ∈ joinedClasses.memberPairs 14 15, (operation? .bitOr p.1 p.2 joinedClasses).1.isSome) ∧
      (memberwise? .bitOr 14 15 joinedClasses).1.isSome ∧
      (operation? .bitOr 14 15 joinedClasses).1 = none := by
  refine ⟨?_, ?_, ?_⟩ <;> decide +kernel

end TypeTable
end LiveCheck
