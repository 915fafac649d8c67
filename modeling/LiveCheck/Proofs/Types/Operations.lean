import LiveCheck.Proofs.Types.Growth

/-!
# Operations that make types

Iteration, operators and the built-in names and methods answer with types of the table, provided
that their operands are types of the table.
-/

namespace LiveCheck

open Discipline

variable {slack n k : Nat} {id left right type : TypeId} {args args' : List TypeId} {σ : Type}
  {D : Discipline σ} {name : String} {m : BuiltinMethod}

/-- The table as it is read: it is closed, and no larger than what exists from then on. -/
def TypeTable.Current (slack : Nat) (t : TypeTable) (k : Nat) : Prop :=
  t.Closed slack ∧ t.extent slack ≤ k

private theorem sound_get :
    (growth slack).Sound n (get : TypeM TypeTable) (TypeTable.Current slack) :=
  fun t ht _ => ⟨ht, .refl t, Nat.le_refl _, ht, Nat.le_refl _⟩

theorem sound_known (h : id.Known n) :
    D.Sound n (pure id) TypeId.Known :=
  .pure fun k hk => TypeId.lasting_known id n k hk h

theorem sound_unknown : D.Sound n (pure .unknown) TypeId.Known := sound_known (.inl (by decide))

theorem sound_someKnown (h : id.Known n) :
    D.Sound n (pure (some id)) (ifSome TypeId.Known) :=
  .pureSome fun k hk => TypeId.lasting_known id n k hk h

theorem known_getD {o : Option TypeId} (h : ifSome TypeId.Known o k) :
    (o.getD .unknown).Known k := by
  cases o with
  | none => exact .inl (by decide)
  | some id => exact h id rfl

/-- An answer that is missing counts as unknown. -/
theorem sound_getD {m : StateM σ (Option TypeId)} (hm : D.Sound n m (ifSome TypeId.Known)) :
    D.Sound n (do return (← m).getD .unknown) TypeId.Known :=
  hm.bind fun _ _ _ ho => sound_known (known_getD ho)

namespace TypeTable

/-! ## Iteration -/

private theorem sound_builtinElement? (cls : BuiltinClass) (h : each TypeId.Known args n) :
    (growth slack).Sound n (builtinElement? cls args) (ifSome TypeId.Known) := by
  have hhead : (args.headD .unknown).Known n := by
    cases args with
    | nil => exact .inl (by decide)
    | cons a rest => exact h a (by simp)
  unfold builtinElement?
  split
  · exact sound_someKnown (.inl (by decide))
  · exact sound_someKnown (.inl (by decide))
  · exact sound_someKnown (.inl (by decide))
  · exact sound_someKnown hhead
  · exact sound_someKnown hhead
  · exact sound_someKnown hhead
  · exact .mapSome (sound_union fun id hid => h id (List.mem_filter.mp hid).1)
  · exact .pureNone

private theorem sound_simpleElement? (h : id.Known n) :
    (growth slack).Sound n (simpleElement? id) (ifSome TypeId.Known) := by
  unfold simpleElement?
  refine .ite (fun _ => sound_someKnown h) fun _ => ?_
  refine sound_get.bind fun t k hk ht => ?_
  split
  · next hd => exact sound_builtinElement? _ fun part hp => ht.1.part ht.2 hd hp
  · exact sound_someKnown (.inl (by decide))
  · exact sound_someKnown (.inl (by decide))
  · exact .pureNone

private theorem sound_searchBind {α β : Type} {R : α → Nat → Prop} {Q : β → Nat → Prop}
    {m : OptionT (OptionT TypeM) α} {f : α → OptionT (OptionT TypeM) β}
    (hm : (growth slack).Sound n m.run.run (ifSome (ifSome R)))
    (hf : ∀ a k, n ≤ k → R a k → (growth slack).Sound k (f a).run.run (ifSome (ifSome Q))) :
    (growth slack).Sound n (m >>= f).run.run (ifSome (ifSome Q)) := by
  rw [OptionT.run_bind]
  refine Sound.optionBind hm fun o k hk ho => ?_
  cases o with
  | none => exact .pureSome fun _ _ => nofun
  | some a => exact hf a k hk (ho a rfl)

private theorem sound_searchMapM {α : Type} {l : List α} {f : α → OptionT (OptionT TypeM) TypeId}
    (hf : ∀ a ∈ l, ∀ k, n ≤ k →
      (growth slack).Sound k (f a).run.run (ifSome (ifSome TypeId.Known))) :
    (growth slack).Sound n (l.mapM f).run.run (ifSome (ifSome (each TypeId.Known))) := by
  induction l generalizing n with
  | nil => exact .pureSome fun k _ ids hids => by obtain rfl := Option.some.inj hids; exact nofun
  | cons a l ih =>
    rw [List.mapM_cons]
    refine sound_searchBind (hf a (by simp) n (Nat.le_refl _)) fun id k hk hid => ?_
    have hl : ∀ x ∈ l, ∀ j, k ≤ j →
        (growth slack).Sound j (f x).run.run (ifSome (ifSome TypeId.Known)) :=
      fun x hx j hj => hf x (by simp [hx]) j (Nat.le_trans hk hj)
    refine sound_searchBind (ih hl) fun ids j hj hids => .pureSome fun i hi found hfound => ?_
    obtain rfl := Option.some.inj hfound
    intro c hc
    rcases List.mem_cons.mp hc with rfl | hc
    · exact TypeId.lasting_known c k i (Nat.le_trans hj hi) hid
    · exact TypeId.lasting_known c j i hi (hids c hc)

private theorem sound_elementUpTo? (fuel : Nat) (h : id.Known n) :
    (growth slack).Sound n (elementUpTo? fuel id).run.run (ifSome (ifSome TypeId.Known)) := by
  induction fuel generalizing id n with
  | zero => exact .pureNone
  | succ fuel ih =>
    refine sound_searchBind (R := TypeTable.Current slack) (sound_get.mapSome.mapSome)
      fun t k hk ht => ?_
    have hid : id.Known k := TypeId.lasting_known id n k hk h
    split
    · next members hd =>
      have hm : ∀ a ∈ members, ∀ j, k ≤ j →
          (growth slack).Sound j (elementUpTo? fuel a).run.run (ifSome (ifSome TypeId.Known)) :=
        fun a ha j hj => ih (TypeId.lasting_known a k j hj (ht.1.part ht.2 hd ha))
      exact sound_searchBind (sound_searchMapM hm) fun _ _ _ hf => (sound_union hf).mapSome.mapSome
    · exact (sound_simpleElement? hid).mapSome

theorem sound_element? (h : id.Known n) :
    (growth slack).Sound n (element? id) (ifSome (ifSome TypeId.Known)) :=
  fun t ht hn => sound_elementUpTo? (t.size + 1) h t ht hn

/-! ## Operators -/

private theorem known_numericType (rank : Nat) : (numericType rank).Known n := by
  unfold numericType
  split <;> exact .inl (by decide)

theorem known_numericOperation? (op : BinaryOp) (cls cls' : BuiltinClass) (rank : Nat) :
    ifSome TypeId.Known (numericOperation? op cls cls' rank) n := by
  have hint : TypeId.int.Known n := .inl (by decide)
  have hbool : TypeId.bool.Known n := .inl (by decide)
  have hrank (r : Nat) : (numericType r).Known n := known_numericType r
  intro type h
  unfold numericOperation? at h
  grind

private theorem sound_whenIntegral (cls : BuiltinClass) (h : id.Known n) :
    (growth slack).Sound n (pure (if cls.isIntegral then some id else none))
      (ifSome TypeId.Known) := by
  split
  · exact sound_someKnown h
  · exact .pureNone

private theorem sound_containerOperation? (op : BinaryOp) (cls cls' : BuiltinClass)
    (hl : left.Known n)
    (hr : right.Known n) (ha : each TypeId.Known args n) (ha' : each TypeId.Known args' n) :
    (growth slack).Sound n (containerOperation? op left cls args right cls' args')
      (ifSome TypeId.Known) := by
  have h (i : Nat) : (argument args i).Known n := known_argument ha i
  have h' (i : Nat) : (argument args' i).Known n := known_argument ha' i
  have hstr : TypeId.str.Known n := .inl (by decide)
  have hbytes : TypeId.bytes.Known n := .inl (by decide)
  unfold containerOperation?
  split
  · exact sound_someKnown hstr
  · exact sound_someKnown hstr
  · exact sound_someKnown hbytes
  · exact sound_someKnown hbytes
  · exact .mapSome ((sound_union2 (h 0) (h' 0)).bind fun _ _ _ hu => sound_listOf hu)
  · refine .mapSome (sound_tupleOf fun id hid => ?_)
    rcases List.mem_append.mp hid with hid | hid
    · exact ha id hid
    · exact ha' id hid
  · exact .mapSome ((sound_union2 (h 0) (h' 0)).bind fun _ _ _ hu => sound_setOf hu)
  · exact .mapSome (sound_setOf (h 0))
  · exact .mapSome (sound_setOf (h 0))
  · exact .mapSome (sound_setOf (h 0))
  · refine (sound_union2 (h 0) (h' 0)).bind fun key k hk hkey => ?_
    refine (sound_union2 (TypeId.lasting_known _ n k hk (h 1))
      (TypeId.lasting_known _ n k hk (h' 1))).bind fun value j hj hvalue => ?_
    exact .mapSome (sound_dictOf (TypeId.lasting_known key k j hj hkey) hvalue)
  · exact sound_whenIntegral _ hstr
  · exact sound_whenIntegral _ hbytes
  · exact sound_whenIntegral _ hl
  · exact sound_whenIntegral _ hstr
  · exact sound_whenIntegral _ hr
  · exact .pureNone

theorem sound_simpleOperation? (op : BinaryOp) (hl : left.Known n) (hr : right.Known n) :
    (growth slack).Sound n (simpleOperation? op left right) (ifSome TypeId.Known) := by
  unfold simpleOperation?
  refine sound_get.bind fun t k hk ht => ?_
  have hl := TypeId.lasting_known left n k hk hl
  have hr := TypeId.lasting_known right n k hk hr
  split
  · next cls args cls' args' he he' =>
    split
    · exact .pure fun j _ => known_numericOperation? op cls cls' _
    · exact sound_containerOperation? op cls cls' hl hr (ht.1.builtinParts? ht.2 he)
        (ht.1.builtinParts? ht.2 he')
  · exact .pureNone

variable {t : TypeTable}

private theorem Closed.formOf? (ht : t.Closed slack) (hk : t.extent slack ≤ k) {form : TypeId}
    (h : t.formOf? id = some form) : form.Known k := by
  unfold TypeTable.formOf? at h
  split at h
  · next he => exact Option.some.inj h ▸ ht.inner? hk he
  · split at h
    · exact Option.some.inj h ▸ .inl (by decide)
    · exact nomatch h

private theorem Closed.unionForm? (ht : t.Closed slack) (hk : t.extent slack ≤ k) {l r : TypeId}
    (h : t.unionForm? left right = some (l, r)) : l.Known k ∧ r.Known k := by
  unfold TypeTable.unionForm? at h
  split at h
  · next hl hr =>
    split at h
    · exact nomatch h
    · obtain ⟨rfl, rfl⟩ := Prod.mk.inj (Option.some.inj h)
      exact ⟨ht.formOf? hk hl, ht.formOf? hk hr⟩
  · exact nomatch h

theorem sound_operation? (op : BinaryOp) (hl : left.Known n) (hr : right.Known n) :
    (growth slack).Sound n (operation? op left right) (ifSome TypeId.Known) := by
  unfold operation?
  refine .ite (fun _ => sound_someKnown (.inl (by decide))) fun _ => ?_
  refine .ite (fun _ => sound_someKnown (.inl (by decide))) fun _ => ?_
  refine sound_get.bind fun t k hk ht => ?_
  have hl := TypeId.lasting_known left n k hk hl
  have hr := TypeId.lasting_known right n k hk hr
  split
  · next l r hform =>
    have hform : t.unionForm? left right = some (l, r) := by
      split at hform
      · exact hform
      · exact nomatch hform
    obtain ⟨hl, hr⟩ := ht.1.unionForm? ht.2 hform
    exact .mapSome ((sound_union2 hl hr).bind fun _ _ _ hu => sound_classObject hu)
  · split
    · exact sound_simpleOperation? op hl hr
    · refine Sound.optionBind (Sound.optionMapM TypeId.lasting_known fun pair hp j hj => ?_)
        fun found j _ hf => Sound.optionLift (sound_union hf)
      obtain ⟨l, hml, hpair⟩ := List.mem_flatMap.mp hp
      obtain ⟨r, hmr, rfl⟩ := List.mem_map.mp hpair
      exact sound_simpleOperation? op
        (TypeId.lasting_known l k j hj (ht.1.members ht.2 hl l hml))
        (TypeId.lasting_known r k j hj (ht.1.members ht.2 hr r hmr))

private theorem known_simpleUnary? (op : UnaryOp) (operand : TypeId) :
    ifSome TypeId.Known (t.simpleUnary? op operand) n := by
  intro type h
  obtain ⟨cls, -, h⟩ := Option.bind_eq_some_iff.mp h
  obtain ⟨rank, -, h⟩ := Option.bind_eq_some_iff.mp h
  split at h
  · split at h
    · exact Option.some.inj h ▸ .inl (by decide)
    · exact nomatch h
  · exact Option.some.inj h ▸ known_numericType rank

private theorem mem_of_mapM {α β : Type} {f : α → Option β} {l : List α} {l' : List β}
    (h : l.mapM f = some l') {b : β} (hb : b ∈ l') : ∃ a ∈ l, f a = some b := by
  induction l generalizing l' with
  | nil =>
    obtain rfl := Option.some.inj h
    exact nomatch hb
  | cons a l ih =>
    rw [List.mapM_cons] at h
    obtain ⟨b', hb', h⟩ := Option.bind_eq_some_iff.mp h
    obtain ⟨rest, hrest, h⟩ := Option.bind_eq_some_iff.mp h
    obtain rfl := Option.some.inj h
    rcases List.mem_cons.mp hb with rfl | hb
    · exact ⟨a, by simp, hb'⟩
    · obtain ⟨x, hx, hf⟩ := ih hrest hb
      exact ⟨x, by simp [hx], hf⟩

theorem sound_unary? (op : UnaryOp) (h : id.Known n) :
    (growth slack).Sound n (unary? op id) (ifSome TypeId.Known) := by
  unfold unary?
  refine .ite (fun _ => sound_someKnown (.inl (by decide))) fun _ => ?_
  refine .ite (fun _ => sound_someKnown h) fun _ => ?_
  refine sound_get.bind fun t k hk ht => ?_
  split
  · next results hm =>
    refine .mapSome (sound_union fun type htype => ?_)
    obtain ⟨m, -, hr⟩ := mem_of_mapM hm htype
    exact known_simpleUnary? op m type hr
  · exact .pureNone

end TypeTable

/-! ## Built-in names and methods -/

open TypeTable

private theorem known_builtinSignature (name : String) (params : List BuiltinParam)
    (h : id.Known n) :
    (builtinSignature name params id).Known n := by
  constructor
  · intro p hp
    obtain ⟨⟨_, _, _⟩, -, rfl⟩ := List.mem_map.mp hp
    have : TypeId.unknown < TypeId.intrinsicCount := by decide
    exact .inl this
  · intro type htype
    obtain rfl := Option.mem_some.mp htype
    exact h

private theorem known_builtinFunctions {s : Signature} (h : s ∈ builtinFunctions) : s.Known n := by
  have hall : ∀ s ∈ builtinFunctions, (∀ p ∈ s.params, p.type < TypeId.intrinsicCount) ∧
      ∀ type ∈ s.result, type < TypeId.intrinsicCount := by decide
  exact ⟨fun p hp => .inl ((hall s h).1 p hp), fun type htype => .inl ((hall s h).2 type htype)⟩

private theorem known_builtinValues (h : builtinValues.lookup name = some type) : type.Known n := by
  have hall : ∀ entry ∈ builtinValues, entry.2 < TypeId.intrinsicCount := by decide
  obtain ⟨before, after, he, -⟩ := List.lookup_eq_some_iff.mp h
  exact .inl (hall (name, type) (by rw [he]; simp))

private theorem known_builtinMethods (h : m ∈ builtinMethods) (hr : m.result = .fixed type) :
    type.Known n := by
  have hall : ∀ m ∈ builtinMethods, (match m.result with
      | .fixed type => type < TypeId.intrinsicCount
      | _ => true : Bool) := by decide
  have := hall m h
  rw [hr] at this
  exact .inl (of_decide_eq_true this)

theorem sound_builtinSymbol {symbol : BuiltinSymbol} (h : BuiltinSymbol.find? name = some symbol) :
    (growth slack).Sound n symbol.type TypeId.Known := by
  have hcases : (∃ cls, symbol = .classDef cls) ∨ (∃ s ∈ builtinFunctions, symbol = .function s) ∨
      ∃ type, builtinValues.lookup name = some type ∧ symbol = .value type := by
    unfold BuiltinSymbol.find? at h
    cases hc : builtinClassNamed? name with
    | some cls =>
      rw [hc] at h
      exact .inl ⟨cls, (Option.some.inj h).symm⟩
    | none =>
      cases hf : builtinFunctions.find? (·.name == name) with
      | some s =>
        rw [hc, hf] at h
        exact .inr (.inl ⟨s, List.mem_of_find?_eq_some hf, (Option.some.inj h).symm⟩)
      | none =>
        rw [hc, hf] at h
        obtain ⟨type, htype, rfl⟩ := Option.map_eq_some_iff.mp h
        exact .inr (.inr ⟨type, htype, rfl⟩)
  rcases hcases with ⟨cls, rfl⟩ | ⟨s, hs, rfl⟩ | ⟨type, htype, rfl⟩
  · have hnone : each TypeId.Known [] n := fun _ h => nomatch h
    exact (sound_builtin hnone).bind fun _ _ _ hid => sound_classObject hid
  · exact sound_function (known_builtinFunctions hs)
  · exact sound_known (known_builtinValues htype)

private theorem sound_methodResult (hm : m ∈ builtinMethods) (ha : each TypeId.Known args n)
    (h : id.Known n) :
    (growth slack).Sound n (m.result.type args id) TypeId.Known := by
  have harg (i : Nat) : (args.getD i .unknown).Known n := known_argument ha i
  cases hr : m.result with
  | fixed type => exact sound_known (known_builtinMethods hm hr)
  | argument index => exact sound_known (harg index)
  | optionalArgument index => exact sound_union2 (harg index) (.inl (by decide))
  | listOfArgument index => exact sound_listOf (harg index)
  | items =>
    exact (sound_tupleOf (known_pair (harg 0) (harg 1))).bind fun _ _ _ hid => sound_listOf hid
  | receiver => exact sound_known h
  | textList => exact sound_listOf (.inl (by decide))

theorem sound_builtinMethod? (cls : BuiltinClass) (name : String) (ha : each TypeId.Known args n)
    (h : id.Known n) :
    (growth slack).Sound n (builtinMethod? cls args id name) (ifSome TypeId.Known) := by
  unfold builtinMethod?
  split
  · next m hf =>
    obtain ⟨above, -, hm⟩ := List.exists_of_findSome?_eq_some hf
    refine (sound_methodResult (List.mem_of_find?_eq_some hm) ha h).bind fun result k _ hres => ?_
    exact .mapSome (sound_function (known_builtinSignature _ _ hres))
  · exact .pureNone

end LiveCheck
