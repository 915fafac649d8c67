import LiveCheck.Proofs.Scope.Standing

/-!
# Static scoping

What a name means in a scope depends on where it is bound and on what the scopes around say about it.
A scope that says `global` means the name of the module; one that says `nonlocal` means the name of
the nearest function around that binds it; a scope that binds the name means its own; any other asks
the next scope around that is not the body of a class.

Looking a name up agrees with this wherever the declarations of the name obey the statements about
it, with one exception: a statement `global` is not heard from inside the scope that makes it, so that
the name of a function further out is found in place of the module's.
-/

namespace LiveCheck.Binding

/-! ## What names mean -/

/-- The scopes around a scope whose names are visible in it: the bodies of classes are not. -/
def visible (b : Binding) (scope : ScopeId) : List ScopeId :=
  (b.enclosing scope).tail.filter fun id => b.scopeKind? id != some .classBody

/-- Whether a scope is that of a function. -/
def isFunction (b : Binding) (scope : ScopeId) : Bool :=
  b.scopeKind? scope == some .function || b.scopeKind? scope == some .lambda

/-- A scope binds a name that is declared in it, at any place, if the scope says neither `global` nor
`nonlocal` about it. -/
def binds (b : Binding) (scope : ScopeId) (name : String) : Bool :=
  !b.isGlobal scope name && !b.isNonlocal scope name && b.declarations.any fun d =>
    d.name == name && d.kind != .instanceAttribute && b.scopeOfName? d.node == some scope

/-- The nearest function that binds a name. -/
def binder? (b : Binding) (name : String) (scopes : List ScopeId) : Option ScopeId :=
  scopes.find? fun id => b.isFunction id && b.binds id name

/-- What a name means in the first of some scopes, where the others are those visible around it. -/
def meaningIn? (b : Binding) (name : String) : List ScopeId → Option SymbolId
  | [] => none
  | scope :: outer =>
    if scope == 0 || b.isGlobal scope name then b.moduleSymbol? name
    else if b.isNonlocal scope name then (b.binder? name outer).bind (b.local? · name)
    else if b.binds scope name then b.local? scope name
    else b.meaningIn? name outer

/-- What a name means in a scope. -/
def meaning? (b : Binding) (scope : ScopeId) (name : String) : Option SymbolId :=
  b.meaningIn? name (scope :: b.visible scope)

/-! ## Where lookups go wrong -/

/-- The scope that a name declared in a scope belongs to: the module for `global`, the nearest function
around that binds the name, if there is one, for `nonlocal`, and otherwise the scope itself. -/
def home? (b : Binding) (scope : ScopeId) (name : String) : Option ScopeId :=
  if b.isGlobal scope name then some 0
  else if b.isNonlocal scope name then b.binder? name (b.visible scope)
  else some scope

/-- The statements `global` and `nonlocal` about a name are obeyed: where there is one, the name is
declared in the scope that it belongs to, and every name belongs to some scope. -/
structure Obeyed (b : Binding) (name : String) : Prop where
  declared : ∀ d ∈ b.declarations, d.kind ≠ .instanceAttribute → d.name = name →
    ∀ scope ∈ b.scopeOfName? d.node, (b.isGlobal scope name || b.isNonlocal scope name) = true →
      b.home? scope name = some d.scope
  homes : ∀ scope < b.scopes.size, scope ≠ 0 → (b.home? scope name).isSome = true

instance (b : Binding) (name : String) : Decidable (b.Obeyed name) :=
  decidable_of_iff
    ((∀ d ∈ b.declarations, d.kind ≠ .instanceAttribute → d.name = name →
      ∀ scope ∈ b.scopeOfName? d.node, (b.isGlobal scope name || b.isNonlocal scope name) = true →
        b.home? scope name = some d.scope) ∧
      ∀ scope < b.scopes.size, scope ≠ 0 → (b.home? scope name).isSome = true)
    ⟨fun h => ⟨h.1, h.2⟩, fun h => ⟨h.declared, h.homes⟩⟩

/-- Asking outwards, a scope is met that says `global` about the name, with a function around it that
binds the name. -/
def overlooksIn (b : Binding) (name : String) : List ScopeId → Bool
  | [] => false
  | scope :: outer =>
    if b.isGlobal scope name then (b.binder? name outer).isSome
    else !b.isNonlocal scope name && !b.binds scope name && b.overlooksIn name outer

/-- A lookup asks outwards and passes over a statement `global`. -/
def overlooks (b : Binding) (scope : ScopeId) (name : String) : Bool :=
  !b.isGlobal scope name && b.overlooksIn name (scope :: b.visible scope)

variable {b : Binding} {scope : ScopeId} {name : String} {symbol : SymbolId}
  {scopes outer : List ScopeId} {d : Declaration}

private theorem home?_global (h : b.isGlobal scope name = true) : b.home? scope name = some 0 := by
  rw [home?, if_pos h]

private theorem home?_nonlocal (hglobal : b.isGlobal scope name = false)
    (h : b.isNonlocal scope name = true) :
    b.home? scope name = b.binder? name (b.visible scope) := by
  rw [home?, hglobal, if_neg Bool.false_ne_true, if_pos h]

/-! ## The scopes around a scope -/

private theorem scopesUpTo_eq (hb : b.Exact) {fuel fuel' : Nat} (h : scope < fuel)
    (h' : scope < fuel') :
    b.scopesUpTo fuel scope = b.scopesUpTo fuel' scope := by
  induction scope using Nat.strongRecOn generalizing fuel fuel' with
  | ind scope ih =>
    obtain ⟨fuel, rfl⟩ := Nat.exists_eq_add_one_of_ne_zero (Nat.ne_zero_of_lt h)
    obtain ⟨fuel', rfl⟩ := Nat.exists_eq_add_one_of_ne_zero (Nat.ne_zero_of_lt h')
    unfold scopesUpTo
    cases hs : b.scopes[scope]? with
    | none => rfl
    | some s =>
      cases hp : s.parent with
      | none => simp only [hp, Option.elim_none]
      | some parent =>
        have hlt : parent < scope := by
          by_cases hzero : scope = 0
          · obtain ⟨r, hr, -, hnone⟩ := hb.outermost
            obtain rfl := Option.some.inj ((hzero ▸ hs).symm.trans hr)
            exact nomatch hnone.symm.trans hp
          · obtain ⟨-, p, hp', hparent⟩ := hb.nested scope s hs hzero
            obtain rfl := Option.some.inj (hp.symm.trans hparent)
            exact hp'
        simp only [hp, Option.elim_some]
        rw [ih parent hlt (Nat.lt_of_lt_of_le hlt (Nat.le_of_lt_succ h))
          (Nat.lt_of_lt_of_le hlt (Nat.le_of_lt_succ h'))]

private theorem enclosing_of_parent (hb : b.Exact) {s : Scope} {parent : ScopeId}
    (hs : b.scopes[scope]? = some s) (hp : s.parent = some parent) (hlt : parent < scope) :
    b.enclosing scope = scope :: b.enclosing parent := by
  have hsize := (Array.getElem?_eq_some_iff.mp hs).1
  have hparent : b.scopesUpTo scope parent = b.enclosing parent :=
    scopesUpTo_eq hb hlt (Nat.lt_trans hlt hsize)
  rw [enclosing, scopesUpTo_eq hb hsize (Nat.lt_succ_self scope), scopesUpTo, hs]
  simp only [hp, Option.elim_some, hparent]

private theorem enclosing_zero (hb : b.Exact) : b.enclosing 0 = [0] := by
  obtain ⟨s, hs, -, hnone⟩ := hb.outermost
  have hsize := (Array.getElem?_eq_some_iff.mp hs).1
  rw [enclosing, scopesUpTo_eq hb hsize Nat.zero_lt_one, scopesUpTo, hs]
  simp only [hnone, Option.elim_none]

private theorem enclosing_eq (hb : b.Exact) (h : scope < b.scopes.size) :
    ∃ outer, b.enclosing scope = scope :: outer ∧ ∀ id ∈ outer, id < scope := by
  induction scope using Nat.strongRecOn with
  | ind scope ih =>
    by_cases hzero : scope = 0
    · subst hzero
      exact ⟨[], enclosing_zero hb, fun _ hid => absurd hid List.not_mem_nil⟩
    · obtain ⟨-, parent, hlt, hp⟩ := hb.nested scope _ (Array.getElem?_eq_getElem h) hzero
      obtain ⟨outer, henclosing, hless⟩ := ih parent hlt (Nat.lt_trans hlt h)
      refine ⟨parent :: outer, ?_, List.forall_mem_cons.mpr ⟨hlt, fun id hid => ?_⟩⟩
      · rw [enclosing_of_parent hb (Array.getElem?_eq_getElem h) hp hlt, henclosing]
      · exact Nat.lt_trans (hless id hid) hlt

private theorem visible_eq (hb : b.Exact) (h : scope < b.scopes.size) (hne : scope ≠ 0) :
    ∃ parent < scope, b.visible scope =
      if b.scopeKind? parent != some .classBody then parent :: b.visible parent
      else b.visible parent := by
  have hs := Array.getElem?_eq_getElem h
  obtain ⟨-, parent, hlt, hp⟩ := hb.nested scope _ hs hne
  obtain ⟨outer, houter, -⟩ := enclosing_eq hb (Nat.lt_trans hlt h)
  refine ⟨parent, hlt, ?_⟩
  rw [visible, visible, enclosing_of_parent hb hs hp hlt, houter, List.tail_cons, List.tail_cons,
    List.filter_cons]

private theorem visible_zero (hb : b.Exact) : b.visible 0 = [] := by
  rw [visible, enclosing_zero hb]
  rfl

/-- Scopes that lead outward to that of the module: each has the others behind it visible around, and
all but the last are functions. -/
private structure Outward (b : Binding) (scopes : List ScopeId) : Prop where
  around : ∀ id outer, id :: outer <:+ scopes → b.visible id = outer ∧ id < b.scopes.size
  module : 0 ∈ scopes
  functions : ∀ id ∈ scopes, id ≠ 0 → b.isFunction id = true

private theorem Outward.tail (h : b.Outward (scope :: outer)) (hne : scope ≠ 0) :
    b.Outward outer where
  around id outer' hid := h.around id outer' (hid.trans (List.suffix_cons scope outer))
  module := (List.mem_cons.mp h.module).resolve_left (Ne.symm hne)
  functions id hid := h.functions id (List.mem_cons_of_mem scope hid)

private theorem Outward.of_zero (hb : b.Exact) (h : b.Outward (0 :: outer)) :
    outer = [] := by
  rw [← (h.around 0 outer List.suffix_rfl).1, visible_zero hb]

private theorem outward_zero (hb : b.Exact) : b.Outward [0] where
  around id outer hid := by
    obtain ⟨s, hs, -⟩ := hb.outermost
    rcases List.suffix_cons_iff.mp hid with h | h
    · obtain ⟨rfl, rfl⟩ := List.cons.inj h
      exact ⟨visible_zero hb, (Array.getElem?_eq_some_iff.mp hs).1⟩
    · exact nomatch List.suffix_nil.mp h
  module := List.mem_cons_self
  functions id hid hne := absurd (List.mem_singleton.mp hid) hne

private theorem isFunction_of_kind (hb : b.Exact) (h : scope < b.scopes.size) (hne : scope ≠ 0)
    (hclass : b.scopeKind? scope ≠ some .classBody) : b.isFunction scope = true := by
  have hs := Array.getElem?_eq_getElem h
  obtain ⟨hroot, -⟩ := hb.nested scope _ hs hne
  rw [scopeKind?, hs] at hclass
  rw [isFunction, scopeKind?, hs]
  cases hkind : b.scopes[scope].kind <;> simp_all

private theorem outward_visible (hb : b.Exact) (h : scope < b.scopes.size) (hne : scope ≠ 0) :
    b.Outward (b.visible scope) := by
  induction scope using Nat.strongRecOn with
  | ind scope ih =>
    obtain ⟨parent, hlt, hvisible⟩ := visible_eq hb h hne
    have hparent := Nat.lt_trans hlt h
    rw [hvisible]
    by_cases hzero : parent = 0
    · obtain ⟨s, hs, hroot, -⟩ := hb.outermost
      have hclass : b.scopeKind? 0 = some .root := by rw [scopeKind?, hs, Option.map_some, hroot]
      rw [hzero, hclass, visible_zero hb]
      exact outward_zero hb
    · have houter := ih parent hlt hparent hzero
      split
      · next hclass =>
        refine ⟨fun id outer hid => ?_, List.mem_cons_of_mem parent houter.module,
          List.forall_mem_cons.mpr ⟨fun _ => ?_, houter.functions⟩⟩
        · rcases List.suffix_cons_iff.mp hid with h | h
          · obtain ⟨rfl, rfl⟩ := List.cons.inj h
            exact ⟨rfl, hparent⟩
          · exact houter.around id outer h
        · exact isFunction_of_kind hb hparent hzero (bne_iff_ne.mp hclass)
      · exact houter

private theorem findSome?_filter {p : ScopeId → Bool} {f : ScopeId → Option SymbolId}
    (h : ∀ id ∈ scopes, id ≠ scope) :
    scopes.findSome? (fun id => if id == scope || p id then f id else none) =
      (scopes.filter p).findSome? f := by
  induction scopes with
  | nil => rfl
  | cons id scopes ih =>
    rw [List.forall_mem_cons] at h
    rw [List.findSome?_cons, ih h.2, beq_false_of_ne h.1, Bool.false_or, List.filter_cons]
    cases p id
    · rfl
    · rw [if_pos rfl, if_pos rfl, List.findSome?_cons]

private theorem resolve?_eq (hb : b.Exact) (h : scope < b.scopes.size) (name : String) :
    b.resolve? scope name = if b.isGlobal scope name then b.moduleSymbol? name
      else (scope :: b.visible scope).findSome? (b.local? · name) := by
  obtain ⟨outer, henclosing, hless⟩ := enclosing_eq hb h
  rw [resolve?, henclosing, List.findSome?_cons,
    findSome?_filter fun id hid => Nat.ne_of_lt (hless id hid), beq_self_eq_true,
    Bool.true_or, if_pos rfl, visible, henclosing, List.findSome?_cons]
  rfl

/-! ## Names in scopes -/

private theorem local?_of_lists (hb : b.Exact) (h : b.Lists scope false name symbol) :
    b.local? scope name = some symbol := by
  obtain ⟨s, hs, hmem⟩ := h
  have hnodup := hb.names scope s false hs
  have hmem := Array.mem_toList_iff.mpr hmem
  cases hfound : s.symbols.find? name with
  | none => exact absurd (List.mem_map_of_mem hmem) (SymbolTable.find?_eq_none hfound)
  | some other =>
    have hother : (name, other) ∈ (s.table false).toList :=
      Array.mem_toList_iff.mpr (SymbolTable.mem_of_find? hfound)
    have hsame := List.inj_on_of_nodup_map hnodup hother hmem rfl
    rw [local?, hs, Option.bind_some, hfound, (Prod.mk.inj hsame).2]

private theorem binds_iff : b.binds scope name = true ↔ b.isGlobal scope name = false ∧
    b.isNonlocal scope name = false ∧ ∃ d ∈ b.declarations, d.name = name ∧
      d.kind ≠ .instanceAttribute ∧ b.scopeOfName? d.node = some scope := by
  simp only [binds, Bool.and_eq_true, Bool.not_eq_true', Array.any_eq_true', beq_iff_eq,
    bne_iff_ne, and_assoc]

/-- The tables of a text in which the statements about a name are obeyed. -/
private structure Scoped (b : Binding) (name : String) : Prop where
  exact : b.Exact
  consistent : b.Consistent
  peopled : b.Peopled
  standing : ∀ d ∈ b.declarations, d.kind ≠ .instanceAttribute → ∃ scope, b.StandsIn d scope
  obeyed : b.Obeyed name

section

variable (hb : b.Scoped name)
include hb

private theorem Scoped.local?_eq (hd : d ∈ b.declarations) (hkind : d.kind ≠ .instanceAttribute)
    (hname : d.name = name) :
    b.local? d.scope name = some d.symbol := by
  obtain ⟨index, hindex⟩ := Array.mem_iff_getElem?.mp hd
  have hlists := hb.peopled.home index d hindex
  rw [beq_false_of_ne hkind, hname] at hlists
  exact local?_of_lists hb.exact hlists

private theorem Scoped.isSome_local? (hne : scope ≠ 0) :
    (b.local? scope name).isSome = b.binds scope name := by
  rw [Bool.eq_iff_iff, binds_iff]
  constructor
  · intro h
    obtain ⟨symbol, hsymbol⟩ := Option.isSome_iff_exists.mp h
    obtain ⟨d, hd, hscope, hname, hkind⟩ :=
      hb.peopled.people scope false name symbol (lists_of_symbolIn? hsymbol)
    have hkind : d.kind ≠ .instanceAttribute := by simpa using hkind
    obtain ⟨stands, hstands, -, hwhere⟩ := hb.standing d hd hkind
    rw [hname] at hwhere
    cases hglobal : b.isGlobal stands name with
    | true =>
      have hhome := hb.obeyed.declared d hd hkind hname stands hstands (by simp [hglobal])
      rw [home?_global hglobal, hscope] at hhome
      exact absurd (Option.some.inj hhome).symm hne
    | false =>
      cases hnonlocal : b.isNonlocal stands name with
      | true =>
        have hhome := hb.obeyed.declared d hd hkind hname stands hstands (by simp [hnonlocal])
        rw [home?_nonlocal hglobal hnonlocal] at hhome
        have hbinds := List.find?_some hhome
        rw [Bool.and_eq_true, hscope] at hbinds
        exact binds_iff.mp hbinds.2
      | false =>
        have hsame : d.scope = stands := by simpa [hglobal, hnonlocal] using hwhere
        obtain rfl := hscope.symm.trans hsame
        exact ⟨hglobal, hnonlocal, d, hd, hname, hkind, hstands⟩
  · rintro ⟨hglobal, hnonlocal, d, hd, hname, hkind, hscope⟩
    obtain ⟨stands, hstands, -, hwhere⟩ := hb.standing d hd hkind
    obtain rfl := Option.some.inj (hscope.symm.trans hstands)
    have hsame : d.scope = scope := by simpa [hname, hglobal, hnonlocal] using hwhere
    rw [← hsame, hb.local?_eq hd hkind hname]
    rfl

private theorem Scoped.local?_eq_none (hne : scope ≠ 0) (h : b.binds scope name = false) :
    b.local? scope name = none := by
  rw [← Option.not_isSome_iff_eq_none, hb.isSome_local? hne, h]
  exact Bool.false_ne_true

private theorem Scoped.local?_ne (hne : scope ≠ 0) (h : b.binds scope name = true) :
    b.local? scope name ≠ b.moduleSymbol? name := by
  rw [← hb.isSome_local? hne, Option.isSome_iff_exists] at h
  obtain ⟨symbol, hsymbol⟩ := h
  intro hmodule
  rw [hsymbol] at hmodule
  obtain ⟨e, he, -, hscope⟩ := hb.consistent.entry scope false name symbol (lists_of_symbolIn? hsymbol)
  obtain ⟨e', he', -, hzero⟩ :=
    hb.consistent.entry 0 false name symbol (lists_of_symbolIn? hmodule.symm)
  obtain rfl := Option.some.inj (he.symm.trans he')
  exact hne (hscope.symm.trans hzero)

private theorem Scoped.isFunction_zero : b.isFunction 0 = false := by
  rw [isFunction, hb.consistent.root]
  rfl

/-! ## Asking outwards -/

private theorem Scoped.findSome?_eq (h : b.Outward scopes) :
    scopes.findSome? (b.local? · name) =
      (b.binder? name scopes).elim (b.moduleSymbol? name) (b.local? · name) := by
  induction scopes with
  | nil => exact absurd h.module List.not_mem_nil
  | cons id scopes ih =>
    rw [List.findSome?_cons, binder?, List.find?_cons]
    by_cases hzero : id = 0
    · subst hzero
      obtain rfl := h.of_zero hb.exact
      rw [hb.isFunction_zero, Bool.false_and, ← moduleSymbol?]
      cases b.moduleSymbol? name <;> rfl
    · rw [h.functions id List.mem_cons_self hzero, Bool.true_and]
      cases hbinds : b.binds id name with
      | true =>
        have hsome := hb.isSome_local? hzero
        rw [hbinds, Option.isSome_iff_exists] at hsome
        obtain ⟨symbol, hsymbol⟩ := hsome
        simp only [hsymbol, Option.elim_some]
      | false =>
        rw [hb.local?_eq_none hzero hbinds]
        exact ih (h.tail hzero)

private theorem Scoped.findSome?_eq_module (h : b.Outward scopes) :
    scopes.findSome? (b.local? · name) = b.moduleSymbol? name ↔
      (b.binder? name scopes).isSome = false := by
  rw [hb.findSome?_eq h]
  cases hbinder : b.binder? name scopes with
  | none => simp
  | some id =>
    have hbinds := List.find?_some hbinder
    rw [Bool.and_eq_true] at hbinds
    have hne : id ≠ 0 := by
      rintro rfl
      exact nomatch hb.isFunction_zero.symm.trans hbinds.1
    simpa using hb.local?_ne hne hbinds.2

private theorem Scoped.findSome?_cons_iff (h : scope < b.scopes.size) (hne : scope ≠ 0)
    (hglobal : b.isGlobal scope name = false)
    (houter : (b.visible scope).findSome? (b.local? · name) = b.meaningIn? name (b.visible scope) ↔
      b.overlooksIn name (b.visible scope) = false) :
    (scope :: b.visible scope).findSome? (b.local? · name) = b.meaning? scope name ↔
      b.overlooksIn name (scope :: b.visible scope) = false := by
  have hnone (hbinds : b.binds scope name = false) :
      (scope :: b.visible scope).findSome? (b.local? · name) =
        (b.visible scope).findSome? (b.local? · name) := by
    rw [List.findSome?_cons, hb.local?_eq_none hne hbinds]
  rw [meaning?, meaningIn?, overlooksIn, beq_false_of_ne hne, Bool.false_or, hglobal,
    if_neg Bool.false_ne_true, if_neg Bool.false_ne_true]
  cases hnonlocal : b.isNonlocal scope name with
  | true =>
    have hhome := hb.obeyed.homes scope h hne
    rw [home?_nonlocal hglobal hnonlocal] at hhome
    obtain ⟨f, hf⟩ := Option.isSome_iff_exists.mp hhome
    rw [hnone (by simp [binds, hnonlocal]), if_pos rfl,
      hb.findSome?_eq (outward_visible hb.exact h hne), hf]
    simp
  | false =>
    rw [if_neg Bool.false_ne_true]
    cases hbinds : b.binds scope name with
    | true =>
      have hsome := hb.isSome_local? hne
      rw [hbinds, Option.isSome_iff_exists] at hsome
      obtain ⟨symbol, hsymbol⟩ := hsome
      rw [List.findSome?_cons, hsymbol]
      simp
    | false =>
      rw [if_neg Bool.false_ne_true, hnone hbinds]
      exact houter

private theorem Scoped.findSome?_eq_iff (h : b.Outward scopes) :
    scopes.findSome? (b.local? · name) = b.meaningIn? name scopes ↔
      b.overlooksIn name scopes = false := by
  induction scopes with
  | nil => exact absurd h.module List.not_mem_nil
  | cons id outer ih =>
    by_cases hzero : id = 0
    · subst hzero
      obtain rfl := h.of_zero hb.exact
      have hbinder : b.binder? name [0] = none := by
        rw [binder?, List.find?_cons, hb.isFunction_zero]
        rfl
      rw [meaningIn?, beq_self_eq_true, Bool.true_or, if_pos rfl, hb.findSome?_eq_module h, hbinder,
        overlooksIn]
      simp [binder?, overlooksIn]
    · obtain ⟨rfl, hsize⟩ := h.around id outer List.suffix_rfl
      have houter := h.tail hzero
      cases hglobal : b.isGlobal id name with
      | true =>
        have hbinds : b.binds id name = false := by simp [binds, hglobal]
        rw [List.findSome?_cons, hb.local?_eq_none hzero hbinds, meaningIn?, overlooksIn, hglobal,
          Bool.or_true, if_pos rfl, if_pos rfl]
        exact hb.findSome?_eq_module houter
      | false => exact hb.findSome?_cons_iff hsize hzero hglobal (ih houter)

private theorem Scoped.resolve?_eq_meaning?_iff (h : scope < b.scopes.size) :
    b.resolve? scope name = b.meaning? scope name ↔ b.overlooks scope name = false := by
  rw [resolve?_eq hb.exact h, overlooks]
  cases hglobal : b.isGlobal scope name with
  | true => simp [meaning?, meaningIn?, hglobal]
  | false =>
    rw [if_neg Bool.false_ne_true, Bool.not_false, Bool.true_and]
    by_cases hzero : scope = 0
    · subst hzero
      rw [meaning?, visible_zero hb.exact]
      exact hb.findSome?_eq_iff (outward_zero hb.exact)
    · exact hb.findSome?_cons_iff h hzero hglobal
        (hb.findSome?_eq_iff (outward_visible hb.exact h hzero))

private theorem Scoped.resolve?_declaration (hd : d ∈ b.declarations)
    (hkind : d.kind ≠ .instanceAttribute)
    (hname : d.name = name) (hscope : b.scopeOfName? d.node = some scope) :
    b.resolve? scope name = some d.symbol := by
  obtain ⟨stands, hstands, hsize, hwhere⟩ := hb.standing d hd hkind
  obtain rfl := Option.some.inj (hscope.symm.trans hstands)
  have hlocal := hb.local?_eq hd hkind hname
  rw [hname] at hwhere
  rw [resolve?_eq hb.exact hsize]
  cases hglobal : b.isGlobal scope name with
  | true =>
    have hhome := hb.obeyed.declared d hd hkind hname scope hscope (by simp [hglobal])
    rw [home?_global hglobal] at hhome
    rw [← Option.some.inj hhome] at hlocal
    exact hlocal
  | false =>
    rw [if_neg Bool.false_ne_true, List.findSome?_cons]
    cases hnonlocal : b.isNonlocal scope name with
    | true =>
      have hbinder := hb.obeyed.declared d hd hkind hname scope hscope (by simp [hnonlocal])
      rw [home?_nonlocal hglobal hnonlocal] at hbinder
      have hne : scope ≠ 0 := by
        rintro rfl
        rw [visible_zero hb.exact] at hbinder
        exact nomatch hbinder
      rw [hb.local?_eq_none hne (by simp [binds, hnonlocal])]
      show (b.visible scope).findSome? (b.local? · name) = _
      rw [hb.findSome?_eq (outward_visible hb.exact hsize hne), hbinder]
      exact hlocal
    | false =>
      have hown : d.scope = scope := by simpa [hglobal, hnonlocal] using hwhere
      rw [← hown, hlocal]

end

private theorem scoped_bind (text : String) (h : (parse text).tree.bind.Obeyed name) :
    (parse text).tree.bind.Scoped name where
  exact := (sound_bind text).exact
  consistent := Tree.consistent_bind _
  peopled := Tree.peopled_bind _
  standing := Tree.exists_standsIn text
  obeyed := h

/-- **Names are looked up by static scoping.** In every text and for every name whose declarations
obey the statements about it: a lookup finds what the name means in a scope exactly if it passes over
no statement `global`, and a node that declares the name finds the symbol of its declaration. -/
theorem resolves_statically (text : String) (name : String)
    (h : (parse text).tree.bind.Obeyed name) :
    (∀ scope < (parse text).tree.bind.scopes.size,
      (parse text).tree.bind.resolve? scope name = (parse text).tree.bind.meaning? scope name ↔
        (parse text).tree.bind.overlooks scope name = false) ∧
    ∀ d ∈ (parse text).tree.bind.declarations, d.kind ≠ .instanceAttribute → d.name = name →
      ∀ scope ∈ (parse text).tree.bind.scopeOfName? d.node,
        (parse text).tree.bind.resolve? scope name = some d.symbol := by
  have hscoped := scoped_bind text h
  exact ⟨fun scope hscope => hscoped.resolve?_eq_meaning?_iff hscope,
    fun d hd hkind hname scope hscope => hscoped.resolve?_declaration hd hkind hname hscope⟩

/-- A text in which a function sets a name of the module and another one that of the function around
it. -/
def obedientText : String :=
  "x = 1\ndef f():\n x = 1\n def g():\n  nonlocal x\n  x = 2\n def h():\n  global x\n  x = 3\n"

/-- A `nonlocal` name, and one of the module. -/
theorem resolves_statically_obedientText :
    (parse obedientText).tree.bind.Obeyed "x" ∧
      (parse obedientText).tree.bind.resolve? 2 "x" = some 2 ∧
      (parse obedientText).tree.bind.resolve? 3 "x" = some 0 := by
  have h : (parse obedientText).tree.bind.Obeyed "x" ∧
      ∀ scope ∈ [2, 3], scope < (parse obedientText).tree.bind.scopes.size ∧
        (parse obedientText).tree.bind.overlooks scope "x" = false ∧
        (parse obedientText).tree.bind.meaning? scope "x" = some (if scope = 2 then 2 else 0) := by
    decide +kernel
  obtain ⟨hobeyed, hscopes⟩ := h
  obtain ⟨hlookup, -⟩ := resolves_statically obedientText "x" hobeyed
  have hfound (scope : ScopeId) (hscope : scope ∈ [2, 3]) :
      (parse obedientText).tree.bind.resolve? scope "x" = some (if scope = 2 then 2 else 0) := by
    obtain ⟨hsize, hheard, hmeaning⟩ := hscopes scope hscope
    rw [(hlookup scope hsize).mpr hheard, hmeaning]
  exact ⟨hobeyed, hfound 2 (by decide), hfound 3 (by decide)⟩

/-! ## Texts in which lookups go wrong -/

/-- The scope of the nearest definition around a node. -/
def scopeAround? (b : Binding) (a : Arena) (node : NodeId) : Option ScopeId :=
  (a.ancestors node).findSome? b.scopeOfDefinition?

/-- The names in a statement `global` or `nonlocal`. -/
def statedNames (a : Arena) (node : NodeId) : List NodeId :=
  match a.data? node with
  | some (.globalStmt names) | some (.nonlocalStmt names) => names
  | _ => []

/-- In every scope, the statements `global` and `nonlocal` about a name stand in front of all that
declares the name there. -/
def StatesFirst (t : Tree) : Prop :=
  ∀ statement ∈ t.arena.walk t.root, ∀ stated ∈ statedNames t.arena statement,
    ∀ d ∈ t.bind.declarations, d.kind ≠ .instanceAttribute →
      t.arena.nameText? stated = some d.name →
      t.bind.scopeOfName? d.node = t.bind.scopeAround? t.arena statement → stated < d.node

instance (t : Tree) : Decidable (StatesFirst t) :=
  inferInstanceAs (Decidable (∀ statement ∈ t.arena.walk t.root,
    ∀ stated ∈ statedNames t.arena statement, ∀ d ∈ t.bind.declarations,
      d.kind ≠ .instanceAttribute → t.arena.nameText? stated = some d.name →
        t.bind.scopeOfName? d.node = t.bind.scopeAround? t.arena statement → stated < d.node))

/-- The name in the innermost function is that of the module, since the function around it says
`global`. -/
def unheardText : String :=
  "x = 1\ndef f():\n x = 2\n def g():\n  global x\n  def h():\n   return x\n"

/-- The name in the inner function is that of the outer one, which binds it further down. -/
def earlyText : String :=
  "def f():\n def g():\n  nonlocal x\n  x = 1\n x = 2\n"

/-- A name of the text is looked up in the scope that it stands in, and is not found to be what it
means there. -/
def Misses (text name : String) (node : NodeId) (scope : ScopeId) : Prop :=
  (parse text).tree.arena.nameText? node = some name ∧
    (parse text).tree.bind.scopeOfName? node = some scope ∧
    (parse text).tree.bind.resolve? scope name ≠ (parse text).tree.bind.meaning? scope name

instance (text name : String) (node : NodeId) (scope : ScopeId) :
    Decidable (Misses text name node scope) :=
  inferInstanceAs (Decidable (_ ∧ _ ∧ _))

/-- Names are not looked up by static scoping in every text: neither a statement `global` further out
is heard, nor a statement `nonlocal` in front of the declaration that it is about. -/
theorem not_resolves_statically :
    (StatesFirst (parse unheardText).tree ∧ Misses unheardText "x" 11 3) ∧
      StatesFirst (parse earlyText).tree ∧ Misses earlyText "x" 4 2 := by
  decide +kernel

end LiveCheck.Binding
