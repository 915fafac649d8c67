import LiveCheck.Proofs.Scope.Exact

/-!
# Where declarations stand

A declaration stands in the scope of its node and belongs to the scope of its symbol. The two are one
scope, unless the scope in which the declaration stands says `global` or `nonlocal` about the name.
The names that a scope lists are those of the declarations that belong to it.
-/

namespace LiveCheck.Binding

variable {a : Arena} {b c : Binding} {scope other : ScopeId} {ns ms : List NodeId} {name : String}

/-! ## Statements about names -/

/-- A scope says `global` about a name. -/
def isGlobal (b : Binding) (scope : ScopeId) (name : String) : Bool :=
  (b.scopes[scope]?.elim #[] (·.globals)).contains name

/-- A scope says `nonlocal` about a name. -/
def isNonlocal (b : Binding) (scope : ScopeId) (name : String) : Bool :=
  (b.scopes[scope]?.elim #[] (·.nonlocals)).contains name

private theorem isGlobal_iff : b.isGlobal scope name = true ↔
    ∃ s, b.scopes[scope]? = some s ∧ name ∈ s.globals := by
  cases h : b.scopes[scope]? <;> simp [isGlobal, h]

private theorem isNonlocal_iff : b.isNonlocal scope name = true ↔
    ∃ s, b.scopes[scope]? = some s ∧ name ∈ s.nonlocals := by
  cases h : b.scopes[scope]? <;> simp [isNonlocal, h]

/-- All that a scope says about names. -/
private structure Heeds (b c : Binding) : Prop where
  exist : b.scopes.size ≤ c.scopes.size
  globals : ∀ scope name, b.isGlobal scope name = true → c.isGlobal scope name = true
  nonlocals : ∀ scope name, b.isNonlocal scope name = true → c.isNonlocal scope name = true

private theorem heeds_modify {f : Scope → Scope}
    (hglobals : ∀ s, ∀ name ∈ s.globals, name ∈ (f s).globals)
    (hnonlocals : ∀ s, ∀ name ∈ s.nonlocals, name ∈ (f s).nonlocals)
    (hscopes : c.scopes = b.scopes.modify scope f) : b.Heeds c := by
  have hscope {other : ScopeId} {s : Scope} (hs : b.scopes[other]? = some s) :
      ∃ r, c.scopes[other]? = some r ∧ (∀ name ∈ s.globals, name ∈ r.globals) ∧
        ∀ name ∈ s.nonlocals, name ∈ r.nonlocals := by
    rw [hscopes, Array.getElem?_modify, hs]
    split
    · exact ⟨f s, rfl, hglobals s, hnonlocals s⟩
    · exact ⟨s, rfl, fun _ h => h, fun _ h => h⟩
  have hsize : b.scopes.size = c.scopes.size := by rw [hscopes, Array.size_modify]
  refine ⟨Nat.le_of_eq hsize, fun other name h => ?_, fun other name h => ?_⟩
  · obtain ⟨s, hs, hname⟩ := isGlobal_iff.mp h
    obtain ⟨r, hr, hglobals, -⟩ := hscope hs
    exact isGlobal_iff.mpr ⟨r, hr, hglobals name hname⟩
  · obtain ⟨s, hs, hname⟩ := isNonlocal_iff.mp h
    obtain ⟨r, hr, -, hnonlocals⟩ := hscope hs
    exact isNonlocal_iff.mpr ⟨r, hr, hnonlocals name hname⟩

private theorem heeds_same (hscopes : c.scopes = b.scopes) : b.Heeds c :=
  ⟨hscopes ▸ Nat.le_refl _, fun _ _ h => by rwa [isGlobal, hscopes],
    fun _ _ h => by rwa [isNonlocal, hscopes]⟩

private theorem heeds_symbolFor (b : Binding) (scope : ScopeId) (onInstance : Bool)
    (name : String) :
    b.Heeds (b.symbolFor scope onInstance name).2 := by
  cases h : b.symbolIn? scope onInstance name with
  | some symbol =>
    rw [symbolFor_of_some h]
    exact heeds_same rfl
  | none =>
    rw [symbolFor_of_none h]
    refine heeds_modify (f := withSymbol onInstance name b.symbols.size) (fun s other hsays => ?_)
      (fun s other hsays => ?_) rfl <;> cases onInstance <;> exact hsays

private theorem Step.heeds (h : Step a b ns c) : b.Heeds c := by
  cases h with
  | openScope kind parent node hkind hparent =>
    have hscope {other : ScopeId} {s : Scope} (hs : b.scopes[other]? = some s) :
        (b.openScope kind (some parent) node).2.scopes[other]? = some s := by
      have hlt := (Array.getElem?_eq_some_iff.mp hs).1
      rw [Binding.openScope, Array.getElem?_push_lt hlt, ← Array.getElem?_eq_getElem hlt, hs]
    refine ⟨by simp [Binding.openScope], fun other name h => ?_, fun other name h => ?_⟩
    · obtain ⟨s, hs, hname⟩ := isGlobal_iff.mp h
      exact isGlobal_iff.mpr ⟨s, hscope hs, hname⟩
    · obtain ⟨s, hs, hname⟩ := isNonlocal_iff.mp h
      exact isNonlocal_iff.mpr ⟨s, hscope hs, hname⟩
  | declare ctx kind name node owner span hint origin hscope hkind =>
    have h := heeds_symbolFor b (b.targetScope ctx.scope name) (kind == .instanceAttribute) name
    exact { h with }
  | declareAttribute ctx scope name node owner span hint hclass =>
    have h := heeds_symbolFor b scope true name
    exact { h with }
  | note scope f hf => exact heeds_modify hf.globals hf.nonlocals rfl
  | report code span arg => exact heeds_same rfl
  | useName ctx node => exact heeds_same rfl
  | exports names => exact heeds_same rfl
  | addImport record => exact heeds_same rfl

/-! ## Declarations in their scopes -/

/-- A declaration of a name stands in a scope, and belongs to it unless the scope says `global` or
`nonlocal` about the name. -/
def StandsIn (b : Binding) (d : Declaration) (scope : ScopeId) : Prop :=
  b.scopeOfName? d.node = some scope ∧ scope < b.scopes.size ∧
    (d.scope = scope ∨ b.isGlobal scope d.name = true ∨ b.isNonlocal scope d.name = true)

private def Placed (b : Binding) (ns : List NodeId) : Prop :=
  ∀ (index : DeclIndex) (d : Declaration), b.declarations[index]? = some d →
    d.node ∈ ns ∧ (d.kind ≠ .instanceAttribute → ∃ scope, b.StandsIn d scope)

private theorem StandsIn.mono {d : Declaration} (h : b.StandsIn d scope) (hheeds : b.Heeds c)
    (hnames : c.scopeOfName? d.node = b.scopeOfName? d.node) : c.StandsIn d scope := by
  obtain ⟨hscope, hlt, hwhere⟩ := h
  refine ⟨hnames.trans hscope, Nat.lt_of_lt_of_le hlt hheeds.exist, ?_⟩
  exact hwhere.imp_right (Or.imp (hheeds.globals _ _) (hheeds.nonlocals _ _))

private theorem targetScope_cases (b : Binding) (scope : ScopeId) (name : String) :
    b.targetScope scope name = scope ∨ b.isGlobal scope name = true ∨
      b.isNonlocal scope name = true := by
  unfold targetScope
  split
  · exact .inl rfl
  · next here hhere =>
    split
    · next hglobal => exact .inr (.inl (by simpa [isGlobal, hhere] using hglobal))
    · split
      · next hnonlocal => exact .inr (.inr (by simpa [isNonlocal, hhere] using hnonlocal))
      · exact .inl rfl

private theorem nameScopes_symbolFor (b : Binding) (scope : ScopeId) (onInstance : Bool)
    (name : String) :
    (b.symbolFor scope onInstance name).2.nameScopes = b.nameScopes := by
  rw [symbolFor_eq]

private theorem Step.placed (h : Step a b ms c) (hb : b.Placed ns) (hnew : ∀ node ∈ ms, node ∉ ns) :
    c.Placed (ns ++ ms) := by
  have hheeds := h.heeds
  have hearlier {index : DeclIndex} {d : Declaration} (hd : b.declarations[index]? = some d)
      (hnames : ∀ node ∉ ms, c.scopeOfName? node = b.scopeOfName? node) :
      d.node ∈ ns ++ ms ∧ (d.kind ≠ .instanceAttribute → ∃ scope, c.StandsIn d scope) := by
    obtain ⟨hmem, hstands⟩ := hb index d hd
    refine ⟨List.mem_append_left ms hmem, fun hkind => ?_⟩
    obtain ⟨scope, hscope⟩ := hstands hkind
    exact ⟨scope, hscope.mono hheeds (hnames d.node fun hms => hnew d.node hms hmem)⟩
  cases h with
  | declare ctx kind name node owner span hint origin hscope hkind =>
    have hdeclarations := (rest_symbolFor b (b.targetScope ctx.scope name)
      (kind == .instanceAttribute) name).1
    have hnames := nameScopes_symbolFor b (b.targetScope ctx.scope name)
      (kind == .instanceAttribute) name
    intro index d hd
    simp only [Binding.addDeclaration, Binding.useName, hdeclarations] at hd
    rw [Array.getElem?_push] at hd
    split at hd
    · obtain rfl := Option.some.inj hd
      refine ⟨List.mem_append_right ns List.mem_cons_self, fun _ => ⟨ctx.scope, ?_, ?_, ?_⟩⟩
      · simp [scopeOfName?, Binding.useName]
      · exact Nat.lt_of_lt_of_le hscope hheeds.exist
      · exact (targetScope_cases b ctx.scope name).imp_right
          (Or.imp (hheeds.globals _ _) (hheeds.nonlocals _ _))
    · refine hearlier hd fun other hother => ?_
      have hne : node ≠ other := fun h => hother (h ▸ List.mem_cons_self)
      simp only [scopeOfName?, Binding.useName, Binding.addDeclaration, hnames]
      rw [Std.TreeMap.getElem?_insert, if_neg (by simpa using hne)]
  | declareAttribute ctx scope name node owner span hint hclass =>
    have hdeclarations := (rest_symbolFor b scope true name).1
    have hnames := nameScopes_symbolFor b scope true name
    intro index d hd
    simp only [Binding.addDeclaration, beq_self_eq_true, hdeclarations] at hd
    rw [Array.getElem?_push] at hd
    split at hd
    · obtain rfl := Option.some.inj hd
      exact ⟨List.mem_append_right ns List.mem_cons_self, fun h => absurd rfl h⟩
    · refine hearlier hd fun other _ => ?_
      simp only [scopeOfName?, Binding.addDeclaration, beq_self_eq_true, hnames]
  | useName ctx node =>
    intro index d hd
    refine hearlier hd fun other hother => ?_
    have hne : node ≠ other := fun h => hother (h ▸ List.mem_cons_self)
    simp only [scopeOfName?, Binding.useName]
    rw [Std.TreeMap.getElem?_insert, if_neg (by simpa using hne)]
  | _ => exact fun index d hd => hearlier hd fun _ _ => rfl

private theorem Walks.placed (h : Walks a b ns c) (hnodup : ns.Nodup) (hb : b.Placed []) :
    c.Placed ns := by
  induction h with
  | refl => exact hb
  | tail _ hstep ih =>
    obtain ⟨hbefore, -, hdisjoint⟩ := List.nodup_append.mp hnodup
    exact hstep.placed (ih hbefore) fun node hnode hmem => hdisjoint node hmem node hnode rfl

/-! ## Scopes and their declarations -/

/-- Scopes list the names of the declarations that belong to them: attributes among the names of
instances, everything else among the names of the scope. -/
structure Peopled (b : Binding) : Prop where
  home : ∀ (index : DeclIndex) (d : Declaration), b.declarations[index]? = some d →
    b.Lists d.scope (d.kind == .instanceAttribute) d.name d.symbol
  people : ∀ scope onInstance name symbol, b.Lists scope onInstance name symbol →
    ∃ d ∈ b.declarations, d.scope = scope ∧ d.name = name ∧
      (d.kind == .instanceAttribute) = onInstance

private theorem lists_symbolFor (hscope : scope < b.scopes.size) (onInstance : Bool)
    {onInstance' : Bool}
    {name' : String} {symbol' : SymbolId} :
    (b.symbolFor scope onInstance name).2.Lists other onInstance' name' symbol' ↔
      b.Lists other onInstance' name' symbol' ∨ other = scope ∧ onInstance' = onInstance ∧
        name' = name ∧ symbol' = (b.symbolFor scope onInstance name).1 := by
  cases h : b.symbolIn? scope onInstance name with
  | some symbol =>
    rw [symbolFor_of_some h]
    refine ⟨.inl, fun hlists => hlists.elim id ?_⟩
    rintro ⟨rfl, rfl, rfl, rfl⟩
    exact lists_of_symbolIn? h
  | none =>
    rw [symbolFor_of_none h]
    exact lists_withSymbol hscope

private theorem Peopled.addDeclaration (hb : b.Peopled) (ctx : BindContext) (kind : DeclarationKind)
    (node owner : NodeId) (span : Span) (hint : Option NodeId) (origin : Option AliasTarget)
    (hscope : scope < b.scopes.size) :
    (b.addDeclaration ctx scope kind name node owner span hint origin).Peopled := by
  have hdeclarations := (rest_symbolFor b scope (kind == .instanceAttribute) name).1
  have hlists {other onInstance' name' symbol'} :
      (b.addDeclaration ctx scope kind name node owner span hint origin).Lists other onInstance'
        name' symbol' ↔ _ := lists_symbolFor hscope (kind == .instanceAttribute)
  refine ⟨fun index d hd => hlists.mpr ?_, fun other onInstance' name' symbol' h => ?_⟩
  · simp only [Binding.addDeclaration, hdeclarations] at hd
    rw [Array.getElem?_push] at hd
    split at hd
    · obtain rfl := Option.some.inj hd
      exact .inr ⟨rfl, rfl, rfl, rfl⟩
    · exact .inl (hb.home index d hd)
  · simp only [Binding.addDeclaration, hdeclarations, Array.mem_push]
    rcases hlists.mp h with h | ⟨rfl, rfl, rfl, -⟩
    · obtain ⟨d, hd, hrest⟩ := hb.people other onInstance' name' symbol' h
      exact ⟨d, .inl hd, hrest⟩
    · exact ⟨_, .inr rfl, rfl, rfl, rfl⟩

private theorem Peopled.congr (hb : b.Peopled) (hdeclarations : c.declarations = b.declarations)
    (hlists : ∀ scope onInstance name symbol,
      c.Lists scope onInstance name symbol ↔ b.Lists scope onInstance name symbol) : c.Peopled :=
  ⟨fun index d hd => (hlists _ _ _ _).mpr (hb.home index d (hdeclarations ▸ hd)),
    fun scope onInstance name symbol h =>
      hdeclarations ▸ hb.people scope onInstance name symbol ((hlists _ _ _ _).mp h)⟩

private theorem Step.peopled (h : Step a b ns c) (hb : b.Peopled) : c.Peopled := by
  cases h with
  | openScope kind parent node hkind hparent =>
    refine hb.congr rfl fun other onInstance name symbol => ?_
    simp only [Lists, Binding.openScope, Array.getElem?_push]
    by_cases h : other = b.scopes.size
    · cases onInstance <;> simp [h, Scope.table]
    · simp [h]
  | declare ctx kind name node owner span hint origin hscope hkind =>
    have hdeclared : (b.addDeclaration ctx (b.targetScope ctx.scope name) kind name node owner span
        hint origin).Peopled :=
      hb.addDeclaration ctx kind node owner span hint origin (targetScope_lt hscope name)
    exact hdeclared.congr rfl fun _ _ _ _ => .rfl
  | declareAttribute ctx scope name node owner span hint hclass =>
    exact hb.addDeclaration ctx .instanceAttribute node owner span hint none
      (lt_size_of_scopeKind? hclass)
  | note scope f hf =>
    exact hb.congr rfl fun _ _ _ _ => lists_congr (names_modifyScope hf b scope)
  | _ => exact hb.congr rfl fun _ _ _ _ => .rfl

end LiveCheck.Binding

namespace LiveCheck.Tree

open Binding

/-! ## Whole trees -/

private theorem declarations_bind (t : Tree) :
    t.bind.declarations = t.walked.declarations.map t.walked.sortDeclarations.marked := rfl

/-- Every declaration of a name in a text stands in a scope. -/
theorem exists_standsIn (text : String) : ∀ d ∈ (parse text).tree.bind.declarations,
    d.kind ≠ .instanceAttribute → ∃ scope, (parse text).tree.bind.StandsIn d scope := by
  obtain ⟨ns, hnodup, hwalks⟩ := exists_walks text
  generalize (parse text).tree = t at *
  have hplaced := hwalks.placed hnodup fun _ _ h => by
    rw [unbound, Binding.openScope] at h
    simp at h
  intro d hd hkind
  rw [declarations_bind, Array.mem_map] at hd
  obtain ⟨old, hold, rfl⟩ := hd
  obtain ⟨index, hindex⟩ := Array.mem_iff_getElem?.mp hold
  exact (hplaced index old hindex).2 hkind

theorem peopled_bind (t : Tree) : t.bind.Peopled := by
  obtain ⟨_, hwalks, -⟩ := t.walks
  have hempty {scope onInstance name symbol} : ¬ t.unbound.Lists scope onInstance name symbol := by
    intro h
    obtain ⟨e, he, -⟩ := t.consistent_unbound.entry scope onInstance name symbol h
    rw [unbound, Binding.openScope] at he
    simp at he
  have hwalked : t.walked.Peopled := by
    refine hwalks.induct (fun _ _ _ hstep => hstep.peopled) ⟨fun _ _ h => ?_, fun _ _ _ _ h => ?_⟩
    · rw [unbound, Binding.openScope] at h
      simp at h
    · exact absurd h hempty
  refine ⟨fun index d hd => ?_, fun scope onInstance name symbol h => ?_⟩
  · rw [declarations_bind, Array.getElem?_map, Option.map_eq_some_iff] at hd
    obtain ⟨old, hold, rfl⟩ := hd
    exact hwalked.home index old hold
  · obtain ⟨d, hd, hrest⟩ := hwalked.people scope onInstance name symbol h
    refine ⟨t.walked.sortDeclarations.marked d, ?_, hrest⟩
    rw [declarations_bind]
    exact Array.mem_map_of_mem hd

end LiveCheck.Tree
