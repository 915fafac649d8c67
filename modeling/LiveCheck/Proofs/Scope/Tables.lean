import LiveCheck.Proofs.Scope.Walk

/-!
# The tables of a binding

Scopes list symbols, symbols list declarations, and every declaration names its symbol. The walk
over a tree keeps these tables in agreement, and so do the last two passes over a whole tree and the
names that `from m import *` brings in.
-/

namespace LiveCheck

/-- The names of a scope or, on instances, those that a class gives its instances. -/
def Scope.table (onInstance : Bool) (s : Scope) : SymbolTable :=
  if onInstance then s.instanceSymbols else s.symbols

/-- All names of a scope. -/
def Scope.names (s : Scope) : SymbolTable × SymbolTable := (s.symbols, s.instanceSymbols)

namespace Binding

/-- A scope lists a symbol under a name. -/
def Lists (b : Binding) (scope : ScopeId) (onInstance : Bool) (name : String) (symbol : SymbolId) :
    Prop :=
  ∃ s, b.scopes[scope]? = some s ∧ (name, symbol) ∈ s.table onInstance

theorem names_modifyScope {f : Scope → Scope} (hf : IsNote f) (b : Binding) (scope other : ScopeId) :
    ((b.modifyScope scope f).scopes[other]?).map Scope.names =
      (b.scopes[other]?).map Scope.names := by
  have hnames (s : Scope) : (f s).names = s.names := by
    simp only [Scope.names, hf.symbols, hf.instanceSymbols]
  simp only [modifyScope, Array.getElem?_modify]
  split
  · cases b.scopes[other]? <;> simp [hnames]
  · rfl

/-- The tables agree: the first scope is that of the module; symbols are listed by their own scopes
under their own names; a symbol lists a declaration exactly if this is one of the symbol's; only
classes give names to instances. -/
structure Consistent (b : Binding) : Prop where
  root : b.scopeKind? 0 = some .root
  entry : ∀ scope onInstance name symbol, b.Lists scope onInstance name symbol →
    ∃ e : BoundSymbol, b.symbols[symbol]? = some e ∧ e.name = name ∧ e.scope = scope
  listed : ∀ symbol (e : BoundSymbol), b.symbols[symbol]? = some e →
    ∃ onInstance, b.Lists e.scope onInstance e.name symbol
  declared : ∀ index (d : Declaration), b.declarations[index]? = some d →
    ∃ e : BoundSymbol, b.symbols[d.symbol]? = some e ∧ e.name = d.name ∧ e.scope = d.scope ∧
      index ∈ e.declarations
  belongs : ∀ symbol (e : BoundSymbol) index, b.symbols[symbol]? = some e → index ∈ e.declarations →
    ∃ d : Declaration, b.declarations[index]? = some d ∧ d.symbol = symbol
  onClass : ∀ scope name symbol, b.Lists scope true name symbol →
    b.scopeKind? scope = some .classBody
  attributes : ∀ (index : DeclIndex) (d : Declaration), b.declarations[index]? = some d →
    d.kind = .instanceAttribute → b.scopeKind? d.scope = some .classBody

variable {a : Arena} {b c : Binding} {scope : ScopeId} {onInstance : Bool} {name : String}
  {symbol : SymbolId}

/-! ## Symbols and their scopes -/

theorem SymbolTable.mem_of_find? {t : SymbolTable} (h : t.find? name = some symbol) :
    (name, symbol) ∈ t := by
  obtain ⟨⟨other, found⟩, hentry, rfl⟩ := Option.map_eq_some_iff.mp h
  have hname : other = name := by simpa using Array.find?_some hentry
  exact hname ▸ Array.mem_of_find?_eq_some hentry

theorem lists_of_symbolIn? (h : b.symbolIn? scope onInstance name = some symbol) :
    b.Lists scope onInstance name symbol := by
  cases onInstance <;>
  · obtain ⟨s, hs, hfound⟩ := Option.bind_eq_some_iff.mp h
    exact ⟨s, hs, SymbolTable.mem_of_find? hfound⟩

/-- Scopes with the same names in them list the same symbols. -/
theorem lists_congr
    (h : ∀ scope : ScopeId, (c.scopes[scope]?).map Scope.names = (b.scopes[scope]?).map Scope.names) :
    c.Lists scope onInstance name symbol ↔ b.Lists scope onInstance name symbol := by
  suffices himp : ∀ b c : Binding,
      (∀ scope : ScopeId, (c.scopes[scope]?).map Scope.names = (b.scopes[scope]?).map Scope.names) →
      c.Lists scope onInstance name symbol → b.Lists scope onInstance name symbol from
    ⟨himp b c h, himp c b fun scope => (h scope).symm⟩
  rintro b c h ⟨s, hs, hmem⟩
  have hscope := h scope
  rw [hs] at hscope
  obtain ⟨r, hr, hsame⟩ := Option.map_eq_some_iff.mp hscope.symm
  simp only [Scope.names, Prod.mk.injEq] at hsame
  refine ⟨r, hr, ?_⟩
  rwa [Scope.table, hsame.1, hsame.2]

private theorem Consistent.congr (hb : b.Consistent) (hsymbols : c.symbols = b.symbols)
    (hdeclarations : c.declarations = b.declarations)
    (hkind : ∀ scope, c.scopeKind? scope = b.scopeKind? scope)
    (hscopes : ∀ scope : ScopeId,
      (c.scopes[scope]?).map Scope.names = (b.scopes[scope]?).map Scope.names) :
    c.Consistent where
  root := (hkind 0).trans hb.root
  entry scope onInstance name symbol h := by
    rw [hsymbols]
    exact hb.entry scope onInstance name symbol ((lists_congr hscopes).mp h)
  listed symbol e he := by
    rw [hsymbols] at he
    obtain ⟨onInstance, h⟩ := hb.listed symbol e he
    exact ⟨onInstance, (lists_congr hscopes).mpr h⟩
  declared index d hd := by
    rw [hdeclarations] at hd
    rw [hsymbols]
    exact hb.declared index d hd
  belongs symbol e index he hindex := by
    rw [hsymbols] at he
    rw [hdeclarations]
    exact hb.belongs symbol e index he hindex
  onClass scope name symbol h :=
    (hkind scope).trans (hb.onClass scope name symbol ((lists_congr hscopes).mp h))
  attributes index d hd hattribute := by
    rw [hdeclarations] at hd
    exact (hkind d.scope).trans (hb.attributes index d hd hattribute)

/-- A new symbol is listed, and whatever was listed before. -/
theorem lists_withSymbol {new : BoundSymbol} (hscope : scope < b.scopes.size) {other : ScopeId}
    {onInstance' : Bool} {name' : String} {symbol' : SymbolId} :
    Lists { b with
        symbols := b.symbols.push new
        scopes := b.scopes.modify scope (withSymbol onInstance name symbol) }
      other onInstance' name' symbol' ↔
    b.Lists other onInstance' name' symbol' ∨
      other = scope ∧ onInstance' = onInstance ∧ name' = name ∧ symbol' = symbol := by
  have htable (s : Scope) : (name', symbol') ∈ (withSymbol onInstance name symbol s).table onInstance' ↔
      (name', symbol') ∈ s.table onInstance' ∨
        onInstance' = onInstance ∧ name' = name ∧ symbol' = symbol := by
    cases onInstance <;> cases onInstance' <;> simp [withSymbol, Scope.table]
  simp only [Lists, Array.getElem?_modify]
  by_cases h : scope = other
  · subst h
    simp [Array.getElem?_eq_getElem hscope, htable]
  · simp [h, Ne.symm h]

/-- Making a symbol keeps the tables in agreement; the symbol is listed behind it. -/
theorem Consistent.symbolFor (hb : b.Consistent) (onInstance : Bool)
    (hscope : scope < b.scopes.size)
    (hclass : onInstance = true → b.scopeKind? scope = some .classBody) (name : String) :
    (b.symbolFor scope onInstance name).2.Consistent ∧
      (b.symbolFor scope onInstance name).2.Lists scope onInstance name
        (b.symbolFor scope onInstance name).1 := by
  cases h : b.symbolIn? scope onInstance name with
  | some symbol =>
    rw [symbolFor_of_some h]
    exact ⟨hb, lists_of_symbolIn? h⟩
  | none =>
    have hkind := scopeKind?_symbolFor b scope onInstance name
    rw [symbolFor_of_none h] at hkind ⊢
    have hnew : ∀ {e : BoundSymbol} {symbol : SymbolId},
        (b.symbols.push ⟨name, scope, []⟩)[symbol]? = some e →
          b.symbols[symbol]? = some e ∨ symbol = b.symbols.size ∧ e = ⟨name, scope, []⟩ := by
      intro e symbol he
      rw [Array.getElem?_push] at he
      split at he
      · next hsize => exact .inr ⟨hsize, (Option.some.inj he).symm⟩
      · exact .inl he
    have hold : ∀ {e : BoundSymbol} {symbol : SymbolId}, b.symbols[symbol]? = some e →
        (b.symbols.push ⟨name, scope, []⟩)[symbol]? = some e := by
      intro e symbol he
      have hlt := (Array.getElem?_eq_some_iff.mp he).1
      rw [Array.getElem?_push_lt hlt, ← Array.getElem?_eq_getElem hlt, he]
    refine ⟨⟨(hkind 0).trans hb.root, ?_, ?_, ?_, ?_, ?_, ?_⟩, ?_⟩
    · intro other onInstance' name' symbol' hlists
      rcases (lists_withSymbol hscope).mp hlists with hlists | ⟨rfl, -, rfl, rfl⟩
      · obtain ⟨e, he, hname⟩ := hb.entry _ _ _ _ hlists
        exact ⟨e, hold he, hname⟩
      · exact ⟨⟨name', other, []⟩, by simp, rfl, rfl⟩
    · intro symbol e he
      rcases hnew he with he | ⟨rfl, rfl⟩
      · obtain ⟨onInstance', hlists⟩ := hb.listed symbol e he
        exact ⟨onInstance', (lists_withSymbol hscope).mpr (.inl hlists)⟩
      · exact ⟨onInstance, (lists_withSymbol hscope).mpr (.inr ⟨rfl, rfl, rfl, rfl⟩)⟩
    · intro index d hd
      obtain ⟨e, he, hrest⟩ := hb.declared index d hd
      exact ⟨e, hold he, hrest⟩
    · intro symbol e index he hindex
      rcases hnew he with he | ⟨rfl, rfl⟩
      · exact hb.belongs symbol e index he hindex
      · exact absurd hindex List.not_mem_nil
    · intro other name' symbol' hlists
      rw [hkind]
      rcases (lists_withSymbol hscope).mp hlists with hlists | ⟨rfl, htrue, -, -⟩
      · exact hb.onClass other name' symbol' hlists
      · exact hclass htrue.symm
    · intro index d hd hattribute
      exact (hkind d.scope).trans (hb.attributes index d hd hattribute)
    · exact (lists_withSymbol hscope).mpr (.inr ⟨rfl, rfl, rfl, rfl⟩)

/-! ## Declarations -/

/-- Adding a declaration to a symbol of its name and scope keeps the tables in agreement. -/
theorem Consistent.push (hb : b.Consistent) {d : Declaration}
    (hlists : b.Lists d.scope onInstance d.name d.symbol)
    (hattribute : d.kind = .instanceAttribute → b.scopeKind? d.scope = some .classBody)
    {f : BoundSymbol → BoundSymbol}
    (hname : ∀ e, (f e).name = e.name) (hscope : ∀ e, (f e).scope = e.scope)
    (hmem : ∀ e index, index ∈ (f e).declarations ↔
      index = b.declarations.size ∨ index ∈ e.declarations)
    (hscopes : c.scopes = b.scopes) (hsymbols : c.symbols = b.symbols.modify d.symbol f)
    (hdeclarations : c.declarations = b.declarations.push d) : c.Consistent := by
  have hkind (scope : ScopeId) : c.scopeKind? scope = b.scopeKind? scope := by
    rw [scopeKind?, scopeKind?, hscopes]
  have hlists_iff {scope onInstance name symbol} :
      c.Lists scope onInstance name symbol ↔ b.Lists scope onInstance name symbol := by
    rw [Lists, Lists, hscopes]
  have hsymbol {symbol : SymbolId} {e : BoundSymbol} : c.symbols[symbol]? = some e ↔
      ∃ old, b.symbols[symbol]? = some old ∧ e = if d.symbol = symbol then f old else old := by
    rw [hsymbols, Array.getElem?_modify]
    split
    · simp only [Option.map_eq_some_iff, eq_comm (a := e)]
    · simp only [eq_comm (a := e), exists_eq_right]
  have hsame (symbol : SymbolId) (old : BoundSymbol) :
      (if d.symbol = symbol then f old else old).name = old.name ∧
        (if d.symbol = symbol then f old else old).scope = old.scope := by
    split
    · exact ⟨hname old, hscope old⟩
    · exact ⟨rfl, rfl⟩
  refine ⟨(hkind 0).trans hb.root, ?_, ?_, ?_, ?_, ?_, ?_⟩
  · intro scope onInstance name symbol h
    obtain ⟨old, hold, rfl, rfl⟩ := hb.entry _ _ _ _ (hlists_iff.mp h)
    exact ⟨_, hsymbol.mpr ⟨old, hold, rfl⟩, hsame symbol old⟩
  · intro symbol e he
    obtain ⟨old, hold, rfl⟩ := hsymbol.mp he
    obtain ⟨onInstance', h⟩ := hb.listed symbol old hold
    refine ⟨onInstance', hlists_iff.mpr ?_⟩
    rwa [(hsame symbol old).1, (hsame symbol old).2]
  · intro index d' hd'
    rw [hdeclarations, Array.getElem?_push] at hd'
    split at hd'
    · next hsize =>
      obtain rfl := Option.some.inj hd'
      obtain ⟨old, hold, hn, hs⟩ := hb.entry _ _ _ _ hlists
      refine ⟨_, hsymbol.mpr ⟨old, hold, rfl⟩, ?_⟩
      rw [if_pos rfl]
      exact ⟨(hname old).trans hn, (hscope old).trans hs, (hmem old index).mpr (.inl hsize)⟩
    · obtain ⟨old, hold, hn, hs, hindex⟩ := hb.declared index d' hd'
      refine ⟨_, hsymbol.mpr ⟨old, hold, rfl⟩, (hsame _ old).1.trans hn, (hsame _ old).2.trans hs, ?_⟩
      split
      · exact (hmem old index).mpr (.inr hindex)
      · exact hindex
  · intro symbol e index he hindex
    obtain ⟨old, hold, rfl⟩ := hsymbol.mp he
    have hearlier (h : index ∈ old.declarations) :
        ∃ d', c.declarations[index]? = some d' ∧ d'.symbol = symbol := by
      obtain ⟨d', hd', hs⟩ := hb.belongs symbol old index hold h
      have hlt := (Array.getElem?_eq_some_iff.mp hd').1
      refine ⟨d', ?_, hs⟩
      rw [hdeclarations, Array.getElem?_push_lt hlt, ← Array.getElem?_eq_getElem hlt, hd']
    split at hindex
    · next hown =>
      rcases (hmem old index).mp hindex with rfl | hindex
      · exact ⟨d, by simp [hdeclarations], hown⟩
      · exact hearlier hindex
    · exact hearlier hindex
  · intro scope name symbol h
    rw [hkind]
    exact hb.onClass scope name symbol (hlists_iff.mp h)
  · intro index d' hd' hattribute'
    rw [hdeclarations, Array.getElem?_push] at hd'
    rw [hkind]
    split at hd'
    · obtain rfl := Option.some.inj hd'
      exact hattribute hattribute'
    · exact hb.attributes index d' hd' hattribute'

private theorem Consistent.addDeclaration (hb : b.Consistent) (ctx : BindContext)
    (kind : DeclarationKind)
    (node owner : NodeId) (span : Span) (hint : Option NodeId) (origin : Option AliasTarget)
    (hscope : scope < b.scopes.size)
    (hclass : kind = .instanceAttribute → b.scopeKind? scope = some .classBody) :
    (b.addDeclaration ctx scope kind name node owner span hint origin).Consistent := by
  obtain ⟨hsymbol, hlists⟩ :=
    hb.symbolFor (kind == .instanceAttribute) hscope (by simpa using hclass) name
  have hkind := scopeKind?_symbolFor b scope (kind == .instanceAttribute) name
  unfold Binding.addDeclaration
  generalize b.symbolFor scope (kind == .instanceAttribute) name = made at hsymbol hlists hkind ⊢
  refine hsymbol.push (d := ⟨kind, name, node, owner, scope, made.1, span, hint, origin, _, _, _⟩)
    (f := fun e => { e with declarations := e.declarations ++ [made.2.declarations.size] })
    hlists (fun h => (hkind scope).trans (hclass h)) (fun _ => rfl) (fun _ => rfl) (fun e index => ?_)
    rfl rfl rfl
  simp [or_comm]

/-! ## Steps of the walk -/

private theorem Consistent.openScope (hb : b.Consistent) (kind : ScopeKind)
    (parent : Option ScopeId)
    (node : NodeId) : (b.openScope kind parent node).2.Consistent := by
  have hkind {id : ScopeId} {k : ScopeKind} (h : b.scopeKind? id = some k) :
      (b.openScope kind parent node).2.scopeKind? id = some k := by
    have hlt := lt_size_of_scopeKind? h
    rw [scopeKind?, Binding.openScope, Array.getElem?_push_lt hlt, ← Array.getElem?_eq_getElem hlt]
    exact h
  have hlists {scope onInstance name symbol} :
      (b.openScope kind parent node).2.Lists scope onInstance name symbol ↔
        b.Lists scope onInstance name symbol := by
    simp only [Lists, Binding.openScope, Array.getElem?_push]
    by_cases h : scope = b.scopes.size
    · cases onInstance <;> simp [h, Scope.table]
    · simp [h]
  refine ⟨hkind hb.root, ?_, ?_, hb.declared, hb.belongs, ?_, ?_⟩
  · intro scope onInstance name symbol h
    exact hb.entry scope onInstance name symbol (hlists.mp h)
  · intro symbol e he
    obtain ⟨onInstance, h⟩ := hb.listed symbol e he
    exact ⟨onInstance, hlists.mpr h⟩
  · intro scope name symbol h
    exact hkind (hb.onClass scope name symbol (hlists.mp h))
  · intro index d hd hattribute
    exact hkind (hb.attributes index d hd hattribute)

theorem Step.consistent {ns : List NodeId} (h : Step a b ns c) (hb : b.Consistent) :
    c.Consistent := by
  cases h with
  | report code span arg => exact hb.congr rfl rfl (fun _ => rfl) fun _ => rfl
  | openScope kind parent node hkind hparent => exact hb.openScope kind _ node
  | declare ctx kind name node owner span hint origin hscope hkind =>
    have hdeclared : (b.addDeclaration ctx (b.targetScope ctx.scope name) kind name node owner span
        hint origin).Consistent :=
      hb.addDeclaration ctx kind node owner span hint origin (targetScope_lt hscope name)
        fun h => absurd h hkind
    exact hdeclared.congr rfl rfl (fun _ => rfl) fun _ => rfl
  | declareAttribute ctx scope name node owner span hint hclass =>
    exact hb.addDeclaration ctx .instanceAttribute node owner span hint none
      (lt_size_of_scopeKind? hclass) fun _ => hclass
  | useName ctx node => exact hb.congr rfl rfl (fun _ => rfl) fun _ => rfl
  | exports names => exact hb.congr rfl rfl (fun _ => rfl) fun _ => rfl
  | addImport record => exact hb.congr rfl rfl (fun _ => rfl) fun _ => rfl
  | note scope f hf =>
    exact hb.congr rfl rfl (fun other => scopeKind?_modify hf.kind rfl) (names_modifyScope hf b scope)

/-! ## Whole trees -/

/-- To insert a declaration adds it to the others. -/
theorem insertDeclaration_perm (b : Binding) (offset : Nat) (index : DeclIndex)
    (ds : List DeclIndex) : (b.insertDeclaration offset index ds).Perm (index :: ds) := by
  induction ds with
  | nil => exact .refl _
  | cons d ds ih =>
    unfold insertDeclaration
    split
    · exact .refl _
    · exact (ih.cons d).trans (.swap index d ds)

/-- To put declarations in order drops none and adds none. -/
theorem inOrder_perm (b : Binding) (ds : List DeclIndex) : (b.inOrder ds).Perm ds := by
  suffices h : ∀ sorted : List DeclIndex,
      (ds.foldl (fun sorted d => b.insertDeclaration (b.startOf d) d sorted) sorted).Perm
        (sorted ++ ds) from h []
  induction ds with
  | nil => exact fun sorted => .of_eq (List.append_nil sorted).symm
  | cons d ds ih =>
    intro sorted
    have hinsert := (insertDeclaration_perm b (b.startOf d) d sorted).append_right ds
    exact (ih _).trans (hinsert.trans List.perm_middle.symm)

/-- The declarations of a symbol may be put into another order. -/
theorem Consistent.sortDeclarations (hb : b.Consistent) : b.sortDeclarations.Consistent := by
  have hsymbol {symbol : SymbolId} {e : BoundSymbol}
      (he : b.sortDeclarations.symbols[symbol]? = some e) :
      ∃ old : BoundSymbol, b.symbols[symbol]? = some old ∧ e.name = old.name ∧ e.scope = old.scope ∧
        ∀ index, index ∈ e.declarations ↔ index ∈ old.declarations := by
    rw [Binding.sortDeclarations, Array.getElem?_map, Option.map_eq_some_iff] at he
    obtain ⟨old, hold, rfl⟩ := he
    exact ⟨old, hold, rfl, rfl, fun index => (inOrder_perm b _).mem_iff⟩
  have hback {symbol : SymbolId} {old : BoundSymbol} (hold : b.symbols[symbol]? = some old) :
      ∃ e : BoundSymbol, b.sortDeclarations.symbols[symbol]? = some e ∧ e.name = old.name ∧
        e.scope = old.scope ∧ ∀ index, index ∈ e.declarations ↔ index ∈ old.declarations := by
    have he : b.sortDeclarations.symbols[symbol]? = some { old with
        declarations := b.inOrder old.declarations } := by
      rw [Binding.sortDeclarations, Array.getElem?_map, hold]
      rfl
    exact ⟨_, he, rfl, rfl, fun index => (inOrder_perm b _).mem_iff⟩
  refine ⟨hb.root, ?_, ?_, ?_, ?_, hb.onClass, hb.attributes⟩
  · intro scope onInstance name symbol h
    obtain ⟨old, hold, rfl, rfl⟩ := hb.entry scope onInstance name symbol h
    obtain ⟨e, he, hname, hscope, -⟩ := hback hold
    exact ⟨e, he, hname, hscope⟩
  · intro symbol e he
    obtain ⟨old, hold, hname, hscope, -⟩ := hsymbol he
    rw [hname, hscope]
    exact hb.listed symbol old hold
  · intro index d hd
    obtain ⟨old, hold, hname, hscope, hindex⟩ := hb.declared index d hd
    obtain ⟨e, he, hname', hscope', hmem⟩ := hback hold
    exact ⟨e, he, hname'.trans hname, hscope'.trans hscope, (hmem index).mpr hindex⟩
  · intro symbol e index he hindex
    obtain ⟨old, hold, -, -, hmem⟩ := hsymbol he
    exact hb.belongs symbol old index hold ((hmem index).mp hindex)

/-- A declaration that is marked if it is one of a public name of the module. -/
def marked (b : Binding) (d : Declaration) : Declaration :=
  { d with exported :=
      d.scope == 0 && d.kind != .instanceAttribute && isPublicName b.exportList d.name }

/-- The last pass marks declarations. -/
theorem declarations_markExports (b : Binding) :
    b.markExports.declarations = b.declarations.map b.marked := rfl

private theorem Consistent.markExports (hb : b.Consistent) : b.markExports.Consistent := by
  have hdeclaration {index : Nat} {d : Declaration}
      (hd : b.markExports.declarations[index]? = some d) :
      ∃ old, b.declarations[index]? = some old ∧ b.marked old = d := by
    rwa [declarations_markExports, Array.getElem?_map, Option.map_eq_some_iff] at hd
  refine ⟨hb.root, hb.entry, hb.listed, ?_, ?_, hb.onClass, ?_⟩
  · intro index d hd
    obtain ⟨old, hold, rfl⟩ := hdeclaration hd
    exact hb.declared index old hold
  · intro symbol e index he hindex
    obtain ⟨old, hold, hsymbol⟩ := hb.belongs symbol e index he hindex
    refine ⟨b.marked old, ?_, hsymbol⟩
    rw [declarations_markExports, Array.getElem?_map, hold]
    rfl
  · intro index d hd hattribute
    obtain ⟨old, hold, rfl⟩ := hdeclaration hd
    exact hb.attributes index old hold hattribute

end Binding

/-- The walk begins with consistent tables. -/
theorem Tree.consistent_unbound (t : Tree) : t.unbound.Consistent := by
  have hempty {scope onInstance name symbol} :
      ¬ t.unbound.Lists scope onInstance name symbol := by
    rintro ⟨s, hs, hmem⟩
    cases scope with
    | zero =>
      obtain rfl := Option.some.inj hs
      cases onInstance <;> exact absurd hmem (Array.not_mem_empty _)
    | succ scope => exact nomatch hs
  refine ⟨rfl, fun _ _ _ _ h => absurd h hempty, fun _ _ h => ?_, fun _ _ h => ?_, fun _ _ _ h => ?_,
    fun _ _ _ h => absurd h hempty, fun _ _ h => ?_⟩ <;>
  · rw [Tree.unbound, Binding.openScope] at h
    simp at h

/-- The tables of a tree agree. -/
theorem Tree.consistent_bind (t : Tree) : t.bind.Consistent := by
  obtain ⟨_, hwalks, -⟩ := t.walks
  have hwalked : t.walked.Consistent :=
    hwalks.induct (fun _ _ _ hstep => hstep.consistent) t.consistent_unbound
  rw [t.bind_eq]
  exact hwalked.sortDeclarations.markExports

end LiveCheck
