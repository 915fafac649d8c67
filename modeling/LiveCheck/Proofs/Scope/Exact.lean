import LiveCheck.Proofs.ProperTrees
import LiveCheck.Proofs.Scope.PublicNames
import Mathlib.Data.List.Nodup

/-!
# Tables that say nothing twice

A scope has a name once, a symbol stands in one table of one scope, a declaration in the list of one
symbol, and no node is declared twice, since the walk over a tree visits no node twice. Names that
imports bring into the module change nothing about this.
-/

namespace LiveCheck

private def Scope.face (s : Scope) : ScopeKind × Option ScopeId × SymbolTable × SymbolTable :=
  (s.kind, s.parent, s.names)

variable {ns : List NodeId}

namespace Binding

/-- Nothing is said twice: scopes stand inside earlier ones, a table has each of its names once, no
symbol is both a name and an attribute, and no symbol lists a declaration twice. -/
structure Exact (b : Binding) : Prop where
  outermost : ∃ s : Scope, b.scopes[0]? = some s ∧ s.kind = .root ∧ s.parent = none
  nested : ∀ (scope : ScopeId) (s : Scope), b.scopes[scope]? = some s → scope ≠ 0 →
    s.kind ≠ .root ∧ ∃ parent < scope, s.parent = some parent
  names : ∀ (scope : ScopeId) (s : Scope) onInstance, b.scopes[scope]? = some s →
    ((s.table onInstance).toList.map Prod.fst).Nodup
  apart : ∀ scope scope' name name' symbol, b.Lists scope true name symbol →
    ¬ b.Lists scope' false name' symbol
  once : ∀ (symbol : SymbolId) (e : BoundSymbol), b.symbols[symbol]? = some e →
    e.declarations.Nodup

variable {a : Arena} {b c : Binding} {scope : ScopeId} {onInstance : Bool} {name : String}
  {symbol : SymbolId}

private theorem Exact.congr (hb : b.Exact) (hsymbols : c.symbols = b.symbols)
    (hscopes : ∀ scope : ScopeId,
      (c.scopes[scope]?).map Scope.face = (b.scopes[scope]?).map Scope.face) :
    c.Exact := by
  have hface {scope : ScopeId} {s : Scope} (hs : c.scopes[scope]? = some s) :
      ∃ r : Scope, b.scopes[scope]? = some r ∧ r.kind = s.kind ∧ r.parent = s.parent ∧
        ∀ onInstance, r.table onInstance = s.table onInstance := by
    have hscope := hscopes scope
    rw [hs] at hscope
    obtain ⟨r, hr, hsame⟩ := Option.map_eq_some_iff.mp hscope.symm
    simp only [Scope.face, Scope.names, Prod.mk.injEq] at hsame
    obtain ⟨hkind, hparent, htable, htable'⟩ := hsame
    refine ⟨r, hr, hkind, hparent, fun onInstance => ?_⟩
    rw [Scope.table, Scope.table, htable, htable']
  have hlists {scope onInstance name symbol} :
      c.Lists scope onInstance name symbol → b.Lists scope onInstance name symbol := by
    rintro ⟨s, hs, hmem⟩
    obtain ⟨r, hr, -, -, htable⟩ := hface hs
    exact ⟨r, hr, htable onInstance ▸ hmem⟩
  refine ⟨?_, fun scope s hs hne => ?_, fun scope s onInstance hs => ?_,
    fun scope scope' name name' symbol h h' => ?_, hsymbols ▸ hb.once⟩
  · obtain ⟨r, hr, hroot, hparent⟩ := hb.outermost
    have hscope := hscopes 0
    rw [hr] at hscope
    obtain ⟨s, hs, -⟩ := Option.map_eq_some_iff.mp hscope
    obtain ⟨r', hr', hkind, hparent', -⟩ := hface hs
    obtain rfl := Option.some.inj (hr.symm.trans hr')
    exact ⟨s, hs, hkind ▸ hroot, hparent' ▸ hparent⟩
  · obtain ⟨r, hr, hkind, hparent, -⟩ := hface hs
    exact hkind ▸ hparent ▸ hb.nested scope r hr hne
  · obtain ⟨r, hr, -, -, htable⟩ := hface hs
    exact htable onInstance ▸ hb.names scope r onInstance hr
  · exact hb.apart scope scope' name name' symbol (hlists h) (hlists h')

/-! ## Symbols -/

theorem SymbolTable.find?_eq_none {t : SymbolTable} (h : t.find? name = none) :
    name ∉ t.toList.map Prod.fst := by
  intro hmem
  obtain ⟨⟨_, symbol⟩, hentry, rfl⟩ := List.mem_map.mp hmem
  rw [SymbolTable.find?, Option.map_eq_none_iff, Array.find?_eq_none] at h
  exact h _ (Array.mem_toList_iff.mp hentry) (beq_self_eq_true _)

private theorem not_mem_of_symbolIn? {s : Scope} (h : b.symbolIn? scope onInstance name = none)
    (hs : b.scopes[scope]? = some s) : name ∉ (s.table onInstance).toList.map Prod.fst := by
  cases onInstance <;>
  · simp only [symbolIn?, local?, instance?, hs, Option.bind_some, if_true,
      Bool.false_eq_true, if_false] at h
    exact SymbolTable.find?_eq_none h

private theorem Exact.symbolFor (hb : b.Exact) (hc : b.Consistent) (onInstance : Bool)
    (hscope : scope < b.scopes.size) (name : String) :
    (b.symbolFor scope onInstance name).2.Exact := by
  cases h : b.symbolIn? scope onInstance name with
  | some symbol =>
    rw [symbolFor_of_some h]
    exact hb
  | none =>
    rw [symbolFor_of_none h]
    have hnew {other : ScopeId} {s : Scope}
        (hs : (b.scopes.modify scope (withSymbol onInstance name b.symbols.size))[other]? = some s) :
        ∃ r : Scope, b.scopes[other]? = some r ∧ s.kind = r.kind ∧ s.parent = r.parent ∧
          ∀ onInstance', s.table onInstance' = r.table onInstance' ∨
            other = scope ∧ onInstance' = onInstance ∧
              s.table onInstance' = (r.table onInstance').push (name, b.symbols.size) := by
      rw [Array.getElem?_modify] at hs
      split at hs
      · next hother =>
        obtain ⟨r, hr, rfl⟩ := Option.map_eq_some_iff.mp hs
        refine ⟨r, hr, kind_withSymbol .., by cases onInstance <;> rfl, fun onInstance' => ?_⟩
        cases onInstance <;> cases onInstance' <;> simp [withSymbol, Scope.table, hother]
      · exact ⟨s, hs, rfl, rfl, fun _ => .inl rfl⟩
    have hfresh {other onInstance' name'} : ¬ b.Lists other onInstance' name' b.symbols.size := by
      intro hlists
      obtain ⟨e, he, -⟩ := hc.entry _ _ _ _ hlists
      exact absurd (Array.getElem?_eq_some_iff.mp he).1 (Nat.lt_irrefl _)
    refine ⟨?_, fun other s hs hne => ?_, fun other s onInstance' hs => ?_,
      fun other other' name' name'' symbol hl hl' => ?_, fun symbol e he => ?_⟩
    · obtain ⟨r, hr, hroot, hparent⟩ := hb.outermost
      have hlt := (Array.getElem?_eq_some_iff.mp hr).1
      obtain ⟨r', hr', hkind, hparent', -⟩ := hnew (Array.getElem?_eq_getElem
        (by rwa [Array.size_modify]) : (b.scopes.modify scope _)[0]? = _)
      obtain rfl := Option.some.inj (hr.symm.trans hr')
      exact ⟨_, Array.getElem?_eq_getElem _, hkind.trans hroot, hparent'.trans hparent⟩
    · obtain ⟨r, hr, hkind, hparent, -⟩ := hnew hs
      rw [hkind, hparent]
      exact hb.nested other r hr hne
    · obtain ⟨r, hr, -, -, htable⟩ := hnew hs
      have hnodup := hb.names other r onInstance' hr
      rcases htable onInstance' with hsame | ⟨rfl, rfl, hpush⟩
      · rwa [hsame]
      · rw [hpush, Array.toList_push, List.map_append, List.map_singleton]
        refine List.nodup_append.mpr ⟨hnodup, List.pairwise_singleton _ _, ?_⟩
        rintro other hother _ hname rfl
        obtain rfl := List.mem_singleton.mp hname
        exact not_mem_of_symbolIn? h hr hother
    · rcases (lists_withSymbol hscope).mp hl with hold | ⟨-, htrue, -, rfl⟩
      · rcases (lists_withSymbol hscope).mp hl' with hold' | ⟨-, -, -, rfl⟩
        · exact hb.apart _ _ _ _ _ hold hold'
        · exact hfresh hold
      · rcases (lists_withSymbol hscope).mp hl' with hold' | ⟨-, hfalse, -, -⟩
        · exact hfresh hold'
        · exact absurd (hfalse.trans htrue.symm) Bool.false_ne_true
    · rw [Array.getElem?_push] at he
      split at he
      · obtain rfl := Option.some.inj he
        exact List.nodup_nil
      · exact hb.once symbol e he

/-! ## Declarations -/

private theorem Exact.push (hb : b.Exact) (hc : b.Consistent) {f : BoundSymbol → BoundSymbol}
    (hf : ∀ e, (f e).declarations.Perm (b.declarations.size :: e.declarations))
    (hscopes : c.scopes = b.scopes) (hsymbols : c.symbols = b.symbols.modify symbol f) :
    c.Exact := by
  have hlists {scope onInstance name symbol} :
      c.Lists scope onInstance name symbol ↔ b.Lists scope onInstance name symbol := by
    rw [Lists, Lists, hscopes]
  refine ⟨hscopes ▸ hb.outermost, hscopes ▸ hb.nested, hscopes ▸ hb.names,
    fun scope scope' name name' symbol h h' =>
      hb.apart scope scope' name name' symbol (hlists.mp h) (hlists.mp h'), fun other e he => ?_⟩
  rw [hsymbols, Array.getElem?_modify] at he
  split at he
  · obtain ⟨old, hold, rfl⟩ := Option.map_eq_some_iff.mp he
    refine (hf old).nodup_iff.mpr (List.nodup_cons.mpr ⟨fun hmem => ?_, hb.once other old hold⟩)
    obtain ⟨d, hd, -⟩ := hc.belongs other old _ hold hmem
    exact Nat.lt_irrefl _ (Array.getElem?_eq_some_iff.mp hd).1
  · exact hb.once other e he

private theorem Exact.addDeclaration (hb : b.Exact) (hc : b.Consistent) (ctx : BindContext)
    (kind : DeclarationKind) (node owner : NodeId) (span : Span) (hint : Option NodeId)
    (origin : Option AliasTarget) (hscope : scope < b.scopes.size)
    (hclass : kind = .instanceAttribute → b.scopeKind? scope = some .classBody) :
    (b.addDeclaration ctx scope kind name node owner span hint origin).Exact := by
  have hsymbol := hb.symbolFor hc (kind == .instanceAttribute) hscope name
  have hconsistent :=
    (hc.symbolFor (kind == .instanceAttribute) hscope (by simpa using hclass) name).1
  unfold Binding.addDeclaration
  generalize b.symbolFor scope (kind == .instanceAttribute) name = made at hsymbol hconsistent ⊢
  exact hsymbol.push hconsistent
    (f := fun e => { e with declarations := e.declarations ++ [made.2.declarations.size] })
    (fun e => List.perm_append_singleton _ _) rfl rfl

/-! ## Steps of the walk -/

private theorem Exact.openScope (hb : b.Exact) {kind : ScopeKind} (hkind : kind ≠ .root)
    {parent : ScopeId}
    (hparent : parent < b.scopes.size) (node : NodeId) :
    (b.openScope kind (some parent) node).2.Exact := by
  have hscope {other : ScopeId} {s : Scope}
      (hs : (b.openScope kind (some parent) node).2.scopes[other]? = some s) :
      b.scopes[other]? = some s ∨
        other = b.scopes.size ∧ s = { kind := kind, parent := some parent, node := node } := by
    rw [Binding.openScope, Array.getElem?_push] at hs
    split at hs
    · next hother => exact .inr ⟨hother, (Option.some.inj hs).symm⟩
    · exact .inl hs
  have hlists {other onInstance name symbol}
      (h : (b.openScope kind (some parent) node).2.Lists other onInstance name symbol) :
      b.Lists other onInstance name symbol := by
    obtain ⟨s, hs, hmem⟩ := h
    rcases hscope hs with hs | ⟨-, rfl⟩
    · exact ⟨s, hs, hmem⟩
    · cases onInstance <;> exact absurd hmem (Array.not_mem_empty _)
  refine ⟨?_, fun other s hs hne => ?_, fun other s onInstance hs => ?_,
    fun _ _ _ _ _ h h' => hb.apart _ _ _ _ _ (hlists h) (hlists h'), hb.once⟩
  · obtain ⟨s, hs, hroot, hnone⟩ := hb.outermost
    refine ⟨s, ?_, hroot, hnone⟩
    have hlt := (Array.getElem?_eq_some_iff.mp hs).1
    rw [Binding.openScope, Array.getElem?_push_lt hlt, ← Array.getElem?_eq_getElem hlt, hs]
  · rcases hscope hs with hs | ⟨rfl, rfl⟩
    · exact hb.nested other s hs hne
    · exact ⟨hkind, parent, hparent, rfl⟩
  · rcases hscope hs with hs | ⟨-, rfl⟩
    · exact hb.names other s onInstance hs
    · cases onInstance <;> exact List.nodup_nil

private theorem Step.exact (h : Step a b ns c) (hc : b.Consistent) (hb : b.Exact) :
    c.Exact := by
  cases h with
  | report code span arg => exact hb.congr rfl fun _ => rfl
  | openScope kind parent node hkind hparent => exact hb.openScope hkind hparent node
  | declare ctx kind name node owner span hint origin hscope hkind =>
    have hdeclared : (b.addDeclaration ctx (b.targetScope ctx.scope name) kind name node owner span
        hint origin).Exact :=
      hb.addDeclaration hc ctx kind node owner span hint origin (targetScope_lt hscope name)
        fun h => absurd h hkind
    exact hdeclared.congr rfl fun _ => rfl
  | declareAttribute ctx scope name node owner span hint hclass =>
    exact hb.addDeclaration hc ctx .instanceAttribute node owner span hint none
      (lt_size_of_scopeKind? hclass) fun _ => hclass
  | useName ctx node => exact hb.congr rfl fun _ => rfl
  | exports names => exact hb.congr rfl fun _ => rfl
  | addImport record => exact hb.congr rfl fun _ => rfl
  | note scope f hf =>
    refine hb.congr rfl fun other => ?_
    have hface (s : Scope) : (f s).face = s.face := by
      simp only [Scope.face, Scope.names, hf.kind, hf.parent, hf.symbols, hf.instanceSymbols]
    simp only [modifyScope, Array.getElem?_modify]
    split
    · cases b.scopes[other]? <;> simp [hface]
    · rfl

/-! ## Nodes of names -/

private theorem nodeDeclarations_symbolFor (b : Binding) (scope : ScopeId) (onInstance : Bool)
    (name : String) :
    (b.symbolFor scope onInstance name).2.nodeDeclarations = b.nodeDeclarations := by
  rw [symbolFor_eq]

private def Noted (b : Binding) (ns : List NodeId) : Prop :=
  ∀ (index : DeclIndex) (d : Declaration), b.declarations[index]? = some d →
    b.declarationAt? d.node = some index ∧ d.node ∈ ns

private theorem Noted.addDeclaration {node : NodeId} (hb : b.Noted ns) (hnode : node ∉ ns)
    (ctx : BindContext) (kind : DeclarationKind) (owner : NodeId) (span : Span)
    (hint : Option NodeId) (origin : Option AliasTarget) :
    (b.addDeclaration ctx scope kind name node owner span hint origin).Noted (ns ++ [node]) := by
  have hdeclarations := (rest_symbolFor b scope (kind == .instanceAttribute) name).1
  have hnodes := nodeDeclarations_symbolFor b scope (kind == .instanceAttribute) name
  intro index d hd
  simp only [Binding.addDeclaration, declarationAt?, hdeclarations, hnodes] at hd ⊢
  rw [Array.getElem?_push] at hd
  split at hd
  · next hindex =>
    obtain rfl := Option.some.inj hd
    exact ⟨by simp [hindex], List.mem_append_right ns List.mem_cons_self⟩
  · obtain ⟨hnoted, hmem⟩ := hb index d hd
    have hne : node ≠ d.node := fun h => hnode (h ▸ hmem)
    refine ⟨?_, List.mem_append_left _ hmem⟩
    rw [Std.TreeMap.getElem?_insert, if_neg (by simpa using hne)]
    exact hnoted

private theorem Step.noted {ms : List NodeId} (h : Step a b ms c) (hb : b.Noted ns)
    (hnew : ∀ node ∈ ms, node ∉ ns) : c.Noted (ns ++ ms) := by
  cases h with
  | declare ctx kind name node owner span hint origin hscope hkind =>
    exact hb.addDeclaration (hnew node List.mem_cons_self) ctx kind owner span hint origin
  | declareAttribute ctx scope name node owner span hint hclass =>
    exact hb.addDeclaration (hnew node List.mem_cons_self) ctx _ owner span hint none
  | useName ctx node =>
    exact fun index d hd => ⟨(hb index d hd).1, List.mem_append_left _ (hb index d hd).2⟩
  | _ =>
    rw [List.append_nil]
    exact hb

private theorem Walks.noted (h : Walks a b ns c) (hnodup : ns.Nodup) (hb : b.Noted []) :
    c.Noted ns := by
  induction h with
  | refl => exact hb
  | tail _ hstep ih =>
    obtain ⟨hbefore, -, hdisjoint⟩ := List.nodup_append.mp hnodup
    exact hstep.noted (ih hbefore) fun node hnode hmem => hdisjoint node hmem node hnode rfl

/-! ## The last passes -/

private theorem Exact.sortDeclarations (hb : b.Exact) : b.sortDeclarations.Exact where
  outermost := hb.outermost
  nested := hb.nested
  names := hb.names
  apart := hb.apart
  once symbol e he := by
    rw [Binding.sortDeclarations, Array.getElem?_map, Option.map_eq_some_iff] at he
    obtain ⟨old, hold, rfl⟩ := he
    exact (inOrder_perm b _).nodup_iff.mpr (hb.once symbol old hold)

private theorem Exact.markExports (hb : b.Exact) : b.markExports.Exact :=
  hb.congr rfl fun _ => rfl

/-! ## Names from `from m import *` -/

/-- The tables agree and say nothing twice, and the nodes of the names that the text itself declares
lead back to their declarations. -/
structure Sound (b : Binding) : Prop where
  exporting : b.Exporting
  exact : b.Exact
  noted : ∀ (index : DeclIndex) (d : Declaration), b.declarations[index]? = some d →
    d.wildcard = false → b.declarationAt? d.node = some index

private theorem Sound.addWildcardName (hb : b.Sound) (importIndex : Nat) (record : ImportRecord)
    (name : String) : (addWildcardName importIndex record b name).Sound := by
  have hscope := lt_size_of_scopeKind? hb.exporting.consistent.root
  have hconsistent :=
    (hb.exporting.consistent.symbolFor false hscope (absurd · Bool.false_ne_true) name).1
  have hexact := hb.exact.symbolFor hb.exporting.consistent false hscope name
  have hdeclarations := (rest_symbolFor b 0 false name).1
  have hnodes := nodeDeclarations_symbolFor b 0 false name
  refine ⟨(bringsIn_addWildcardName hb.exporting importIndex record name).exporting, ?_, ?_⟩
  · simp only [Binding.addWildcardName, moduleSymbol_eq]
    generalize b.symbolFor 0 false name = made at hconsistent hexact
    exact hexact.push hconsistent (f := fun e => { e with declarations := insertDeclaration _ _ _ _ })
      (fun e => insertDeclaration_perm ..) rfl rfl
  · intro index d hd hwild
    simp only [Binding.addWildcardName, moduleSymbol_eq, hdeclarations, declarationAt?, hnodes]
      at hd ⊢
    rw [Array.getElem?_push] at hd
    split at hd
    · obtain rfl := Option.some.inj hd
      exact absurd hwild.symm Bool.false_ne_true
    · exact hb.noted index d hd hwild

theorem Sound.addWildcardNames (hb : b.Sound) (importIndex : Nat) (names : List String) :
    (b.addWildcardNames importIndex names).Sound := by
  unfold Binding.addWildcardNames
  split
  · next record hrecord =>
    clear hrecord
    induction names generalizing b with
    | nil => exact hb
    | cons name names ih => exact ih (hb.addWildcardName importIndex record name)
  · exact hb

end Binding

open Binding

/-! ## Whole trees -/

private theorem Tree.exact_unbound (t : Tree) : t.unbound.Exact where
  outermost := ⟨_, rfl, rfl, rfl⟩
  nested scope s hs hne := by
    cases scope with
    | zero => exact absurd rfl hne
    | succ scope => exact nomatch hs
  names scope s onInstance hs := by
    cases scope with
    | zero =>
      obtain rfl := Option.some.inj hs
      cases onInstance <;> exact List.nodup_nil
    | succ scope => exact nomatch hs
  apart scope scope' name name' symbol h := by
    obtain ⟨e, he, -⟩ := t.consistent_unbound.entry scope true name symbol h
    rw [Tree.unbound, Binding.openScope] at he
    simp at he
  once symbol e he := by
    rw [Tree.unbound, Binding.openScope] at he
    simp at he

private theorem Tree.exact_bind (t : Tree) : t.bind.Exact := by
  obtain ⟨_, hwalks, -⟩ := t.walks
  have hwalked : t.walked.Consistent ∧ t.walked.Exact :=
    hwalks.induct (P := fun b => b.Consistent ∧ b.Exact)
      (fun _ _ _ hstep hb => ⟨hstep.consistent hb.1, hstep.exact hb.1 hb.2⟩)
      ⟨t.consistent_unbound, t.exact_unbound⟩
  rw [t.bind_eq]
  exact hwalked.2.sortDeclarations.markExports

private theorem Tree.noted_bind (t : Tree) (h : Walks t.arena t.unbound ns t.walked)
    (hnodup : ns.Nodup)
    {index : DeclIndex} {d : Declaration} (hd : t.bind.declarations[index]? = some d) :
    t.bind.declarationAt? d.node = some index := by
  have hnoted := h.noted hnodup fun _ _ h => by
    rw [Tree.unbound, Binding.openScope] at h
    simp at h
  rw [Tree.bind_eq, declarations_markExports, Array.getElem?_map, Option.map_eq_some_iff] at hd
  obtain ⟨old, hold, rfl⟩ := hd
  exact (hnoted index old hold).1

/-- The walk over the tree of a text visits no node twice. -/
theorem exists_walks (text : String) : ∃ ns, ns.Nodup ∧
    Walks (parse text).tree.arena (parse text).tree.unbound ns (parse text).tree.walked := by
  obtain ⟨ns, hforest, hnodup, -⟩ := accounted_parse text
  obtain ⟨ms, hwalks, hsub⟩ := (parse text).tree.walks
  obtain ⟨ls, hperm, hin⟩ := hsub ns hforest
  exact ⟨ms, hperm.nodup_iff.mp (hnodup.sublist hin), hwalks⟩

/-- The tables of every text are sound. -/
theorem sound_bind (text : String) : (parse text).tree.bind.Sound := by
  obtain ⟨ns, hnodup, hwalks⟩ := exists_walks text
  exact ⟨Tree.exporting_bind _, Tree.exact_bind _, fun _ _ hd _ =>
    Tree.noted_bind _ hwalks hnodup hd⟩

end LiveCheck
