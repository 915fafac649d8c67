import LiveCheck.Proofs.Scope.Exact

/-!
# The tables of names

A file has tables of its scopes, its symbols and its declarations, which refer to each other by
number. Whatever the text is, and whatever imports bring into the module later, each of them says
everything once: a symbol stands in one table of one scope, a declaration in the list of one symbol,
and the node of a name leads back to the declaration that the name makes.
-/

namespace LiveCheck.Binding

/-- The tables of a file refer to each other, and each of them says everything once. -/
structure Coherent (b : Binding) : Prop where
  /-- The first scope is that of the module, and no scope is around it. -/
  outermost : ∃ s : Scope, b.scopes[0]? = some s ∧ s.kind = .root ∧ s.parent = none
  /-- Any other scope stands inside one with a smaller number. -/
  nested : ∀ (scope : ScopeId) (s : Scope), b.scopes[scope]? = some s → scope ≠ 0 →
    ∃ parent < scope, s.parent = some parent
  /-- A declaration has the name and the scope of its symbol. -/
  declared : ∀ (index : DeclIndex) (d : Declaration), b.declarations[index]? = some d →
    d.scope < b.scopes.size ∧
      ∃ e : BoundSymbol, b.symbols[d.symbol]? = some e ∧ e.name = d.name ∧ e.scope = d.scope
  /-- A declaration is once in the list of its symbol and in no other list. -/
  listed : ∀ (index : DeclIndex) (d : Declaration), b.declarations[index]? = some d →
    ∀ (symbol : SymbolId) (e : BoundSymbol), b.symbols[symbol]? = some e →
      e.declarations.count index = if symbol = d.symbol then 1 else 0
  /-- A symbol is once in one table of its scope, under its name, and in no other table. Only the
  scopes of classes have names of instances. -/
  tabled : ∀ (symbol : SymbolId) (e : BoundSymbol), b.symbols[symbol]? = some e →
    ∃ onInstance, e.scope < b.scopes.size ∧
      (onInstance = true → b.scopeKind? e.scope = some .classBody) ∧
      ∀ (scope : ScopeId) (s : Scope) onInstance' name, b.scopes[scope]? = some s →
        (s.table onInstance').toList.count (name, symbol) =
          if scope = e.scope ∧ onInstance' = onInstance ∧ name = e.name then 1 else 0
  /-- The node of a name that the text declares leads back to the declaration. -/
  noted : ∀ (index : DeclIndex) (d : Declaration), b.declarations[index]? = some d →
    d.wildcard = false → b.declarationAt? d.node = some index

private theorem Sound.coherent {b : Binding} (hb : b.Sound) : b.Coherent where
  outermost := hb.exact.outermost
  nested scope s hs hne := (hb.exact.nested scope s hs hne).2
  declared index d hd := by
    obtain ⟨e, he, hname, hscope, -⟩ := hb.exporting.consistent.declared index d hd
    obtain ⟨onInstance, s, hs, -⟩ := hb.exporting.consistent.listed d.symbol e he
    exact ⟨hscope ▸ (Array.getElem?_eq_some_iff.mp hs).1, e, he, hname, hscope⟩
  listed index d hd symbol e he := by
    obtain ⟨own, hown, -, -, hmem⟩ := hb.exporting.consistent.declared index d hd
    split
    · next hsymbol =>
      obtain rfl := Option.some.inj ((hsymbol ▸ he).symm.trans hown)
      rw [(hb.exact.once symbol e he).count, if_pos hmem]
    · next hsymbol =>
      refine List.count_eq_zero.mpr fun hindex => hsymbol ?_
      obtain ⟨d', hd', rfl⟩ := hb.exporting.consistent.belongs symbol e index he hindex
      rw [Option.some.inj (hd.symm.trans hd')]
  tabled symbol e he := by
    obtain ⟨onInstance, hlists⟩ := hb.exporting.consistent.listed symbol e he
    have hclass (h : onInstance = true) : b.scopeKind? e.scope = some .classBody :=
      hb.exporting.consistent.onClass e.scope e.name symbol (h ▸ hlists)
    obtain ⟨own, hown, hmem⟩ := id hlists
    refine ⟨onInstance, (Array.getElem?_eq_some_iff.mp hown).1, hclass,
      fun scope s onInstance' name hs => ?_⟩
    split
    · next h =>
      obtain ⟨rfl, rfl, rfl⟩ := h
      obtain rfl := Option.some.inj (hs.symm.trans hown)
      have hnodup := List.Nodup.of_map _ (hb.exact.names _ s onInstance' hs)
      rw [hnodup.count, if_pos (Array.mem_toList_iff.mpr hmem)]
    · next h =>
      refine List.count_eq_zero.mpr fun hentry => h ?_
      have hlists' : b.Lists scope onInstance' name symbol :=
        ⟨s, hs, Array.mem_toList_iff.mp hentry⟩
      obtain ⟨e', he', hname, hscope⟩ :=
        hb.exporting.consistent.entry scope onInstance' name symbol hlists'
      obtain rfl := Option.some.inj (he.symm.trans he')
      refine ⟨hscope.symm, ?_, hname.symm⟩
      cases onInstance <;> cases onInstance'
      · rfl
      · exact absurd hlists (hb.exact.apart _ _ _ _ _ hlists')
      · exact absurd hlists' (hb.exact.apart _ _ _ _ _ hlists)
      · rfl
  noted := hb.noted

/-- **The tables of names are coherent.** For every text, and whatever imports bring into the module
in however many steps, the tables of the file refer to each other and say everything once. -/
theorem coherent_bind (text : String) (brought : List (Nat × List String)) :
    (brought.foldl (fun b (names : Nat × List String) => b.addWildcardNames names.1 names.2)
      (parse text).tree.bind).Coherent := by
  suffices h : ∀ b : Binding, b.Sound →
      (brought.foldl (fun b (names : Nat × List String) => b.addWildcardNames names.1 names.2)
        b).Sound from (h _ (sound_bind text)).coherent
  induction brought with
  | nil => exact fun b hb => hb
  | cons names brought ih => exact fun b hb => ih _ (hb.addWildcardNames names.1 names.2)

end LiveCheck.Binding

/-!
## Declarations in the order of the source

The walk over a tree reaches the declarations of a symbol in any order: a function may declare names
of the module or of a function around it, and the methods of a class declare attributes. The last
passes put them in order, and whatever an import brings in later takes its place among them, where
the import stands.
-/

namespace LiveCheck.Binding

variable {a : Arena} {b c : Binding} {index other : DeclIndex} {d : Declaration}
  {ds : List DeclIndex} {offset : Nat} {ns : List NodeId}

/-! ## Places -/

private theorem startOf_of_getElem? (h : b.declarations[index]? = some d) :
    b.startOf index = d.span.start := by
  rw [startOf, h, Option.elim_some]

private theorem startOf_congr (h : c.declarations = b.declarations) : c.startOf = b.startOf := by
  funext index
  rw [startOf, startOf, h]

private theorem startOf_push (hdeclarations : c.declarations = b.declarations.push d)
    (h : index < b.declarations.size) : c.startOf index = b.startOf index := by
  rw [startOf, startOf, hdeclarations, Array.getElem?_push_lt h, Array.getElem?_eq_getElem h]

private theorem startOf_push_size (hdeclarations : c.declarations = b.declarations.push d) :
    c.startOf b.declarations.size = d.span.start :=
  startOf_of_getElem? (by rw [hdeclarations, Array.getElem?_push_size])

private theorem startOf_markExports (b : Binding) : b.markExports.startOf = b.startOf := by
  funext index
  rw [startOf, startOf, markExports, Array.getElem?_map]
  cases b.declarations[index]? <;> rfl

/-! ## Order -/

/-- One declaration of a list stands no later than the next. -/
def Ascending (b : Binding) (ds : List DeclIndex) : Prop :=
  ds.Pairwise fun i j => b.startOf i ≤ b.startOf j

private theorem Ascending.congr (h : b.Ascending ds)
    (hstart : ∀ i ∈ ds, c.startOf i = b.startOf i) :
    c.Ascending ds :=
  h.imp_of_mem fun hi hj hle => by rwa [hstart _ hi, hstart _ hj]

private theorem any_lt_start_iff :
    (b.declarations[index]?).any (offset < ·.span.start) = true ↔ offset < b.startOf index := by
  cases h : b.declarations[index]? <;> simp [startOf, h]

private theorem Ascending.insertDeclaration (h : b.Ascending ds)
    (hindex : b.startOf index = offset) :
    b.Ascending (b.insertDeclaration offset index ds) := by
  induction ds with
  | nil => exact List.pairwise_singleton _ _
  | cons first ds ih =>
    obtain ⟨hfirst, hds⟩ := List.pairwise_cons.mp h
    unfold Binding.insertDeclaration
    split
    · next hlater =>
      have hlt : b.startOf index < b.startOf first := hindex ▸ any_lt_start_iff.mp hlater
      refine List.pairwise_cons.mpr ⟨fun j hj => ?_, h⟩
      rcases List.mem_cons.mp hj with rfl | hj
      · exact Nat.le_of_lt hlt
      · exact Nat.le_trans (Nat.le_of_lt hlt) (hfirst j hj)
    · next hearlier =>
      have hle : b.startOf first ≤ b.startOf index :=
        Nat.le_of_not_lt fun hlt => hearlier (any_lt_start_iff.mpr (hindex ▸ hlt))
      refine List.pairwise_cons.mpr ⟨fun j hj => ?_, ih hds⟩
      rcases mem_insertDeclaration.mp hj with rfl | hj
      · exact hle
      · exact hfirst j hj

private theorem ascending_inOrder (b : Binding) (ds : List DeclIndex) :
    b.Ascending (b.inOrder ds) :=
  List.foldlRecOn ds _ List.Pairwise.nil fun _ h _ _ => h.insertDeclaration rfl

/-! ## Tables in order -/

/-- The symbols list their declarations in the order of the source, and a name that
`from m import *` brings in stands where the import does. -/
structure InSourceOrder (a : Arena) (b : Binding) : Prop where
  /-- A symbol lists declarations that exist. -/
  exist : ∀ (symbol : SymbolId) (e : BoundSymbol), b.symbols[symbol]? = some e →
    ∀ index ∈ e.declarations, index < b.declarations.size
  /-- A symbol lists no declaration before one that starts earlier. -/
  ascending : ∀ (symbol : SymbolId) (e : BoundSymbol), b.symbols[symbol]? = some e →
    b.Ascending e.declarations
  /-- The record of an import has the span of the import's node. -/
  recorded : ∀ record ∈ b.imports, record.span = a.span record.node
  /-- What an import brings in has the node and the span of the import. -/
  brought : ∀ (index : DeclIndex) (d : Declaration), b.declarations[index]? = some d →
    d.wildcard = true → ∃ (target : AliasTarget) (record : ImportRecord), d.origin = some target ∧
      b.imports[target.importIndex]? = some record ∧ d.node = record.node ∧ d.span = record.span

private theorem InSourceOrder.symbolFor (hb : b.InSourceOrder a) (scope : ScopeId)
    (onInstance : Bool)
    (name : String) : (b.symbolFor scope onInstance name).2.InSourceOrder a := by
  cases h : b.symbolIn? scope onInstance name with
  | some symbol =>
    rw [symbolFor_of_some h]
    exact hb
  | none =>
    rw [symbolFor_of_none h]
    have hnew {symbol : SymbolId} {e : BoundSymbol}
        (he : (b.symbols.push ⟨name, scope, []⟩)[symbol]? = some e) :
        b.symbols[symbol]? = some e ∨ e.declarations = [] := by
      rw [Array.getElem?_push] at he
      split at he
      · exact .inr (Option.some.inj he ▸ rfl)
      · exact .inl he
    refine ⟨fun symbol e he => ?_, fun symbol e he => ?_, hb.recorded, hb.brought⟩
    · rcases hnew he with he | hnil
      · exact hb.exist symbol e he
      · simp [hnil]
    · rcases hnew he with he | hnil
      · exact hb.ascending symbol e he
      · exact hnil ▸ List.Pairwise.nil

private theorem InSourceOrder.push (hb : b.InSourceOrder a) {symbol : SymbolId}
    (hbrought : d.wildcard = true → ∃ (target : AliasTarget) (record : ImportRecord),
      d.origin = some target ∧ b.imports[target.importIndex]? = some record ∧
        d.node = record.node ∧ d.span = record.span)
    (hsymbols : c.symbols = b.symbols.modify symbol fun e => { e with
      declarations := insertDeclaration { b with declarations := b.declarations.push d }
        d.span.start b.declarations.size e.declarations })
    (hdeclarations : c.declarations = b.declarations.push d) (himports : c.imports = b.imports) :
    c.InSourceOrder a := by
  have hsize : c.declarations.size = b.declarations.size + 1 := by
    rw [hdeclarations, Array.size_push]
  have hkeep {other : SymbolId} {e : BoundSymbol} (he : b.symbols[other]? = some e) :
      c.Ascending e.declarations :=
    (hb.ascending other e he).congr fun i hi => startOf_push hdeclarations (hb.exist other e he i hi)
  -- A list is either as it was or has the new declaration at its place.
  have hsymbol {other : SymbolId} {e : BoundSymbol} (he : c.symbols[other]? = some e) :
      ∃ old, b.symbols[other]? = some old ∧ (e = old ∨ e.declarations =
        insertDeclaration { b with declarations := b.declarations.push d } d.span.start
          b.declarations.size old.declarations) := by
    rw [hsymbols, Array.getElem?_modify] at he
    split at he
    · obtain ⟨old, hold, rfl⟩ := Option.map_eq_some_iff.mp he
      exact ⟨old, hold, .inr rfl⟩
    · exact ⟨e, he, .inl rfl⟩
  refine ⟨fun other e he i hi => ?_, fun other e he => ?_, himports ▸ hb.recorded,
    fun i d' hd' hwild => ?_⟩
  · obtain ⟨old, hold, rfl | hinserted⟩ := hsymbol he
    · exact hsize ▸ Nat.lt_succ_of_lt (hb.exist other e hold i hi)
    · rw [hinserted, mem_insertDeclaration] at hi
      rcases hi with rfl | hi
      · exact hsize ▸ Nat.lt_succ_self _
      · exact hsize ▸ Nat.lt_succ_of_lt (hb.exist other old hold i hi)
  · obtain ⟨old, hold, rfl | hinserted⟩ := hsymbol he
    · exact hkeep hold
    · have hstart := startOf_congr (b := { b with declarations := b.declarations.push d })
        hdeclarations
      rw [hinserted, Ascending, hstart]
      refine Ascending.insertDeclaration ?_ (startOf_push_size rfl)
      exact (hkeep hold).congr fun i _ => by rw [hstart]
  · rw [hdeclarations, Array.getElem?_push] at hd'
    rw [himports]
    split at hd'
    · obtain rfl := Option.some.inj hd'
      exact hbrought hwild
    · exact hb.brought i d' hd' hwild

private theorem InSourceOrder.addWildcardName (hb : b.InSourceOrder a) {importIndex : Nat}
    {record : ImportRecord} (hrecord : b.imports[importIndex]? = some record) (name : String) :
    (addWildcardName importIndex record b name).InSourceOrder a := by
  have hordered := hb.symbolFor 0 false name
  have himports := (rest_symbolFor b 0 false name).2.2.1
  simp only [Binding.addWildcardName, moduleSymbol_eq]
  generalize b.symbolFor 0 false name = made at hordered himports ⊢
  exact hordered.push (d := { node := record.node, span := record.span, .. })
    (fun _ => ⟨_, record, rfl, himports ▸ hrecord, rfl, rfl⟩) rfl rfl rfl

theorem InSourceOrder.addWildcardNames (hb : b.InSourceOrder a) (importIndex : Nat)
    (names : List String) : (b.addWildcardNames importIndex names).InSourceOrder a := by
  unfold Binding.addWildcardNames
  split
  · next record hrecord =>
    induction names generalizing b with
    | nil => exact hb
    | cons name names ih =>
      refine ih (hb.addWildcardName hrecord name) ?_
      simpa [Binding.addWildcardName, moduleSymbol_eq, (rest_symbolFor b 0 false name).2.2.1]
  · exact hb

/-! ## The last passes -/

/-- Sorting puts the declarations in order, whatever the walk leaves. -/
theorem Consistent.inSourceOrder_sortDeclarations (hb : b.Consistent)
    (hrecorded : ∀ record ∈ b.imports, record.span = a.span record.node)
    (hwritten : ∀ d ∈ b.declarations, d.wildcard = false) : b.sortDeclarations.InSourceOrder a := by
  have hsymbol {symbol : SymbolId} {e : BoundSymbol}
      (he : b.sortDeclarations.symbols[symbol]? = some e) :
      ∃ ds : List DeclIndex, e.declarations = b.inOrder ds := by
    rw [Binding.sortDeclarations, Array.getElem?_map, Option.map_eq_some_iff] at he
    obtain ⟨old, -, rfl⟩ := he
    exact ⟨old.declarations, rfl⟩
  refine ⟨fun symbol e he i hi => ?_, fun symbol e he => ?_, hrecorded, fun i d hd hwild => ?_⟩
  · obtain ⟨d, hd, -⟩ := hb.sortDeclarations.belongs symbol e i he hi
    exact (Array.getElem?_eq_some_iff.mp hd).1
  · obtain ⟨ds, hds⟩ := hsymbol he
    rw [hds]
    exact (ascending_inOrder b ds).congr fun _ _ => rfl
  · exact absurd (hwritten d (Array.mem_of_getElem? hd)) (by simp [hwild])

theorem InSourceOrder.markExports (hb : b.InSourceOrder a) : b.markExports.InSourceOrder a := by
  refine ⟨fun symbol e he i hi => ?_, fun symbol e he => ?_, hb.recorded, fun i d hd hwild => ?_⟩
  · rw [declarations_markExports, Array.size_map]
    exact hb.exist symbol e he i hi
  · exact (hb.ascending symbol e he).congr fun i _ => by rw [startOf_markExports]
  · rw [declarations_markExports, Array.getElem?_map, Option.map_eq_some_iff] at hd
    obtain ⟨old, hold, rfl⟩ := hd
    exact hb.brought i old hold hwild

/-- The walk declares what is written in the text, and nothing that an import brings in. -/
theorem Step.written (h : Step a b ns c) (hb : ∀ d ∈ b.declarations, d.wildcard = false) :
    ∀ d ∈ c.declarations, d.wildcard = false := by
  have hdeclarations (scope : ScopeId) (onInstance : Bool) (name : String) :
      (b.symbolFor scope onInstance name).2.declarations = b.declarations :=
    (rest_symbolFor b scope onInstance name).1
  cases h with
  | declare ctx kind name node owner span hint origin hscope hkind =>
    simp only [Binding.useName, Binding.addDeclaration, hdeclarations, Array.mem_push]
    rintro d (hd | rfl)
    · exact hb d hd
    · rfl
  | declareAttribute ctx scope name node owner span hint hclass =>
    simp only [Binding.addDeclaration, hdeclarations, Array.mem_push]
    rintro d (hd | rfl)
    · exact hb d hd
    · rfl
  | _ => exact hb

theorem Step.recorded (h : Step a b ns c)
    (hb : ∀ record ∈ b.imports, record.span = a.span record.node) :
    ∀ record ∈ c.imports, record.span = a.span record.node := by
  have himports (scope : ScopeId) (onInstance : Bool) (name : String) :
      (b.symbolFor scope onInstance name).2.imports = b.imports :=
    (rest_symbolFor b scope onInstance name).2.2.1
  cases h with
  | addImport record hspan =>
    simp only [Binding.addImport, Array.mem_push]
    rintro other (hother | rfl)
    · exact hb other hother
    · exact hspan
  | declare ctx kind name node owner span hint origin hscope hkind => exact himports _ _ name ▸ hb
  | declareAttribute ctx scope name node owner span hint hclass => exact himports scope _ name ▸ hb
  | _ => exact hb

/-- The symbols list their own declarations, all of them and in the order of the source. -/
structure ListsInOrder (a : Arena) (b : Binding) : Prop extends InSourceOrder a b where
  own : ∀ (symbol : SymbolId) (e : BoundSymbol), b.symbols[symbol]? = some e → ∀ index,
    index ∈ e.declarations ↔ ∃ d, b.declarations[index]? = some d ∧ d.symbol = symbol

theorem Sound.listsInOrder (hb : b.Sound) (horder : b.InSourceOrder a) :
    b.ListsInOrder a := by
  refine ⟨horder, fun symbol e he index => ⟨hb.exporting.consistent.belongs symbol e index he, ?_⟩⟩
  rintro ⟨d, hd, rfl⟩
  obtain ⟨own, hown, -, -, hmem⟩ := hb.exporting.consistent.declared index d hd
  exact Option.some.inj (hown.symm.trans he) ▸ hmem

end Binding

open Binding

/-! ## Whole trees -/

theorem Tree.inSourceOrder_bind (t : Tree) : t.bind.InSourceOrder t.arena := by
  obtain ⟨_, hwalks, -⟩ := t.walks
  obtain ⟨hconsistent, hrecorded, hwritten⟩ := hwalks.induct
    (P := fun b => b.Consistent ∧ (∀ record ∈ b.imports, record.span = t.arena.span record.node) ∧
      ∀ d ∈ b.declarations, d.wildcard = false)
    (fun _ _ _ hstep hb =>
      ⟨hstep.consistent hb.1, hstep.recorded hb.2.1, hstep.written hb.2.2⟩)
    ⟨t.consistent_unbound, by simp [Tree.unbound, Binding.openScope],
      by simp [Tree.unbound, Binding.openScope]⟩
  rw [t.bind_eq]
  exact (hconsistent.inSourceOrder_sortDeclarations hrecorded hwritten).markExports

/-- **Declarations stand in the order of the source.** For every text, and whatever names imports
bring into the module in whatever order, every symbol lists its declarations by the place where they
stand, those that an import brings in by the place of the import. -/
theorem Binding.declarations_inSourceOrder (text : String) (brought : List (Nat × List String)) :
    (brought.foldl (fun b (names : Nat × List String) => b.addWildcardNames names.1 names.2)
      (parse text).tree.bind).ListsInOrder (parse text).tree.arena := by
  suffices h : ∀ b : Binding, b.Sound → b.InSourceOrder (parse text).tree.arena →
      (brought.foldl (fun b (names : Nat × List String) => b.addWildcardNames names.1 names.2)
        b).ListsInOrder (parse text).tree.arena from
    h _ (sound_bind text) (Tree.inSourceOrder_bind _)
  induction brought with
  | nil => exact fun b hb horder => hb.listsInOrder horder
  | cons names brought ih =>
    exact fun b hb horder =>
      ih _ (hb.addWildcardNames names.1 names.2) (horder.addWildcardNames names.1 names.2)

end LiveCheck
