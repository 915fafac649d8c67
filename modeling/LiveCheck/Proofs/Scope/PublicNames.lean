import LiveCheck.Proofs.Scope.Tables

/-!
# The public names of a module

The public names of a module are the names that it declares in its own scope, less those that begin
with an underscore and are not listed by `__all__`. An import `from m import *` declares the names
that it brings in, like any other statement of the module, and changes nothing else.
-/

namespace LiveCheck.Binding

variable {b : Binding} {name : String}

/-- The module declares a name in its own scope. -/
def Declares (b : Binding) (name : String) : Prop :=
  ∃ d ∈ b.declarations, d.scope = 0 ∧ d.name = name

/-- The tables agree, and the declarations of the module are marked if their names are public. -/
structure Exporting (b : Binding) : Prop where
  consistent : b.Consistent
  marked : ∀ d ∈ b.declarations, d.scope = 0 → d.exported = isPublicName b.exportList d.name

/-! ## Public names -/

private theorem exists_lastExported? {symbol : SymbolId} :
    (∃ d, b.lastExported? symbol = some d) ↔
      ∃ index ∈ b.declarationsOf symbol, ∃ d, b.declarations[index]? = some d ∧
        d.exported = true := by
  rw [lastExported?, ← Option.isSome_iff_exists, List.find?_isSome]
  simp only [List.mem_reverse, List.mem_filterMap]
  constructor
  · rintro ⟨d, ⟨index, hindex, hd⟩, hexported⟩
    exact ⟨index, hindex, d, hd, hexported⟩
  · rintro ⟨index, hindex, d, hd, hexported⟩
    exact ⟨d, ⟨index, hindex, hd⟩, hexported⟩

private theorem mem_publicSymbols_iff :
    name ∈ b.publicSymbols.map (·.1) ↔
      ∃ symbol, b.Lists 0 false name symbol ∧ ∃ d, b.lastExported? symbol = some d := by
  have hlists {symbol : SymbolId} : b.Lists 0 false name symbol ↔
      (name, symbol) ∈ (b.scopes[0]?.elim #[] (·.symbols)).toList := by
    cases h : b.scopes[0]? <;> simp [Lists, h, Scope.table]
  simp only [publicSymbols, List.mem_map, List.mem_mergeSort, List.mem_filterMap, hlists]
  constructor
  · rintro ⟨_, ⟨⟨other, symbol⟩, hmem, hentry⟩, rfl⟩
    obtain ⟨d, hd, rfl⟩ := Option.map_eq_some_iff.mp hentry
    exact ⟨symbol, hmem, d, hd⟩
  · rintro ⟨symbol, hmem, d, hd⟩
    exact ⟨(name, d.kind), ⟨(name, symbol), hmem, by simp [hd]⟩, rfl⟩

private theorem Consistent.name_of_mem (hb : b.Consistent) {symbol : SymbolId} {e : BoundSymbol}
    (he : b.symbols[symbol]? = some e) {index : DeclIndex} (hindex : index ∈ e.declarations) :
    ∃ d, b.declarations[index]? = some d ∧ d.name = e.name ∧ d.scope = e.scope := by
  obtain ⟨d, hd, rfl⟩ := hb.belongs symbol e index he hindex
  obtain ⟨e', he', hname, hscope, -⟩ := hb.declared index d hd
  obtain rfl := Option.some.inj (he.symm.trans he')
  exact ⟨d, hd, hname.symm, hscope.symm⟩

private theorem Consistent.lists_of_declared (hb : b.Consistent) {index : DeclIndex}
    {d : Declaration}
    (hd : b.declarations[index]? = some d) (hscope : d.scope = 0) :
    b.Lists 0 false d.name d.symbol ∧ index ∈ b.declarationsOf d.symbol := by
  obtain ⟨e, he, hname, hs, hindex⟩ := hb.declared index d hd
  obtain ⟨onInstance, hlists⟩ := hb.listed d.symbol e he
  rw [hname, hs, hscope] at hlists
  have hmodule : onInstance = false := by
    cases onInstance with
    | false => rfl
    | true =>
      have hclass := hb.onClass 0 d.name d.symbol hlists
      rw [hb.root] at hclass
      exact nomatch hclass
  exact ⟨hmodule ▸ hlists, by simpa [declarationsOf, he] using hindex⟩

/-- The public names are the names that the module declares, restricted to public ones. -/
theorem Exporting.mem_publicSymbols (hb : b.Exporting) :
    name ∈ b.publicSymbols.map (·.1) ↔
      b.Declares name ∧ isPublicName b.exportList name = true := by
  rw [mem_publicSymbols_iff]
  constructor
  · rintro ⟨symbol, hlists, hlast⟩
    obtain ⟨index, hindex, d, hd, hexported⟩ := exists_lastExported?.mp hlast
    obtain ⟨e, he, rfl, hscope⟩ := hb.consistent.entry 0 false name symbol hlists
    rw [declarationsOf, he] at hindex
    obtain ⟨d', hd', hname, hs⟩ := hb.consistent.name_of_mem he hindex
    obtain rfl := Option.some.inj (hd.symm.trans hd')
    have hmem : d ∈ b.declarations := Array.mem_of_getElem? hd
    rw [hscope] at hs
    rw [hb.marked d hmem hs, hname] at hexported
    exact ⟨⟨d, hmem, hs, hname⟩, hexported⟩
  · rintro ⟨⟨d, hmem, hscope, rfl⟩, hpublic⟩
    obtain ⟨index, hd⟩ := Array.mem_iff_getElem?.mp hmem
    obtain ⟨hlists, hindex⟩ := hb.consistent.lists_of_declared hd hscope
    refine ⟨d.symbol, hlists, exists_lastExported?.mpr ⟨index, hindex, d, hd, ?_⟩⟩
    rw [hb.marked d hmem hscope, hpublic]

/-! ## Names from `from m import *` -/

/-- A symbol of the module is one of its outermost scope. -/
theorem moduleSymbol_eq (b : Binding) (name : String) :
    b.moduleSymbol name = b.symbolFor 0 false name := by
  cases h : b.symbolIn? 0 false name with
  | some symbol =>
    rw [symbolFor_of_some h]
    have h : b.moduleSymbol? name = some symbol := h
    simp only [moduleSymbol, h]
  | none =>
    rw [symbolFor_of_none h]
    have h : b.moduleSymbol? name = none := h
    simp only [moduleSymbol, h]
    rfl

/-- To find or make a symbol declares nothing. -/
theorem rest_symbolFor (b : Binding) (scope : ScopeId) (onInstance : Bool) (name : String) :
    (b.symbolFor scope onInstance name).2.declarations = b.declarations ∧
      (b.symbolFor scope onInstance name).2.exportList = b.exportList ∧
      (b.symbolFor scope onInstance name).2.imports = b.imports ∧
      (b.symbolFor scope onInstance name).2.wildcards = b.wildcards := by
  rw [symbolFor_eq]
  exact ⟨rfl, rfl, rfl, rfl⟩

theorem mem_insertDeclaration {offset index other : Nat} {ds : List DeclIndex} :
    other ∈ b.insertDeclaration offset index ds ↔ other = index ∨ other ∈ ds :=
  (insertDeclaration_perm b offset index ds).mem_iff.trans List.mem_cons

/-- What an import does when it brings names in: they are declared, and nothing else is changed. -/
structure BringsIn (b : Binding) (names : List String) (c : Binding) : Prop where
  exporting : c.Exporting
  imports : c.imports = b.imports
  exportList : c.exportList = b.exportList
  declares : ∀ name, c.Declares name ↔ b.Declares name ∨ name ∈ names

theorem bringsIn_addWildcardName (hb : b.Exporting) (importIndex : Nat) (record : ImportRecord)
    (name : String) : b.BringsIn [name] (addWildcardName importIndex record b name) := by
  obtain ⟨hdeclarations, hexports, himports, -⟩ := rest_symbolFor b 0 false name
  obtain ⟨hconsistent, hlists⟩ := hb.consistent.symbolFor false
    (lt_size_of_scopeKind? hb.consistent.root) nofun name
  simp only [addWildcardName, moduleSymbol_eq]
  generalize b.symbolFor 0 false name = made at *
  let d : Declaration :=
    { kind := .alias, name := name, node := record.node, owner := record.node, scope := 0
      symbol := made.1, span := record.span, typeHint := none
      origin := some ⟨importIndex, record.path, record.level, some name⟩
      conditional := false, exported := isPublicName made.2.exportList name, wildcard := true }
  have hall : ∀ other ∈ made.2.declarations.push d, other = d ∨ other ∈ b.declarations := by
    intro other hother
    rw [Array.mem_push, hdeclarations] at hother
    exact hother.symm
  refine ⟨⟨?_, fun other hother hscope => ?_⟩, himports, hexports, fun other => ?_⟩
  · refine hconsistent.push (d := d) (f := fun e => { e with
        declarations := insertDeclaration { made.2 with declarations := made.2.declarations.push d }
          record.span.start made.2.declarations.size e.declarations })
      hlists nofun (fun _ => rfl) (fun _ => rfl) (fun e index => mem_insertDeclaration) rfl rfl rfl
  · change other.exported = isPublicName made.2.exportList other.name
    rcases hall other hother with rfl | hother
    · rfl
    · rw [hexports]
      exact hb.marked other hother hscope
  · change (∃ d' ∈ made.2.declarations.push d, d'.scope = 0 ∧ d'.name = other) ↔ _
    simp only [Array.mem_push, hdeclarations, List.mem_singleton]
    constructor
    · rintro ⟨d', hd' | rfl, hscope, rfl⟩
      · exact .inl ⟨d', hd', hscope, rfl⟩
      · exact .inr rfl
    · rintro (⟨d', hd', hscope, hname⟩ | rfl)
      · exact ⟨d', .inl hd', hscope, hname⟩
      · exact ⟨d, .inr rfl, rfl, rfl⟩

theorem bringsIn_addWildcardNames (hb : b.Exporting) {importIndex : Nat} {record : ImportRecord}
    (hrecord : b.imports[importIndex]? = some record) (names : List String) :
    b.BringsIn names (b.addWildcardNames importIndex names) := by
  simp only [addWildcardNames, hrecord]
  clear hrecord
  induction names generalizing b with
  | nil => exact ⟨hb, rfl, rfl, by simp⟩
  | cons first rest ih =>
    have hfirst := bringsIn_addWildcardName hb importIndex record first
    have hrest := ih hfirst.exporting
    refine ⟨hrest.exporting, hrest.imports.trans hfirst.imports,
      hrest.exportList.trans hfirst.exportList, fun name => ?_⟩
    rw [List.foldl_cons, hrest.declares, hfirst.declares, List.mem_singleton, List.mem_cons,
      or_assoc]

end LiveCheck.Binding

namespace LiveCheck.Tree

open Binding

/-! ## Whole trees -/

/-- The names that a tree declares are marked if they are public. -/
theorem exporting_bind (t : Tree) : t.bind.Exporting := by
  refine ⟨t.consistent_bind, fun d hd hscope => ?_⟩
  have hkind : d.kind ≠ .instanceAttribute := by
    intro hattribute
    obtain ⟨index, hindex⟩ := Array.mem_iff_getElem?.mp hd
    have hclass := t.consistent_bind.attributes index d hindex hattribute
    rw [hscope, t.consistent_bind.root] at hclass
    exact nomatch hclass
  rw [t.bind_eq, declarations_markExports, Array.mem_map] at hd
  obtain ⟨old, -, rfl⟩ := hd
  change old.scope = 0 at hscope
  change old.kind ≠ .instanceAttribute at hkind
  change (old.scope == 0 && old.kind != .instanceAttribute && _) = _
  simp only [hscope, beq_self_eq_true, bne_iff_ne.mpr hkind, Bool.true_and]
  rfl

/-- The imports that are counted among those that bring all names in are the ones written so. -/
theorem mem_wildcards (t : Tree) {index : Nat} :
    index ∈ t.bind.wildcards ↔ ∃ record, t.bind.imports[index]? = some record ∧
      record.wildcard = true := by
  suffices h : ∀ index, index ∈ t.walked.wildcards ↔
      ∃ record, t.walked.imports[index]? = some record ∧ record.wildcard = true from h index
  obtain ⟨_, hwalks, -⟩ := t.walks
  refine hwalks.induct (P := fun b => ∀ index, index ∈ b.wildcards ↔
      ∃ record, b.imports[index]? = some record ∧ record.wildcard = true) ?_ ?_
  · intro b _ c hstep hb index
    have hdeclare (scope : ScopeId) (onInstance : Bool) (name : String) :
        index ∈ (b.symbolFor scope onInstance name).2.wildcards ↔
          ∃ record, (b.symbolFor scope onInstance name).2.imports[index]? = some record ∧
            record.wildcard = true := by
      obtain ⟨-, -, himports, hwildcards⟩ := rest_symbolFor b scope onInstance name
      rw [himports, hwildcards]
      exact hb index
    cases hstep with
    | addImport record =>
      simp only [addImport, Array.getElem?_push]
      by_cases hindex : index = b.imports.size
      · have hnone : index ∉ b.wildcards := by
          rw [hb, hindex]
          simp
        rw [hindex] at hnone
        cases hwild : record.wildcard <;> simp [hindex, hwild, hnone]
      · cases hwild : record.wildcard <;> simp [hindex, hb]
    | declare ctx kind name node owner span hint origin hscope hkind => exact hdeclare _ _ name
    | declareAttribute ctx scope name node owner span hint hclass => exact hdeclare scope _ name
    | report code span arg => exact hb index
    | openScope kind parent node hkind hparent => exact hb index
    | useName ctx node => exact hb index
    | exports names => exact hb index
    | note scope f hf => exact hb index
  · intro index
    simp [unbound, openScope]

end LiveCheck.Tree
