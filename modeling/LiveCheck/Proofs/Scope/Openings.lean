import LiveCheck.Proofs.Scope.TreadingStatements

/-!
# The scopes of definitions

Every definition opens one scope, so scopes and definitions determine each other.
-/

namespace LiveCheck

namespace Binding

variable {a : Arena} {root : NodeId} {b c : Binding} {vs ws : List Visit}

private def faces (b : Binding) :
    Array (ScopeKind × NodeId) := b.scopes.map fun s => (s.kind, s.node)

/-- The scopes are those of the module and of the definitions that have been visited. -/
structure Opened (a : Arena) (root : NodeId) (b : Binding) (vs : List Visit) : Prop where
  nodes : b.scopes.toList.map (·.node) = root :: Visit.nodes .opening vs
  kinds : ∀ (k : ScopeId) (s : Scope), b.scopes[k]? = some s → a.opens? s.node = some s.kind
  definitions : ∀ (k : ScopeId) (s : Scope), b.scopes[k]? = some s →
    b.definitionScopes[s.node]? = some k

private theorem exists_of_faces (h : c.faces = b.faces) {k : ScopeId} {s : Scope}
    (hs : c.scopes[k]? = some s) : ∃ s', b.scopes[k]? = some s' ∧ s'.kind = s.kind ∧ s'.node = s.node := by
  have hk : b.faces[k]? = c.faces[k]? := by rw [h]
  rw [faces, faces, Array.getElem?_map, Array.getElem?_map, hs] at hk
  obtain ⟨s', hs', heq⟩ := Option.map_eq_some_iff.mp hk
  exact ⟨s', hs', congrArg (·.1) heq, congrArg (·.2) heq⟩

private theorem faces_of_outlines (h : c.outlines = b.outlines) : c.faces = b.faces := by
  have hfaces (b : Binding) : b.faces = b.outlines.map fun o => (o.1, o.2.1) := by
    rw [faces, outlines, Array.map_map]
    rfl
  rw [hfaces, hfaces, h]

private theorem Opened.congr (hb : b.Opened a root vs) (hfaces : c.faces = b.faces)
    (hdefinitions : c.definitionScopes = b.definitionScopes)
    (hnone : Visit.nodes .opening ws = []) : c.Opened a root (vs ++ ws) where
  nodes := by
    have hnodes (b : Binding) : b.scopes.toList.map (·.node) = b.faces.toList.map (·.2) := by
      rw [faces, Array.toList_map, List.map_map]
      rfl
    rw [hnodes, hfaces, ← hnodes, hb.nodes, Visit.nodes_append, hnone, List.append_nil]
  kinds k s hs := by
    obtain ⟨s', hs', hkind, hnode⟩ := exists_of_faces hfaces hs
    rw [← hkind, ← hnode]
    exact hb.kinds k s' hs'
  definitions k s hs := by
    obtain ⟨s', hs', -, hnode⟩ := exists_of_faces hfaces hs
    rw [hdefinitions, ← hnode]
    exact hb.definitions k s' hs'

section

variable {ctx : BindContext} {scope : ScopeId} {kind : DeclarationKind} {name : String}
  {node owner : NodeId} {span : Span} {hint : Option NodeId} {origin : Option AliasTarget}

@[simp] theorem nameScopes_addDeclaration :
    (b.addDeclaration ctx scope kind name node owner span hint origin).nameScopes = b.nameScopes := by
  have h := congrArg Binding.nameScopes (symbolFor_eq b scope (kind == .instanceAttribute) name)
  exact h

@[simp] theorem definitionScopes_addDeclaration :
    (b.addDeclaration ctx scope kind name node owner span hint origin).definitionScopes =
      b.definitionScopes := by
  have h := congrArg Binding.definitionScopes (symbolFor_eq b scope (kind == .instanceAttribute) name)
  exact h

@[simp] theorem findings_addDeclaration :
    (b.addDeclaration ctx scope kind name node owner span hint origin).findings = b.findings := by
  have h := congrArg Binding.findings (symbolFor_eq b scope (kind == .instanceAttribute) name)
  exact h

end

private theorem Opened.openScope (hb : b.Opened a root vs) {kind : ScopeKind} {node : NodeId}
    (parent : ScopeId) (hkind : a.opens? node = some kind)
    (hnodup : (root :: Visit.nodes .opening (vs ++ [⟨.opening, node⟩])).Nodup) :
    (b.openScope kind (some parent) node).2.Opened a root (vs ++ [⟨.opening, node⟩]) where
  nodes := by
    simp [Binding.openScope, hb.nodes]
  kinds k s hs := by
    rw [Binding.openScope, Array.getElem?_push] at hs
    split at hs
    · rw [← Option.some.inj hs]
      exact hkind
    · exact hb.kinds k s hs
  definitions k s hs := by
    have hnew : node ∉ b.scopes.toList.map (·.node) := by
      have hmem : node ∈ [node] := List.mem_cons_self
      rw [Visit.nodes_append, ← List.cons_append, ← hb.nodes] at hnodup
      exact fun hold => (List.nodup_append.mp hnodup).2.2 node hold node hmem rfl
    show (b.definitionScopes.insert node b.scopes.size)[s.node]? = some k
    rw [Binding.openScope, Array.getElem?_push] at hs
    split at hs
    · next hk =>
      rw [← Option.some.inj hs, hk]
      exact Std.TreeMap.getElem?_insert_self
    · have hold : s.node ∈ b.scopes.toList.map (·.node) :=
        List.mem_map_of_mem (Array.mem_toList_iff.mpr (Array.mem_of_getElem? hs))
      have hne : node ≠ s.node := fun heq => hnew (heq ▸ hold)
      rw [Std.TreeMap.getElem?_insert, if_neg (by simpa using hne)]
      exact hb.definitions k s hs

private theorem Visiting.opened (h : Visiting a b ws c) (hb : b.Opened a root vs)
    (hnodup : (root :: Visit.nodes .opening (vs ++ ws)).Nodup) : c.Opened a root (vs ++ ws) := by
  cases h with
  | use | repetition => exact hb.congr rfl rfl rfl
  | declare | declareAttribute =>
    exact hb.congr (faces_of_outlines (outlines_symbolFor b _ _ _))
      (by simp [useName]) rfl
  | openScope kind parent node hkind => exact hb.openScope parent hkind hnodup
  | @returnFrom ctx place node hplace hctx hreturn =>
    unfold Binding.returnFrom
    split
    · have hfaces : (b.modifyScope ctx.scope fun s => { s with returns := s.returns.push node }).faces =
          b.faces := map_modify (f := fun s : Scope => { s with returns := s.returns.push node })
        (fun _ => rfl) b.scopes ctx.scope
      exact hb.congr hfaces rfl rfl
    · exact hb.congr rfl rfl rfl
  | loopControl =>
    unfold Binding.loopControl
    split <;> exact hb.congr rfl rfl rfl
  | quiet h => exact hb.congr (faces_of_outlines h.outlines) h.definitionScopes rfl

private theorem nodup_openings (hnodup : (root :: Visit.nodes .opening (vs ++ ws)).Nodup) :
    (root :: Visit.nodes .opening vs).Nodup := by
  rw [Visit.nodes_append] at hnodup
  exact hnodup.sublist ((List.sublist_append_left _ _).cons_cons _)

private theorem Visits.opened (h : Visits a b ws c) (hb : b.Opened a root [])
    (hnodup : (root :: Visit.nodes .opening ws).Nodup) : c.Opened a root ws := by
  induction h with
  | refl => exact hb
  | tail _ hstep ih => exact hstep.opened (ih (nodup_openings hnodup)) hnodup

/-- What every step keeps holds behind all of them, where at every point the scopes are known. -/
theorem Visits.induct {motive : List Visit → Binding → Prop} (h : Visits a b ws c)
    (hb : b.Opened a root []) (hnodup : (root :: Visit.nodes .opening ws).Nodup) (base : motive [] b)
    (step : ∀ {vs ws : List Visit} {c d : Binding}, c.Opened a root vs → d.Opened a root (vs ++ ws) →
      Visiting a c ws d → motive vs c → motive (vs ++ ws) d) : motive ws c := by
  induction h with
  | refl => exact base
  | tail h hstep ih =>
    have hbefore := nodup_openings hnodup
    have hopened := h.opened hb hbefore
    exact step hopened (hstep.opened hopened hnodup) hstep (ih hbefore)

/-- A definition opens one scope. -/
theorem Opened.unique (hb : b.Opened a root vs) {k k' : ScopeId} {s s' : Scope}
    (hs : b.scopes[k]? = some s) (hs' : b.scopes[k']? = some s') (hnode : s.node = s'.node) : k = k' := by
  have hk := hb.definitions k s hs
  rw [hnode, hb.definitions k' s' hs'] at hk
  exact (Option.some.inj hk).symm

theorem Opened.opens?_definition (hb : b.Opened a root vs) {ctx : BindContext} {place : Place}
    (hctx : ctx.Stands b place) : a.opens? place.definition = b.scopeKind? ctx.scope := by
  obtain ⟨s, hs, hnode⟩ := Option.map_eq_some_iff.mp hctx.scope
  rw [← hnode, hb.kinds _ s hs, scopeKind?, hs, Option.map_some]

end Binding

namespace Tree

variable (t : Tree)

theorem scopes_bind : t.bind.scopes = t.walked.scopes := by
  rw [t.bind_eq]
  rfl

theorem nameScopes_bind : t.bind.nameScopes = t.walked.nameScopes := by
  rw [t.bind_eq]
  rfl

theorem definitionScopes_bind : t.bind.definitionScopes = t.walked.definitionScopes := by
  rw [t.bind_eq]
  rfl

theorem reports_bind (code : Nat) : t.bind.reports code = t.walked.reports code := by
  rw [t.bind_eq]
  rfl

/-- At first there is the scope of the module only. -/
theorem eq_of_unbound {t : Tree} {k : ScopeId} {s : Scope} (hs : t.unbound.scopes[k]? = some s) :
    k = 0 ∧ s = { kind := .root, parent := none, node := t.root } := by
  obtain ⟨hlt, rfl⟩ := Array.getElem?_eq_some_iff.mp hs
  obtain rfl : k = 0 := Nat.lt_one_iff.mp hlt
  exact ⟨rfl, rfl⟩

end Tree

private theorem Arena.visitKind?_root {a : Arena} {n : NodeId} {body : List NodeId}
    (hdata : a.data? n = some (.root body)) : a.visitKind? n = none := by
  simp only [visitKind?, hdata]

theorem opened_unbound (text : String) : (parse text).tree.unbound.Opened (parse text).tree.arena
    (parse text).tree.root [] := by
  obtain ⟨body, hdata⟩ := (grown_parse text).module
  generalize (parse text).tree = t at *
  refine ⟨rfl, fun k s hs => ?_, fun k s hs => ?_⟩
  · obtain ⟨-, rfl⟩ := Tree.eq_of_unbound hs
    simp only [Arena.opens?, hdata]
  · obtain ⟨rfl, rfl⟩ := Tree.eq_of_unbound hs
    exact Std.TreeMap.getElem?_insert_self

/-- Binding the tree of a text visits its nodes, and opens the scopes of those that are definitions. -/
theorem exists_visits (text : String) :
    let t := (parse text).tree
    ∃ vs, Binding.Visits t.arena t.unbound vs t.walked ∧ Visit.Same vs (t.arena.visits t.root) ∧
      (t.root :: Visit.nodes .opening vs).Nodup ∧ t.walked.Opened t.arena t.root vs := by
  intro t
  obtain ⟨vs, hvisits, hsame⟩ := Tree.visits (grown_parse text)
  obtain ⟨body, hdata⟩ := (grown_parse text).module
  have hnodup : (t.root :: Visit.nodes .opening vs).Nodup := by
    have hnodes := hsame.nodes .opening
    rw [Arena.nodes_visits] at hnodes
    rw [(hnodes.cons _).nodup_iff, List.nodup_cons, List.mem_filter]
    refine ⟨fun h => ?_, (nodup_walk_parse text).filter _⟩
    cases (Arena.visitKind?_root hdata).symm.trans (beq_iff_eq.mp h.2)
  exact ⟨vs, hvisits, hsame, hnodup, hvisits.opened (opened_unbound text) hnodup⟩

end LiveCheck
