import LiveCheck.Proofs.Scope.Openings
import LiveCheck.Proofs.Scope.Tables

/-!
# The scopes of names

Every name of a tree has the scope of the definition around it, except for the names that stand for
no variable: attributes, keywords of arguments, the names in `global` and `nonlocal`, the parts of
the path of an import that bind nothing, and the repeated names of parameters.
-/

namespace LiveCheck

private theorem Arena.visitKind?_eq_name {a : Arena} {i : NodeId} :
    a.visitKind? i = some .name ↔ a.isScoped i = true := by
  have hscoped : a.isScoped i = true → a.isName i = true ∧ a.repeatsParameter i = false := by
    rw [isScoped, Bool.and_eq_true, Bool.and_eq_true, Bool.not_eq_true']
    exact And.left
  cases hdata : a.data? i with
  | none => simp_all [visitKind?, isName]
  | some data =>
    cases data <;> simp [visitKind?, isName, hdata, NodeData.isName] at hscoped ⊢ <;> grind

namespace Binding

variable {a : Arena} {n : NodeId} {b c : Binding} {vs ws : List Visit}

private theorem Visiting.nameScopes (h : Visiting a b ws c) :
    Visit.nodes .name ws = [] ∧ c.nameScopes = b.nameScopes ∨
      ∃ (ctx : BindContext) (place : Place) (node : NodeId), Visit.nodes .name ws = [node] ∧ a.place? node = some place ∧
        ctx.Stands b place ∧ c.nameScopes = b.nameScopes.insert node ctx.scope := by
  cases h with
  | use node hplace hctx => exact .inr ⟨_, _, node, rfl, hplace, hctx, rfl⟩
  | @declare ctx place _ _ node _ _ _ _ hplace hctx _ =>
    exact .inr ⟨ctx, place, node, rfl, hplace, hctx, by simp [useName]⟩
  | declareAttribute => exact .inl ⟨rfl, nameScopes_addDeclaration⟩
  | openScope | repetition => exact .inl ⟨rfl, rfl⟩
  | @returnFrom ctx =>
    refine .inl ⟨rfl, ?_⟩
    unfold Binding.returnFrom
    split <;> rfl
  | loopControl =>
    refine .inl ⟨rfl, ?_⟩
    unfold Binding.loopControl
    split <;> rfl
  | quiet h => exact .inl ⟨rfl, h.nameScopes⟩

/-- The names that have a scope are those that have been visited, each at its place. -/
private structure Named (a : Arena) (b : Binding) (vs : List Visit) : Prop where
  visited : ∀ n, (b.nameScopes[n]?).isSome = true ↔ n ∈ Visit.nodes .name vs
  scope : ∀ n k, b.nameScopes[n]? = some k →
    ∃ s, b.scopes[k]? = some s ∧ a.definitionAround? n = some s.node

private theorem Visiting.named (h : Visiting a b ws c) (hb : b.Named a vs) :
    c.Named a (vs ++ ws) := by
  have hkept {n : NodeId} {k : ScopeId} (hn : b.nameScopes[n]? = some k) :
      ∃ s, c.scopes[k]? = some s ∧ a.definitionAround? n = some s.node := by
    obtain ⟨s, hs, hdefinition⟩ := hb.scope n k hn
    obtain ⟨s', hs', hnode, -⟩ := h.scope hs
    exact ⟨s', hs', hnode ▸ hdefinition⟩
  obtain ⟨hnone, heq⟩ | ⟨ctx, place, node, hnode, hplace, hctx, heq⟩ := h.nameScopes
  · refine ⟨fun n => ?_, fun n k hn => hkept (heq ▸ hn)⟩
    rw [heq, hb.visited, Visit.nodes_append, hnone, List.append_nil]
  · refine ⟨fun n => ?_, fun n k hn => ?_⟩
    · rw [heq, Std.TreeMap.getElem?_insert, Visit.nodes_append, hnode, List.mem_append,
        List.mem_singleton, ← hb.visited]
      by_cases hn : n = node
      · simp [hn]
      · simp [hn, Ne.symm hn]
    · rw [heq, Std.TreeMap.getElem?_insert] at hn
      split at hn
      · next hsame =>
        obtain rfl : node = n := by simpa using hsame
        obtain rfl : ctx.scope = k := Option.some.inj hn
        obtain ⟨s, hs, hdefinition⟩ := Option.map_eq_some_iff.mp hctx.scope
        obtain ⟨s', hs', hnode', -⟩ := h.scope hs
        exact ⟨s', hs', by rw [Arena.definitionAround?, hplace, hnode', hdefinition, Option.map_some]⟩
      · exact hkept hn

private theorem Visits.named (h : Visits a b ws c) (hb : b.Named a []) : c.Named a ws := by
  induction h with
  | refl => exact hb
  | tail _ hstep ih => exact hstep.named ih

end Binding

/-- **Names are recorded in the right scope.** For every text and every node of its tree: the node has
a scope exactly if it is a name that stands in one, and this is the scope that the innermost
definition around it opens. -/
theorem scopeOfName?_bind (text : String) (n : NodeId)
    (hn : (parse text).tree.arena.Reachable (parse text).tree.root n) :
    let t := (parse text).tree
    (t.bind.scopeOfName? n).isSome = t.arena.isScoped n ∧
      ∀ k, t.bind.scopeOfName? n = some k → ∃ s, t.bind.scopes[k]? = some s ∧
        t.arena.definitionAround? n = some s.node ∧ t.arena.opens? s.node = some s.kind ∧
          t.bind.scopeOfDefinition? s.node = some k := by
  intro t
  obtain ⟨vs, hvisits, hsame, -, hopened⟩ := exists_visits text
  have hempty : t.unbound.Named t.arena [] := ⟨fun n => by simp [Tree.unbound, Binding.openScope],
    fun n k hk => by simp [Tree.unbound, Binding.openScope] at hk⟩
  have hnamed := hvisits.named hempty
  rw [Binding.scopeOfName?, t.nameScopes_bind, t.scopes_bind]
  refine ⟨Bool.eq_iff_iff.mpr ?_, fun k hk => ?_⟩
  · have hvisited := hnamed.visited n
    rw [(hsame.nodes .name).mem_iff, Arena.nodes_visits, List.mem_filter, beq_iff_eq,
      Arena.visitKind?_eq_name, and_iff_right (mem_walk_parse.mpr hn)] at hvisited
    exact hvisited
  · obtain ⟨s, hs, hdefinition⟩ := hnamed.scope n k hk
    refine ⟨s, hs, hdefinition, hopened.kinds k s hs, ?_⟩
    rw [Binding.scopeOfDefinition?, t.definitionScopes_bind]
    exact hopened.definitions k s hs

/-- The default value of a parameter stands outside of the function, in the module. -/
theorem scopeOfName?_bind_default :
    let t := (parse "def f(a=b):\n return a\n").tree
    t.arena.nameText? 2 = some "b" ∧ t.arena.Reachable t.root 2 ∧
      ∃ s, t.bind.scopes[0]? = some s ∧ t.arena.definitionAround? 2 = some s.node ∧
        t.arena.opens? s.node = some s.kind ∧ t.bind.scopeOfDefinition? s.node = some 0 := by
  intro t
  have hrun : t.arena.nameText? 2 = some "b" ∧ 2 ∈ t.arena.walk t.root ∧
      t.bind.scopeOfName? 2 = some 0 := by decide +kernel
  obtain ⟨hname, hwalk, hscope⟩ := hrun
  have hreach : t.arena.Reachable t.root 2 := mem_walk_parse.mp hwalk
  exact ⟨hname, hreach, (scopeOfName?_bind "def f(a=b):\n return a\n" 2 hreach).2 0 hscope⟩

end LiveCheck

/-!
## Conditional declarations

A declaration is conditional if the scope that it belongs to may be run without it. This can be read
off its place in the tree, as long as it belongs to the scope that it stands in.
-/

namespace LiveCheck.Binding

variable {a : Arena} {b c : Binding} {d : Declaration} {vs : List Visit}

private def Flagged (a : Arena) (b : Binding) (d : Declaration) : Prop :=
  d.kind = .instanceAttribute ∧ d.conditional = false ∨
    d.kind ≠ .instanceAttribute ∧ ∃ place k s, a.place? d.node = some place ∧
      b.scopes[k]? = some s ∧ s.node = place.definition ∧
        d.conditional = (d.scope == k && place.isSkippable)

private theorem Flagged.mono (h : Visiting a b vs c) (hd : b.Flagged a d) : c.Flagged a d := by
  refine hd.imp_right fun ⟨hkind, place, k, s, hplace, hs, hnode, hflag⟩ => ?_
  obtain ⟨s', hs', hnode', -⟩ := h.scope hs
  exact ⟨hkind, place, k, s', hplace, hs', hnode'.trans hnode, hflag⟩

private theorem Visiting.flagged_of_mem (h : Visiting a b vs c) (hd : d ∈ c.declarations) :
    d ∈ b.declarations ∨ b.Flagged a d := by
  cases h with
  | use | repetition | openScope => exact .inl hd
  | @declare ctx place kind name node owner span hint origin hplace hctx hkind =>
    have hold := congrArg Binding.declarations (symbolFor_eq b (b.targetScope ctx.scope name)
      (kind == .instanceAttribute) name)
    simp only [addDeclaration, useName, hold, Array.mem_push] at hd
    rcases hd with hd | rfl
    · exact .inl hd
    · obtain ⟨s, hs, hnode⟩ := Option.map_eq_some_iff.mp hctx.scope
      refine .inr (.inr ⟨hkind, place, ctx.scope, s, hplace, hs, hnode, ?_⟩)
      rw [hctx.conditional]
  | declareAttribute ctx scope name node owner span hint hscope =>
    have hold := congrArg Binding.declarations (symbolFor_eq b scope true name)
    simp only [addDeclaration, beq_self_eq_true, hold, Array.mem_push] at hd
    rcases hd with hd | rfl
    · exact .inl hd
    · refine .inr (.inl ⟨rfl, ?_⟩)
      rw [beq_eq_false_iff_ne.mpr hscope, Bool.false_and]
  | returnFrom =>
    unfold Binding.returnFrom at hd
    split at hd <;> exact .inl hd
  | loopControl =>
    unfold Binding.loopControl at hd
    split at hd <;> exact .inl hd
  | quiet h => exact .inl (h.declarations ▸ hd)

private theorem Visits.flagged (h : Visits a b vs c) (hb : ∀ d ∈ b.declarations, b.Flagged a d) :
    ∀ d ∈ c.declarations, c.Flagged a d := by
  induction h with
  | refl => exact hb
  | tail _ hstep ih =>
    intro d hd
    rcases hstep.flagged_of_mem hd with hold | hnew
    · exact (ih d hold).mono hstep
    · exact hnew.mono hstep

/-- **The flag of conditional declarations is exact.** For every text and every declaration that
binding it makes: it is conditional exactly if it is no attribute of an instance, belongs to the scope
of the innermost definition around it, and stands in a branch or loop of this definition. -/
theorem conditional_bind (text : String) :
    let t := (parse text).tree
    ∀ d ∈ t.bind.declarations, d.conditional = true ↔ d.kind ≠ .instanceAttribute ∧
      ∃ place, t.arena.place? d.node = some place ∧
        t.bind.scopeOfDefinition? place.definition = some d.scope ∧ place.isSkippable = true := by
  intro t d hd
  obtain ⟨vs, hvisits, -, -, hopened⟩ : ∃ vs, Visits t.arena t.unbound vs t.walked ∧ _ ∧ _ ∧
    t.walked.Opened t.arena t.root vs := exists_visits text
  clear_value t
  rw [t.bind_eq, declarations_markExports, Array.mem_map] at hd
  obtain ⟨old, hold, rfl⟩ := hd
  have hnone : ∀ d ∈ t.unbound.declarations, t.unbound.Flagged t.arena d := fun d hd =>
    absurd hd (by simp [Tree.unbound, openScope])
  simp only [marked]
  obtain ⟨hkind, hflag⟩ | ⟨hkind, place, k, s, hplace, hs, hnode, hflag⟩ :=
    hvisits.flagged hnone old hold
  · simp [hkind, hflag]
  · have hscope : t.bind.scopeOfDefinition? place.definition = some k := by
      rw [scopeOfDefinition?, t.definitionScopes_bind, ← hnode]
      exact hopened.definitions k s hs
    have hwhere : (∃ place, t.arena.place? old.node = some place ∧
        t.bind.scopeOfDefinition? place.definition = some old.scope ∧ place.isSkippable = true) ↔
        old.scope = k ∧ place.isSkippable = true := by
      simp only [hplace, Option.some.injEq, exists_eq_left', hscope]
      exact and_congr_left' eq_comm
    rw [hwhere, hflag, Bool.and_eq_true, beq_iff_eq, and_iff_right hkind]

/-- What a function declares in a branch of its own is conditional there, `global` or not. -/
def branchText : String :=
  "def f():\n global x\n if y:\n  x = 1\n  z = 2\n"

/-- In a branch, a name of the function and one of the module. -/
theorem conditional_bind_branchText :
    let t := (parse branchText).tree
    (∃ d ∈ t.bind.declarations, d.name = "z" ∧ ∃ place, t.arena.place? d.node = some place ∧
      t.bind.scopeOfDefinition? place.definition = some d.scope ∧ place.isSkippable = true) ∧
      ∃ d ∈ t.bind.declarations, d.name = "x" ∧ ¬ ∃ place, t.arena.place? d.node = some place ∧
        t.bind.scopeOfDefinition? place.definition = some d.scope ∧ place.isSkippable = true := by
  intro t
  let found (name : String) (conditional : Bool) := t.bind.declarations.find? fun d =>
    d.name == name && d.conditional == conditional && d.kind == .variable
  have hdeclared {name : String} {conditional : Bool} (h : (found name conditional).isSome = true) :
      ∃ d ∈ t.bind.declarations, d.name = name ∧ d.conditional = conditional ∧ d.kind = .variable := by
    obtain ⟨d, hd⟩ := Option.isSome_iff_exists.mp h
    have hflags := Array.find?_some hd
    simp only [Bool.and_eq_true, beq_iff_eq] at hflags
    exact ⟨d, Array.mem_of_find?_eq_some hd, hflags.1.1, hflags.1.2, hflags.2⟩
  have hrun : (found "z" true).isSome = true ∧ (found "x" false).isSome = true := by decide +kernel
  obtain ⟨z, hz, hzname, hzflag, -⟩ := hdeclared hrun.1
  obtain ⟨x, hx, hxname, hxflag, hxkind⟩ := hdeclared hrun.2
  refine ⟨⟨z, hz, hzname, ((conditional_bind branchText z hz).mp hzflag).2⟩, x, hx, hxname, fun h => ?_⟩
  have hflag := (conditional_bind branchText x hx).mpr ⟨by rw [hxkind]; decide, h⟩
  rw [hxflag] at hflag
  exact Bool.false_ne_true hflag

end LiveCheck.Binding
