import LiveCheck.Proofs.Scope.Places
import LiveCheck.Proofs.Scope.Walk

/-!
# What binding a tree visits

Binding notes the scope of a name, opens the scope of a definition, follows a jump, or finds that a
parameter has the name of an earlier one. Which nodes are visited in which way can be read off the
tree; that the walk over the tree visits just these, each at its place, is what its rules say.
-/

namespace LiveCheck

/-- What is done about a node. -/
inductive VisitKind
  /-- The scope of a name is noted. -/
  | name
  /-- A definition opens a scope. -/
  | opening
  /-- Something leaves a loop or a function. -/
  | jump
  /-- A parameter has the name of an earlier one. -/
  | repetition
deriving DecidableEq

/-- A node that something is done about. -/
structure Visit where
  kind : VisitKind
  node : NodeId
deriving DecidableEq

variable {α : Type}

namespace Visit

/-- The nodes that are visited in one way. -/
def nodes (kind : VisitKind) (vs : List Visit) : List NodeId :=
  (vs.filter (·.kind == kind)).map (·.node)

variable {kind kind' : VisitKind} {node : NodeId} {vs ws us xs : List Visit}

@[simp] theorem nodes_nil : nodes kind [] = [] := rfl

@[simp] theorem nodes_append : nodes kind (vs ++ ws) = nodes kind vs ++ nodes kind ws := by
  simp [nodes]

@[simp] theorem nodes_cons_self : nodes kind (⟨kind, node⟩ :: vs) = node :: nodes kind vs := by
  simp [nodes]

theorem nodes_cons_of_ne (h : kind' ≠ kind) : nodes kind (⟨kind', node⟩ :: vs) = nodes kind vs := by
  simp [nodes, h]

theorem nodes_flatMap (f : α → List Visit) (xs : List α) :
    nodes kind (xs.flatMap f) = xs.flatMap fun x => nodes kind (f x) := by
  simp only [nodes, List.filter_flatMap, List.map_flatMap]

/-- The same visits, the jumps among them in the same order. -/
structure Same (vs ws : List Visit) : Prop where
  perm : vs.Perm ws
  jumps : nodes .jump vs = nodes .jump ws

theorem Same.refl (vs : List Visit) : Same vs vs := ⟨.refl vs, rfl⟩

private theorem Same.trans (h : Same vs ws) (h' : Same ws us) : Same vs us :=
  ⟨h.perm.trans h'.perm, h.jumps.trans h'.jumps⟩

/-- Where there are no jumps, the order does not matter. -/
theorem Same.of_perm (h : vs.Perm ws) (hcalm : nodes .jump ws = []) : Same vs ws := by
  refine ⟨h, ?_⟩
  have hperm : (nodes .jump vs).Perm (nodes .jump ws) := (h.filter _).map _
  rw [hcalm] at hperm ⊢
  exact hperm.eq_nil

theorem Same.append (h : Same vs ws) (h' : Same us xs) : Same (vs ++ us) (ws ++ xs) :=
  ⟨h.perm.append h'.perm, by rw [nodes_append, nodes_append, h.jumps, h'.jumps]⟩

/-- A definition opens its scope after some of its parts have been visited, and before the others. -/
theorem Same.opening (outside inside : List Visit) (node : NodeId)
    (hperm : (outside ++ inside).Perm vs) (hcalm : nodes .jump vs = []) :
    Same (outside ++ ⟨.opening, node⟩ :: inside) (⟨.opening, node⟩ :: vs) :=
  .of_perm (List.perm_middle.trans (hperm.cons _)) (by rwa [nodes_cons_of_ne (by decide)])

/-- The same visits are visits of the same nodes. -/
theorem Same.nodes (h : Same vs ws) (kind : VisitKind) :
    (nodes kind vs).Perm (nodes kind ws) := (h.perm.filter _).map _

end Visit

namespace Arena

/-- What is done about a node, if anything is. -/
def visitKind? (a : Arena) (i : NodeId) : Option VisitKind :=
  match a.data? i with
  | some (.name _) =>
    if a.repeatsParameter i then some .repetition
    else if a.isScoped i then some .name
    else none
  | some (.functionDef ..) | some (.classDef ..) | some (.lambda ..) => some .opening
  | some (.returnStmt _) | some .breakLoop | some .continueLoop => some .jump
  | _ => none

/-- The visit of a node, if there is one. -/
def visit? (a : Arena) (i : NodeId) : Option Visit := (a.visitKind? i).map (⟨·, i⟩)

/-- The visits of a node and the nodes below it in preorder. -/
def visits (a : Arena) (i : NodeId) : List Visit := (a.walk i).filterMap a.visit?

/-- The kind of scope that a node opens. -/
def opens? (a : Arena) (i : NodeId) : Option ScopeKind :=
  match a.data? i with
  | some (.root _) => some .root
  | some (.functionDef ..) => some .function
  | some (.classDef ..) => some .classBody
  | some (.lambda ..) => some .lambda
  | _ => none

/-- The keyword of a statement that leaves or repeats a loop. -/
def loopKeyword? (a : Arena) (i : NodeId) : Option String :=
  match a.data? i with
  | some .breakLoop => some "break"
  | some .continueLoop => some "continue"
  | _ => none

/-- Whether a node is a `return` statement. -/
def isReturn (a : Arena) (i : NodeId) : Bool :=
  match a.data? i with
  | some (.returnStmt _) => true
  | _ => false

/-- A walk visits each node of a kind in its place. -/
theorem nodes_visits (a : Arena) (i : NodeId) (kind : VisitKind) :
    Visit.nodes kind (a.visits i) = (a.walk i).filter (a.visitKind? · == some kind) := by
  rw [visits]
  induction a.walk i with
  | nil => rfl
  | cons n ns ih =>
    rw [List.filterMap_cons, List.filter_cons, visit?]
    rcases hkind : a.visitKind? n with - | kind'
    · exact ih
    · by_cases heq : kind' = kind
      · subst heq
        simpa using ih
      · simpa [Visit.nodes_cons_of_ne heq, heq] using ih

namespace Grown

variable {a : Arena} {root p : NodeId} {data : NodeData}

private theorem walkUpTo_congr (h : a.Grown root) {fuel fuel' : Nat} (hp : a.Reachable root p)
    (hfuel : p < fuel) (hfuel' : p < fuel') : a.walkUpTo fuel p = a.walkUpTo fuel' p := by
  induction fuel generalizing fuel' p with
  | zero => exact absurd hfuel (Nat.not_lt_zero p)
  | succ fuel ih =>
    obtain ⟨fuel', rfl⟩ := Nat.exists_eq_add_one_of_ne_zero (Nat.ne_zero_of_lt hfuel')
    obtain ⟨data, hdata⟩ := exists_data? (h.lt_size hp)
    simp only [Arena.walkUpTo, hdata]
    refine congrArg (p :: ·) (List.flatMap_congr fun c hc => ?_)
    rw [← children_of_data? hdata] at hc
    have hlt := (h.child p hp c hc).1
    exact ih (hp.child hc) (Nat.lt_of_lt_of_le hlt (Nat.le_of_lt_succ hfuel))
      (Nat.lt_of_lt_of_le hlt (Nat.le_of_lt_succ hfuel'))

/-- The visit of a node comes before those of its children. -/
theorem visits_eq (h : a.Grown root) (hp : a.Reachable root p) (hdata : a.data? p = some data) :
    a.visits p = (a.visit? p).toList ++ data.children.flatMap a.visits := by
  have hlt := h.lt_size hp
  obtain ⟨n, hn⟩ := Nat.exists_eq_add_one_of_ne_zero (Nat.ne_zero_of_lt hlt)
  have hwalk : a.walk p = p :: data.children.flatMap a.walk := by
    rw [walk, hn, Arena.walkUpTo, hdata]
    refine congrArg (p :: ·) (List.flatMap_congr fun c hc => ?_)
    rw [← children_of_data? hdata] at hc
    have hlt' := (h.child p hp c hc).1
    have hle : p ≤ n := Nat.le_of_lt_succ (Nat.lt_of_lt_of_eq hlt hn)
    exact h.walkUpTo_congr (hp.child hc) (Nat.lt_of_lt_of_le hlt' hle) (Nat.lt_trans hlt' hlt)
  rw [visits, hwalk, List.filterMap_cons, List.filterMap_flatMap]
  cases a.visit? p <;> rfl

end Grown
end Arena

/-! ## Steps of the walk -/

/-- The context describes a place. -/
structure BindContext.Stands (ctx : BindContext) (b : Binding) (place : Place) : Prop where
  scope : (b.scopes[ctx.scope]?).map (·.node) = some place.definition
  conditional : ctx.conditional = place.isSkippable
  inLoop : ctx.inLoop = place.isLooped
  receiver : ∀ r ∈ ctx.receiver, r.2 ≠ ctx.scope

/-- What a scope is, and the `return` statements in it. -/
def Scope.outline (s : Scope) : ScopeKind × NodeId × Array NodeId := (s.kind, s.node, s.returns)

namespace Binding

/-- What the scopes are, and the `return` statements in them. -/
def outlines (b : Binding) : Array (ScopeKind × NodeId × Array NodeId) := b.scopes.map Scope.outline

/-- The problems of one kind. -/
def reports (b : Binding) (code : Nat) : List Finding := b.findings.toList.filter (·.code == code)

/-- A step that tells nothing about the places of nodes. -/
structure Quiet (b c : Binding) : Prop where
  outlines : c.outlines = b.outlines
  nameScopes : c.nameScopes = b.nameScopes
  definitionScopes : c.definitionScopes = b.definitionScopes
  declarations : c.declarations = b.declarations
  reports : ∀ code ≠ Code.nonlocalAtModuleLevel, c.reports code = b.reports code

/-- One step of binding, with what it visits. The context is that of the place of the node. -/
inductive Visiting (a : Arena) (b : Binding) : List Visit → Binding → Prop
  | use {ctx : BindContext} {place : Place} (node : NodeId) (hplace : a.place? node = some place)
    (hctx : ctx.Stands b place) : Visiting a b [⟨.name, node⟩] (b.useName ctx node)
  | declare {ctx : BindContext} {place : Place} (kind : DeclarationKind) (name : String)
    (node owner : NodeId) (span : Span) (hint : Option NodeId) (origin : Option AliasTarget)
    (hplace : a.place? node = some place) (hctx : ctx.Stands b place)
    (hkind : kind ≠ .instanceAttribute) :
    Visiting a b [⟨.name, node⟩] ((b.addDeclaration ctx (b.targetScope ctx.scope name) kind name node
      owner span hint origin).useName ctx node)
  | declareAttribute (ctx : BindContext) (scope : ScopeId) (name : String) (node owner : NodeId)
    (span : Span) (hint : Option NodeId) (hscope : scope ≠ ctx.scope) :
    Visiting a b [] (b.addDeclaration ctx scope .instanceAttribute name node owner span hint none)
  | openScope (kind : ScopeKind) (parent : ScopeId) (node : NodeId) (hkind : a.opens? node = some kind) :
    Visiting a b [⟨.opening, node⟩] (b.openScope kind (some parent) node).2
  | repetition (node : NodeId) : Visiting a b [⟨.repetition, node⟩]
      (b.report Code.duplicateParameter (a.span node) (a.nameText? node))
  | returnFrom {ctx : BindContext} {place : Place} (node : NodeId) (hplace : a.place? node = some place)
    (hctx : ctx.Stands b place) (hreturn : a.isReturn node = true) :
    Visiting a b [⟨.jump, node⟩] (b.returnFrom ctx node (a.span node))
  | loopControl {ctx : BindContext} {place : Place} (node : NodeId) (keyword : String)
    (hplace : a.place? node = some place) (hctx : ctx.Stands b place)
    (hkeyword : a.loopKeyword? node = some keyword) :
    Visiting a b [⟨.jump, node⟩] (b.loopControl ctx (a.span node) keyword)
  | quiet {c : Binding} (h : b.Quiet c) : Visiting a b [] c

/-- Some steps of binding, with what they visit. -/
inductive Visits (a : Arena) (b : Binding) : List Visit → Binding → Prop
  | refl : Visits a b [] b
  | tail {vs ws : List Visit} {c d : Binding} (h : Visits a b vs c) (hstep : Visiting a c ws d) :
    Visits a b (vs ++ ws) d

variable {a : Arena} {b c d : Binding} {vs ws : List Visit} {ctx : BindContext} {place : Place}
  {k : ScopeId} {s : Scope}

private theorem Visits.single (h : Visiting a b vs c) : Visits a b vs c := Visits.refl.tail h

private theorem Visits.trans (h : Visits a b vs c) (h' : Visits a c ws d) :
    Visits a b (vs ++ ws) d := by
  induction h' with
  | refl => rwa [List.append_nil]
  | tail _ hstep ih =>
    rw [← List.append_assoc]
    exact ih.tail hstep

/-! ## What stays -/

theorem map_modify {β : Type} {g : Scope → β} {f : Scope → Scope} (hf : ∀ s, g (f s) = g s)
    (scopes : Array Scope) (k : ScopeId) : (scopes.modify k f).map g = scopes.map g := by
  refine Array.ext_getElem? fun j => ?_
  rw [Array.getElem?_map, Array.getElem?_map, Array.getElem?_modify]
  split
  · cases scopes[j]? <;> simp [hf]
  · rfl

theorem outlines_modify {f : Scope → Scope} (hf : ∀ s, (f s).outline = s.outline) (scope : ScopeId)
    (hscopes : c.scopes = b.scopes.modify scope f) : c.outlines = b.outlines := by
  rw [outlines, hscopes, map_modify hf, outlines]

theorem outlines_symbolFor (b : Binding) (scope : ScopeId) (onInstance : Bool) (name : String) :
    (b.symbolFor scope onInstance name).2.outlines = b.outlines := by
  cases h : b.symbolIn? scope onInstance name with
  | some symbol => rw [symbolFor_of_some h]
  | none =>
    rw [symbolFor_of_none h]
    exact outlines_modify (fun s => by cases onInstance <;> rfl) scope rfl

theorem exists_of_outlines (h : c.outlines = b.outlines) (hs : b.scopes[k]? = some s) :
    ∃ s', c.scopes[k]? = some s' ∧ s'.outline = s.outline := by
  have hk : c.outlines[k]? = b.outlines[k]? := by rw [h]
  rw [outlines, outlines, Array.getElem?_map, Array.getElem?_map, hs] at hk
  exact Option.map_eq_some_iff.mp hk

/-- A scope stays what it is. -/
theorem Visiting.scope (h : Visiting a b vs c) (hs : b.scopes[k]? = some s) :
    ∃ s', c.scopes[k]? = some s' ∧ s'.node = s.node ∧ s'.kind = s.kind := by
  have hsame {c : Binding} (h : c.outlines = b.outlines) :
      ∃ s', c.scopes[k]? = some s' ∧ s'.node = s.node ∧ s'.kind = s.kind := by
    obtain ⟨s', hs', heq⟩ := exists_of_outlines h hs
    exact ⟨s', hs', congrArg (·.2.1) heq, congrArg (·.1) heq⟩
  cases h with
  | use | repetition => exact hsame rfl
  | declare | declareAttribute => exact hsame (outlines_symbolFor b _ _ _)
  | openScope kind parent node hkind =>
    have hlt := (Array.getElem?_eq_some_iff.mp hs).1
    exact ⟨s, by rw [Binding.openScope, Array.getElem?_push_lt hlt, ← Array.getElem?_eq_getElem hlt, hs],
      rfl, rfl⟩
  | @returnFrom ctx _ node _ _ _ =>
    unfold Binding.returnFrom
    split
    · simp only [modifyScope, Array.getElem?_modify, hs]
      split
      · exact ⟨_, rfl, rfl, rfl⟩
      · exact ⟨s, rfl, rfl, rfl⟩
    · exact hsame rfl
  | loopControl =>
    unfold Binding.loopControl
    split <;> exact hsame rfl
  | quiet h => exact hsame h.outlines

private theorem Visits.scope (h : Visits a b vs c) (hs : b.scopes[k]? = some s) :
    ∃ s', c.scopes[k]? = some s' ∧ s'.node = s.node ∧ s'.kind = s.kind := by
  induction h with
  | refl => exact ⟨s, hs, rfl, rfl⟩
  | tail _ hstep ih =>
    obtain ⟨s', hs', hnode, hkind⟩ := ih
    obtain ⟨r, hr, hnode', hkind'⟩ := hstep.scope hs'
    exact ⟨r, hr, hnode'.trans hnode, hkind'.trans hkind⟩

private theorem Visits.stands (h : Visits a b vs c) (hctx : ctx.Stands b place) :
    ctx.Stands c place := by
  obtain ⟨s, hs, hnode⟩ := Option.map_eq_some_iff.mp hctx.scope
  obtain ⟨s', hs', hnode', -⟩ := h.scope hs
  exact ⟨by rw [hs', Option.map_some, hnode', hnode], hctx.conditional, hctx.inLoop, hctx.receiver⟩

/-! ## Parts of the walk -/

/-- A part of the walk makes the visits `ws`, whatever was bound before. -/
def Treads (a : Arena) (ctx : BindContext) (place : Place) (ws : List Visit)
    (f : Binding → Binding) : Prop :=
  ∀ b, ctx.Stands b place → ∃ vs, Visits a b vs (f b) ∧ Visit.Same vs ws

variable {f g : Binding → Binding} {is : List NodeId} {node : NodeId} {visits : NodeId → List Visit}

theorem Treads.stay (a : Arena) (ctx : BindContext) (place : Place) :
    Treads a ctx place [] fun b => b :=
  fun _ _ => ⟨[], .refl, .refl []⟩

theorem Treads.step (h : ∀ b, ctx.Stands b place → Visiting a b ws (f b)) : Treads a ctx place ws f :=
  fun b hb => ⟨ws, .single (h b hb), .refl ws⟩

theorem Treads.quiet (h : ∀ b : Binding, b.Quiet (f b)) : Treads a ctx place [] f :=
  .step fun b _ => .quiet (h b)

theorem Treads.then (hf : Treads a ctx place vs f) (hg : Treads a ctx place ws g) :
    Treads a ctx place (vs ++ ws) fun b => g (f b) := by
  intro b hb
  obtain ⟨vs', hvisits, hsame⟩ := hf b hb
  obtain ⟨ws', hvisits', hsame'⟩ := hg (f b) (hvisits.stands hb)
  exact ⟨vs' ++ ws', hvisits.trans hvisits', hsame.append hsame'⟩

theorem Treads.congr (h : Treads a ctx place vs f) (hsame : Visit.Same vs ws) :
    Treads a ctx place ws f := by
  intro b hb
  obtain ⟨us, hvisits, hsame'⟩ := h b hb
  exact ⟨us, hvisits, hsame'.trans hsame⟩

theorem Treads.foldl {f : Binding → NodeId → Binding}
    (h : ∀ i ∈ is, Treads a ctx place (visits i) (f · i)) :
    Treads a ctx place (is.flatMap visits) fun b => is.foldl f b := by
  induction is with
  | nil => exact .stay a ctx place
  | cons i is ih =>
    rw [List.forall_mem_cons] at h
    exact h.1.then (ih h.2)

theorem Treads.elim {f : Binding → NodeId → Binding} {x : Option NodeId}
    (h : ∀ i ∈ x, Treads a ctx place (visits i) (f · i)) :
    Treads a ctx place (x.toList.flatMap visits) fun b => x.elim b (f b) := by
  cases x with
  | none => exact .stay a ctx place
  | some i => simpa using h i rfl

theorem Treads.ite {p : Prop} [Decidable p] (hf : Treads a ctx place vs f)
    (hg : Treads a ctx place vs g) : Treads a ctx place vs fun b => if p then f b else g b := by
  by_cases h : p
  · simpa [h] using hf
  · simpa [h] using hg

theorem Treads.branch (h : Treads a ctx.branch (place.through .branch) vs f) :
    Treads a ctx place vs f :=
  fun b hb => h b ⟨hb.scope, rfl,
    by simpa [Place.isLooped, Place.through, BindContext.branch] using hb.inLoop, hb.receiver⟩

theorem Treads.loop (h : Treads a ctx.loop (place.through .loop) vs f) : Treads a ctx place vs f :=
  fun b hb => h b ⟨hb.scope, rfl, rfl, hb.receiver⟩

/-- A part of the walk in a scope of its own. -/
theorem Treads.opening {kind : ScopeKind} (hkind : a.opens? node = some kind)
    (receiver : Binding → Option (String × ScopeId))
    (hreceiver : ∀ b, ∀ r ∈ receiver b, r.2 = ctx.scope) {f : BindContext → Binding → Binding}
    (h : ∀ scope receiver, Treads a { scope := scope, receiver := receiver } ⟨node, []⟩ vs
      (f { scope := scope, receiver := receiver })) :
    Treads a ctx place (⟨.opening, node⟩ :: vs) fun b =>
      f { scope := (b.openScope kind (some ctx.scope) node).1, receiver := receiver b }
        (b.openScope kind (some ctx.scope) node).2 := by
  intro b hb
  have hstep : Visits a b [⟨.opening, node⟩] (b.openScope kind (some ctx.scope) node).2 :=
    .single (.openScope kind ctx.scope node hkind)
  obtain ⟨s, hs, -⟩ := Option.map_eq_some_iff.mp hb.scope
  have hlt := (Array.getElem?_eq_some_iff.mp hs).1
  have hinner : BindContext.Stands
      { scope := (b.openScope kind (some ctx.scope) node).1, receiver := receiver b }
      (b.openScope kind (some ctx.scope) node).2 ⟨node, []⟩ := by
    refine ⟨by simp [openScope], rfl, rfl, fun r hr => ?_⟩
    rw [hreceiver b r hr]
    exact Nat.ne_of_lt hlt
  obtain ⟨ws, hvisits, hsame⟩ := h _ _ _ hinner
  exact ⟨_, hstep.trans hvisits, (Visit.Same.refl [⟨.opening, node⟩]).append hsame⟩

end Binding
end LiveCheck
