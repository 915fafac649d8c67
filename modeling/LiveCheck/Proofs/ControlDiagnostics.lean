import LiveCheck.Proofs.Scope.Openings

/-!
# Problems with jumps and parameters

Binding reports every `break` and `continue` without a loop around, every `return` without a function
around, and every name of a parameter that an earlier parameter has. All others are in order, and the
`return` statements of a function are kept with its scope.
-/

namespace LiveCheck

namespace Arena

variable {a : Arena} {i d : NodeId}

/-- Whether a statement leaves or repeats a loop, and none of its own definition is around. -/
def isStrayJump (a : Arena) (i : NodeId) : Bool :=
  (a.loopKeyword? i).isSome && !(a.place? i).any (·.isLooped)

/-- Whether a `return` statement is in something else than a function. -/
def isStrayReturn (a : Arena) (i : NodeId) : Bool :=
  a.isReturn i && (a.definitionAround? i).bind a.opens? != some .function

/-- Whether a node is a `return` statement of a definition. -/
def returnsFrom (a : Arena) (d i : NodeId) : Bool := a.isReturn i && a.definitionAround? i == some d

/-- A problem with a node. -/
def finding (a : Arena) (code : Nat) (arg : NodeId → Option String) (i : NodeId) : Finding :=
  ⟨code, a.span i, arg i⟩

private theorem visitKind?_of_isReturn (h : a.isReturn i = true) : a.visitKind? i = some .jump := by
  rw [isReturn] at h
  split at h
  · next hdata => rw [visitKind?, hdata]
  · cases h

private theorem visitKind?_of_loopKeyword? {keyword : String}
    (h : a.loopKeyword? i = some keyword) :
    a.visitKind? i = some .jump ∧ a.isReturn i = false := by
  rw [loopKeyword?] at h
  split at h
  · next hdata => simp only [visitKind?, isReturn, hdata, and_self]
  · next hdata => simp only [visitKind?, isReturn, hdata, and_self]
  · cases h

private theorem visitKind?_of_isStrayJump (i : NodeId) (h : a.isStrayJump i = true) :
    a.visitKind? i = some .jump := by
  rw [isStrayJump, Bool.and_eq_true] at h
  obtain ⟨keyword, hkeyword⟩ := Option.isSome_iff_exists.mp h.1
  exact (visitKind?_of_loopKeyword? hkeyword).1

private theorem visitKind?_of_isStrayReturn (i : NodeId) (h : a.isStrayReturn i = true) :
    a.visitKind? i = some .jump := by
  rw [isStrayReturn, Bool.and_eq_true] at h
  exact visitKind?_of_isReturn h.1

private theorem visitKind?_of_returnsFrom (i : NodeId) (h : a.returnsFrom d i = true) :
    a.visitKind? i = some .jump := by
  rw [returnsFrom, Bool.and_eq_true] at h
  exact visitKind?_of_isReturn h.1

private theorem visitKind?_eq_repetition :
    a.visitKind? i = some .repetition ↔ a.repeatsParameter i = true := by
  have hname (h : a.repeatsParameter i = true) : ∃ atom, a.data? i = some (.name atom) := by
    rw [repeatsParameter] at h
    split at h
    · next hname =>
      rw [nameText?] at hname
      split at hname
      · exact ⟨_, ‹_›⟩
      · cases hname
    · cases h
  constructor
  · intro h
    rw [visitKind?] at h
    split at h <;> try cases h
    split at h
    · assumption
    · split at h <;> cases h
  · intro h
    obtain ⟨atom, hdata⟩ := hname h
    simp only [visitKind?, hdata, h, if_true]

private theorem filter_nodes_visits {kind : VisitKind} {p : NodeId → Bool}
    (h : ∀ i, p i = true → a.visitKind? i = some kind) :
    (Visit.nodes kind (a.visits i)).filter p = (a.walk i).filter p := by
  rw [nodes_visits, List.filter_filter]
  refine List.filter_congr fun n _ => ?_
  cases hp : p n with
  | false => rfl
  | true => simp [h n hp]

end Arena

namespace Binding

variable {a : Arena} {root : NodeId} {b c : Binding} {vs ws : List Visit}

/-! ## Problems -/

private theorem reports_report (b : Binding) (code code' : Nat) (span : Span)
    (arg : Option String) :
    (b.report code span arg).reports code' =
      b.reports code' ++ if code = code' then [⟨code, span, arg⟩] else [] := by
  simp only [reports, report, Array.toList_push, List.filter_append, List.filter_cons,
    List.filter_nil, beq_iff_eq]

/-- The problems of these kinds are those that have been met in the visits. -/
private structure Reported (a : Arena) (b : Binding) (vs : List Visit) : Prop where
  loops : b.reports Code.loopControlOutsideLoop =
    ((Visit.nodes .jump vs).filter a.isStrayJump).map
      (a.finding Code.loopControlOutsideLoop a.loopKeyword?)
  returns : b.reports Code.returnOutsideFunction =
    ((Visit.nodes .jump vs).filter a.isStrayReturn).map
      (a.finding Code.returnOutsideFunction fun _ => none)
  parameters : b.reports Code.duplicateParameter =
    (Visit.nodes .repetition vs).map (a.finding Code.duplicateParameter a.nameText?)

private theorem Reported.congr (hb : b.Reported a vs)
    (hreports : ∀ code ≠ Code.nonlocalAtModuleLevel, c.reports code = b.reports code)
    (hjump : Visit.nodes .jump ws = []) (hrepetition : Visit.nodes .repetition ws = []) :
    c.Reported a (vs ++ ws) where
  loops := by
    rw [hreports _ (by decide), hb.loops, Visit.nodes_append, hjump, List.append_nil]
  returns := by
    rw [hreports _ (by decide), hb.returns, Visit.nodes_append, hjump, List.append_nil]
  parameters := by
    rw [hreports _ (by decide), hb.parameters, Visit.nodes_append, hrepetition, List.append_nil]

private theorem Reported.repetition (hb : b.Reported a vs) (node : NodeId) :
    (b.report Code.duplicateParameter (a.span node) (a.nameText? node)).Reported a
      (vs ++ [⟨.repetition, node⟩]) where
  loops := by
    rw [reports_report, if_neg (by decide), List.append_nil, hb.loops, Visit.nodes_append,
      Visit.nodes_cons_of_ne (by decide), Visit.nodes_nil, List.append_nil]
  returns := by
    rw [reports_report, if_neg (by decide), List.append_nil, hb.returns, Visit.nodes_append,
      Visit.nodes_cons_of_ne (by decide), Visit.nodes_nil, List.append_nil]
  parameters := by
    rw [reports_report, if_pos rfl, hb.parameters, Visit.nodes_append, List.map_append]
    rfl

private theorem Reported.jump (hb : b.Reported a vs) (node : NodeId)
    (hloops : c.reports Code.loopControlOutsideLoop = b.reports Code.loopControlOutsideLoop ++
      ([node].filter a.isStrayJump).map (a.finding Code.loopControlOutsideLoop a.loopKeyword?))
    (hreturns : c.reports Code.returnOutsideFunction = b.reports Code.returnOutsideFunction ++
      ([node].filter a.isStrayReturn).map (a.finding Code.returnOutsideFunction fun _ => none))
    (hparameters : c.reports Code.duplicateParameter = b.reports Code.duplicateParameter) :
    c.Reported a (vs ++ [⟨.jump, node⟩]) where
  loops := by
    rw [hloops, hb.loops, Visit.nodes_append, List.filter_append, List.map_append]
    rfl
  returns := by
    rw [hreturns, hb.returns, Visit.nodes_append, List.filter_append, List.map_append]
    rfl
  parameters := by
    rw [hparameters, hb.parameters, Visit.nodes_append, Visit.nodes_cons_of_ne (by decide),
      Visit.nodes_nil, List.append_nil]

variable {ctx : BindContext} {place : Place} {node : NodeId}

private theorem Reported.returnFrom (hopened : b.Opened a root vs) (hb : b.Reported a vs)
    (hplace : a.place? node = some place) (hctx : ctx.Stands b place) (hreturn : a.isReturn node = true) :
    (b.returnFrom ctx node (a.span node)).Reported a (vs ++ [⟨.jump, node⟩]) := by
  have hloop : a.isStrayJump node = false := by
    cases hkeyword : a.loopKeyword? node with
    | none => rw [Arena.isStrayJump, hkeyword, Option.isSome_none, Bool.false_and]
    | some keyword =>
      rw [(Arena.visitKind?_of_loopKeyword? hkeyword).2] at hreturn
      cases hreturn
  have hstray : a.isStrayReturn node = (b.scopeKind? ctx.scope != some .function) := by
    rw [Arena.isStrayReturn, hreturn, Bool.true_and, Arena.definitionAround?, hplace, Option.map_some,
      Option.bind_some, hopened.opens?_definition hctx]
  unfold Binding.returnFrom
  split
  · next hfunction =>
    have hnone : a.isStrayReturn node = false := by rw [hstray, bne, hfunction, Bool.not_true]
    refine hb.jump node ?_ ?_ rfl
    · rw [List.filter_singleton, hloop]
      exact (List.append_nil _).symm
    · rw [List.filter_singleton, hnone]
      exact (List.append_nil _).symm
  · next hother =>
    have hsome : a.isStrayReturn node = true := by
      rw [hstray, bne, Bool.eq_false_iff.mpr hother, Bool.not_false]
    refine hb.jump node ?_ ?_ ?_
    · rw [reports_report, if_neg (by decide), List.filter_singleton, hloop]
      rfl
    · rw [reports_report, if_pos rfl, List.filter_singleton, hsome]
      rfl
    · rw [reports_report, if_neg (by decide), List.append_nil]

private theorem Reported.loopControl (hb : b.Reported a vs) {keyword : String}
    (hplace : a.place? node = some place) (hctx : ctx.Stands b place)
    (hkeyword : a.loopKeyword? node = some keyword) :
    (b.loopControl ctx (a.span node) keyword).Reported a (vs ++ [⟨.jump, node⟩]) := by
  have hreturn : a.isStrayReturn node = false := by
    rw [Arena.isStrayReturn, (Arena.visitKind?_of_loopKeyword? hkeyword).2, Bool.false_and]
  have hstray : a.isStrayJump node = !ctx.inLoop := by
    rw [Arena.isStrayJump, hkeyword, Option.isSome_some, Bool.true_and, hplace, Option.any_some,
      hctx.inLoop]
  unfold Binding.loopControl
  split
  · next hloop =>
    have hnone : a.isStrayJump node = false := by rw [hstray, hloop, Bool.not_true]
    refine hb.jump node ?_ ?_ rfl
    · simp [hnone]
    · simp [hreturn]
  · next hloop =>
    have hsome : a.isStrayJump node = true := by rw [hstray, Bool.eq_false_iff.mpr hloop, Bool.not_false]
    refine hb.jump node ?_ ?_ ?_
    · rw [reports_report, if_pos rfl, List.filter_singleton, hsome, ← hkeyword]
      rfl
    · rw [reports_report, if_neg (by decide), List.filter_singleton, hreturn]
      rfl
    · rw [reports_report, if_neg (by decide), List.append_nil]

private theorem Visiting.reported (h : Visiting a b ws c) (hopened : b.Opened a root vs)
    (hb : b.Reported a vs) : c.Reported a (vs ++ ws) := by
  cases h with
  | use | openScope => exact hb.congr (fun _ _ => rfl) rfl rfl
  | declare | declareAttribute =>
    exact hb.congr (fun _ _ => by simp [reports, useName]) rfl rfl
  | repetition node => exact hb.repetition node
  | returnFrom node hplace hctx hreturn => exact hb.returnFrom hopened hplace hctx hreturn
  | loopControl node keyword hplace hctx hkeyword => exact hb.loopControl hplace hctx hkeyword
  | quiet h => exact hb.congr h.reports rfl rfl

/-! ## Returns -/

/-- The jumps `is` are in definitions that have a scope, and every function has its own `return`
statements among them. -/
private structure Returned (a : Arena) (b : Binding) (is : List NodeId) : Prop where
  placed : ∀ i ∈ is, ∃ (k : ScopeId) (s : Scope), b.scopes[k]? = some s ∧
    a.definitionAround? i = some s.node
  returns : ∀ (k : ScopeId) (s : Scope), b.scopes[k]? = some s → s.kind = .function →
    s.returns.toList = is.filter (a.returnsFrom s.node)

variable {is : List NodeId}

private theorem Returned.placed_of_visiting (hb : b.Returned a is) (h : Visiting a b ws c) :
    ∀ i ∈ is, ∃ (k : ScopeId) (s : Scope), c.scopes[k]? = some s ∧
      a.definitionAround? i = some s.node := by
  intro i hi
  obtain ⟨k, s, hs, hdefinition⟩ := hb.placed i hi
  obtain ⟨s', hs', hnode, -⟩ := h.scope hs
  exact ⟨k, s', hs', hnode ▸ hdefinition⟩

private theorem Returned.congr (hb : b.Returned a is) (h : Visiting a b ws c)
    (houtlines : c.outlines = b.outlines) : c.Returned a is where
  placed := hb.placed_of_visiting h
  returns k s hs hkind := by
    obtain ⟨s', hs', houtline⟩ := exists_of_outlines houtlines.symm hs
    obtain ⟨hkind', hnode, hreturns⟩ : s'.kind = s.kind ∧ s'.node = s.node ∧ s'.returns = s.returns :=
      ⟨congrArg (·.1) houtline, congrArg (·.2.1) houtline, congrArg (·.2.2) houtline⟩
    rw [← hreturns, ← hnode]
    exact hb.returns k s' hs' (hkind'.trans hkind)

private theorem Returned.openScope {kind : ScopeKind} {parent : Option ScopeId} {node : NodeId}
    (hb : b.Returned a is) (h : Visiting a b ws (b.openScope kind parent node).2)
    (hopened : (b.openScope kind parent node).2.Opened a root vs) :
    (b.openScope kind parent node).2.Returned a is where
  placed := hb.placed_of_visiting h
  returns k s hs hkind := by
    have hnew : (b.openScope kind parent node).2.scopes[b.scopes.size]? =
        some { kind := kind, parent := parent, node := node } := Array.getElem?_push_size
    by_cases hk : k = b.scopes.size
    · subst hk
      obtain rfl := Option.some.inj (hnew.symm.trans hs)
      refine (List.filter_eq_nil_iff.mpr fun i hi hreturn => ?_).symm
      obtain ⟨k', s', hs', hdefinition⟩ := hb.placed i hi
      obtain ⟨r, hr, hnode, -⟩ := h.scope hs'
      rw [Arena.returnsFrom, hdefinition, Bool.and_eq_true, beq_iff_eq] at hreturn
      have heq := hopened.unique hr hnew (hnode.trans (Option.some.inj hreturn.2))
      exact absurd heq (Nat.ne_of_lt (Array.getElem?_eq_some_iff.mp hs').1)
    · rw [Binding.openScope, Array.getElem?_push, if_neg hk] at hs
      exact hb.returns k s hs hkind

private theorem Returned.jump (hb : b.Returned a is) (hopened : b.Opened a root vs)
    (h : Visiting a b ws c)
    (hplace : a.place? node = some place) (hctx : ctx.Stands b place)
    (hothers : ∀ k ≠ ctx.scope, c.scopes[k]? = b.scopes[k]?)
    (hhere : ∀ s s' : Scope, b.scopes[ctx.scope]? = some s → c.scopes[ctx.scope]? = some s' →
      s'.kind = .function → s'.returns.toList = s.returns.toList ++ [node].filter a.isReturn) :
    c.Returned a (is ++ [node]) := by
  obtain ⟨s₀, hs₀, hnode₀⟩ := Option.map_eq_some_iff.mp hctx.scope
  obtain ⟨r, hr, hnode, hkind⟩ := h.scope hs₀
  have hdefinition : a.definitionAround? node = some s₀.node := by
    rw [Arena.definitionAround?, hplace, Option.map_some, hnode₀]
  refine ⟨fun i hi => ?_, fun k s hs hfunction => ?_⟩
  · rcases List.mem_append.mp hi with hi | hi
    · exact hb.placed_of_visiting h i hi
    · rw [List.mem_singleton.mp hi]
      exact ⟨ctx.scope, r, hr, hnode ▸ hdefinition⟩
  · rw [List.filter_append]
    by_cases hk : k = ctx.scope
    · subst hk
      obtain rfl := Option.some.inj (hr.symm.trans hs)
      rw [hhere s₀ r hs₀ hr hfunction, hb.returns _ s₀ hs₀ (hkind ▸ hfunction), hnode]
      refine congrArg _ (List.filter_congr fun i hi => ?_)
      rw [List.mem_singleton.mp hi, Arena.returnsFrom, hdefinition, beq_self_eq_true, Bool.and_true]
    · rw [hothers k hk] at hs
      have hne : s₀.node ≠ s.node := fun heq => hk (hopened.unique hs hs₀ heq.symm)
      have hnone : [node].filter (a.returnsFrom s.node) = [] := by
        simp [Arena.returnsFrom, hdefinition, hne]
      rw [hnone, List.append_nil]
      exact hb.returns k s hs hfunction

private theorem Visiting.returned (h : Visiting a b ws c) (hopened : b.Opened a root vs)
    (hopened' : c.Opened a root (vs ++ ws)) (hb : b.Returned a (Visit.nodes .jump vs)) :
    c.Returned a (Visit.nodes .jump (vs ++ ws)) := by
  rw [Visit.nodes_append]
  have hh := h
  cases h with
  | use | repetition => exact (List.append_nil _).symm ▸ hb.congr hh rfl
  | declare | declareAttribute =>
    exact (List.append_nil _).symm ▸ hb.congr hh (outlines_symbolFor b _ _ _)
  | openScope kind parent node _ => exact (List.append_nil _).symm ▸ hb.openScope hh hopened'
  | @returnFrom ctx place node hplace hctx hreturn =>
    refine hb.jump hopened hh hplace hctx (fun k hk => ?_) fun s s' hs hs' hfunction => ?_
    · unfold Binding.returnFrom
      split
      · rw [modifyScope, Array.getElem?_modify, if_neg (Ne.symm hk)]
      · rfl
    · rw [List.filter_singleton, hreturn]
      unfold Binding.returnFrom at hs'
      split at hs'
      · rw [modifyScope, Array.getElem?_modify, if_pos rfl, hs, Option.map_some] at hs'
        rw [← Option.some.inj hs']
        exact Array.toList_push
      · next hother =>
        obtain rfl := Option.some.inj (hs.symm.trans hs')
        rw [scopeKind?, hs, Option.map_some, hfunction] at hother
        exact absurd rfl hother
  | @loopControl ctx place node keyword hplace hctx hkeyword =>
    have hscopes : (b.loopControl ctx (a.span node) keyword).scopes = b.scopes := by
      unfold Binding.loopControl
      split <;> rfl
    refine hb.jump hopened hh hplace hctx (fun k _ => by rw [hscopes]) fun s s' hs hs' _ => ?_
    rw [hscopes, hs] at hs'
    rw [List.filter_singleton, (Arena.visitKind?_of_loopKeyword? hkeyword).2, ← Option.some.inj hs']
    exact (List.append_nil _).symm
  | quiet h => exact (List.append_nil _).symm ▸ hb.congr hh h.outlines

private theorem Visits.reported (h : Visits a b vs c) (hb : b.Opened a root [])
    (hnodup : (root :: Visit.nodes .opening vs).Nodup) (hreported : b.Reported a [])
    (hreturned : b.Returned a []) : c.Reported a vs ∧ c.Returned a (Visit.nodes .jump vs) :=
  h.induct hb hnodup (motive := fun vs c => c.Reported a vs ∧ c.Returned a (Visit.nodes .jump vs))
    ⟨hreported, hreturned⟩ fun hopened hopened' hstep ⟨hreported, hreturned⟩ =>
      ⟨hstep.reported hopened hreported, hstep.returned hopened hopened' hreturned⟩

end Binding

/-- **Problems with jumps and parameters are reported exactly.** For every text: `break` and `continue`
are reported if no loop of their definition is around, `return` if the definition around it is no
function, and the name of a parameter if an earlier parameter has it; everything is reported once.
With every function are kept its own `return` statements, in the order of the tree. -/
theorem problems_bind (text : String) :
    let t := (parse text).tree
    let nodes := t.arena.walk t.root
    t.bind.reports Code.loopControlOutsideLoop = (nodes.filter t.arena.isStrayJump).map
        (t.arena.finding Code.loopControlOutsideLoop t.arena.loopKeyword?) ∧
      t.bind.reports Code.returnOutsideFunction = (nodes.filter t.arena.isStrayReturn).map
        (t.arena.finding Code.returnOutsideFunction fun _ => none) ∧
      (t.bind.reports Code.duplicateParameter).Perm ((nodes.filter t.arena.repeatsParameter).map
        (t.arena.finding Code.duplicateParameter t.arena.nameText?)) ∧
      ∀ s ∈ t.bind.scopes, s.kind = .function →
        s.returns.toList = nodes.filter (t.arena.returnsFrom s.node) := by
  intro t nodes
  obtain ⟨vs, hvisits, hsame, hnodup, -⟩ := exists_visits text
  have hnone : t.unbound.Returned t.arena [] := by
    refine ⟨nofun, fun k s hs hkind => ?_⟩
    obtain ⟨-, rfl⟩ := Tree.eq_of_unbound hs
    cases hkind
  obtain ⟨⟨hloops, hreturns, hparameters⟩, -, hkept⟩ :=
    hvisits.reported (opened_unbound text) hnodup ⟨rfl, rfl, rfl⟩ hnone
  rw [hsame.jumps] at hloops hreturns hkept
  refine ⟨?_, ?_, ?_, fun s hs hkind => ?_⟩
  · rw [t.reports_bind, hloops, Arena.filter_nodes_visits Arena.visitKind?_of_isStrayJump]
  · rw [t.reports_bind, hreturns, Arena.filter_nodes_visits Arena.visitKind?_of_isStrayReturn]
  · have hrepeats : Visit.nodes .repetition (t.arena.visits t.root) =
        nodes.filter t.arena.repeatsParameter := by
      rw [Arena.nodes_visits]
      refine List.filter_congr fun n _ => Bool.eq_iff_iff.mpr ?_
      rw [beq_iff_eq, Arena.visitKind?_eq_repetition]
    rw [t.reports_bind, hparameters, ← hrepeats]
    exact (hsame.nodes .repetition).map _
  · rw [t.scopes_bind] at hs
    obtain ⟨k, hs⟩ := Array.mem_iff_getElem?.mp hs
    rw [hkept k s hs hkind, Arena.filter_nodes_visits Arena.visitKind?_of_returnsFrom]

/-- The `else` of a loop is not in the loop. -/
def elseText : String :=
  "def f(a, a):\n for x in a:\n  return x\n else:\n  break\n"

/-- Problems behind `else`, and what a function returns. -/
theorem problems_bind_elseText :
    let t := (parse elseText).tree
    (t.bind.reports Code.loopControlOutsideLoop).length = 1 ∧
      (t.bind.reports Code.duplicateParameter).length = 1 ∧
        ∃ s ∈ t.bind.scopes, s.kind = .function ∧ s.returns.size = 1 ∧
          s.returns.toList = (t.arena.walk t.root).filter (t.arena.returnsFrom s.node) := by
  intro t
  have hrun : (t.bind.scopes.find? fun s => s.kind == .function && s.returns.size == 1).isSome = true ∧
      (t.bind.reports Code.loopControlOutsideLoop).length = 1 ∧
        (t.bind.reports Code.duplicateParameter).length = 1 := by decide +kernel
  obtain ⟨hfound, hloops, hparameters⟩ := hrun
  obtain ⟨s, hs⟩ := Option.isSome_iff_exists.mp hfound
  have hfunction := Array.find?_some hs
  simp only [Bool.and_eq_true, beq_iff_eq] at hfunction
  have hmem := Array.mem_of_find?_eq_some hs
  obtain ⟨-, -, -, hreturns⟩ := problems_bind elseText
  exact ⟨hloops, hparameters, s, hmem, hfunction.1, hfunction.2, hreturns s hmem hfunction.1⟩

end LiveCheck
