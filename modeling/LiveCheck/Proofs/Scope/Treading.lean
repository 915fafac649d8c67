import LiveCheck.Proofs.Scope.Visits

/-!
# The walk visits what it should

A rule for each part of the walk over a tree: standing at the place of a node, it visits the node and
the nodes below it just as the tree says.
-/

namespace LiveCheck

/-! ## Names and expressions -/

/-- Whether no statement stands in the place. -/
def ChildSlot.isCalm (slot : ChildSlot) : Bool := slot != .statement && slot != .handler

namespace NodeData

variable {data : NodeData} {slot slot' : ChildSlot} {c : NodeId}

/-- Whether all there is to a node is a row of expressions. -/
def isSimple : NodeData → Bool
  | deleteStmt .. | raiseStmt .. | assertStmt .. | constant .. | binary .. | boolean .. | unary ..
  | compare .. | call .. | subscript .. | slice .. | tuple .. | list .. | set .. | dict ..
  | conditional .. | starred .. | malformed => true
  | _ => false

private theorem roles_of_isSimple (h : data.isSimple = true) :
    data.roles = Role.plain.all data.children := by
  cases data <;> first | rfl | cases h

private theorem slots_of_isSimple (h : data.isSimple = true) (hc : (slot, c) ∈ data.slots) :
    slot = .expression ∨ slot = .argument := by
  cases data <;> simp_all [isSimple, slots, ChildSlot.mem_all]
  case call => exact hc.imp (·.1) (·.1)

private theorem isSimple_of_suits
    (h : data.suits .expression = true ∨ data.suits .argument = true) :
    data.isSimple = true ∨ (∃ atom, data = .name atom) ∨ (∃ value attr, data = .member value attr) ∨
      (∃ form key value, data = .argument form key value) ∨ ∃ params body, data = .lambda params body := by
  cases data <;> simp_all [suits, isStatement, isSimple]

private theorem isCalm_of_suits (h : data.suits slot = true) (hslot : slot.isCalm = true)
    (hc : (slot', c) ∈ data.slots) : slot'.isCalm = true := by
  cases slot' <;> first | rfl | skip
  all_goals
    cases data <;> simp_all [slots, suits, isStatement, ChildSlot.mem_all, ChildSlot.isCalm]

private theorem name_slot_of_unscoped (h : c ∈ data.unscoped) :
    (ChildSlot.name, c) ∈ data.slots := by
  cases data <;> simp_all [unscoped, slots, ChildSlot.mem_all]
  case importAlias path asname =>
    split at h
    · exact .inl h
    · exact .inl (List.mem_of_mem_tail h)

private theorem name_slot_of_parameter (h : (Role.parameter, c) ∈ data.roles) :
    (ChildSlot.name, c) ∈ data.slots := by
  cases data <;> simp_all [roles, slots, ChildSlot.mem_all]

private theorem params_place (h : c ∈ data.params) :
    (Role.plain, c) ∈ data.roles ∧ (ChildSlot.parameter, c) ∈ data.slots := by
  cases data <;> simp_all [params, roles, slots, ChildSlot.mem_all]

private theorem params_sublist (data : NodeData) : data.params.Sublist data.children := by
  cases data with
  | functionDef decorators defined params returns body =>
    simp only [NodeData.params, children, List.append_assoc]
    exact ((List.sublist_append_left _ _).cons _).trans (List.sublist_append_right _ _)
  | lambda params body => exact List.sublist_append_left _ _
  | _ => exact List.nil_sublist _

private theorem slot_unique (hnodup : data.children.Nodup) (h : (slot, c) ∈ data.slots)
    (h' : (slot', c) ∈ data.slots) : slot = slot' := by
  rw [← data.map_snd_slots] at hnodup
  exact congrArg Prod.fst (List.inj_on_of_nodup_map hnodup h h' rfl)

end NodeData

namespace Arena

variable {a : Arena} {root p c : NodeId} {data : NodeData} {slot : ChildSlot} {atom : Nat}
  {place : Place}

theorem mem_children_of_slots (hdata : a.data? p = some data) (hc : (slot, c) ∈ data.slots) :
    c ∈ a.children p := by
  rw [children_of_data? hdata, ← NodeData.map_snd_slots]
  exact List.mem_map_of_mem hc

private theorem isSome_nameText? (hdata : a.data? c = some data) :
    (a.nameText? c).isSome = data.isName := by
  rw [nameText?, hdata]
  cases data <;> rfl

theorem exists_name {text : String} (h : a.nameText? c = some text) :
    ∃ atom, a.data? c = some (.name atom) := by
  rw [nameText?] at h
  split at h
  · next atom hdata => exact ⟨atom, hdata⟩
  · cases h

private theorem visit?_of_isSimple (hdata : a.data? p = some data) (h : data.isSimple = true) :
    a.visit? p = none := by
  rw [visit?, visitKind?, hdata]
  cases data <;> first | rfl | cases h

/-- A node that is bound like an expression. If it is a name, it stands in a scope. -/
structure IsExpression (a : Arena) (root i : NodeId) : Prop where
  reachable : a.Reachable root i
  form : ∀ data, a.data? i = some data →
    data.isSimple = true ∨ data.suits .expression = true ∨ data.suits .argument = true
  name : ∀ atom, a.data? i = some (.name atom) → a.visit? i = some ⟨.name, i⟩

namespace Grown

variable (h : a.Grown root) (hp : a.Reachable root p) (hdata : a.data? p = some data)
include h hp hdata

private theorem repeatsParameter_of_role (hc : c ∈ a.children p)
    (hrole : (.parameter, c) ∉ data.roles) :
    a.repeatsParameter c = false := by
  have hne : a.role p c ≠ .parameter := by
    rw [Arena.role, hdata]
    exact fun heq => hrole (NodeData.mem_roles_of_role heq fun hs => by cases hs)
  rw [repeatsParameter, (h.child p hp c hc).2.1]
  rcases a.nameText? c with - | name
  · rfl
  · simp [hne]

private theorem visit?_name (hc : c ∈ a.children p) (hrole : (.parameter, c) ∉ data.roles)
    (hunscoped : c ∉ data.unscoped) (hname : a.data? c = some (.name atom)) :
    a.visit? c = some ⟨.name, c⟩ := by
  have hscoped : a.isScoped c = true := by
    rw [isScoped, h.repeatsParameter_of_role hp hdata hc hrole, isName, hname,
      (h.child p hp c hc).2.1, Option.bind_some, hdata]
    simpa [NodeData.isName] using hunscoped
  simp [visit?, visitKind?, hname, h.repeatsParameter_of_role hp hdata hc hrole, hscoped]

private theorem visit?_unscoped (hc : c ∈ data.unscoped) : a.visit? c = none := by
  have hslot := NodeData.name_slot_of_unscoped hc
  have hchild := mem_children_of_slots hdata hslot
  have hrole : (.parameter, c) ∉ data.roles := by
    intro hrole
    cases data <;> simp_all [NodeData.unscoped, NodeData.roles]
  have hscoped : a.isScoped c = false := by
    rw [isScoped, (h.child p hp c hchild).2.1, Option.bind_some, hdata]
    simp [hc]
  obtain ⟨child, hdata', hsuits⟩ := h.fits p data hdata _ hslot
  simp only [visit?, visitKind?, hdata', h.repeatsParameter_of_role hp hdata hchild hrole, hscoped]
  cases child <;> first | rfl | cases hsuits

theorem isExpression (hc : (slot, c) ∈ data.slots) (hslot : slot = .expression ∨ slot = .argument) :
    a.IsExpression root c := by
  have hchild := mem_children_of_slots hdata hc
  have hnodup := h.nodup_children hp hdata
  have hsuits := h.fits p data hdata _ hc
  have hother : (ChildSlot.name, c) ∉ data.slots := by
    intro hname
    have heq := NodeData.slot_unique hnodup hc hname
    rcases hslot with rfl | rfl <;> cases heq
  refine ⟨hp.child hchild, fun data hdata => .inr ?_,
    fun atom hname => h.visit?_name hp hdata hchild ?_ ?_ hname⟩
  · rcases hslot with rfl | rfl
    · exact .inl (hsuits.of_data? hdata)
    · exact .inr (hsuits.of_data? hdata)
  · exact fun hrole => hother (NodeData.name_slot_of_parameter hrole)
  · exact fun hunscoped => hother (NodeData.name_slot_of_unscoped hunscoped)

end Grown

variable (h : a.Grown root)
include h

private theorem Grown.visits_of_name_slot (hp : a.Reachable root p) (hdata : a.data? p = some data)
    (hc : (.name, c) ∈ data.slots) : a.visits c = (a.visit? c).toList := by
  obtain ⟨child, hdata', hsuits⟩ := h.fits p data hdata _ hc
  rw [h.visits_eq (hp.child (mem_children_of_slots hdata hc)) hdata']
  cases child <;> first | exact List.append_nil _ | cases hsuits

theorem Grown.visits_unscoped (hp : a.Reachable root p) (hdata : a.data? p = some data)
    (hc : c ∈ data.unscoped) : a.visits c = [] := by
  rw [h.visits_of_name_slot hp hdata (NodeData.name_slot_of_unscoped hc),
    h.visit?_unscoped hp hdata hc]
  rfl

private theorem Grown.visits_nameless (hp : a.Reachable root p) (hdata : a.data? p = some data)
    (hc : (.name, c) ∈ data.slots) (hname : a.nameText? c = none) : a.visits c = [] := by
  rw [h.visits_of_name_slot hp hdata hc]
  obtain ⟨child, hdata', hsuits⟩ := h.fits p data hdata _ hc
  cases child with
  | name atom =>
    rw [nameText?, hdata'] at hname
    cases hname
  | malformed =>
    rw [visit?, visitKind?, hdata']
    rfl
  | _ => cases hsuits

/-- What defines or binds a name is visited if it is a name. -/
theorem Grown.visits_bound (hp : a.Reachable root p) (hdata : a.data? p = some data)
    (hc : (.name, c) ∈ data.slots) (hrole : (.parameter, c) ∉ data.roles)
    (hunscoped : c ∉ data.unscoped) :
    a.visits c = if (a.nameText? c).isSome then [⟨.name, c⟩] else [] := by
  rcases hname : a.nameText? c with - | text
  · exact h.visits_nameless hp hdata hc hname
  · obtain ⟨atom, hatom⟩ := exists_name hname
    rw [h.visits_of_name_slot hp hdata hc,
      h.visit?_name hp hdata (mem_children_of_slots hdata hc) hrole hunscoped hatom]
    rfl

private theorem Grown.jumps_visits {i : NodeId} (hi : a.Reachable root i) (hsuits : a.Suits slot i)
    (hslot : slot.isCalm = true) : Visit.nodes .jump (a.visits i) = [] := by
  induction i using Nat.strongRecOn generalizing slot with
  | ind i ih =>
    obtain ⟨data, hdata, hsuits⟩ := hsuits
    have hown : Visit.nodes .jump (a.visit? i).toList = [] := by
      simp only [visit?, visitKind?, hdata]
      cases data <;> try rfl
      case returnStmt | breakLoop | continueLoop =>
        simp_all [NodeData.suits, NodeData.isStatement, ChildSlot.isCalm]
      case name =>
        dsimp only
        split
        · rfl
        · split <;> rfl
    have hbelow (c : NodeId) (hc : c ∈ data.children) : Visit.nodes .jump (a.visits c) = [] := by
      obtain ⟨slot', hc⟩ := NodeData.exists_slot hc
      have hchild := mem_children_of_slots hdata hc
      exact ih c (h.child i hi c hchild).1 (hi.child hchild) (h.fits i data hdata _ hc)
        (NodeData.isCalm_of_suits hsuits hslot hc)
    rw [h.visits_eq hi hdata, Visit.nodes_append, hown, Visit.nodes_flatMap, List.nil_append]
    exact List.flatMap_eq_nil_iff.mpr hbelow

/-- The visits of a row of nodes of which none is a statement. -/
theorem Grown.jumps_children {is : List NodeId} (hp : a.Reachable root p) (hdata : a.data? p = some data)
    (hslots : ∀ c ∈ is, ∃ slot : ChildSlot, slot.isCalm = true ∧ (slot, c) ∈ data.slots) :
    Visit.nodes .jump (is.flatMap a.visits) = [] := by
  rw [Visit.nodes_flatMap]
  refine List.flatMap_eq_nil_iff.mpr fun c hc => ?_
  obtain ⟨slot, hslot, hc⟩ := hslots c hc
  exact h.jumps_visits (hp.child (mem_children_of_slots hdata hc)) (h.fits p data hdata _ hc) hslot

end Arena

namespace Binding

open Arena

variable {a : Arena} {root i node owner : NodeId} {ctx : BindContext} {place : Place}
  {vs : List Visit} {f : Binding → Binding} {is before : List NodeId} {data : NodeData}
  {hint : Option NodeId} {name : String} {fuel : Nat}

/-! ## Names and parameters -/

theorem treads_declare {kind : DeclarationKind} {origin : Option AliasTarget}
    (hplace : a.place? node = some place) (hkind : kind ≠ .instanceAttribute)
    (hvisits : vs = if (a.nameText? node).isSome then [⟨.name, node⟩] else []) :
    Treads a ctx place vs fun b => declare a ctx b node kind owner hint origin := by
  subst hvisits
  unfold declare
  cases a.nameText? node with
  | none => exact .stay a ctx place
  | some name =>
    exact .step fun b hb => .declare kind name node owner _ hint origin hplace hb hkind

/-- A node that is nothing but its children is visited by way of them. -/
theorem Treads.children (hf : Treads a ctx place vs f) (h : a.Grown root) (hi : a.Reachable root i)
    (hdata : a.data? i = some data) (hown : a.visit? i = none)
    (hsame : Visit.Same vs (data.children.flatMap a.visits)) : Treads a ctx place (a.visits i) f := by
  refine hf.congr ?_
  rwa [h.visits_eq hi hdata, hown]

/-- The names of parameters stand beside their annotations and default values. -/
theorem perm_parameters (h : a.Grown root) (hi : a.Reachable root i) (hdata : a.data? i = some data) :
    ((parameterParts a data.params).flatMap a.visits ++
      (parameterNames a data.params).flatMap a.visits).Perm (data.params.flatMap a.visits) := by
  rw [parameterParts, parameterNames, List.flatMap_assoc, List.flatMap_assoc]
  refine (List.flatMap_append_perm data.params _ _).trans (List.Perm.flatMap_left _ fun param hparam => ?_)
  have hslot := (NodeData.params_place hparam).2
  obtain ⟨child, hchild, hsuits⟩ := h.fits i data hdata _ hslot
  have hvisits := h.visits_eq (hi.child (mem_children_of_slots hdata hslot)) hchild
  rw [hvisits, visit?, visitKind?, hchild]
  cases child with
  | parameter form declared hint default =>
    simp only [NodeData.children, List.flatMap_append, List.append_assoc]
    rw [← List.append_assoc]
    exact List.perm_append_comm
  | malformed => exact .refl _
  | _ => cases hsuits

private theorem visits_parameter (h : a.Grown root) (hi : a.Reachable root i)
    (hdata : a.data? i = some data) {after : List NodeId} {param : NodeId} {form : ParameterForm}
    {default : Option NodeId} (hparams : data.params = before ++ param :: after)
    (hparam : a.data? param = some (.parameter form (some node) hint default))
    (hname : a.nameText? node = some name) :
    a.place? node = some ⟨i, []⟩ ∧
      a.visits node = if before.any (a.parameterText? · == some name) then [⟨.repetition, node⟩]
        else [⟨.name, node⟩] := by
  have hmem : param ∈ data.params := hparams ▸ List.mem_append_right _ List.mem_cons_self
  obtain ⟨hplain, hslot⟩ := NodeData.params_place hmem
  have hchild := mem_children_of_slots hdata hslot
  have hreach := hi.child hchild
  have hrole : (Role.parameter, node) ∈ (NodeData.parameter form (some node) hint default).roles := by
    simp [NodeData.roles]
  have hnode := Grown.mem_children_of_roles hparam hrole
  have hbefore : param ∉ before := by
    have hnodup := (h.nodup_children hi hdata).sublist data.params_sublist
    rw [hparams] at hnodup
    exact fun hmem => (List.nodup_append.mp hnodup).2.2 _ hmem _ List.mem_cons_self rfl
  have hearlier : a.earlierParameters param = before := by
    have hall : ∀ p ∈ before, (p != param) = true := fun p hp => bne_iff_ne.mpr fun heq => hbefore (heq ▸ hp)
    rw [earlierParameters, (h.child i hi param hchild).2.1, Option.bind_some, hdata]
    show data.params.takeWhile (· != param) = before
    rw [hparams, List.takeWhile_append_of_pos hall]
    simp
  have hrepeats : a.repeatsParameter node = before.any (a.parameterText? · == some name) := by
    simp only [repeatsParameter, (h.child param hreach node hnode).2.1, hname,
      h.role_eq hreach hparam hrole, hearlier]
    rfl
  refine ⟨?_, ?_⟩
  · obtain ⟨above, habove⟩ := h.exists_ancestors hi
    rw [h.place?_eq hreach hparam hrole, (h.child i hi param hchild).2.2, habove]
    rfl
  · obtain ⟨atom, hatom⟩ := exists_name hname
    have hscoped : a.isScoped node = !before.any (a.parameterText? · == some name) := by
      rw [isScoped, hrepeats, isName, hatom, (h.child param hreach node hnode).2.1, Option.bind_some,
        hparam]
      simp [NodeData.isName, NodeData.unscoped]
    rw [h.visits_of_name_slot hreach hparam (NodeData.name_slot_of_parameter hrole), visit?]
    simp only [visitKind?, hatom, hrepeats, hscoped]
    cases before.any (a.parameterText? · == some name) <;> rfl

private theorem treads_declareParameters (h : a.Grown root) (hi : a.Reachable root i)
    (hdata : a.data? i = some data) {params : List NodeId} {seen : List String}
    (hparams : data.params = before ++ params)
    (hseen : ∀ name, seen.contains name = before.any (a.parameterText? · == some name)) :
    Treads a ctx ⟨i, []⟩ ((parameterNames a params).flatMap a.visits)
      fun b => declareParameters a ctx seen b params := by
  induction params generalizing before seen with
  | nil => exact .stay a ctx _
  | cons param params ih =>
    rw [parameterNames_cons, List.flatMap_append]
    have hparams' : data.params = before ++ [param] ++ params := by simp [hparams]
    have hskip (htext : a.parameterText? param = none)
        (hnone : (parameterNames a [param]).flatMap a.visits = []) :
        Treads a ctx ⟨i, []⟩ ((parameterNames a [param]).flatMap a.visits ++
          (parameterNames a params).flatMap a.visits) fun b => declareParameters a ctx seen b params := by
      rw [hnone]
      refine ih hparams' fun name => ?_
      rw [hseen, List.any_append]
      simp [htext]
    unfold declareParameters
    split
    · next form node hint default hparam =>
      have htext : a.parameterText? param = a.nameText? node := by
        rw [parameterText?, hparam]
        rfl
      have hnames : parameterNames a [param] = [node] := by simp [parameterNames, hparam]
      split
      · next name hname =>
        obtain ⟨hplace, hvisits⟩ := visits_parameter h hi hdata hparams hparam hname
        rw [hnames, List.flatMap_singleton, hvisits, ← hseen]
        split
        · next hrepeated =>
          rw [← hname]
          refine Treads.then (.step fun b _ => .repetition node) (ih hparams' fun other => ?_)
          rw [List.any_append, ← hseen]
          simp only [List.any_cons, List.any_nil, Bool.or_false, htext, hname]
          by_cases heq : name = other
          · rw [← heq, hrepeated, Bool.true_or]
          · simp [heq]
        · refine Treads.then (treads_declare hplace (by decide) (by simp [hname]))
            (ih hparams' fun other => ?_)
          rw [List.any_append, ← hseen]
          simp only [List.contains_cons, List.any_cons, List.any_nil, Bool.or_false, htext, hname]
          rw [Bool.or_comm, BEq.comm (a := other)]
          rfl
      · next hname =>
        refine hskip (htext.trans hname) ?_
        have hslot := (NodeData.params_place (hparams ▸ List.mem_append_right _ List.mem_cons_self :
          param ∈ data.params)).2
        have hreach := hi.child (mem_children_of_slots hdata hslot)
        have hrole : (Role.parameter, node) ∈ (NodeData.parameter form (some node) hint default).roles := by
          simp [NodeData.roles]
        rw [hnames, List.flatMap_singleton]
        exact h.visits_nameless hreach hparam (NodeData.name_slot_of_parameter hrole) hname
    · next hparam =>
      refine hskip ?_ ?_
      · rw [parameterText?]
        split
        · next form declared hint default hdata =>
          cases declared with
          | none => rfl
          | some node => exact absurd hdata (hparam form node hint default)
        · rfl
      · rw [parameterNames, List.flatMap_singleton]
        split
        · next form declared hint default hdata =>
          cases declared with
          | none => rfl
          | some node => exact absurd hdata (hparam form node hint default)
        · rfl

theorem treads_parameters (ctx : BindContext) (h : a.Grown root) (hi : a.Reachable root i)
    (hdata : a.data? i = some data) :
    Treads a ctx ⟨i, []⟩ ((parameterNames a data.params).flatMap a.visits)
      fun b => declareParameters a ctx [] b data.params :=
  treads_declareParameters h hi hdata (List.nil_append data.params).symm fun _ => rfl

/-! ## Expressions and targets -/

/-- The annotations and default values of parameters are expressions outside the definition. -/
theorem parameterParts_outside (h : a.Grown root) (hi : a.Reachable root i)
    (hdata : a.data? i = some data) {part : NodeId} (hpart : part ∈ parameterParts a data.params) :
    a.IsExpression root part ∧ a.place? part = a.place? i ∧ part < i := by
  obtain ⟨param, hparam, hpart⟩ := List.mem_flatMap.mp hpart
  obtain ⟨hplain, hslot⟩ := NodeData.params_place hparam
  have hchild := mem_children_of_slots hdata hslot
  have hreach := hi.child hchild
  split at hpart
  · next form declared hint default hdata' =>
    have hrole : (Role.plain, part) ∈ (NodeData.parameter form declared hint default).roles := by
      simpa [NodeData.roles] using hpart
    have hslot' : (ChildSlot.expression, part) ∈ (NodeData.parameter form declared hint default).slots := by
      simpa [NodeData.slots, ChildSlot.mem_all] using hpart
    refine ⟨h.isExpression hreach hdata' hslot' (.inl rfl), ?_, ?_⟩
    · rw [h.place?_plain hreach hdata' hrole, h.place?_plain hi hdata hplain]
    · exact Nat.lt_trans (h.child param hreach part (mem_children_of_slots hdata' hslot')).1
        (h.child i hi param hchild).1
  · cases hpart

private theorem treads_expressionUpTo (h : a.Grown root) (hi : a.IsExpression root i)
    (hplace : a.place? i = some place) (hfuel : i < fuel) :
    Treads a ctx place (a.visits i) fun b => expressionUpTo a fuel ctx b i := by
  induction fuel generalizing ctx place i with
  | zero => exact absurd hfuel (Nat.not_lt_zero i)
  | succ fuel ih =>
    obtain ⟨data, hdata⟩ := exists_data? (h.lt_size hi.reachable)
    have hbelow {c : NodeId} {slot : ChildSlot} (hc : (slot, c) ∈ data.slots) : c < fuel :=
      Nat.lt_of_lt_of_le (h.child i hi.reachable c (mem_children_of_slots hdata hc)).1
        (Nat.le_of_lt_succ hfuel)
    have hplain {c : NodeId} (hrole : (Role.plain, c) ∈ data.roles) : a.place? c = some place :=
      (h.place?_plain hi.reachable hdata hrole).trans hplace
    have hvisits := h.visits_eq hi.reachable hdata
    unfold expressionUpTo
    rw [hdata]
    split
    · next atom heq =>
      obtain rfl := Option.some.inj heq
      rw [hvisits, hi.name atom hdata]
      exact .step fun b hb => .use i hplace hb
    · next value attr heq =>
      obtain rfl := Option.some.inj heq
      have hattr : a.visits attr = [] :=
        h.visits_unscoped hi.reachable hdata (List.mem_singleton_self attr)
      have hslot : (ChildSlot.expression, value) ∈ (NodeData.member value attr).slots := .head _
      have hvalue : Treads a ctx place (a.visits value) fun b => expressionUpTo a fuel ctx b value :=
        ih (h.isExpression hi.reachable hdata hslot (.inl rfl)) (hplain (.head _)) (hbelow hslot)
      refine hvalue.children h hi.reachable hdata (by simp [visit?, visitKind?, hdata]) ?_
      simpa [NodeData.children, hattr] using Visit.Same.refl _
    · next form key value heq =>
      obtain rfl := Option.some.inj heq
      have hkey : key.toList.flatMap a.visits = [] :=
        List.flatMap_eq_nil_iff.mpr fun name hname => h.visits_unscoped hi.reachable hdata hname
      have hslot : (ChildSlot.expression, value) ∈ (NodeData.argument form key value).slots := by
        simp [NodeData.slots, ChildSlot.mem_all]
      have hvalue : Treads a ctx place (a.visits value) fun b => expressionUpTo a fuel ctx b value :=
        ih (h.isExpression hi.reachable hdata hslot (.inl rfl))
          (hplain (by simp [NodeData.roles, NodeData.children])) (hbelow hslot)
      refine hvalue.children h hi.reachable hdata (by simp [visit?, visitKind?, hdata]) ?_
      simpa [NodeData.children, hkey] using Visit.Same.refl _
    · next params body heq =>
      obtain rfl := Option.some.inj heq
      have hslot : (ChildSlot.expression, body) ∈ (NodeData.lambda params body).slots := by
        simp [NodeData.slots, ChildSlot.mem_all]
      have hparts : Treads a ctx place ((parameterParts a params).flatMap a.visits) fun b =>
          (parameterParts a params).foldl (expressionUpTo a fuel ctx) b := by
        refine .foldl fun part hpart => ?_
        obtain ⟨hexpression, hsame, hlt⟩ := parameterParts_outside h hi.reachable hdata hpart
        exact ih hexpression (hsame.trans hplace) (Nat.lt_of_lt_of_le hlt (Nat.le_of_lt_succ hfuel))
      have hinner : Treads a ctx place
          (⟨.opening, i⟩ :: ((parameterNames a params).flatMap a.visits ++ a.visits body)) fun b =>
          expressionUpTo a fuel { scope := (b.openScope .lambda (some ctx.scope) i).1 }
            (declareParameters a { scope := (b.openScope .lambda (some ctx.scope) i).1 } []
              (b.openScope .lambda (some ctx.scope) i).2 params) body := by
        refine .opening (by rw [opens?, hdata]) (fun _ => none) (fun _ _ hn => by cases hn)
          (f := fun inner b => expressionUpTo a fuel inner (declareParameters a inner [] b params) body)
          fun scope receiver => ?_
        have hparams : Treads a { scope := scope, receiver := receiver } ⟨i, []⟩
            ((parameterNames a params).flatMap a.visits) fun b =>
            declareParameters a { scope := scope, receiver := receiver } [] b params :=
          treads_parameters _ h hi.reachable hdata
        refine hparams.then (ih (h.isExpression hi.reachable hdata hslot (.inl rfl))
          (h.place?_inside hi.reachable hdata (by simp [NodeData.roles])) (hbelow hslot))
      refine (hparts.then hinner).congr ?_
      have hcalm : Visit.nodes .jump (params.flatMap a.visits) = [] :=
        h.jumps_children hi.reachable hdata fun c hc => ⟨.parameter, rfl, (NodeData.params_place hc).2⟩
      have hopening := (Visit.Same.opening _ _ i (perm_parameters h hi.reachable hdata) hcalm).append
        (.refl (a.visits body))
      rw [hvisits, visit?, visitKind?, hdata]
      simpa [NodeData.params, NodeData.children] using hopening
    · next data' hname hmember hargument hlambda heq =>
      obtain rfl := Option.some.inj heq
      have hsimple : data.isSimple = true := by
        rcases (hi.form data hdata).imp_right NodeData.isSimple_of_suits with
          hsimple | hsimple | ⟨_, rfl⟩ | ⟨_, _, rfl⟩ | ⟨_, _, _, rfl⟩ | ⟨_, _, rfl⟩
        · exact hsimple
        · exact hsimple
        · exact (hname _ rfl).elim
        · exact (hmember _ _ rfl).elim
        · exact (hargument _ _ _ rfl).elim
        · exact (hlambda _ _ rfl).elim
      have hall : Treads a ctx place (data.children.flatMap a.visits) fun b =>
          data.children.foldl (expressionUpTo a fuel ctx) b := by
        refine .foldl fun c hc => ?_
        obtain ⟨slot, hslot⟩ := NodeData.exists_slot hc
        have hrole : (Role.plain, c) ∈ data.roles := by
          rw [NodeData.roles_of_isSimple hsimple]
          exact Role.mem_all.mpr ⟨rfl, hc⟩
        exact ih (h.isExpression hi.reachable hdata hslot (NodeData.slots_of_isSimple hsimple hslot))
          (hplain hrole) (hbelow hslot)
      exact hall.children h hi.reachable hdata (visit?_of_isSimple hdata hsimple) (.refl _)
    · next heq => cases heq

theorem treads_expression (h : a.Grown root) (hi : a.IsExpression root i)
    (hplace : a.place? i = some place) :
    Treads a ctx place (a.visits i) fun b => expression a ctx b i :=
  treads_expressionUpTo h hi hplace (h.lt_size hi.reachable)

theorem treads_optional (h : a.Grown root) {x : Option NodeId}
    (hx : ∀ i ∈ x, a.IsExpression root i ∧ a.place? i = some place) :
    Treads a ctx place (x.toList.flatMap a.visits) fun b => optional a ctx b x :=
  .elim fun i hi => treads_expression h (hx i hi).1 (hx i hi).2

private theorem treads_declareAttribute {scope : ScopeId}
    (hreceiver : ctx.receiver = some (name, scope)) :
    Treads a ctx place [] fun b => declareAttribute a ctx scope b node owner hint := by
  unfold declareAttribute
  cases a.nameText? node with
  | none => exact .stay a ctx place
  | some text =>
    exact .step fun b hb =>
      .declareAttribute ctx scope text node owner _ hint (hb.receiver _ hreceiver)

private theorem treads_targetUpTo (h : a.Grown root) (hi : a.IsExpression root i)
    (hplace : a.place? i = some place) (hfuel : i < fuel) :
    Treads a ctx place (a.visits i) fun b => targetUpTo a ctx owner fuel hint b i := by
  induction fuel generalizing hint i with
  | zero => exact absurd hfuel (Nat.not_lt_zero i)
  | succ fuel ih =>
    obtain ⟨data, hdata⟩ := exists_data? (h.lt_size hi.reachable)
    have hall (hsimple : data.isSimple = true) : Treads a ctx place (a.visits i) fun b =>
        data.children.foldl (targetUpTo a ctx owner fuel none) b := by
      refine Treads.children (.foldl fun c hc => ?_) h hi.reachable hdata
        (visit?_of_isSimple hdata hsimple) (.refl _)
      obtain ⟨slot, hslot⟩ := NodeData.exists_slot hc
      have hrole : (Role.plain, c) ∈ data.roles := by
        rw [NodeData.roles_of_isSimple hsimple]
        exact Role.mem_all.mpr ⟨rfl, hc⟩
      have hlt := (h.child i hi.reachable c (mem_children_of_slots hdata hslot)).1
      exact ih (h.isExpression hi.reachable hdata hslot (NodeData.slots_of_isSimple hsimple hslot))
        ((h.place?_plain hi.reachable hdata hrole).trans hplace)
        (Nat.lt_of_lt_of_le hlt (Nat.le_of_lt_succ hfuel))
    unfold targetUpTo
    rw [hdata]
    split
    · next atom heq =>
      obtain rfl := Option.some.inj heq
      refine treads_declare hplace (by decide) ?_
      rw [h.visits_eq hi.reachable hdata, hi.name atom hdata, isSome_nameText? hdata]
      rfl
    · next elts heq =>
      obtain rfl := Option.some.inj heq
      exact hall rfl
    · next elts heq =>
      obtain rfl := Option.some.inj heq
      exact hall rfl
    · next value heq =>
      obtain rfl := Option.some.inj heq
      exact hall rfl
    · next value attr heq =>
      obtain rfl := Option.some.inj heq
      have hattr : a.visits attr = [] :=
        h.visits_unscoped hi.reachable hdata (List.mem_singleton_self attr)
      have hslot : (ChildSlot.expression, value) ∈ (NodeData.member value attr).slots := .head _
      have hvalue : Treads a ctx place (a.visits value) fun b => expression a ctx b value :=
        treads_expression h (h.isExpression hi.reachable hdata hslot (.inl rfl))
          ((h.place?_plain hi.reachable hdata (.head _)).trans hplace)
      have hown : a.visit? i = none := by simp [visit?, visitKind?, hdata]
      have hsame : Visit.Same (a.visits value ++ [])
          ((NodeData.member value attr).children.flatMap a.visits) := by
        simpa [NodeData.children, hattr] using Visit.Same.refl _
      cases hreceiver : ctx.receiver with
      | none => exact (hvalue.then (.stay a ctx place)).children h hi.reachable hdata hown hsame
      | some receiver =>
        have hattribute : Treads a ctx place [] fun b =>
            if a.nameText? value == some receiver.1 then
              declareAttribute a ctx receiver.2 b attr owner hint
            else b :=
          .ite (treads_declareAttribute hreceiver) (.stay a ctx place)
        exact (hvalue.then hattribute).children h hi.reachable hdata hown hsame
    · exact treads_expression h hi hplace
    · next heq => cases heq

theorem treads_target (h : a.Grown root) (hi : a.IsExpression root i)
    (hplace : a.place? i = some place) :
    Treads a ctx place (a.visits i) fun b => target a ctx owner hint b i :=
  treads_targetUpTo h hi hplace (h.lt_size hi.reachable)

end Binding
end LiveCheck
