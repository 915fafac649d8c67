import LiveCheck.Proofs.Scope.Treading

/-!
# The walk visits what it should in statements

The rules for imports and statements, and the whole tree.
-/

namespace LiveCheck.Binding

open Arena

variable {a : Arena} {root i c : NodeId} {ctx : BindContext} {place : Place} {vs : List Visit}
  {f : Binding → Binding} {is path : List NodeId} {data : NodeData} {kind : DeclarationKind}

/-! ## Imports -/

private theorem Treads.importing {f : Nat → Binding → Binding}
    (h : ∀ index, Treads a ctx place vs (f index))
    (record : ImportRecord) :
    Treads a ctx place vs fun b => f b.imports.size (b.addImport record) := by
  have hrecord : Treads a ctx place [] fun b => b.addImport record :=
    .quiet fun b => ⟨rfl, rfl, rfl, rfl, fun _ _ => rfl⟩
  exact fun b => hrecord.then (h b.imports.size) b

section

variable (h : a.Grown root)
include h

private theorem treads_bound (hi : a.Reachable root i) {asname : Option NodeId}
    (hdata : a.data? i = some (.importAlias path asname)) (hplace : a.place? i = some place)
    {node owner : NodeId} {hint : Option NodeId} {origin : Option AliasTarget}
    (hkind : kind ≠ .instanceAttribute) (hnode : (asname.orElse fun _ => path.head?) = some node) :
    Treads a ctx place (a.visits i) fun b => declare a ctx b node kind owner hint origin := by
  have hnodup := h.nodup_children hi hdata
  obtain ⟨hmem, hunscoped, hvisits⟩ : node ∈ path ++ asname.toList ∧
      node ∉ (NodeData.importAlias path asname).unscoped ∧
      (path ++ asname.toList).flatMap a.visits = a.visits node := by
    have hrest (is : List NodeId) (his : (NodeData.importAlias path asname).unscoped = is) :
        is.flatMap a.visits = [] :=
      List.flatMap_eq_nil_iff.mpr fun c hc => h.visits_unscoped hi hdata (his ▸ hc)
    cases asname with
    | some name =>
      obtain rfl := Option.some.inj hnode
      have hpath : name ∉ path := fun hmem =>
        (List.nodup_append.mp hnodup).2.2 name hmem name List.mem_cons_self rfl
      refine ⟨by simp, hpath, ?_⟩
      rw [List.flatMap_append, hrest path rfl]
      exact List.flatMap_singleton ..
    | none =>
      obtain ⟨rest, rfl⟩ := List.head?_eq_some_iff.mp hnode
      have hnode : node ∉ rest := (List.nodup_cons.mp (List.nodup_append.mp hnodup).1).1
      refine ⟨by simp, hnode, ?_⟩
      rw [List.flatMap_append, List.flatMap_cons, hrest rest rfl]
      simp
  have hrole : (Role.plain, node) ∈ (NodeData.importAlias path asname).roles :=
    Role.mem_all.mpr ⟨rfl, hmem⟩
  have hslot : (ChildSlot.name, node) ∈ (NodeData.importAlias path asname).slots :=
    ChildSlot.mem_all.mpr ⟨rfl, hmem⟩
  have hdeclare : Treads a ctx place (a.visits node) fun b =>
      declare a ctx b node kind owner hint origin :=
    treads_declare ((h.place?_plain hi hdata hrole).trans hplace) hkind
      (h.visits_bound hi hdata hslot (by simp [NodeData.roles, NodeData.children]) hunscoped)
  refine hdeclare.children h hi hdata (by simp [visit?, visitKind?, hdata]) ?_
  rw [NodeData.children, hvisits]
  exact .refl _

private theorem visits_malformed (hi : a.Reachable root i) (hdata : a.data? i = some .malformed) :
    a.visits i = [] := by
  rw [h.visits_eq hi hdata, visit?, visitKind?, hdata]
  rfl

private theorem visits_alias (hi : a.Reachable root i) (hsuits : a.Suits .alias i)
    (hdata : ∀ path asname, a.data? i ≠ some (.importAlias path asname)) : a.visits i = [] := by
  obtain ⟨data, hdata', hsuits⟩ := hsuits
  cases data with
  | importAlias path asname => exact absurd hdata' (hdata path asname)
  | malformed => exact visits_malformed h hi hdata'
  | _ => cases hsuits

private theorem treads_importModule (hi : a.Reachable root i) (hsuits : a.Suits .alias i)
    (hplace : a.place? i = some place) :
    Treads a ctx place (a.visits i) fun b => importModule a ctx b i := by
  unfold importModule
  split
  · next path asname hdata =>
    let record : ImportRecord := ⟨a.dottedText path, 0, i, a.span i, [], false⟩
    have hnode (node : NodeId) (dotted : String)
        (hnode : (asname.orElse fun _ => path.head?) = some node) :
        Treads a ctx place (a.visits i) fun b => declare a ctx (b.addImport record) node .moduleAlias i
          none (some ⟨b.imports.size, dotted, 0, none⟩) :=
      .importing (f := fun index b => declare a ctx b node .moduleAlias i none
        (some ⟨index, dotted, 0, none⟩)) (fun _ => treads_bound h hi hdata hplace (by decide) hnode) record
    split
    · exact hnode _ _ rfl
    · exact hnode _ _ rfl
    · have hnone : a.visits i = [] := by
        rw [h.visits_eq hi hdata, visit?, visitKind?, hdata]
        rfl
      rw [hnone]
      exact .quiet fun b => ⟨rfl, rfl, rfl, rfl, fun _ _ => rfl⟩
  · next hdata =>
    rw [visits_alias h hi hsuits hdata]
    exact .stay a ctx place

private theorem treads_importMember (hi : a.Reachable root i) (hsuits : a.Suits .alias i)
    (hplace : a.place? i = some place) (index : Nat) (dotted : String) (level : Nat) :
    Treads a ctx place (a.visits i) fun b => importMember a ctx index dotted level b i := by
  unfold importMember
  split
  · next path asname hdata =>
    cases hnode : asname.orElse fun _ => path.head? with
    | some node => exact treads_bound h hi hdata hplace (by decide) hnode
    | none =>
      have hnone : a.visits i = [] := by
        cases asname with
        | some name => cases hnode
        | none =>
          obtain rfl : path = [] := List.head?_eq_none_iff.mp hnode
          rw [h.visits_eq hi hdata, visit?, visitKind?, hdata]
          rfl
      rw [hnone]
      exact .stay a ctx place
  · next hdata =>
    rw [visits_alias h hi hsuits hdata]
    exact .stay a ctx place

private theorem treads_withItem (hi : a.Reachable root i) (hsuits : a.Suits .item i)
    (hplace : a.place? i = some place) :
    Treads a ctx place (a.visits i) fun b => withItem a ctx b i := by
  unfold withItem
  split
  · next context target hdata =>
    have hcontext : (ChildSlot.expression, context) ∈ (NodeData.withItem context target).slots := .head _
    have hplain {c : NodeId} (hc : c ∈ context :: target.toList) : a.place? c = some place :=
      (h.place?_plain hi hdata (Role.mem_all.mpr ⟨rfl, hc⟩)).trans hplace
    have htarget : Treads a ctx place (target.toList.flatMap a.visits) fun b =>
        target.elim b (Binding.target a ctx i none b) := by
      refine .elim fun c hc => treads_target h ?_ (hplain (by simpa using .inr hc))
      exact h.isExpression hi hdata (by simpa [NodeData.slots, NodeData.children, ChildSlot.mem_all] using .inr hc) (.inl rfl)
    refine ((treads_expression h (h.isExpression hi hdata hcontext (.inl rfl))
      (hplain (.head _))).then htarget).children h hi hdata (by simp [visit?, visitKind?, hdata]) ?_
    exact .refl _
  · next hdata =>
    obtain ⟨data, hdata', hsuits⟩ := hsuits
    cases data with
    | withItem context target => exact absurd hdata' (hdata context target)
    | malformed =>
      rw [visits_malformed h hi hdata']
      exact .stay a ctx place
    | _ => cases hsuits

end

/-! ## Statements -/

private theorem treads_exports {names : Binding → List String} :
    Treads a ctx place [] fun b => { b with exportList := some (names b) } :=
  .quiet fun _ => ⟨rfl, rfl, rfl, rfl, fun _ _ => rfl⟩

private theorem treads_note {f : Scope → Scope} (hf : ∀ s, (f s).outline = s.outline)
    (scope : ScopeId) :
    Treads a ctx place [] fun b => b.modifyScope scope f :=
  .quiet fun _ => ⟨outlines_modify hf scope rfl, rfl, rfl, rfl, fun _ _ => rfl⟩

private theorem treads_nonlocalAtModuleLevel (span : Span) :
    Treads a ctx place [] fun b => b.report Code.nonlocalAtModuleLevel span none := by
  refine .quiet fun b => ⟨rfl, rfl, rfl, rfl, fun code hcode => ?_⟩
  simp [reports, report, Ne.symm hcode]

private theorem expression_below (h : a.Grown root) (hi : a.Reachable root i)
    (hdata : a.data? i = some data) (hplace : a.place? i = some place)
    (hslot : (.expression, c) ∈ data.slots) (hrole : (.plain, c) ∈ data.roles) :
    a.IsExpression root c ∧ a.place? c = some place :=
  ⟨h.isExpression hi hdata hslot (.inl rfl), (h.place?_plain hi hdata hrole).trans hplace⟩

section Simple

variable (h : a.Grown root) (hi : a.Reachable root i) (hplace : a.place? i = some place)
  {value : NodeId} {names : List NodeId}
include h hi

private theorem Treads.row (hf : Treads a ctx place vs f) (hdata : a.data? i = some data)
    (hrow : data.slots = ChildSlot.expression.all data.children) (hown : a.visit? i = none)
    (hperm : vs.Perm (data.children.flatMap a.visits)) : Treads a ctx place (a.visits i) f := by
  refine hf.children h hi hdata hown (.of_perm hperm (h.jumps_children hi hdata fun c hc => ?_))
  exact ⟨.expression, rfl, hrow ▸ ChildSlot.mem_all.mpr ⟨rfl, hc⟩⟩

include hplace

private theorem row_below (hdata : a.data? i = some data)
    (hrow : data.slots = ChildSlot.expression.all data.children ∧ data.roles = Role.plain.all data.children)
    (hc : c ∈ data.children) : a.IsExpression root c ∧ a.place? c = some place :=
  expression_below h hi hdata hplace (hrow.1 ▸ ChildSlot.mem_all.mpr ⟨rfl, hc⟩)
    (hrow.2 ▸ Role.mem_all.mpr ⟨rfl, hc⟩)

private theorem treads_exprStmt {expr : NodeId} (hdata : a.data? i = some (.exprStmt expr)) :
    Treads a ctx place (a.visits i) fun b =>
      if ctx.scope == 0 then (addedExports? a expr).elim (expression a ctx b expr)
        (expression a ctx b expr).extendExports
      else expression a ctx b expr := by
  obtain ⟨hexpr, hat⟩ := row_below h hi hplace hdata ⟨rfl, rfl⟩ List.mem_cons_self
  have hexports : Treads a ctx place [] fun b =>
      if ctx.scope == 0 then (addedExports? a expr).elim b b.extendExports else b := by
    refine .ite ?_ (.stay a ctx place)
    cases addedExports? a expr with
    | none => exact .stay a ctx place
    | some names => exact treads_exports
  exact Treads.row h hi ((treads_expression h hexpr hat).then hexports) hdata rfl
    (by simp [visit?, visitKind?, hdata]) (.refl _)

private theorem treads_assign {targets : List NodeId}
    (hdata : a.data? i = some (.assign targets value)) :
    Treads a ctx place (a.visits i) fun b =>
      if targets.any (isExportList a ctx) then
        { targets.foldl (target a ctx i none) (expression a ctx b value) with
          exportList := some (stringList a value) }
      else targets.foldl (target a ctx i none) (expression a ctx b value) := by
  obtain ⟨hvalue, hat⟩ :=
    row_below h hi hplace hdata ⟨rfl, rfl⟩ (List.mem_append_right targets List.mem_cons_self)
  have htargets : Treads a ctx place (targets.flatMap a.visits) fun b =>
      targets.foldl (target a ctx i none) b := by
    refine .foldl fun c hc => ?_
    obtain ⟨hc, hat⟩ := row_below h hi hplace hdata ⟨rfl, rfl⟩ (List.mem_append_left [value] hc)
    exact treads_target h hc hat
  have hexports : Treads a ctx place [] fun b =>
      if targets.any (isExportList a ctx) then { b with exportList := some (stringList a value) }
      else b := .ite treads_exports (.stay a ctx place)
  refine Treads.row h hi (((treads_expression h hvalue hat).then htargets).then
    hexports) hdata rfl (by simp [visit?, visitKind?, hdata]) ?_
  simp only [NodeData.children, List.flatMap_append, List.flatMap_singleton, List.append_nil]
  exact List.perm_append_comm

private theorem treads_annAssign {place' hint : NodeId} {value : Option NodeId}
    (hdata : a.data? i = some (.annAssign place' hint value)) :
    Treads a ctx place (a.visits i) fun b =>
      target a ctx i (some hint) (optional a ctx (expression a ctx b hint) value) place' := by
  have hbelow {c : NodeId} (hc : c ∈ place' :: hint :: value.toList) :
      a.IsExpression root c ∧ a.place? c = some place :=
    row_below h hi hplace hdata ⟨rfl, rfl⟩ hc
  have hhint : Treads a ctx place (a.visits hint) fun b => expression a ctx b hint :=
    treads_expression h (hbelow (.tail _ (.head _))).1 (hbelow (.tail _ (.head _))).2
  have hvalue : Treads a ctx place (value.toList.flatMap a.visits) fun b => optional a ctx b value :=
    treads_optional h fun c hc => hbelow (.tail _ (.tail _ (Option.mem_toList.mpr hc)))
  have htarget : Treads a ctx place (a.visits place') fun b => target a ctx i (some hint) b place' :=
    treads_target h (hbelow (.head _)).1 (hbelow (.head _)).2
  refine Treads.row h hi ((hhint.then hvalue).then htarget) hdata rfl
    (by simp [visit?, visitKind?, hdata]) ?_
  exact List.perm_append_comm

private theorem treads_augAssign {place' : NodeId} {op : BinaryOp}
    (hdata : a.data? i = some (.augAssign place' op value)) :
    Treads a ctx place (a.visits i) fun b =>
      if (a.nameText? place').isSome then
        if isExportList a ctx place' then
          (declare a ctx (expression a ctx b value) place' .variable i none none).extendExports
            (stringList a value)
        else declare a ctx (expression a ctx b value) place' .variable i none none
      else expression a ctx (expression a ctx b value) place' := by
  have hbelow {c : NodeId} (hc : c ∈ [place', value]) :
      a.IsExpression root c ∧ a.place? c = some place :=
    row_below h hi hplace hdata ⟨rfl, rfl⟩ hc
  obtain ⟨hplace', hat⟩ := hbelow (.head _)
  have hvalue : Treads a ctx place (a.visits value) fun b => expression a ctx b value :=
    treads_expression h (hbelow (.tail _ (.head _))).1 (hbelow (.tail _ (.head _))).2
  have htarget : Treads a ctx place (a.visits place') fun b =>
      if (a.nameText? place').isSome then
        if isExportList a ctx place' then
          (declare a ctx b place' .variable i none none).extendExports (stringList a value)
        else declare a ctx b place' .variable i none none
      else expression a ctx b place' := by
    by_cases hname : (a.nameText? place').isSome = true
    · simp only [hname, if_true]
      have hexports : Treads a ctx place [] fun b =>
          if isExportList a ctx place' then b.extendExports (stringList a value) else b :=
        .ite treads_exports (.stay a ctx place)
      have hdeclare : Treads a ctx place (a.visits place') fun b =>
          declare a ctx b place' .variable i none none := by
        refine treads_declare hat (by decide) ?_
        obtain ⟨atom, hatom⟩ := exists_name (Option.get_mem hname)
        rw [h.visits_eq hplace'.reachable hatom, hplace'.name atom hatom, if_pos hname]
        rfl
      simpa using hdeclare.then hexports
    · simpa [hname] using treads_expression h hplace' hat
  refine Treads.row h hi (hvalue.then htarget) hdata rfl (by simp [visit?, visitKind?, hdata]) ?_
  simpa [NodeData.children] using List.perm_append_comm

private theorem treads_return {value : Option NodeId}
    (hdata : a.data? i = some (.returnStmt value)) :
    Treads a ctx place (a.visits i) fun b => optional a ctx (b.returnFrom ctx i (a.span i)) value := by
  have hvalue : Treads a ctx place (value.toList.flatMap a.visits) fun b => optional a ctx b value :=
    treads_optional h fun c hc =>
      row_below h hi hplace hdata ⟨rfl, rfl⟩ (Option.mem_toList.mpr hc)
  have hreturn : Treads a ctx place [⟨.jump, i⟩] fun b => b.returnFrom ctx i (a.span i) :=
    .step fun b hb => .returnFrom i hplace hb (by rw [isReturn, hdata])
  rw [h.visits_eq hi hdata, visit?, visitKind?, hdata]
  exact hreturn.then hvalue

private theorem treads_loopControl {keyword : String} (hkeyword : a.loopKeyword? i = some keyword) :
    Treads a ctx place (a.visits i) fun b => b.loopControl ctx (a.span i) keyword := by
  have hvisits : a.visits i = [⟨.jump, i⟩] := by
    obtain ⟨data, hdata⟩ := exists_data? (h.lt_size hi)
    rw [loopKeyword?, hdata] at hkeyword
    rw [h.visits_eq hi hdata, visit?, visitKind?, hdata]
    cases data <;> first | rfl | cases hkeyword
  rw [hvisits]
  exact .step fun b hb => .loopControl i keyword hplace hb hkeyword

omit hplace in
private theorem visits_of_unscoped (hdata : a.data? i = some data) (hown : a.visit? i = none)
    (hnames : data.unscoped = data.children) : a.visits i = [] := by
  rw [h.visits_eq hi hdata, hown]
  exact List.flatMap_eq_nil_iff.mpr fun c hc => h.visits_unscoped hi hdata (hnames ▸ hc)

private theorem treads_importStmt (hdata : a.data? i = some (.importStmt names)) :
    Treads a ctx place (a.visits i) fun b => names.foldl (importModule a ctx) b := by
  refine Treads.children (.foldl fun c hc => ?_) h hi hdata (by simp [visit?, visitKind?, hdata])
    (.refl _)
  have hslot : (ChildSlot.alias, c) ∈ (NodeData.importStmt names).slots := ChildSlot.mem_all.mpr ⟨rfl, hc⟩
  exact treads_importModule h (hi.child (mem_children_of_slots hdata hslot)) (h.fits i _ hdata _ hslot)
    ((h.place?_plain hi hdata (Role.mem_all.mpr ⟨rfl, hc⟩)).trans hplace)

private theorem treads_importFrom {level : Nat} {wildcard : Bool}
    (hdata : a.data? i = some (.importFrom path level names wildcard))
    (hsuits : a.Suits .statement i) :
    Treads a ctx place (a.visits i) fun b => importMembers a ctx b i path level names wildcard := by
  have hpath : path.flatMap a.visits = [] :=
    List.flatMap_eq_nil_iff.mpr fun c hc => h.visits_unscoped hi hdata hc
  have hvisits : a.visits i = names.flatMap a.visits := by
    rw [h.visits_eq hi hdata, visit?, visitKind?, hdata]
    simp [NodeData.children, hpath]
  let record : ImportRecord :=
    ⟨a.dottedText path, level, i, a.span i, names.filterMap (importedName? a), wildcard⟩
  rw [hvisits]
  cases wildcard with
  | true =>
    have hnames : names = [] := by simpa [NodeData.suits] using hsuits.of_data? hdata
    rw [hnames]
    exact .quiet fun b => ⟨rfl, rfl, rfl, rfl, fun _ _ => rfl⟩
  | false =>
    refine .importing (f := fun index b =>
      names.foldl (importMember a ctx index (a.dottedText path) level) b) (fun index => ?_) record
    refine .foldl fun c hc => ?_
    have hslot : (ChildSlot.alias, c) ∈ (NodeData.importFrom path level names false).slots := by
      simp [NodeData.slots, ChildSlot.mem_all, hc]
    have hrole : (Role.plain, c) ∈ (NodeData.importFrom path level names false).roles := by
      simp [NodeData.roles, NodeData.children, hc]
    exact treads_importMember h (hi.child (mem_children_of_slots hdata hslot))
      (h.fits i _ hdata _ hslot) ((h.place?_plain hi hdata hrole).trans hplace) index _ level

private theorem treads_simple (hdata : a.data? i = some data) (hsimple : data.isSimple = true) :
    Treads a ctx place (a.visits i) fun b => expression a ctx b i := by
  refine treads_expression h ⟨hi, fun data' hdata' => ?_, fun atom hname => ?_⟩ hplace
  · rw [← Option.some.inj (hdata.symm.trans hdata')]
    exact .inl hsimple
  · rw [Option.some.inj (hdata.symm.trans hname)] at hsimple
    cases hsimple

end Simple

/-! ## Compound statements -/

private def TreadsBelow (a : Arena) (root : NodeId) (fuel : Nat) : Prop :=
  ∀ i < fuel, a.Reachable root i → a.Suits .statement i ∨ a.Suits .handler i →
    ∀ ctx place, a.place? i = some place →
      Treads a ctx place (a.visits i) fun b => statementUpTo a fuel ctx b i

private theorem treads_defined {name : NodeId} (h : a.Grown root) (hi : a.Reachable root i)
    (hplace : a.place? i = some place) (hdata : a.data? i = some data)
    (hkind : kind ≠ .instanceAttribute) (hslot : (.name, name) ∈ data.slots)
    (hrole : (.plain, name) ∈ data.roles) (hunscoped : name ∉ data.unscoped) :
    Treads a ctx place (a.visits name) fun b => declare a ctx b name kind i none none := by
  refine treads_declare ((h.place?_plain hi hdata hrole).trans hplace) hkind
    (h.visits_bound hi hdata hslot (fun hparameter => ?_) hunscoped)
  have heq := (h.role_eq hi hdata hrole).symm.trans (h.role_eq hi hdata hparameter)
  cases heq

private theorem scope_of_receiver? (a : Arena) (ctx : BindContext) (decorators params : List NodeId)
    (b : Binding) : ∀ r ∈ receiver? a ctx b decorators params, r.2 = ctx.scope := by
  intro r hr
  unfold receiver? at hr
  split at hr
  · obtain ⟨name, -, rfl⟩ := Option.map_eq_some_iff.mp hr
    rfl
  · cases hr

section Compound

variable {fuel : Nat} {test place' iter name : NodeId} {body orelse : List NodeId}
  (h : a.Grown root) (ih : TreadsBelow a root fuel) (hi : a.Reachable root i) (hfuel : i < fuel + 1)
  {slot : ChildSlot}
include h ih hi hfuel

private theorem treads_body (ctx : BindContext) (body : List NodeId) (hdata : a.data? i = some data)
    (hslot : slot = .statement ∨ slot = .handler) (hslots : ∀ c ∈ body, (slot, c) ∈ data.slots)
    (hplaces : ∀ c ∈ body, a.place? c = some place) :
    Treads a ctx place (body.flatMap a.visits) fun b => body.foldl (statementUpTo a fuel ctx) b := by
  refine .foldl fun c hc => ?_
  have hchild := mem_children_of_slots hdata (hslots c hc)
  have hsuits := h.fits i data hdata _ (hslots c hc)
  refine ih c (Nat.lt_of_lt_of_le (h.child i hi c hchild).1 (Nat.le_of_lt_succ hfuel))
    (hi.child hchild) ?_ ctx place (hplaces c hc)
  rcases hslot with rfl | rfl
  · exact .inl hsuits
  · exact .inr hsuits

variable (hplace : a.place? i = some place) {decorators : List NodeId}
include hplace

private theorem treads_branch (ctx : BindContext) (body : List NodeId)
    (hdata : a.data? i = some data)
    (hslots : ∀ c ∈ body, (.statement, c) ∈ data.slots)
    (hroles : ∀ c ∈ body, (.branch, c) ∈ data.roles) :
    Treads a ctx place (body.flatMap a.visits) fun b =>
      body.foldl (statementUpTo a fuel ctx.branch) b :=
  .branch (treads_body h ih hi hfuel _ body hdata (.inl rfl) hslots fun c hc =>
    h.place?_branch hi hdata hplace (hroles c hc))

private theorem treads_loop (ctx : BindContext) (body : List NodeId) (hdata : a.data? i = some data)
    (hslots : ∀ c ∈ body, (.statement, c) ∈ data.slots)
    (hroles : ∀ c ∈ body, (.loop, c) ∈ data.roles) :
    Treads a ctx place (body.flatMap a.visits) fun b =>
      body.foldl (statementUpTo a fuel ctx.loop) b :=
  .loop (treads_body h ih hi hfuel _ body hdata (.inl rfl) hslots fun c hc =>
    h.place?_loop hi hdata hplace (hroles c hc))

private theorem treads_plain (ctx : BindContext) (body : List NodeId)
    (hdata : a.data? i = some data)
    (hslot : slot = .statement ∨ slot = .handler) (hslots : ∀ c ∈ body, (slot, c) ∈ data.slots)
    (hroles : ∀ c ∈ body, (.plain, c) ∈ data.roles) :
    Treads a ctx place (body.flatMap a.visits) fun b => body.foldl (statementUpTo a fuel ctx) b :=
  treads_body h ih hi hfuel ctx body hdata hslot hslots fun c hc =>
    (h.place?_plain hi hdata (hroles c hc)).trans hplace

private theorem treads_ifStmt (hdata : a.data? i = some (.ifStmt test body orelse)) :
    Treads a ctx place (a.visits i) fun b =>
      orelse.foldl (statementUpTo a fuel ctx.branch)
        (body.foldl (statementUpTo a fuel ctx.branch) (expression a ctx b test)) := by
  obtain ⟨htest, hat⟩ := expression_below h hi hdata hplace (.head _) (.head _)
  have hbranches {is : List NodeId} (his : ∀ c ∈ is, c ∈ body ++ orelse) :=
    treads_branch h ih hi hfuel hplace ctx is hdata
      (fun c hc => .tail _ (ChildSlot.mem_all.mpr ⟨rfl, his c hc⟩))
      (fun c hc => .tail _ (Role.mem_all.mpr ⟨rfl, his c hc⟩))
  refine (((treads_expression h htest hat).then
    (hbranches fun c hc => List.mem_append_left orelse hc)).then
    (hbranches fun c hc => List.mem_append_right body hc)).children h hi hdata
    (by simp [visit?, visitKind?, hdata]) ?_
  simpa [NodeData.children] using Visit.Same.refl _

private theorem treads_whileLoop (hdata : a.data? i = some (.whileLoop test body orelse)) :
    Treads a ctx place (a.visits i) fun b =>
      orelse.foldl (statementUpTo a fuel ctx.branch)
        (body.foldl (statementUpTo a fuel ctx.loop) (expression a ctx b test)) := by
  obtain ⟨htest, hat⟩ := expression_below h hi hdata hplace (.head _) (.head _)
  have hslots {c : NodeId} (hc : c ∈ body ++ orelse) :
      (ChildSlot.statement, c) ∈ (NodeData.whileLoop test body orelse).slots :=
    .tail _ (ChildSlot.mem_all.mpr ⟨rfl, hc⟩)
  have hbody := treads_loop h ih hi hfuel hplace ctx body hdata
    (fun c hc => hslots (List.mem_append_left orelse hc)) fun c hc => by simp [NodeData.roles, hc]
  have horelse := treads_branch h ih hi hfuel hplace ctx orelse hdata
    (fun c hc => hslots (List.mem_append_right body hc)) fun c hc => by simp [NodeData.roles, hc]
  refine (((treads_expression h htest hat).then hbody).then horelse).children h hi hdata
    (by simp [visit?, visitKind?, hdata]) ?_
  simpa [NodeData.children] using Visit.Same.refl _

private theorem treads_forLoop (hdata : a.data? i = some (.forLoop place' iter body orelse)) :
    Treads a ctx place (a.visits i) fun b =>
      orelse.foldl (statementUpTo a fuel ctx.branch)
        (body.foldl (statementUpTo a fuel ctx.loop)
          (target a ctx.branch i none (expression a ctx b iter) place')) := by
  have hexpression {c : NodeId} (hc : c ∈ [place', iter]) :
      (ChildSlot.expression, c) ∈ (NodeData.forLoop place' iter body orelse).slots :=
    List.mem_append_left _ (ChildSlot.mem_all.mpr ⟨rfl, hc⟩)
  have hslots {c : NodeId} (hc : c ∈ body ++ orelse) :
      (ChildSlot.statement, c) ∈ (NodeData.forLoop place' iter body orelse).slots :=
    List.mem_append_right _ (ChildSlot.mem_all.mpr ⟨rfl, hc⟩)
  obtain ⟨hiter, hat⟩ := expression_below h hi hdata hplace (hexpression (.tail _ (.head _)))
    (by simp [NodeData.roles])
  have htarget : Treads a ctx place (a.visits place') fun b => target a ctx.branch i none b place' :=
    .branch (treads_target h (h.isExpression hi hdata (hexpression (.head _)) (.inl rfl))
      (h.place?_branch hi hdata hplace (by simp [NodeData.roles])))
  have hbody := treads_loop h ih hi hfuel hplace ctx body hdata
    (fun c hc => hslots (List.mem_append_left orelse hc)) fun c hc => by simp [NodeData.roles, hc]
  have horelse := treads_branch h ih hi hfuel hplace ctx orelse hdata
    (fun c hc => hslots (List.mem_append_right body hc)) fun c hc => by simp [NodeData.roles, hc]
  have hhead : Visit.Same (a.visits iter ++ a.visits place') ([place', iter].flatMap a.visits) := by
    refine .of_perm ?_ (h.jumps_children hi hdata fun c hc => ⟨_, rfl, hexpression hc⟩)
    simpa using List.perm_append_comm
  refine ((((treads_expression h hiter hat).then htarget).then hbody).then horelse).children h hi hdata
    (by simp [visit?, visitKind?, hdata]) ?_
  simpa [NodeData.children] using hhead.append (.refl (body.flatMap a.visits ++ orelse.flatMap a.visits))

private theorem treads_tryStmt {handlers finalbody : List NodeId}
    (hdata : a.data? i = some (.tryStmt body handlers orelse finalbody)) :
    Treads a ctx place (a.visits i) fun b =>
      finalbody.foldl (statementUpTo a fuel ctx)
        (orelse.foldl (statementUpTo a fuel ctx.branch)
          (handlers.foldl (statementUpTo a fuel ctx)
            (body.foldl (statementUpTo a fuel ctx.branch) b))) := by
  have hbody := treads_branch h ih hi hfuel hplace ctx body hdata
    (fun c hc => by simp [NodeData.slots, ChildSlot.mem_all, hc]) fun c hc => by simp [NodeData.roles, hc]
  have hhandlers := treads_plain h ih hi hfuel hplace ctx handlers hdata (.inr rfl)
    (fun c hc => by simp [NodeData.slots, ChildSlot.mem_all, hc]) fun c hc => by simp [NodeData.roles, hc]
  have horelse := treads_branch h ih hi hfuel hplace ctx orelse hdata
    (fun c hc => by simp [NodeData.slots, ChildSlot.mem_all, hc]) fun c hc => by simp [NodeData.roles, hc]
  have hfinal := treads_plain h ih hi hfuel hplace ctx finalbody hdata (.inl rfl)
    (fun c hc => by simp [NodeData.slots, ChildSlot.mem_all, hc]) fun c hc => by simp [NodeData.roles, hc]
  refine (((hbody.then hhandlers).then horelse).then hfinal).children h hi hdata
    (by simp [visit?, visitKind?, hdata]) ?_
  simpa [NodeData.children] using Visit.Same.refl _

private theorem treads_handler {type caught : Option NodeId}
    (hdata : a.data? i = some (.handler type caught body)) :
    Treads a ctx place (a.visits i) fun b =>
      body.foldl (statementUpTo a fuel ctx.branch)
        (caught.elim (optional a ctx b type) fun node =>
          declare a ctx.branch (optional a ctx b type) node .variable i none none) := by
  have htype : Treads a ctx place (type.toList.flatMap a.visits) fun b => optional a ctx b type :=
    treads_optional h fun c hc => expression_below h hi hdata hplace
      (by simpa [NodeData.slots, ChildSlot.mem_all] using hc) (by simpa [NodeData.roles] using hc)
  have hcaught : Treads a ctx place (caught.toList.flatMap a.visits) fun b =>
      caught.elim b fun node => declare a ctx.branch b node .variable i none none := by
    refine .branch (.elim fun node hnode => ?_)
    have hrole : (Role.branch, node) ∈ (NodeData.handler type caught body).roles := by
      simp [NodeData.roles, Option.mem_def.mp hnode]
    have hslot : (ChildSlot.name, node) ∈ (NodeData.handler type caught body).slots := by
      simpa [NodeData.slots, ChildSlot.mem_all] using hnode
    exact treads_declare (h.place?_branch hi hdata hplace hrole) (by decide)
      (h.visits_bound hi hdata hslot (by simp [NodeData.roles]) (by simp [NodeData.unscoped]))
  have hbody := treads_branch h ih hi hfuel hplace ctx body hdata
    (fun c hc => by simp [NodeData.slots, ChildSlot.mem_all, hc]) fun c hc => by simp [NodeData.roles, hc]
  refine ((htype.then hcaught).then hbody).children h hi hdata (by simp [visit?, visitKind?, hdata]) ?_
  simpa [NodeData.children] using Visit.Same.refl _

private theorem treads_withStmt {items : List NodeId}
    (hdata : a.data? i = some (.withStmt items body)) :
    Treads a ctx place (a.visits i) fun b =>
      body.foldl (statementUpTo a fuel ctx) (items.foldl (withItem a ctx) b) := by
  have hitems : Treads a ctx place (items.flatMap a.visits) fun b => items.foldl (withItem a ctx) b := by
    refine .foldl fun c hc => ?_
    have hslot : (ChildSlot.item, c) ∈ (NodeData.withStmt items body).slots := by
      simp [NodeData.slots, ChildSlot.mem_all, hc]
    have hrole : (Role.plain, c) ∈ (NodeData.withStmt items body).roles := by
      simp [NodeData.roles, NodeData.children, hc]
    exact treads_withItem h (hi.child (mem_children_of_slots hdata hslot)) (h.fits i _ hdata _ hslot)
      ((h.place?_plain hi hdata hrole).trans hplace)
  have hbody := treads_plain h ih hi hfuel hplace ctx body hdata (.inl rfl)
    (fun c hc => by simp [NodeData.slots, ChildSlot.mem_all, hc])
    fun c hc => by simp [NodeData.roles, NodeData.children, hc]
  refine (hitems.then hbody).children h hi hdata (by simp [visit?, visitKind?, hdata]) ?_
  simpa [NodeData.children] using Visit.Same.refl _

private theorem treads_functionDef {params : List NodeId} {returns : Option NodeId}
    (hdata : a.data? i = some (.functionDef decorators name params returns body)) :
    Treads a ctx place (a.visits i) fun b =>
      let outside := declare a ctx (optional a ctx ((parameterParts a params).foldl (expression a ctx)
        (decorators.foldl (expression a ctx) b)) returns) name .function i none none
      let inner : BindContext :=
        { scope := (outside.openScope .function (some ctx.scope) i).1
          receiver := receiver? a ctx outside decorators params }
      body.foldl (statementUpTo a fuel inner) (declareParameters a inner []
        (outside.openScope .function (some ctx.scope) i).2 params) := by
  have hout {c : NodeId} (hc : c ∈ decorators ++ name :: (params ++ returns.toList)) :
      (Role.plain, c) ∈ (NodeData.functionDef decorators name params returns body).roles :=
    List.mem_append_left _ (Role.mem_all.mpr ⟨rfl, hc⟩)
  have hdecorators : Treads a ctx place (decorators.flatMap a.visits) fun b =>
      decorators.foldl (expression a ctx) b := by
    refine .foldl fun c hc => ?_
    obtain ⟨hc, hat⟩ := expression_below h hi hdata hplace (by simp [NodeData.slots, ChildSlot.mem_all, hc])
      (hout (List.mem_append_left _ hc))
    exact treads_expression h hc hat
  have hparts : Treads a ctx place ((parameterParts a params).flatMap a.visits) fun b =>
      (parameterParts a params).foldl (expression a ctx) b := by
    refine .foldl fun part hpart => ?_
    obtain ⟨hpart, hsame, -⟩ := parameterParts_outside h hi hdata hpart
    exact treads_expression h hpart (hsame.trans hplace)
  have hreturns : Treads a ctx place (returns.toList.flatMap a.visits) fun b => optional a ctx b returns :=
    treads_optional h fun c hc => expression_below h hi hdata hplace
      (by simp [NodeData.slots, ChildSlot.mem_all, Option.mem_def.mp hc])
      (hout (by simp [Option.mem_def.mp hc]))
  have hname : Treads a ctx place (a.visits name) fun b => declare a ctx b name .function i none none :=
    treads_defined h hi hplace hdata (by decide) (by simp [NodeData.slots, ChildSlot.mem_all])
      (hout (by simp)) (by simp [NodeData.unscoped])
  have hkind : a.opens? i = some .function := by rw [opens?, hdata]
  have hinside (scope : ScopeId) (receiver : Option (String × ScopeId)) :
      Treads a { scope := scope, receiver := receiver } ⟨i, []⟩
        ((parameterNames a params).flatMap a.visits ++ body.flatMap a.visits) fun b =>
        body.foldl (statementUpTo a fuel { scope := scope, receiver := receiver })
          (declareParameters a { scope := scope, receiver := receiver } [] b params) :=
    (treads_parameters _ h hi hdata).then (treads_body h ih hi hfuel _ body hdata (.inl rfl)
      (fun c hc => by simp [NodeData.slots, ChildSlot.mem_all, hc])
      fun c hc => h.place?_inside hi hdata (by simp [NodeData.roles, hc]))
  have hinner : Treads a ctx place _ _ := Treads.opening (a := a) hkind
    (receiver? a ctx · decorators params) (scope_of_receiver? a ctx decorators params)
    (f := fun inner b => body.foldl (statementUpTo a fuel inner) (declareParameters a inner [] b params))
    hinside
  refine ((((hdecorators.then hparts).then hreturns).then hname).then hinner).congr ?_
  have hcalm : Visit.nodes .jump
      ((decorators ++ name :: (params ++ returns.toList)).flatMap a.visits) = [] := by
    refine h.jumps_children hi hdata fun c hc => ?_
    rcases List.mem_append.mp hc with hc | hc
    · exact ⟨.expression, rfl, by simp [NodeData.slots, ChildSlot.mem_all, hc]⟩
    rcases List.mem_cons.mp hc with rfl | hc
    · exact ⟨.name, rfl, by simp [NodeData.slots, ChildSlot.mem_all]⟩
    rcases List.mem_append.mp hc with hc | hc
    · exact ⟨.parameter, rfl, by simp [NodeData.slots, ChildSlot.mem_all, hc]⟩
    · exact ⟨.expression, rfl, by simp [NodeData.slots, ChildSlot.mem_all, Option.mem_toList.mp hc]⟩
  have hopening : Visit.Same _ _ := .opening (decorators.flatMap a.visits ++
    (parameterParts a params).flatMap a.visits ++ returns.toList.flatMap a.visits ++ a.visits name)
    ((parameterNames a params).flatMap a.visits) i (List.perm_iff_count.mpr fun v => ?_) hcalm
  · have hsame := hopening.append (.refl (body.flatMap a.visits))
    rw [h.visits_eq hi hdata, visit?, visitKind?, hdata]
    simpa [NodeData.children, NodeData.params] using hsame
  · have hparams := (perm_parameters h hi hdata).count_eq v
    simp only [NodeData.params, List.flatMap_append, List.flatMap_cons, List.count_append] at hparams ⊢
    omega

private theorem treads_classDef {bases : List NodeId}
    (hdata : a.data? i = some (.classDef decorators name bases body)) :
    Treads a ctx place (a.visits i) fun b =>
      let outside := declare a ctx ((decorators ++ bases).foldl (expression a ctx) b) name .classDef i
        none none
      body.foldl (statementUpTo a fuel { scope := (outside.openScope .classBody (some ctx.scope) i).1 })
        (outside.openScope .classBody (some ctx.scope) i).2 := by
  have hexpressions : Treads a ctx place ((decorators ++ bases).flatMap a.visits) fun b =>
      (decorators ++ bases).foldl (expression a ctx) b := by
    refine .foldl fun c hc => ?_
    have hexpression : a.IsExpression root c := by
      rcases List.mem_append.mp hc with hc | hc
      · exact h.isExpression hi hdata (by simp [NodeData.slots, ChildSlot.mem_all, hc]) (.inl rfl)
      · exact h.isExpression hi hdata (by simp [NodeData.slots, ChildSlot.mem_all, hc]) (.inr rfl)
    have hrole : (Role.plain, c) ∈ (NodeData.classDef decorators name bases body).roles := by
      rcases List.mem_append.mp hc with hc | hc <;> simp [NodeData.roles, hc]
    exact treads_expression h hexpression ((h.place?_plain hi hdata hrole).trans hplace)
  have hname : Treads a ctx place (a.visits name) fun b => declare a ctx b name .classDef i none none :=
    treads_defined h hi hplace hdata (by decide) (by simp [NodeData.slots, ChildSlot.mem_all])
      (by simp [NodeData.roles]) (by simp [NodeData.unscoped])
  have hkind : a.opens? i = some .classBody := by rw [opens?, hdata]
  have hinner : Treads a ctx place _ _ := Treads.opening (a := a) hkind (fun _ => none) (fun _ _ hn => by cases hn)
    (f := fun inner b => body.foldl (statementUpTo a fuel inner) b)
    fun scope receiver => treads_body h ih hi hfuel _ body hdata (.inl rfl)
      (fun c hc => by simp [NodeData.slots, ChildSlot.mem_all, hc])
      fun c hc => h.place?_inside hi hdata (by simp [NodeData.roles, hc])
  refine ((hexpressions.then hname).then hinner).congr ?_
  have hcalm : Visit.nodes .jump ((decorators ++ name :: bases).flatMap a.visits) = [] := by
    refine h.jumps_children hi hdata fun c hc => ?_
    rcases List.mem_append.mp hc with hc | hc
    · exact ⟨.expression, rfl, by simp [NodeData.slots, ChildSlot.mem_all, hc]⟩
    rcases List.mem_cons.mp hc with rfl | hc
    · exact ⟨.name, rfl, by simp [NodeData.slots, ChildSlot.mem_all]⟩
    · exact ⟨.argument, rfl, by simp [NodeData.slots, ChildSlot.mem_all, hc]⟩
  have hopening : Visit.Same _ _ := .opening ((decorators ++ bases).flatMap a.visits ++ a.visits name)
    [] i (List.perm_iff_count.mpr fun v => ?_) hcalm
  · have hsame := hopening.append (.refl (body.flatMap a.visits))
    rw [h.visits_eq hi hdata, visit?, visitKind?, hdata]
    simpa [NodeData.children] using hsame
  · simp only [List.flatMap_append, List.flatMap_cons, List.count_append, List.append_nil]
    omega

end Compound

private theorem treads_statementUpTo (h : a.Grown root) (fuel : Nat) : TreadsBelow a root fuel := by
  induction fuel with
  | zero => exact fun i hfuel => absurd hfuel (Nat.not_lt_zero i)
  | succ fuel ih =>
    intro i hfuel hi hsuits ctx place hplace
    obtain ⟨data, hdata⟩ := exists_data? (h.lt_size hi)
    have hform := hsuits.imp (·.of_data? hdata) (·.of_data? hdata)
    unfold statementUpTo
    rw [hdata]
    cases data with
    | exprStmt => exact treads_exprStmt h hi hplace hdata
    | assign => exact treads_assign h hi hplace hdata
    | annAssign => exact treads_annAssign h hi hplace hdata
    | augAssign => exact treads_augAssign h hi hplace hdata
    | pass =>
      rw [h.visits_eq hi hdata, visit?, visitKind?, hdata]
      exact .stay a ctx place
    | breakLoop | continueLoop => exact treads_loopControl h hi hplace (by rw [loopKeyword?, hdata])
    | returnStmt => exact treads_return h hi hplace hdata
    | raiseStmt | assertStmt | deleteStmt => exact treads_simple h hi hplace hdata rfl
    | globalStmt =>
      rw [visits_of_unscoped h hi hdata (by simp [visit?, visitKind?, hdata]) rfl]
      refine treads_note ?_ ctx.scope
      exact fun _ => rfl
    | nonlocalStmt =>
      rw [visits_of_unscoped h hi hdata (by simp [visit?, visitKind?, hdata]) rfl]
      refine .ite (treads_nonlocalAtModuleLevel _) (treads_note ?_ ctx.scope)
      exact fun _ => rfl
    | ifStmt => exact treads_ifStmt h ih hi hfuel hplace hdata
    | whileLoop => exact treads_whileLoop h ih hi hfuel hplace hdata
    | forLoop => exact treads_forLoop h ih hi hfuel hplace hdata
    | tryStmt => exact treads_tryStmt h ih hi hfuel hplace hdata
    | handler => exact treads_handler h ih hi hfuel hplace hdata
    | withStmt => exact treads_withStmt h ih hi hfuel hplace hdata
    | functionDef => exact treads_functionDef h ih hi hfuel hplace hdata
    | classDef => exact treads_classDef h ih hi hfuel hplace hdata
    | importStmt => exact treads_importStmt h hi hplace hdata
    | importFrom =>
      refine treads_importFrom h hi hplace hdata (hsuits.resolve_right fun hsuits => ?_)
      cases hsuits.of_data? hdata
    | malformed =>
      rw [visits_malformed h hi hdata]
      exact .stay a ctx place
    | _ => rcases hform with hform | hform <;> cases hform

end LiveCheck.Binding

/-! ## Whole trees -/

namespace LiveCheck

open Arena

/-- Binding a tree visits each node as the tree says, and the jumps in preorder. -/
theorem Tree.visits {t : Tree} (h : t.arena.Grown t.root) :
    ∃ vs, Binding.Visits t.arena t.unbound vs t.walked ∧ Visit.Same vs (t.arena.visits t.root) := by
  obtain ⟨body, hdata⟩ := h.module
  have hstatements : t.statements = body := by rw [statements, hdata]
  have hctx : BindContext.Stands { scope := 0 } t.unbound ⟨t.root, []⟩ := ⟨rfl, rfl, rfl, nofun⟩
  have hbody : Binding.Treads t.arena { scope := 0 } ⟨t.root, []⟩ (body.flatMap t.arena.visits) fun b =>
      body.foldl (Binding.statementUpTo t.arena t.arena.size { scope := 0 }) b := by
    refine .foldl fun c hc => ?_
    have hslot : (ChildSlot.statement, c) ∈ (NodeData.root body).slots := ChildSlot.mem_all.mpr ⟨rfl, hc⟩
    have hrole : (Role.inside, c) ∈ (NodeData.root body).roles := Role.mem_all.mpr ⟨rfl, hc⟩
    have hreach := Reachable.root.child (mem_children_of_slots hdata hslot)
    exact Binding.treads_statementUpTo h _ c (h.lt_size hreach) hreach
      (.inl (h.fits _ _ hdata _ hslot)) _ _ (h.place?_inside .root hdata hrole)
  have hvisits : t.arena.visits t.root = body.flatMap t.arena.visits := by
    rw [h.visits_eq .root hdata, visit?, visitKind?, hdata]
    rfl
  rw [hvisits, walked, hstatements]
  exact hbody t.unbound hctx

end LiveCheck
