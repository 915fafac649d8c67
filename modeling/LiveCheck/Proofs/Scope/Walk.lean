import LiveCheck.Proofs.Parsing.Forest
import LiveCheck.Scope.Bind

/-!
# The walk over a tree

Whatever binding a tree does to the tables is a sequence of a few kinds of steps: a problem is
reported, a scope is opened, a name is declared or used, an import or a list of exports is recorded,
or something is noted at a scope. Every scope that a step mentions exists, no other root is opened,
and attributes of instances are declared on classes only. The steps of a part of the walk visit nodes
of its own trees, and none of them twice. What each of these steps keeps is kept by binding as a
whole.
-/

namespace LiveCheck

private def BindContext.Valid (ctx : BindContext) (b : Binding) : Prop :=
  ctx.scope < b.scopes.size ∧ ∀ r ∈ ctx.receiver, b.scopeKind? r.2 = some .classBody

namespace Binding

/-- Records an import. -/
def addImport (b : Binding) (record : ImportRecord) : Binding :=
  { b with
    imports := b.imports.push record
    wildcards := if record.wildcard then b.wildcards.push b.imports.size else b.wildcards }

/-- A note at a scope leaves the names of the scope alone and takes no earlier note back. -/
structure IsNote (f : Scope → Scope) : Prop where
  kind : ∀ s, (f s).kind = s.kind
  parent : ∀ s, (f s).parent = s.parent
  symbols : ∀ s, (f s).symbols = s.symbols
  instanceSymbols : ∀ s, (f s).instanceSymbols = s.instanceSymbols
  globals : ∀ s, ∀ name ∈ s.globals, name ∈ (f s).globals
  nonlocals : ∀ s, ∀ name ∈ s.nonlocals, name ∈ (f s).nonlocals

/-- One step of the walk over a tree, with the nodes of names that it visits. -/
inductive Step (a : Arena) (b : Binding) : List NodeId → Binding → Prop
  | report (code : Nat) (span : Span) (arg : Option String) : Step a b [] (b.report code span arg)
  | openScope (kind : ScopeKind) (parent : ScopeId) (node : NodeId) (hkind : kind ≠ .root)
    (hparent : parent < b.scopes.size) : Step a b [] (b.openScope kind (some parent) node).2
  | declare (ctx : BindContext) (kind : DeclarationKind) (name : String) (node owner : NodeId)
    (span : Span) (hint : Option NodeId) (origin : Option AliasTarget)
    (hscope : ctx.scope < b.scopes.size) (hkind : kind ≠ .instanceAttribute)
    (horigin : ∀ target ∈ origin, ∃ path, target.path = a.dottedText path) :
    Step a b [node] ((b.addDeclaration ctx (b.targetScope ctx.scope name) kind name node owner span
      hint origin).useName ctx node)
  | declareAttribute (ctx : BindContext) (scope : ScopeId) (name : String) (node owner : NodeId)
    (span : Span) (hint : Option NodeId) (hclass : b.scopeKind? scope = some .classBody) :
    Step a b [node] (b.addDeclaration ctx scope .instanceAttribute name node owner span hint none)
  | useName (ctx : BindContext) (node : NodeId) : Step a b [node] (b.useName ctx node)
  | exports (names : List String) : Step a b [] { b with exportList := some names }
  | addImport (record : ImportRecord) (hspan : record.span = a.span record.node)
    (hdotted : ∀ dotted ∈ record.path :: record.names, ∃ path, dotted = a.dottedText path) :
    Step a b [] (b.addImport record)
  | note (scope : ScopeId) (f : Scope → Scope) (hf : IsNote f) : Step a b [] (b.modifyScope scope f)

/-- Some steps of the walk, with the nodes that they visit. -/
inductive Walks (a : Arena) (b : Binding) : List NodeId → Binding → Prop
  | refl : Walks a b [] b
  | tail {ns ms : List NodeId} {c d : Binding} (h : Walks a b ns c) (hstep : Step a c ms d) :
    Walks a b (ns ++ ms) d

variable {a : Arena} {b c d : Binding} {ns ms : List NodeId}

private theorem Walks.single (h : Step a b ns c) : Walks a b ns c := Walks.refl.tail h

private theorem Walks.trans (h : Walks a b ns c) (h' : Walks a c ms d) :
    Walks a b (ns ++ ms) d := by
  induction h' with
  | refl => rwa [List.append_nil]
  | tail _ hstep ih =>
    rw [← List.append_assoc]
    exact ih.tail hstep

/-- A property that every step of the walk keeps is kept by the walk. -/
theorem Walks.induct {P : Binding → Prop} (hP : ∀ b ns c, Step a b ns c → P b → P c)
    (h : Walks a b ns c) (hb : P b) : P c := by
  induction h with
  | refl => exact hb
  | tail _ hstep ih => exact hP _ _ _ hstep ih

/-! ## Scopes stay -/

variable {scope other : ScopeId} {kind : ScopeKind} {onInstance : Bool} {name : String}

private theorem scopeKind?_eq_some :
    b.scopeKind? other = some kind ↔ ∃ s, b.scopes[other]? = some s ∧ s.kind = kind :=
  Option.map_eq_some_iff

/-- A scope with a kind exists. -/
theorem lt_size_of_scopeKind? (h : b.scopeKind? other = some kind) : other < b.scopes.size := by
  obtain ⟨s, hs, -⟩ := scopeKind?_eq_some.mp h
  exact (Array.getElem?_eq_some_iff.mp hs).1

theorem scopeKind?_modify {scopes : Array Scope} {f : Scope → Scope} (hf : ∀ s, (f s).kind = s.kind)
    (hscopes : c.scopes = scopes.modify scope f) :
    c.scopeKind? other = (scopes[other]?).map (·.kind) := by
  rw [scopeKind?, hscopes, Array.getElem?_modify]
  split
  · cases scopes[other]? <;> simp [hf]
  · rfl

/-- A scope with one more name. -/
def withSymbol (onInstance : Bool) (name : String) (symbol : SymbolId) (s : Scope) : Scope :=
  if onInstance then { s with instanceSymbols := s.instanceSymbols.push (name, symbol) }
  else { s with symbols := s.symbols.push (name, symbol) }

/-- The symbol of a name in a scope or, on instances, in a class. -/
def symbolIn? (b : Binding) (scope : ScopeId) (onInstance : Bool) (name : String) :
    Option SymbolId :=
  if onInstance then b.instance? scope name else b.local? scope name

/-- A symbol that is there is taken. -/
theorem symbolFor_of_some {symbol : SymbolId} (h : b.symbolIn? scope onInstance name = some symbol)
    :
    b.symbolFor scope onInstance name = (symbol, b) := by
  rw [symbolIn?] at h
  simp only [symbolFor, h]

/-- A symbol that is not there is made. -/
theorem symbolFor_of_none (h : b.symbolIn? scope onInstance name = none) :
    b.symbolFor scope onInstance name =
      (b.symbols.size, { b with
        symbols := b.symbols.push ⟨name, scope, []⟩
        scopes := b.scopes.modify scope (withSymbol onInstance name b.symbols.size) }) := by
  rw [symbolIn?] at h
  simp only [symbolFor, h]
  rfl

/-- Making a symbol changes the symbols and the scopes only. -/
theorem symbolFor_eq (b : Binding) (scope : ScopeId) (onInstance : Bool) (name : String) :
    (b.symbolFor scope onInstance name).2 = { b with
      symbols := (b.symbolFor scope onInstance name).2.symbols
      scopes := (b.symbolFor scope onInstance name).2.scopes } := by
  cases h : b.symbolIn? scope onInstance name with
  | some symbol => rw [symbolFor_of_some h]
  | none => rw [symbolFor_of_none h]

theorem kind_withSymbol (onInstance : Bool) (name : String) (symbol : SymbolId) (s : Scope) :
    (withSymbol onInstance name symbol s).kind = s.kind := by
  cases onInstance <;> rfl

theorem scopeKind?_symbolFor (b : Binding) (scope : ScopeId) (onInstance : Bool) (name : String)
    (other : ScopeId) : (b.symbolFor scope onInstance name).2.scopeKind? other = b.scopeKind? other := by
  cases h : b.symbolIn? scope onInstance name with
  | some symbol => rw [symbolFor_of_some h]
  | none =>
    rw [symbolFor_of_none h]
    exact scopeKind?_modify (kind_withSymbol onInstance name _) rfl

/-- Names are declared in scopes that exist. -/
theorem targetScope_lt (h : scope < b.scopes.size) (name : String) :
    b.targetScope scope name < b.scopes.size := by
  unfold targetScope
  split
  · exact h
  · split
    · exact Nat.zero_lt_of_lt h
    · split
      · next here _ _ _ =>
        dsimp only
        cases hfound : (here.parent.elim [] b.enclosing).find? fun other =>
            b.scopeKind? other == some .function && (b.local? other name).isSome with
        | none => exact h
        | some other =>
          have hkind := List.find?_some hfound
          rw [Bool.and_eq_true, beq_iff_eq] at hkind
          exact lt_size_of_scopeKind? hkind.1
      · exact h

private theorem Step.scopeKind? (h : Step a b ns c) (hid : b.scopeKind? other = some kind) :
    c.scopeKind? other = some kind := by
  cases h with
  | openScope kind' parent node hkind hparent =>
    have hlt := lt_size_of_scopeKind? hid
    rw [Binding.scopeKind?, Binding.openScope, Array.getElem?_push_lt hlt,
      ← Array.getElem?_eq_getElem hlt]
    exact hid
  | declare ctx kind' name node owner span hint origin hscope hkind =>
    exact (scopeKind?_symbolFor b (b.targetScope ctx.scope name) _ name other).trans hid
  | declareAttribute ctx scope name node owner span hint hclass =>
    exact (scopeKind?_symbolFor b scope _ name other).trans hid
  | note scope f hf => exact (scopeKind?_modify hf.kind rfl).trans hid
  | report code span arg => exact hid
  | useName ctx node => exact hid
  | exports names => exact hid
  | addImport record => exact hid

private theorem Walks.scopeKind? (h : Walks a b ns c) (hid : b.scopeKind? other = some kind) :
    c.scopeKind? other = some kind :=
  h.induct (P := fun c => c.scopeKind? other = some kind) (fun _ _ _ hstep => hstep.scopeKind?) hid

/-! ## Parts of the walk -/

variable {ctx : BindContext} {id : NodeId} {is js : List NodeId}

private theorem scopeKind?_of_lt (h : other < b.scopes.size) :
    ∃ kind, b.scopeKind? other = some kind :=
  ⟨b.scopes[other].kind, by rw [scopeKind?, Array.getElem?_eq_getElem h]; rfl⟩

private theorem Walks.valid (h : Walks a b ns c) (hctx : ctx.Valid b) : ctx.Valid c := by
  obtain ⟨hscope, hreceiver⟩ := hctx
  obtain ⟨kind, hkind⟩ := scopeKind?_of_lt hscope
  exact ⟨lt_size_of_scopeKind? (h.scopeKind? hkind), fun r hr => h.scopeKind? (hreceiver r hr)⟩

private def Walking (a : Arena) (ctx : BindContext) (is : List NodeId) (f : Binding → Binding) :
    Prop :=
  ∀ b, ctx.Valid b → ∃ ms, Walks a b ms (f b) ∧ ∀ ns, a.Forest is ns → ms.Subperm ns

variable {f g : Binding → Binding} {owner : NodeId} {hint : Option NodeId}

private theorem Walking.quiet (is : List NodeId) (h : ∀ b, ctx.Valid b → Walks a b [] (f b)) :
    Walking a ctx is f :=
  fun b hb => ⟨[], h b hb, fun _ _ => List.nil_subperm⟩

private theorem Walking.stay (a : Arena) (ctx : BindContext) (is : List NodeId) :
    Walking a ctx is fun b => b := .quiet is fun _ _ => .refl

private theorem Walking.pass (h : ∀ b, ctx.Valid b → Step a b [] (f b)) : Walking a ctx is f :=
  .quiet is fun b hb => .single (h b hb)

private theorem Walking.visit (h : ∀ b, ctx.Valid b → Step a b [id] (f b)) : Walking a ctx [id] f :=
  fun b hb => ⟨[id], .single (h b hb), fun _ hns => hns.sublist.subperm⟩

private theorem Walking.then (hf : Walking a ctx is f) (hg : Walking a ctx js g) :
    Walking a ctx (is ++ js) fun b => g (f b) := by
  intro b hb
  obtain ⟨ms₁, hwalks₁, hsub₁⟩ := hf b hb
  obtain ⟨ms₂, hwalks₂, hsub₂⟩ := hg (f b) (hwalks₁.valid hb)
  refine ⟨ms₁ ++ ms₂, hwalks₁.trans hwalks₂, fun ns hns => ?_⟩
  obtain ⟨ns₁, ns₂, rfl, h₁, h₂⟩ := hns.of_append
  exact (hsub₁ ns₁ h₁).append (hsub₂ ns₂ h₂)

private theorem Walking.within (h : Walking a ctx js f) (hin : a.Holds is js) :
    Walking a ctx is f := by
  intro b hb
  obtain ⟨ms, hwalks, hsub⟩ := h b hb
  refine ⟨ms, hwalks, fun ns hns => ?_⟩
  obtain ⟨ls, hls, hin⟩ := hin ns hns
  exact (hsub ls hls).trans hin

private theorem Walking.below {data : NodeData} (h : Walking a ctx is f)
    (hdata : a.data? id = some data)
    (hin : is.Subperm data.children) : Walking a ctx [id] f :=
  h.within ((Arena.holds_children hdata).trans (Arena.holds_of_subperm hin))

private theorem Walking.foldl {f : Binding → NodeId → Binding}
    (h : ∀ i ∈ is, Walking a ctx [i] (f · i)) : Walking a ctx is fun b => is.foldl f b := by
  induction is with
  | nil => exact .stay a ctx []
  | cons i is ih =>
    rw [List.forall_mem_cons] at h
    exact h.1.then (ih h.2)

private theorem Walking.elim {f : Binding → NodeId → Binding} {x : Option NodeId}
    (h : ∀ i, Walking a ctx [i] (f · i)) : Walking a ctx x.toList fun b => x.elim b (f b) := by
  cases x with
  | none => exact .stay a ctx []
  | some i => exact h i

private theorem Walking.ite {p : Prop} [Decidable p] (hf : Walking a ctx is f)
    (hg : Walking a ctx is g) :
    Walking a ctx is fun b => if p then f b else g b := by
  by_cases h : p
  · simpa [h] using hf
  · simpa [h] using hg

private theorem Walking.opening (ctx : BindContext) (hkind : kind ≠ .root) (node : NodeId)
    {receiver : Binding → Option (String × ScopeId)}
    (hreceiver : ∀ b, ∀ r ∈ receiver b, b.scopeKind? r.2 = some .classBody)
    {f : BindContext → Binding → Binding}
    (h : ∀ scope receiver, Walking a { scope := scope, receiver := receiver } is
      (f { scope := scope, receiver := receiver })) :
    Walking a ctx is fun b =>
      f { scope := (b.openScope kind (some ctx.scope) node).1, receiver := receiver b }
        (b.openScope kind (some ctx.scope) node).2 := by
  intro b hb
  have hstep : Walks a b [] (b.openScope kind (some ctx.scope) node).2 :=
    .single (.openScope kind ctx.scope node hkind hb.1)
  have hinner : BindContext.Valid
      { scope := (b.openScope kind (some ctx.scope) node).1, receiver := receiver b }
      (b.openScope kind (some ctx.scope) node).2 := by
    refine ⟨?_, fun r hr => hstep.scopeKind? (hreceiver b r hr)⟩
    simp [openScope]
  obtain ⟨ms, hwalks, hsub⟩ := h _ _ _ hinner
  exact ⟨ms, hstep.trans hwalks, hsub⟩

private theorem noReceiver (b : Binding) :
    ∀ r ∈ (none : Option (String × ScopeId)), b.scopeKind? r.2 = some .classBody := nofun

/-! ## Declaring names -/

private theorem noOrigin : ∀ target ∈ (none : Option AliasTarget), ∃ path,
    target.path = a.dottedText path := nofun

private theorem walking_declare {kind : DeclarationKind} {origin : Option AliasTarget}
    (hkind : kind ≠ .instanceAttribute)
    (horigin : ∀ target ∈ origin, ∃ path, target.path = a.dottedText path) :
    Walking a ctx [id] fun b => declare a ctx b id kind owner hint origin := by
  unfold declare
  cases a.nameText? id with
  | none => exact .stay a ctx [id]
  | some name =>
    exact .visit fun b hb => .declare ctx kind name id owner _ hint origin hb.1 hkind horigin

private theorem walking_declareAttribute (hreceiver : ctx.receiver = some (name, scope)) :
    Walking a ctx [id] fun b => declareAttribute a ctx scope b id owner hint := by
  unfold declareAttribute
  cases a.nameText? id with
  | none => exact .stay a ctx [id]
  | some name =>
    exact .visit fun b hb => .declareAttribute ctx scope name id owner _ hint (hb.2 _ hreceiver)

private theorem walking_report (code : Nat) (span : Span) (arg : Option String) :
    Walking a ctx is fun b => b.report code span arg := .pass fun _ _ => .report code span arg

/-! ## Parameters -/

/-- The names of parameters. -/
def parameterNames (a : Arena) (params : List NodeId) : List NodeId :=
  params.flatMap fun param =>
    match a.data? param with
    | some (.parameter _ name _ _) => name.toList
    | _ => []

theorem parameterNames_cons (param : NodeId) (params : List NodeId) :
    parameterNames a (param :: params) = parameterNames a [param] ++ parameterNames a params := by
  simp only [parameterNames, List.flatMap_cons, List.flatMap_nil, List.append_nil]

private theorem walking_declareParameters (seen : List String) (params : List NodeId) :
    Walking a ctx (parameterNames a params) fun b => declareParameters a ctx seen b params := by
  induction params generalizing seen with
  | nil => exact .stay a ctx _
  | cons param params ih =>
    rw [parameterNames_cons]
    have hskip (seen : List String) :
        Walking a ctx (parameterNames a [param] ++ parameterNames a params)
          fun b => declareParameters a ctx seen b params :=
      (Walking.stay a ctx _).then (ih seen)
    unfold declareParameters
    split
    · next form node hint default hparam =>
      have hnode : parameterNames a [param] = [node] := by simp [parameterNames, hparam]
      split
      · next name _ =>
        split
        · exact (walking_report _ _ _).then (ih seen)
        · rw [hnode]
          exact (walking_declare (by decide) noOrigin).then (ih (name :: seen))
      · exact hskip seen
    · exact hskip seen

private theorem holds_parameters (params : List NodeId) :
    a.Holds params (parameterParts a params ++ parameterNames a params) := by
  refine Arena.Holds.trans (Arena.holds_flatMap fun param _ => ?_)
    (Arena.holds_of_subperm (List.flatMap_append_perm params _ _).subperm)
  have hskip : a.Holds [param] ([] ++ []) := Arena.holds_of_subperm List.nil_subperm
  cases hparam : a.data? param with
  | none => exact hskip
  | some data =>
    cases data with
    | parameter form name hint default =>
      refine (Arena.holds_children hparam).trans (Arena.holds_of_subperm ?_)
      simp only [NodeData.children, List.append_assoc]
      rw [← List.append_assoc]
      exact List.perm_append_comm.subperm
    | _ => exact hskip

/-! ## Expressions and targets -/

private theorem walking_expressionUpTo (fuel : Nat) (ctx : BindContext) (id : NodeId) :
    Walking a ctx [id] fun b => expressionUpTo a fuel ctx b id := by
  induction fuel generalizing ctx id with
  | zero => exact .stay a ctx [id]
  | succ fuel ih =>
    unfold expressionUpTo
    split
    · exact .visit fun b _ => .useName ctx id
    · next value attr hdata =>
      exact (ih ctx value).below hdata (List.sublist_append_left [value] [attr]).subperm
    · next form name value hdata =>
      exact (ih ctx value).below hdata (List.sublist_append_right name.toList [value]).subperm
    · next params body hdata =>
      have hparts : Walking a ctx (parameterParts a params) fun b =>
          (parameterParts a params).foldl (expressionUpTo a fuel ctx) b :=
        .foldl fun part _ => ih ctx part
      have hinner : Walking a ctx (parameterNames a params ++ [body]) fun b =>
          expressionUpTo a fuel { scope := (b.openScope .lambda (some ctx.scope) id).1 }
            (declareParameters a { scope := (b.openScope .lambda (some ctx.scope) id).1 } []
              (b.openScope .lambda (some ctx.scope) id).2 params) body :=
        .opening ctx (by decide) id noReceiver
          (f := fun inner b => expressionUpTo a fuel inner (declareParameters a inner [] b params) body)
          fun _ _ => (walking_declareParameters [] params).then (ih _ body)
      refine (hparts.then hinner).within ((Arena.holds_children hdata).trans ?_)
      rw [← List.append_assoc]
      exact (holds_parameters params).append (.refl a [body])
    · next data _ _ _ _ hdata =>
      have hchildren : Walking a ctx data.children fun b =>
          data.children.foldl (expressionUpTo a fuel ctx) b := .foldl fun child _ => ih ctx child
      exact hchildren.below hdata (.refl _)
    · exact .stay a ctx [id]

private theorem walking_expression (ctx : BindContext) (id : NodeId) :
    Walking a ctx [id] fun b => expression a ctx b id := walking_expressionUpTo a.size ctx id

private theorem walking_expressions (ctx : BindContext) (ids : List NodeId) :
    Walking a ctx ids fun b => ids.foldl (expression a ctx) b :=
  .foldl fun id _ => walking_expression ctx id

private theorem walking_optional (ctx : BindContext) (id : Option NodeId) :
    Walking a ctx id.toList fun b => optional a ctx b id := .elim (walking_expression ctx)

private theorem walking_targetUpTo (fuel : Nat) (owner : NodeId) (hint : Option NodeId)
    (id : NodeId) :
    Walking a ctx [id] fun b => targetUpTo a ctx owner fuel hint b id := by
  induction fuel generalizing hint id with
  | zero => exact .stay a ctx [id]
  | succ fuel ih =>
    have hall (elts : List NodeId) : Walking a ctx elts fun b =>
        elts.foldl (targetUpTo a ctx owner fuel none) b := .foldl fun element _ => ih none element
    unfold targetUpTo
    split
    · exact walking_declare (by decide) noOrigin
    · next elts hdata => exact (hall elts).below hdata (.refl _)
    · next elts hdata => exact (hall elts).below hdata (.refl _)
    · next value hdata => exact (ih none value).below hdata (.refl _)
    · next value attr hdata =>
      have hvalue := walking_expression (a := a) ctx value
      cases hreceiver : ctx.receiver with
      | none => exact (hvalue.then (.stay a ctx [attr])).below hdata (.refl _)
      | some receiver =>
        have hattr : Walking a ctx [attr] fun b =>
            if a.nameText? value == some receiver.1 then
              declareAttribute a ctx receiver.2 b attr owner hint
            else b :=
          .ite (walking_declareAttribute hreceiver) (.stay a ctx [attr])
        exact (hvalue.then hattr).below hdata (.refl _)
    · exact walking_expression ctx id
    · exact .stay a ctx [id]

private theorem walking_target (owner : NodeId) (hint : Option NodeId) (id : NodeId) :
    Walking a ctx [id] fun b => target a ctx owner hint b id :=
  walking_targetUpTo a.size owner hint id

/-! ## Imports -/

private theorem Walking.importing {f : Nat → Binding → Binding}
    (h : ∀ index, Walking a ctx is (f index))
    (record : ImportRecord) (hspan : record.span = a.span record.node)
    (hdotted : ∀ dotted ∈ record.path :: record.names, ∃ path, dotted = a.dottedText path) :
    Walking a ctx is fun b => f b.imports.size (b.addImport record) := by
  have hrecord : Walking a ctx [] fun b => b.addImport record :=
    .pass fun _ _ => .addImport record hspan hdotted
  exact fun b => hrecord.then (h b.imports.size) b

private theorem walking_importModule (ctx : BindContext) (id : NodeId) :
    Walking a ctx [id] fun b => importModule a ctx b id := by
  unfold importModule
  split
  · next path asname hdata =>
    let record : ImportRecord := ⟨a.dottedText path, 0, id, a.span id, [], false⟩
    have hdotted : ∀ dotted ∈ record.path :: record.names, ∃ path, dotted = a.dottedText path :=
      fun dotted h => ⟨path, List.mem_singleton.mp h⟩
    have hnode (node : NodeId) (outer : List NodeId) : Walking a ctx [node] fun b =>
        declare a ctx (b.addImport record) node .moduleAlias id none
          (some ⟨b.imports.size, a.dottedText outer, 0, none⟩) :=
      .importing (f := fun index b => declare a ctx b node .moduleAlias id none
        (some ⟨index, a.dottedText outer, 0, none⟩)) (fun _ => walking_declare (by decide)
          fun target h => ⟨outer, Option.some.inj h ▸ rfl⟩) record rfl hdotted
    split
    · next node =>
      exact (hnode node path).below hdata (List.sublist_append_right path [node]).subperm
    · next node path =>
      have houtermost : a.dottedText [node] = (a.nameText? node).getD "" :=
        String.intercalate_singleton
      rw [← houtermost]
      exact (hnode node [node]).below hdata (List.sublist_append_left [node] (path ++ [])).subperm
    · exact .pass fun _ _ => .addImport record rfl hdotted
  · exact .stay a ctx [id]

private theorem walking_importMember (ctx : BindContext) (index : Nat) (module : List NodeId)
    (level : Nat)
    (id : NodeId) :
    Walking a ctx [id] fun b => importMember a ctx index (a.dottedText module) level b id := by
  unfold importMember
  split
  · next path asname hdata =>
    cases hnode : asname.orElse fun _ => path.head? with
    | some node =>
      refine Walking.below (walking_declare (by decide) fun target h =>
        ⟨module, Option.some.inj h ▸ rfl⟩) hdata ?_
      cases asname with
      | some asname =>
        obtain rfl := Option.some.inj hnode
        exact (List.sublist_append_right path [asname]).subperm
      | none =>
        obtain ⟨rest, rfl⟩ := List.head?_eq_some_iff.mp hnode
        exact (List.sublist_append_left [node] (rest ++ [])).subperm
    | none => exact .stay a ctx [id]
  · exact .stay a ctx [id]

private theorem walking_importMembers (ctx : BindContext) (id : NodeId) (path : List NodeId)
    (level : Nat)
    (names : List NodeId) (wildcard : Bool) :
    Walking a ctx names fun b => importMembers a ctx b id path level names wildcard := by
  let record : ImportRecord :=
    ⟨a.dottedText path, level, id, a.span id, names.filterMap (importedName? a), wildcard⟩
  have hdotted : ∀ dotted ∈ record.path :: record.names, ∃ path, dotted = a.dottedText path := by
    intro dotted h
    rcases List.mem_cons.mp h with rfl | h
    · exact ⟨path, rfl⟩
    obtain ⟨name, -, hname⟩ := List.mem_filterMap.mp h
    unfold importedName? at hname
    split at hname
    · next path _ _ => exact ⟨path, (Option.some.inj hname).symm⟩
    · cases hname
  cases wildcard with
  | true => exact .pass fun _ _ => .addImport record rfl hdotted
  | false =>
    exact .importing (f := fun index b =>
        names.foldl (importMember a ctx index (a.dottedText path) level) b)
      (fun index => .foldl fun name _ => walking_importMember ctx index path level name) record rfl
      hdotted

/-! ## Statements -/

private theorem walking_exports {names : Binding → List String} :
    Walking a ctx is fun b => { b with exportList := some (names b) } := .pass fun _ _ => .exports _

private theorem walking_extendExports (names : List String) :
    Walking a ctx is fun b => b.extendExports names := walking_exports

private theorem walking_returnFrom (id : NodeId) (span : Span) :
    Walking a ctx is fun b => b.returnFrom ctx id span := by
  refine .pass fun b _ => ?_
  unfold returnFrom
  split
  · exact .note ctx.scope _
      ⟨fun _ => rfl, fun _ => rfl, fun _ => rfl, fun _ => rfl, fun _ _ h => h, fun _ _ h => h⟩
  · exact .report _ _ _

private theorem walking_loopControl (span : Span) (keyword : String) :
    Walking a ctx is fun b => b.loopControl ctx span keyword :=
  .ite (.stay a ctx is) (walking_report _ _ _)

private theorem mem_appendList {names : Array String} (more : List String) (h : name ∈ names) :
    name ∈ names ++ more := by
  rw [← Array.mem_toList_iff, Array.toList_appendList]
  exact List.mem_append_left more (Array.mem_toList_iff.mpr h)

private theorem walking_global (names : List String) :
    Walking a ctx is fun b =>
      b.modifyScope ctx.scope fun s => { s with globals := s.globals ++ names } :=
  .pass fun _ _ => .note ctx.scope _
    ⟨fun _ => rfl, fun _ => rfl, fun _ => rfl, fun _ => rfl,
      fun _ _ h => mem_appendList names h, fun _ _ h => h⟩

private theorem walking_nonlocal (names : List String) :
    Walking a ctx is fun b =>
      b.modifyScope ctx.scope fun s => { s with nonlocals := s.nonlocals ++ names } :=
  .pass fun _ _ => .note ctx.scope _
    ⟨fun _ => rfl, fun _ => rfl, fun _ => rfl, fun _ => rfl, fun _ _ h => h,
      fun _ _ h => mem_appendList names h⟩

private theorem walking_withItem (ctx : BindContext) (id : NodeId) :
    Walking a ctx [id] fun b => withItem a ctx b id := by
  unfold withItem
  split
  · next context place hdata =>
    have hplace : Walking a ctx place.toList fun b => place.elim b (target a ctx id none b) :=
      .elim fun place => walking_target id none place
    exact ((walking_expression ctx context).then hplace).below hdata (.refl _)
  · exact .stay a ctx [id]

private theorem scopeKind?_of_receiver? (a : Arena) (ctx : BindContext)
    (decorators params : List NodeId)
    (b : Binding) :
    ∀ r ∈ receiver? a ctx b decorators params, b.scopeKind? r.2 = some .classBody := by
  intro r hr
  unfold receiver? at hr
  split at hr
  · next h =>
    rw [Bool.and_eq_true, beq_iff_eq] at h
    obtain ⟨name, -, rfl⟩ := Option.map_eq_some_iff.mp hr
    exact h.1
  · exact nomatch hr

private theorem walking_statementUpTo (fuel : Nat) (ctx : BindContext) (id : NodeId) :
    Walking a ctx [id] fun b => statementUpTo a fuel ctx b id := by
  induction fuel generalizing ctx id with
  | zero => exact .stay a ctx [id]
  | succ fuel ih =>
    have hbody (ctx : BindContext) (body : List NodeId) :
        Walking a ctx body fun b => body.foldl (statementUpTo a fuel ctx) b :=
      .foldl fun statement _ => ih ctx statement
    unfold statementUpTo
    split
    · exact .stay a ctx [id]
    · next expr hdata =>
      have hexports : Walking a ctx [] fun b =>
          if ctx.scope == 0 then (addedExports? a expr).elim b b.extendExports else b := by
        refine .ite ?_ (.stay a ctx [])
        cases addedExports? a expr with
        | none => exact .stay a ctx []
        | some names => exact walking_extendExports names
      exact ((walking_expression ctx expr).then hexports).below hdata (.refl _)
    · next targets value hdata =>
      have htargets : Walking a ctx targets fun b => targets.foldl (target a ctx id none) b :=
        .foldl fun place _ => walking_target id none place
      have hexports : Walking a ctx [] fun b =>
          if targets.any (isExportList a ctx) then { b with exportList := some (stringList a value) }
          else b := .ite walking_exports (.stay a ctx [])
      refine (((walking_expression ctx value).then htargets).then hexports).below hdata ?_
      rw [List.append_nil]
      exact List.perm_append_comm.subperm
    · next place hint value hdata =>
      refine (((walking_expression ctx hint).then (walking_optional ctx value)).then
        (walking_target id (some hint) place)).below hdata (List.Perm.subperm ?_)
      exact List.perm_append_singleton place (hint :: value.toList)
    · next place op value hdata =>
      have hdeclare : Walking a ctx [place] fun b => declare a ctx b place .variable id none none :=
        walking_declare (by decide) noOrigin
      have hexports : Walking a ctx [] fun b =>
          if isExportList a ctx place then b.extendExports (stringList a value) else b :=
        .ite (walking_extendExports _) (.stay a ctx [])
      have hplace : Walking a ctx [place] fun b =>
          if (a.nameText? place).isSome then
            if isExportList a ctx place then
              (declare a ctx b place .variable id none none).extendExports (stringList a value)
            else declare a ctx b place .variable id none none
          else expression a ctx b place :=
        .ite (hdeclare.then hexports) (walking_expression ctx place)
      refine ((walking_expression ctx value).then hplace).below hdata ?_
      exact (List.Perm.swap place value []).subperm
    · next value hdata =>
      have hreturn : Walking a ctx [] fun b => b.returnFrom ctx id (a.span id) :=
        walking_returnFrom id _
      exact (hreturn.then (walking_optional ctx value)).below hdata (.refl _)
    · exact walking_loopControl _ _
    · exact walking_loopControl _ _
    · exact .stay a ctx [id]
    · exact .stay a ctx [id]
    · exact walking_global _
    · exact .ite (walking_report _ _ _) (walking_nonlocal _)
    · next test body orelse hdata =>
      refine (((walking_expression ctx test).then (hbody ctx.branch body)).then
        (hbody ctx.branch orelse)).below hdata ?_
      rw [List.append_assoc]
      exact .refl _
    · next test body orelse hdata =>
      refine (((walking_expression ctx test).then (hbody ctx.loop body)).then
        (hbody ctx.branch orelse)).below hdata ?_
      rw [List.append_assoc]
      exact .refl _
    · next place iter body orelse hdata =>
      have hplace : Walking a ctx.branch [place] fun b => target a ctx.branch id none b place :=
        walking_target id none place
      refine ((((walking_expression ctx iter).then hplace).then (hbody ctx.loop body)).then
        (hbody ctx.branch orelse)).below hdata ?_
      rw [List.append_assoc]
      exact (List.Perm.swap place iter (body ++ orelse)).subperm
    · next body handlers orelse finalbody hdata =>
      have hbody' : Walking a ctx body fun b => body.foldl (statementUpTo a fuel ctx.branch) b :=
        hbody ctx.branch body
      exact (((hbody'.then (hbody ctx handlers)).then (hbody ctx.branch orelse)).then
        (hbody ctx finalbody)).below hdata (.refl _)
    · next type caught body hdata =>
      have hcaught : Walking a ctx.branch caught.toList fun b =>
          caught.elim b fun node => declare a ctx.branch b node .variable id none none :=
        .elim fun node => walking_declare (by decide) noOrigin
      exact (((walking_optional ctx type).then hcaught).then (hbody ctx.branch body)).below hdata
        (.refl _)
    · next items body hdata =>
      have hitems : Walking a ctx items fun b => items.foldl (withItem a ctx) b :=
        .foldl fun item _ => walking_withItem ctx item
      exact (hitems.then (hbody ctx body)).below hdata (.refl _)
    · next decorators name params returns body hdata =>
      have hname : Walking a ctx [name] fun b => declare a ctx b name .function id none none :=
        walking_declare (by decide) noOrigin
      have hhead := (((walking_expressions ctx decorators).then
        (walking_expressions ctx (parameterParts a params))).then
          (walking_optional ctx returns)).then hname
      have hinner := Walking.opening (a := a) ctx (by decide : ScopeKind.function ≠ .root) id
        (scopeKind?_of_receiver? a ctx decorators params)
        (f := fun inner b => body.foldl (statementUpTo a fuel inner)
          (declareParameters a inner [] b params))
        fun _ _ => (walking_declareParameters [] params).then (hbody _ body)
      refine (hhead.then hinner).within ((Arena.holds_children hdata).trans ?_)
      have hparams := ((Arena.Holds.refl a (decorators ++ [name])).append
        (holds_parameters params)).append (.refl a (returns.toList ++ body))
      have hchildren : (NodeData.functionDef decorators name params returns body).children =
          decorators ++ [name] ++ params ++ (returns.toList ++ body) := by
        simp [NodeData.children]
      rw [hchildren]
      refine hparams.trans (Arena.holds_of_subperm (List.Perm.subperm
        (List.perm_iff_count.mpr fun node => ?_)))
      simp only [List.count_append, List.count_cons, List.count_nil]
      omega
    · next decorators name bases body hdata =>
      have hname : Walking a ctx [name] fun b => declare a ctx b name .classDef id none none :=
        walking_declare (by decide) noOrigin
      have hinner := Walking.opening (a := a) ctx (by decide : ScopeKind.classBody ≠ .root) id
        noReceiver (f := fun inner b => body.foldl (statementUpTo a fuel inner) b)
        fun _ _ => hbody _ body
      refine (((walking_expressions ctx (decorators ++ bases)).then hname).then hinner).below hdata
        (List.Perm.subperm (List.perm_iff_count.mpr fun node => ?_))
      simp only [NodeData.children, List.count_append, List.count_cons, List.count_nil]
      omega
    · next names hdata =>
      have hnames : Walking a ctx names fun b => names.foldl (importModule a ctx) b :=
        .foldl fun name _ => walking_importModule ctx name
      exact hnames.below hdata (.refl _)
    · next path level names wildcard hdata =>
      exact (walking_importMembers ctx id path level names wildcard).below hdata
        (List.sublist_append_right path names).subperm
    · exact walking_expression ctx id

end Binding

/-! ## Whole trees -/

/-- The tables before the first statement: the scope of the module, without names. -/
def Tree.unbound (t : Tree) : Binding := (({} : Binding).openScope .root none t.root).2

/-- The tables behind the last statement. -/
def Tree.walked (t : Tree) : Binding :=
  t.statements.foldl (Binding.statementUpTo t.arena t.arena.size { scope := 0 }) t.unbound

/-- Binding is the walk and the two passes behind it. -/
theorem Tree.bind_eq (t : Tree) : t.bind = t.walked.sortDeclarations.markExports := rfl

/-- Binding a tree takes steps from the scope of the module on. They visit nodes of the tree, and
none of them twice. -/
theorem Tree.walks (t : Tree) : ∃ ms, Binding.Walks t.arena t.unbound ms t.walked ∧
    ∀ ns, t.arena.Forest [t.root] ns → ms.Subperm ns := by
  have hvalid : BindContext.Valid { scope := 0 } t.unbound := ⟨Nat.zero_lt_one, nofun⟩
  have hstatements : t.arena.Holds [t.root] t.statements := by
    unfold statements
    split
    · next body hroot => exact Arena.holds_children hroot
    · exact Arena.holds_of_subperm List.nil_subperm
  have hwalking : Binding.Walking t.arena { scope := 0 } t.statements fun b =>
      t.statements.foldl (Binding.statementUpTo t.arena t.arena.size { scope := 0 }) b :=
    .foldl fun statement _ => Binding.walking_statementUpTo t.arena.size _ statement
  exact hwalking.within hstatements t.unbound hvalid

end LiveCheck
