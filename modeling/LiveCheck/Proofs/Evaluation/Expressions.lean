import LiveCheck.Proofs.Evaluation.Admission

/-!
# Expressions keep to a discipline

References to names, operators, calls and all other expressions answer with types that exist, and do
nothing that a rule may not do.
-/

namespace LiveCheck.Evaluation

open Discipline TypeTable

variable {n k : Nat} {D : Discipline EvalState} {ask : Ask} {id left right : TypeId}
  (h : Admits slack D ask) {arg : Argument} {params : List Param} {arguments : List Argument}
  {first : Option TypeId}

include h

/-! ## Names -/

private theorem sound_referenceType (bound : BoundFile) (scope : ScopeId) (symbol : SymbolId)
    (offset : Nat) : D.Sound n (referenceType ask bound scope symbol offset) TypeId.Known := by
  unfold referenceType
  dsimp only
  split
  · exact sound_declarationType h bound.file _
  · refine (Sound.mapM TypeId.lasting_known fun d _ _ _ =>
      sound_declarationType h bound.file d).bind fun found k _ hf => ?_
    exact h.makes (sound_union hf)

theorem sound_nameTypeAt (file : FileId) (node : NodeId) (offset : Nat) :
    D.Sound n (nameTypeAt ask file node offset) TypeId.Known := by
  unfold nameTypeAt
  refine (h.binds n file).bind fun o k _ _ => ?_
  split
  · split
    · next name _ =>
      dsimp only
      split
      · exact sound_referenceType h _ _ _ offset
      · refine (sound_builtinType h name).bind fun o j _ ho => ?_
        split
        · exact sound_known (ho _ rfl)
        · exact (sound_reportAt h file node _ _).bind fun _ _ _ _ => sound_unknown
    · exact sound_unknown
  · exact sound_unknown

private theorem sound_nameType (file : FileId) (node : NodeId) :
    D.Sound n (nameType ask file node) TypeId.Known := by
  unfold nameType
  refine (h.binds n file).bind fun o k _ _ => ?_
  split
  · exact sound_nameTypeAt h file node _
  · exact sound_unknown

/-! ## Operators -/

private theorem sound_unsupportedOperator (file : FileId) (node : NodeId) (op : BinaryOp)
    (left right : TypeId) :
    D.Sound n (unsupportedOperator file node op left right) TypeId.Known := by
  refine (sound_format h left).bind fun text k _ _ => ?_
  exact sound_reportFormat h file node _ right fun text' => [op.text, text, text']

theorem sound_binaryOperation (file : FileId) (node : NodeId) (op : BinaryOp)
    (hl : left.Known n) (hr : right.Known n) :
    D.Sound n (binaryOperation ask file node op left right) TypeId.Known := by
  unfold binaryOperation
  refine .ite (fun _ => sound_known (.inl (by decide))) fun _ => ?_
  refine (sound_isPlaceholder h left).bind fun b k hk _ => ?_
  refine .ite (fun _ => sound_unknown) fun _ => ?_
  refine (sound_isPlaceholder h right).bind fun b j hj _ => ?_
  refine .ite (fun _ => sound_unknown) fun _ => ?_
  refine (sound_isDeclaredInstance h left).bind fun b i hi _ => ?_
  have hle := Nat.le_trans (Nat.le_trans hk hj) hi
  have hl : left.Known i := TypeId.lasting_known left n i hle hl
  have hr : right.Known i := TypeId.lasting_known right n i hle hr
  refine .ite (fun _ => ?_) fun _ => ?_
  · refine (sound_member? h hl op.method).bind fun o l _ _ => ?_
    split
    · exact sound_callResult h _
    · exact sound_unsupportedOperator h file node op left right
  · refine (h.makes (sound_operation? op hl hr)).bind fun o l _ ho => ?_
    split
    · exact sound_known (ho _ rfl)
    · exact sound_unsupportedOperator h file node op left right

private theorem sound_unaryOperation (op : UnaryOp) (hid : id.Known n) :
    D.Sound n (unaryOperation ask op id) TypeId.Known := by
  unfold unaryOperation
  refine (sound_isPlaceholder h id).bind fun b k hk _ => ?_
  refine .ite (fun _ => ?_) fun _ => ?_
  · split
    · exact sound_known (.inl (by decide))
    · exact sound_unknown
  · refine (sound_isDeclaredInstance h id).bind fun b j hj _ => ?_
    have hid : id.Known j := TypeId.lasting_known id n j (Nat.le_trans hk hj) hid
    split
    · refine (sound_member? h hid _).bind fun o i _ _ => ?_
      split
      · exact sound_callResult h _
      · exact sound_unknown
    · exact sound_getD (h.makes (sound_unary? op hid))

/-! ## Checking arguments -/

private def KnownArguments (arguments : List Argument) (n : Nat) : Prop :=
  ∀ a ∈ arguments, a.type.Known n

/-- The types of the parameters exist. -/
def KnownParams (params : List Param) (n : Nat) : Prop := ∀ p ∈ params, p.type.Known n

omit h in
private theorem lasting_knownArguments : Lasting KnownArguments :=
  fun _ n k hk ha a hmem => TypeId.lasting_known a.type n k hk (ha a hmem)

omit h in
theorem lasting_knownParams : Lasting KnownParams :=
  fun _ n k hk hp p hmem => TypeId.lasting_known p.type n k hk (hp p hmem)

private theorem sound_checkArgument (file : FileId) {p : Param} (ha : arg.type.Known n)
    (hp : p.type.Known n) : D.Sound n (checkArgument ask file arg p) anything := by
  unfold checkArgument
  refine .ite (fun _ => .unit) fun _ => ?_
  refine (h.compares ha hp).bind fun b k _ _ => ?_
  refine .ite (fun _ => .unit) fun _ => ?_
  refine (sound_format h arg.type).bind fun text j _ _ => ?_
  exact (sound_format h p.type).bind fun text' i _ _ => sound_reportAt h file arg.node _ _

private theorem sound_checkPositional (file : FileId) {rest : Option Param}
    (hrest : KnownParams rest.toList n) (hp : KnownParams params n)
    (ha : KnownArguments arguments n) :
    D.Sound n (checkPositional ask file rest params arguments) anything := by
  induction arguments generalizing params n with
  | nil =>
    cases params <;> exact .unit
  | cons arg arguments ih =>
    obtain ⟨harg, ha⟩ := List.forall_mem_cons.mp ha
    cases params with
    | cons p params =>
      obtain ⟨hfirst, hp⟩ := List.forall_mem_cons.mp hp
      rw [checkPositional]
      exact (sound_checkArgument h file harg hfirst).bind fun _ k hk _ =>
        ih (lasting_knownParams _ _ _ hk hrest) (lasting_knownParams _ _ _ hk hp)
          (lasting_knownArguments _ _ _ hk ha)
    | nil =>
      cases rest with
      | none => exact ih hrest hp ha
      | some p =>
        exact (sound_checkArgument h file harg (hrest p (.head _))).bind fun _ k hk _ =>
          ih (lasting_knownParams _ _ _ hk hrest) (lasting_knownParams _ _ _ hk hp)
            (lasting_knownArguments _ _ _ hk ha)

private theorem sound_checkKeyword (file : FileId) (hp : KnownParams params n)
    (ha : arg.type.Known n) :
    D.Sound n (checkKeyword ask file params arg) anything := by
  unfold checkKeyword
  split
  · next name _ =>
    split
    · next p place hnamed =>
      have hmem := List.mem_of_find?_eq_some hnamed
      exact sound_checkArgument h file ha (hp p (List.fst_mem_of_mem_zipIdx hmem))
    · next p _ hfind =>
      exact sound_checkArgument h file ha (hp p (List.mem_of_find?_eq_some hfind))
    · exact sound_reportAt h file arg.node _ _
  · exact .unit

private theorem sound_checkArguments (file : FileId) (site : NodeId) (hp : KnownParams params n)
    (ha : KnownArguments arguments n) :
    D.Sound n (checkArguments ask file site params arguments) anything := by
  have hrest : KnownParams (params.find? (·.kind == .varArgs)).toList n := fun p hmem =>
    hp p (List.mem_of_find?_eq_some (Option.mem_toList.mp hmem))
  have hplaces : KnownParams (params.filter (·.kind == .positional)) n := fun p hmem =>
    hp p (List.mem_filter.mp hmem).1
  have hpositional : KnownArguments (arguments.filter (·.form == .positional)) n := fun a hmem =>
    ha a (List.mem_filter.mp hmem).1
  unfold checkArguments wrongCount
  dsimp only
  refine (sound_checkPositional h file hrest hplaces hpositional).bind fun _ k hk _ => ?_
  refine .ite (fun _ => sound_reportAt h file site _ _) fun _ => ?_
  refine (Sound.forIn fun arg hmem j hj => ?_).bind fun _ j _ _ => ?_
  · have hj := Nat.le_trans hk hj
    split
    · refine (sound_checkKeyword h file (lasting_knownParams _ _ _ hj hp)
        (lasting_knownArguments _ _ _ hj ha arg hmem)).bind fun _ _ _ _ => ?_
      exact .pure fun _ _ => trivial
    · exact .pure fun _ _ => trivial
  · exact .ite (fun _ => sound_reportAt h file site _ _) fun _ => .unit

/-! ## Making instances -/

private theorem sound_constructDeclared (file : FileId) (site : NodeId) (hid : id.Known n)
    (cls : ClassKey)
    (ha : KnownArguments arguments n) :
    D.Sound n (constructDeclared ask file site id cls arguments) TypeId.Known := by
  unfold constructDeclared
  have hlast (j : Nat) (hj : n ≤ j) : D.Sound j (pure id) TypeId.Known :=
    sound_known (TypeId.lasting_known id n j hj hid)
  refine (sound_member? h hid "__init__").bind fun o k hk _ => ?_
  split
  · refine (sound_types h).bind fun t j hj ht => ?_
    have hj := Nat.le_trans hk hj
    split
    · split
      · next s hs =>
        have hparams : KnownParams (s.params.drop 1) j := fun p hmem =>
          (ht.1.signature? ht.2 hs).1 p (List.mem_of_mem_drop hmem)
        refine (sound_checkArguments h file site hparams
          (lasting_knownArguments _ _ _ hj ha)).bind fun _ i hi _ => ?_
        exact hlast i (Nat.le_trans hj hi)
      · exact hlast j hj
    · exact hlast j hj
  · refine (sound_searchOrder h cls).bind fun order j hj _ => ?_
    have hj := Nat.le_trans hk hj
    dsimp only
    split
    · exact (sound_reportAt h file site _ _).bind fun _ i hi _ => hlast i (Nat.le_trans hj hi)
    · exact hlast j hj

private theorem sound_elementOf (hf : ifSome TypeId.Known first n) :
    D.Sound n (elementOf ask first) TypeId.Known := by
  cases first with
  | none => exact sound_unknown
  | some type => exact sound_elementType h (hf type rfl)

private theorem sound_constructBuiltin (hid : id.Known n) (cls : BuiltinClass)
    (hf : ifSome TypeId.Known first n) :
    D.Sound n (constructBuiltin ask id cls first) TypeId.Known := by
  have hnone : each TypeId.Known [] n := fun _ h => nomatch h
  unfold constructBuiltin
  split
  · exact (sound_elementOf h hf).bind fun _ _ _ he => h.makes (sound_listOf he)
  · exact (sound_elementOf h hf).bind fun _ _ _ he => h.makes (sound_setOf he)
  · exact (sound_elementType h (hf _ rfl)).bind fun _ _ _ he =>
      h.makes (sound_tupleOf (known_pair he (.inl (by decide))))
  · exact h.makes (sound_tupleOf hnone)
  · exact h.makes (sound_dictOf (.inl (by decide)) (.inl (by decide)))
  · refine (sound_types h).bind fun t k hk _ => ?_
    split
    · exact h.makes (sound_classObject (TypeId.lasting_known _ n k hk (hf _ rfl)))
    · exact sound_unknown
  · exact sound_unknown
  · exact sound_known hid

private theorem sound_construct (file : FileId) (site : NodeId) (hid : id.Known n)
    (ha : KnownArguments arguments n) :
    D.Sound n (construct ask file site id arguments) TypeId.Known := by
  unfold construct
  refine (sound_types h).bind fun t k hk _ => ?_
  have hid : id.Known k := TypeId.lasting_known id n k hk hid
  split
  · exact sound_unknown
  · exact sound_constructDeclared h file site hid _ (lasting_knownArguments _ _ _ hk ha)
  · refine sound_constructBuiltin h hid _ fun type htype => ?_
    obtain ⟨a, hfind, rfl⟩ := Option.map_eq_some_iff.mp htype
    exact TypeId.lasting_known _ n k hk (ha a (List.mem_of_find?_eq_some hfind))
  · exact sound_known hid

/-! ## Calls -/

private theorem sound_notCallable (file : FileId) (site : NodeId) (callee : TypeId) :
    D.Sound n (notCallable file site callee) TypeId.Known :=
  sound_reportFormat h file site _ callee fun text => [text]

private theorem sound_callUpTo (file : FileId) (site : NodeId) (fuel : Nat)
    (ha : KnownArguments arguments n) (hid : id.Known n) :
    D.Sound n (callUpTo ask file site arguments fuel id) TypeId.Known := by
  induction fuel generalizing id n with
  | zero => exact h.strays fun _ _ => .inl (by decide)
  | succ fuel ih =>
    rw [callUpTo]
    refine (sound_types h).bind fun t k hk ht => ?_
    have ha : KnownArguments arguments k := lasting_knownArguments _ _ _ hk ha
    have hid : id.Known k := TypeId.lasting_known id n k hk hid
    have hlater (j : Nat) (hj : k ≤ j) : KnownArguments arguments j :=
      lasting_knownArguments _ _ _ hj ha
    split
    · exact sound_unknown
    · exact sound_unknown
    · exact sound_unknown
    · exact sound_known (.inl (by decide))
    · exact sound_known (.inl (by decide))
    · next members hd =>
      refine (Sound.mapM TypeId.lasting_known fun m hm j hj => ih (hlater j hj)
        (TypeId.lasting_known m k j hj (ht.1.part ht.2 hd hm))).bind fun results j _ hr => ?_
      exact h.makes (sound_union hr)
    · next inner hd =>
      exact sound_construct h file site (ht.1.part ht.2 hd (by simp [TypeData.parts])) ha
    · split
      · next s hs =>
        have hs : s.Known k := ht.1.signature ht.2 hs
        refine (sound_checkArguments h file site hs.1 ha).bind fun _ j hj _ => ?_
        exact sound_functionResult h (hs.later hj)
      · exact sound_unknown
    · split
      · next s hs =>
        have hs : s.Known k := ht.1.signature? ht.2 hs
        have hparams : KnownParams (s.params.drop 1) k := fun p hmem =>
          hs.1 p (List.mem_of_mem_drop hmem)
        refine (sound_checkArguments h file site hparams ha).bind fun _ j hj _ => ?_
        exact sound_functionResult h (hs.later hj)
      · exact sound_unknown
    · refine (sound_member? h hid "__call__").bind fun o j hj ho => ?_
      split
      · exact ih (hlater j hj) (ho _ rfl)
      · exact sound_notCallable h file site id
    · exact sound_notCallable h file site id

private theorem sound_callType (file : FileId) (func : NodeId) (nodes : List NodeId) :
    D.Sound n (callType ask file func nodes) TypeId.Known := by
  unfold callType
  refine (sound_expressionType h file func).bind fun callee k hk hcallee => ?_
  refine (h.binds k file).bind fun o j hj _ => ?_
  split
  · have hlast : Lasting fun (a : Argument) n => a.type.Known n :=
      fun a n k hk ha => TypeId.lasting_known a.type n k hk ha
    refine (Sound.mapM hlast fun node _ i _ => ?_).bind fun arguments i hi ha => ?_
    · dsimp only
      exact (sound_expressionType h file node).bind fun type _ _ htype =>
        .pure fun l hl => TypeId.lasting_known type _ l hl htype
    · refine sound_state.bind fun st l hl _ => ?_
      exact sound_callUpTo h file func _ (hlast.each arguments i l hl ha)
        (TypeId.lasting_known callee k l (Nat.le_trans (Nat.le_trans hj hi) hl) hcallee)
  · exact sound_unknown

/-! ## Displays -/

omit h in
private theorem known_constantType (kind : ConstantKind) : (constantType kind).Known n := by
  cases kind <;> exact .inl (by decide)

private theorem sound_elementTypes (file : FileId) (a : Arena) (elts : List NodeId) :
    D.Sound n (elementTypes ask file a elts) (each TypeId.Known) := by
  refine Sound.mapM TypeId.lasting_known fun elt _ k _ => ?_
  refine (sound_expressionType h file elt).bind fun type j _ htype => ?_
  exact .ite (fun _ => sound_elementType h htype) fun _ => sound_known htype

private theorem sound_tupleType (file : FileId) (a : Arena) (elts : List NodeId) :
    D.Sound n (tupleType ask file a elts) TypeId.Known := by
  unfold tupleType
  refine (sound_elementTypes h file a elts).bind fun elements k _ he => ?_
  refine .ite (fun _ => ?_) fun _ => h.makes (sound_tupleOf he)
  refine (h.makes (sound_union he)).bind fun element j _ helement => ?_
  exact h.makes (sound_tupleOf (known_pair helement (.inl (by decide))))

private theorem sound_displayElement (file : FileId) (a : Arena) (elts : List NodeId) :
    D.Sound n (displayElement ask file a elts) TypeId.Known := by
  unfold displayElement
  refine .ite (fun _ => sound_unknown) fun _ => ?_
  exact (sound_elementTypes h file a elts).bind fun _ _ _ he => h.makes (sound_union he)

private def KnownPair (types : TypeId × TypeId) (n : Nat) :
    Prop := types.1.Known n ∧ types.2.Known n

omit h in
private theorem lasting_knownPair : Lasting KnownPair := fun types n k hk ht =>
  ⟨TypeId.lasting_known types.1 n k hk ht.1, TypeId.lasting_known types.2 n k hk ht.2⟩

private theorem sound_entryTypes (file : FileId) (entry : Option NodeId × NodeId) :
    D.Sound n (entryTypes ask file entry) KnownPair := by
  unfold entryTypes
  refine (sound_expressionType h file entry.2).bind fun value k _ hvalue => ?_
  split
  · refine (sound_expressionType h file _).bind fun key j hj hkey => .pure fun i hi => ?_
    exact lasting_knownPair (key, value) j i hi
      ⟨hkey, TypeId.lasting_known value k j hj hvalue⟩
  · refine (sound_types h).bind fun t j hj ht => ?_
    split
    · next key value hp =>
      have hparts : each TypeId.Known [key, value] j := ht.1.builtinParts? ht.2 hp
      exact .pure fun i hi =>
        lasting_knownPair (key, value) j i hi ⟨hparts key (by simp), hparts value (by simp)⟩
    · exact .pure fun i _ => ⟨.inl (by decide), .inl (by decide)⟩

private theorem sound_dictType (file : FileId) (entries : List (Option NodeId × NodeId)) :
    D.Sound n (dictType ask file entries) TypeId.Known := by
  unfold dictType
  refine .ite (fun _ => ?_) fun _ => ?_
  · exact h.makes (sound_dictOf (.inl (by decide)) (.inl (by decide)))
  · refine (Sound.mapM lasting_knownPair fun entry _ _ _ => sound_entryTypes h file entry).bind
      fun found k _ hf => ?_
    have hkeys : each TypeId.Known (found.map (·.1)) k := by
      intro id hid
      obtain ⟨pair, hpair, rfl⟩ := List.mem_map.mp hid
      exact (hf pair hpair).1
    have hvalues : each TypeId.Known (found.map (·.2)) k := by
      intro id hid
      obtain ⟨pair, hpair, rfl⟩ := List.mem_map.mp hid
      exact (hf pair hpair).2
    refine (h.makes (sound_union hkeys)).bind fun key j hj hkey => ?_
    refine (h.makes (sound_union (TypeId.lasting_known.each _ k j hj hvalues))).bind
      fun value i hi hvalue => ?_
    exact h.makes (sound_dictOf (TypeId.lasting_known key j i hi hkey) hvalue)

/-! ## Functions -/

theorem sound_paramTypes (file : FileId) (a : Arena) (keywordOnly : Bool) (nodes : List NodeId) :
    D.Sound n (paramTypes ask file a keywordOnly nodes) KnownParams := by
  induction nodes generalizing keywordOnly n with
  | nil => exact .pure fun _ _ _ hp => nomatch hp
  | cons node nodes ih =>
    rw [paramTypes]
    split
    · split
      · exact ih _
      · refine (sound_optionalHint h file _).bind fun type k _ htype => ?_
        refine (ih _).bind fun rest j hj hrest => .pure fun i hi p hp => ?_
        rcases List.mem_cons.mp hp with rfl | hp
        · exact TypeId.lasting_known type k i (Nat.le_trans hj hi) htype
        · exact TypeId.lasting_known p.type j i hi (hrest p hp)
    · exact ih _

private theorem sound_lambdaType (file : FileId) (a : Arena) (node : NodeId)
    (params : List NodeId) :
    D.Sound n (lambdaType ask file a node params) TypeId.Known := by
  unfold lambdaType
  refine (Sound.forIn fun param _ j _ => (sound_optionalType h file _).bind fun _ _ _ _ =>
    .pure fun _ _ => trivial).bind fun _ k _ _ => ?_
  refine (sound_paramTypes h file a false params).bind fun found j _ hf => ?_
  refine (h.asks j _).bind fun result i hi hresult => h.makes (sound_function ⟨?_, ?_⟩)
  · exact lasting_knownParams found j i hi hf
  · intro type htype
    obtain rfl := Option.mem_some.mp htype
    exact hresult

/-! ## All expressions -/

-- Expressions of which only the effects matter.
private theorem sound_visits (file : FileId) (nodes : List NodeId) :
    D.Sound n (forIn nodes PUnit.unit fun node _ => do
      let _ ← expressionType ask file node
      pure (ForInStep.yield PUnit.unit)) anything :=
  Sound.forIn fun node _ _ _ => (sound_expressionType h file node).bind fun _ _ _ _ =>
    .pure fun _ _ => trivial

theorem sound_computeExpression (file : FileId) (node : NodeId) :
    D.Sound n (computeExpression ask file node) TypeId.Known := by
  unfold computeExpression
  refine (h.binds n file).bind fun o k _ _ => ?_
  split
  · next bound _ =>
    dsimp only
    split
    · split
      · exact sound_declarationType h file _
      · exact sound_nameType h file node
    · exact sound_known (known_constantType _)
    · refine (sound_expressionType h file _).bind fun l j _ hl => ?_
      refine (sound_expressionType h file _).bind fun r i hi hr => ?_
      exact sound_binaryOperation h file node _ (TypeId.lasting_known l j i hi hl) hr
    · refine (Sound.mapM TypeId.lasting_known fun value _ _ _ =>
        sound_expressionType h file value).bind fun _ _ _ hf => h.makes (sound_union hf)
    · exact (sound_expressionType h file _).bind fun _ _ _ htype => sound_unaryOperation h _ htype
    · exact (sound_visits h file _).bind fun _ _ _ _ => sound_known (.inl (by decide))
    · exact sound_callType h file _ _
    · exact sound_expressionType h file _
    · exact (sound_expressionType h file _).bind fun _ _ _ ho => sound_memberAccess h file _ ho _
    · exact sound_subscriptType h file node _ _
    · refine (Sound.forIn fun part _ _ _ => (sound_optionalType h file part).bind fun _ _ _ _ =>
        .pure fun _ _ => trivial).bind fun _ _ _ _ => sound_unknown
    · exact sound_tupleType h file _ _
    · exact (sound_displayElement h file _ _).bind fun _ _ _ he => h.makes (sound_listOf he)
    · exact (sound_displayElement h file _ _).bind fun _ _ _ he => h.makes (sound_setOf he)
    · exact sound_dictType h file _
    · refine (sound_expressionType h file _).bind fun _ _ _ _ => ?_
      refine (sound_expressionType h file _).bind fun first j _ hfirst => ?_
      refine (sound_expressionType h file _).bind fun second i hi hsecond => ?_
      exact h.makes (sound_union2 (TypeId.lasting_known first j i hi hfirst) hsecond)
    · exact sound_lambdaType h file _ node _
    · exact sound_expressionType h file _
    · exact sound_unknown
  · exact sound_unknown

end LiveCheck.Evaluation
