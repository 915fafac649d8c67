import LiveCheck.Proofs.Evaluation.Expressions

/-!
# Declarations, results and checks keep to a discipline

The rules for declarations and for the results of functions answer with types that exist, and so do
the rules for all three kinds of keys together. Checking a file does nothing but ask and report.
-/

namespace LiveCheck.Evaluation

open Discipline TypeTable

variable {slack n k : Nat} {D : Discipline EvalState} {ask : Ask} {id : TypeId} {args : List TypeId}
  (h : Admits slack D ask)

include h

/-! ## Patterns -/

omit h in
private theorem known_fixedElements? {t : TypeTable} (ht : t.Current slack k) (type : TypeId) :
    ifSome (each TypeId.Known) (fixedElements? t type) k := by
  intro args hf
  unfold fixedElements? at hf
  split at hf
  · next hp =>
    split at hf
    · exact nomatch hf
    · exact Option.some.inj hf ▸ ht.1.builtinParts? ht.2 hp
  · exact nomatch hf

private theorem sound_partType (a : Arena) (elts : List NodeId) {fixed : Option (List TypeId)}
    (hf : ifSome (each TypeId.Known) fixed n) (hid : id.Known n) (elt : NodeId) (index : Nat) :
    D.Sound n (partType a elts fixed id elt index) TypeId.Known := by
  unfold partType
  refine .ite (fun _ => h.makes (sound_listOf hid)) fun _ => ?_
  split
  · next args =>
    refine sound_known ?_
    split
    · rw [List.getD_eq_getElem?_getD]
      cases hi : args[index]? with
      | none => exact hid
      | some part => exact hf args rfl part (List.mem_of_getElem? hi)
    · exact hid
  · exact sound_known hid

private theorem sound_destructureParts {reach : NodeId → TypeId → EvalM (Option TypeId)}
    (hreach : ∀ elt type k, type.Known k → D.Sound k (reach elt type) (ifSome TypeId.Known))
    (a : Arena) (elts : List NodeId) (hid : id.Known n) :
    D.Sound n (destructureParts reach ask a elts id) (ifSome TypeId.Known) := by
  refine (sound_types h).bind fun t k hk ht => ?_
  have hid : id.Known k := TypeId.lasting_known id n k hk hid
  refine (sound_elementType h hid).bind fun element j hj helement => ?_
  refine Sound.findSomeM? TypeId.lasting_known fun entry _ i hi => ?_
  have hf : ifSome (each TypeId.Known) (fixedElements? t id) i :=
    TypeId.lasting_known.each.ifSome _ k i (Nat.le_trans hj hi) (known_fixedElements? ht id)
  have helement : element.Known i := TypeId.lasting_known element j i hi helement
  exact (sound_partType h a elts hf helement entry.1 entry.2).bind fun part l _ hpart =>
    hreach entry.1 part l hpart

private theorem sound_destructureUpTo (a : Arena) (wanted : NodeId) (fuel : Nat) (target : NodeId)
    (hid : id.Known n) :
    D.Sound n (destructureUpTo ask a wanted fuel target id) (ifSome TypeId.Known) := by
  induction fuel generalizing target id n with
  | zero => exact .pureNone
  | succ fuel ih =>
    have hwanted (node : NodeId) :
        D.Sound n (pure (if node == wanted then some id else none)) (ifSome TypeId.Known) := by
      split
      · exact sound_someKnown hid
      · exact .pureNone
    have hparts (elts : List NodeId) :=
      sound_destructureParts h (fun elt type k htype => ih elt htype) a elts hid
    rw [destructureUpTo]
    split
    · exact hwanted target
    · exact hwanted _
    · exact ih _ hid
    · exact hparts _
    · exact hparts _
    · exact .pureNone

private theorem sound_destructure (a : Arena) (wanted target : NodeId) (hid : id.Known n) :
    D.Sound n (destructure ask a wanted target id) (ifSome TypeId.Known) :=
  sound_destructureUpTo h a wanted a.size target hid

/-! ## Variables -/

private theorem sound_enteredType (hid : id.Known n) :
    D.Sound n (enteredType ask id) TypeId.Known := by
  unfold enteredType
  refine (sound_isDeclaredInstance h id).bind fun b k hk _ => ?_
  have hid : id.Known k := TypeId.lasting_known id n k hk hid
  refine .ite (fun _ => sound_known hid) fun _ => ?_
  refine (sound_member? h hid "__enter__").bind fun o j _ _ => ?_
  split
  · exact sound_callResult h _
  · exact sound_unknown

private theorem sound_caughtType (caught : TypeId) :
    D.Sound n (caughtType caught) TypeId.Known := by
  unfold caughtType
  refine (sound_types h).bind fun t k _ ht => ?_
  split
  · next inner _ hi => exact sound_known (ht.1.inner? ht.2 hi)
  · next args _ _ =>
    refine h.makes (sound_union fun id hid => ?_)
    obtain ⟨arg, -, rfl⟩ := List.mem_map.mp hid
    exact known_getD fun inner hi => ht.1.inner? ht.2 hi
  · exact sound_unknown

private theorem sound_variableType (bound : BoundFile) (d : Declaration) :
    D.Sound n (variableType ask bound d) TypeId.Known := by
  unfold variableType
  dsimp only
  split
  · refine (sound_expressionType h bound.file _).bind fun type k _ htype => ?_
    exact sound_getD (Sound.findSomeM? TypeId.lasting_known fun target _ j hj =>
      sound_destructure h _ _ target (TypeId.lasting_known type k j hj htype))
  · exact sound_optionalType h bound.file _
  · next op value _ =>
    have hlast : ∀ (prior : TypeId) j, prior.Known j → D.Sound j (do
        let right ← expressionType ask bound.file value
        binaryOperation ask bound.file d.owner op prior right) TypeId.Known :=
      fun prior j hprior => (sound_expressionType h bound.file value).bind fun right i hi hright =>
        sound_binaryOperation h bound.file d.owner op
          (TypeId.lasting_known prior j i hi hprior) hright
    split
    · exact (sound_nameTypeAt h bound.file _ _).bind fun prior j _ hprior => hlast prior j hprior
    · exact (sound_expressionType h bound.file _).bind fun prior j _ hprior => hlast prior j hprior
  · refine (sound_expressionType h bound.file _).bind fun iterable k _ hiterable => ?_
    refine (sound_elementType h hiterable).bind fun element j _ helement => ?_
    exact sound_getD (sound_destructure h _ _ _ helement)
  · refine (sound_expressionType h bound.file _).bind fun manager k _ hmanager => ?_
    refine (sound_enteredType h hmanager).bind fun entered j _ hentered => ?_
    exact sound_getD (sound_destructure h _ _ _ hentered)
  · exact (sound_optionalType h bound.file _).bind fun type _ _ _ => sound_caughtType h type
  · exact sound_unknown

/-! ## Parameters -/

private theorem sound_receiverType? (bound : BoundFile) (param : NodeId) :
    D.Sound n (receiverType? bound param) (ifSome TypeId.Known) := by
  unfold receiverType?
  split
  · split
    · dsimp only
      refine .ite (fun _ => .pureNone) fun _ => ?_
      split
      · refine (h.makes (sound_declared _ _)).bind fun inst k _ hinst => ?_
        exact .ite (fun _ => .mapSome (h.makes (sound_classObject hinst))) fun _ =>
          sound_someKnown hinst
      · exact .pureNone
    · exact .pureNone
  · exact .pureNone

private theorem sound_bareParameterType (bound : BoundFile) (param : NodeId)
    (default : Option NodeId) :
    D.Sound n (bareParameterType ask bound param default) TypeId.Known := by
  unfold bareParameterType
  refine (sound_receiverType? h bound param).bind fun o k _ ho => ?_
  split
  · exact sound_known (ho _ rfl)
  · refine (sound_optionalType h bound.file default).bind fun type j _ htype => ?_
    refine sound_known ?_
    split
    · exact .inl (by decide)
    · exact htype

private theorem sound_parameterType (bound : BoundFile) (d : Declaration) :
    D.Sound n (parameterType ask bound d) TypeId.Known := by
  unfold parameterType
  split
  · refine (sound_optionalHint h bound.file _).bind fun declared k _ hdeclared => ?_
    split
    · exact h.makes (sound_tupleOf (known_pair hdeclared (.inl (by decide))))
    · exact h.makes (sound_dictOf (.inl (by decide)) hdeclared)
    · exact .ite (fun _ => sound_known hdeclared) fun _ => sound_bareParameterType h bound d.owner _
  · exact sound_unknown

/-! ## Functions and imports -/

private theorem sound_decorate (file : FileId) (a : Arena) (hid : id.Known n)
    (decorators : List NodeId) :
    D.Sound n (decorate ask file a id decorators) TypeId.Known := by
  induction decorators generalizing id n with
  | nil => exact sound_known hid
  | cons decorator rest ih =>
    rw [decorate]
    refine .ite (fun _ => ih hid) fun _ => ?_
    refine (sound_expressionType h file decorator).bind fun wrapper k _ _ => ?_
    exact (sound_callResult h wrapper).bind fun type j _ htype => ih htype

private theorem sound_functionType (bound : BoundFile) (decl : DeclId) (d : Declaration) :
    D.Sound n (functionType ask bound decl d) TypeId.Known := by
  unfold functionType
  dsimp only
  split
  · next decorators _ params returns _ _ =>
    refine (sound_paramTypes h bound.file bound.arena false params).bind fun found k _ hf => ?_
    have hlast (result : Option TypeId) (j : Nat) (hj : k ≤ j)
        (hresult : ifSome TypeId.Known result j) : D.Sound j (do
          let function ← withTypes (TypeTable.function ⟨d.name, found, result, some decl⟩)
          decorate ask bound.file bound.arena function decorators.reverse) TypeId.Known := by
      have hs : (⟨d.name, found, result, some decl⟩ : Signature).Known j :=
        ⟨lasting_knownParams found k j hj hf, hresult⟩
      exact (h.makes (sound_function hs)).bind fun function i _ hfunction =>
        sound_decorate h bound.file bound.arena hfunction _
    split
    · exact (sound_hintType h bound.file _).mapSome.bind fun result j hj hr => hlast result j hj hr
    · exact hlast none k (Nat.le_refl _) fun _ hr => nomatch hr
  · exact sound_unknown

private theorem sound_importedType (file : FileId) (d : Declaration) :
    D.Sound n (importedType ask file d) TypeId.Known := by
  unfold importedType
  split
  · refine (h.imports n file _ _).bind fun o k _ _ => ?_
    split
    · exact sound_unknown
    · split
      · exact sound_getD (sound_moduleMember? h _ _)
      · exact sound_moduleType h _
  · exact sound_unknown

private theorem sound_hintedType (bound : BoundFile) (file : FileId) (d : Declaration) :
    D.Sound n (hintedType ask bound file d) TypeId.Known := by
  unfold hintedType
  split
  · exact sound_hintType h file _
  · exact sound_variableType h bound d

private theorem sound_computeDeclaration (decl : DeclId) :
    D.Sound n (computeDeclaration ask decl) TypeId.Known := by
  unfold computeDeclaration
  refine (h.binds n decl.file).bind fun o k _ _ => ?_
  split
  · split
    · next d _ =>
      split
      · exact sound_hintedType h _ decl.file d
      · exact sound_hintedType h _ decl.file d
      · exact sound_parameterType h _ d
      · exact sound_functionType h _ decl d
      · exact h.makes ((sound_declared decl d.name).bind fun _ _ _ hid => sound_classObject hid)
      · exact sound_importedType h decl.file d
      · exact sound_importedType h decl.file d
    · exact sound_unknown
  · exact sound_unknown

/-! ## Results -/

/-- The type of a return exists. -/
def KnownReturn (r : TypeId × Bool) (n : Nat) : Prop := r.1.Known n

omit h in
private theorem lasting_knownReturn : Lasting KnownReturn := fun r n k hk hr =>
  TypeId.lasting_known r.1 n k hk hr

private theorem sound_returnType (file : FileId) (a : Arena) (key : EvalKey) (node : NodeId) :
    D.Sound n (returnType ask file a key node) KnownReturn := by
  unfold returnType
  split
  · refine (h.takes n key).bind fun _ k _ _ => ?_
    refine (sound_expressionType h file _).bind fun type j _ htype => ?_
    refine (h.takes j key).bind fun _ i hi _ => .pure fun l hl => ?_
    exact TypeId.lasting_known type j l (Nat.le_trans hi hl) htype
  · exact .pure fun _ _ => .inl (by decide)

theorem sound_returnTypes (file : FileId) (a : Arena) (returns : List NodeId) (key : EvalKey)
    (reachesEnd : Bool) :
    D.Sound n (returnTypes ask file a returns key reachesEnd) (each KnownReturn) := by
  unfold returnTypes
  refine (Sound.mapM lasting_knownReturn fun node _ _ _ =>
    sound_returnType h file a key node).bind fun found k _ hf => .pure fun j hj => ?_
  have hf : each KnownReturn found j := lasting_knownReturn.each found k j hj hf
  split
  · intro r hr
    rcases List.mem_append.mp hr with hr | hr
    · exact hf r hr
    · obtain rfl := List.mem_singleton.mp hr
      exact .inl (by decide)
  · exact hf

private theorem sound_joinReturns (file : FileId) (a : Arena) (returns : List NodeId)
    {key : EvalKey}
    (hkey : Provides slack D ask key) (reachesEnd : Bool) :
    D.Sound n (joinReturns ask file a returns key reachesEnd) TypeId.Known := by
  unfold joinReturns
  refine (sound_returnTypes h file a returns key reachesEnd).bind fun found k _ hf => ?_
  dsimp only
  have hsettled : each TypeId.Known ((found.filter (·.2)).map (·.1)) k := by
    intro id hid
    obtain ⟨r, hr, rfl⟩ := List.mem_map.mp hid
    exact hf r (List.mem_filter.mp hr).1
  refine .ite (fun _ => h.makes (sound_union hsettled)) fun _ => ?_
  refine .ite (fun _ => sound_unknown) fun _ => ?_
  refine (h.makes (sound_union hsettled)).bind fun seed j _ hseed => ?_
  obtain ⟨D', h', hprovides⟩ := hkey j seed hseed
  have hagain := hprovides (sound_returnTypes h' file a returns key reachesEnd)
  refine hagain.bind fun again i _ ha => h.makes (sound_union fun id hid => ?_)
  obtain ⟨r, hr, rfl⟩ := List.mem_map.mp hid
  exact ha r hr

private theorem sound_computeResult (file : FileId) (node : NodeId)
    (hkey : Provides slack D ask (.result file node)) :
    D.Sound n (computeResult ask file node) TypeId.Known := by
  unfold computeResult
  refine (h.binds n file).bind fun o k _ _ => ?_
  split
  · split
    · exact sound_expressionType h file _
    · dsimp only
      refine .ite (fun _ => sound_known (.inl (by decide))) fun _ => ?_
      exact sound_joinReturns h file _ _ hkey _
    · exact sound_unknown
  · exact sound_unknown

/-- The rules for all keys answer with types that exist and do nothing that a rule may not do. -/
theorem sound_compute (key : EvalKey) (hkey : Provides slack D ask key) :
    D.Sound n (compute ask key) TypeId.Known := by
  cases key with
  | node file node => exact sound_computeExpression h file node
  | decl decl => exact sound_computeDeclaration h decl
  | result file node => exact sound_computeResult h file node hkey

/-! ## The type at a node -/

/-- The type of a node exists, if it has one. -/
theorem sound_typeOfNode? (file : FileId) (node : NodeId) :
    D.Sound n (typeOfNode? ask file node) (ifSome TypeId.Known) := by
  unfold typeOfNode?
  refine (h.binds n file).bind fun o k _ _ => ?_
  split
  · split
    · exact .mapSome (sound_declarationType h file _)
    · split
      · exact .pureNone
      · refine .ite (fun _ => .pureNone) fun _ => ?_
        dsimp only
        split
        · exact .mapSome (sound_expressionType h file _)
        · exact .pureNone
  · exact .pureNone

/-! ## Checking imports -/

private theorem sound_checkMembers (bound : BoundFile) (target : FileId) (record : ImportRecord) :
    D.Sound n (checkMembers ask bound target record) anything := by
  unfold checkMembers
  dsimp only
  refine (Sound.forIn fun item _ k _ => ?_).bind fun _ _ _ _ => .unit
  split
  · refine (sound_moduleMember? h target _).bind fun o j _ _ => ?_
    split
    · exact (sound_reportAt h bound.file item _ _).bind fun _ _ _ _ => .pure fun _ _ => trivial
    · exact .pure fun _ _ => trivial
  · exact .pure fun _ _ => trivial

private theorem sound_checkImport (bound : BoundFile) (record : ImportRecord) :
    D.Sound n (checkImport ask bound record) anything := by
  unfold checkImport
  refine (h.imports n bound.file record.path record.level).bind fun o k _ _ => ?_
  split
  · refine sound_state.bind fun st j _ _ => ?_
    exact .ite (fun _ => sound_report h bound.file _ _ _) fun _ => .unit
  · exact .ite (fun _ => sound_checkMembers h bound _ record) fun _ => .unit

/-! ## Checking values -/

-- Two types are shown in the same way whether an assignment or a return is wrong.
private theorem sound_reportMismatch (file : FileId) (site : NodeId) (code : Nat)
    (source target : TypeId) :
    D.Sound n (do reportAt file site code [← format source, ← format target]) anything := by
  refine (sound_format h source).bind fun text k _ _ => ?_
  exact (sound_format h target).bind fun text' j _ _ => sound_reportAt h file site code _

private theorem sound_checkAssignment (file : FileId) (site : NodeId) {source target : TypeId}
    (hsource : source.Known n) (htarget : target.Known n) :
    D.Sound n (checkAssignment ask file site source target) anything := by
  unfold checkAssignment
  refine (h.compares hsource htarget).bind fun b k _ _ => ?_
  exact .ite (fun _ => sound_reportMismatch h file site _ source target) fun _ => .unit

private theorem sound_checkDeclared (bound : BoundFile) (target value : NodeId) {type : TypeId}
    (htype : type.Known n) : D.Sound n (checkDeclared ask bound target value type) anything := by
  unfold checkDeclared
  dsimp only
  split
  · refine .ite (fun _ => ?_) fun _ => .unit
    refine (sound_declaredType? h bound.file _).bind fun o k hk ho => ?_
    split
    · next declared =>
      exact sound_checkAssignment h bound.file value (TypeId.lasting_known type n k hk htype)
        (ho declared rfl)
    · exact .unit
  · exact .unit

private theorem sound_checkReturn (bound : BoundFile) (site : NodeId) {returned : TypeId}
    (hreturned : returned.Known n) (function : Option NodeId) :
    D.Sound n (checkReturn ask bound site returned function) anything := by
  unfold checkReturn
  split
  · refine (sound_hintType h bound.file _).bind fun declared k hk hdeclared => ?_
    have hreturned : returned.Known k := TypeId.lasting_known returned n k hk hreturned
    refine (h.compares hreturned hdeclared).bind fun b j _ _ => ?_
    exact .ite (fun _ => sound_reportMismatch h bound.file site _ returned declared) fun _ => .unit
  · exact .unit

/-! ## Checking targets -/

private theorem sound_discarded (bound : BoundFile) (node : NodeId) :
    D.Sound n (discard (expressionType ask bound.file node)) anything :=
  (sound_expressionType h bound.file node).discard

private theorem sound_visitTarget (bound : BoundFile) (fuel : Nat) (target : NodeId) :
    D.Sound n (visitTarget ask bound fuel target) anything := by
  induction fuel generalizing target n with
  | zero => exact .unit
  | succ fuel ih =>
    have hvisit {n : Nat} := sound_discarded h (n := n) bound
    rw [visitTarget]
    dsimp only
    split
    · exact .unit
    · exact (sound_typeOfNode? h bound.file target).discard
    · refine (hvisit _).bind fun _ k _ _ => ?_
      split
      · exact (sound_declarationType h bound.file _).discard
      · exact .unit
    · exact (hvisit _).bind fun _ k _ _ => hvisit _
    · exact .forM fun elt _ k _ => ih elt
    · exact .forM fun elt _ k _ => ih elt
    · exact ih _
    · exact hvisit target

private theorem sound_checkTarget (bound : BoundFile) (value : NodeId) {type : TypeId}
    (htype : type.Known n) (target : NodeId) :
    D.Sound n (checkTarget ask bound value type target) anything := by
  unfold checkTarget
  refine (sound_visitTarget h bound _ target).bind fun _ k hk _ => ?_
  have htype : type.Known k := TypeId.lasting_known type n k hk htype
  exact .ite (fun _ => sound_checkDeclared h bound target value htype) fun _ => .unit

private theorem sound_checkAugmented (bound : BoundFile) (stmt target : NodeId) (op : BinaryOp)
    (value : NodeId) : D.Sound n (checkAugmented ask bound stmt target op value) anything := by
  unfold checkAugmented
  refine .ite (fun _ => ?_) fun _ => ?_
  · refine (sound_expressionType h bound.file value).bind fun _ k _ _ => ?_
    refine (sound_typeOfNode? h bound.file target).bind fun result j _ hresult => ?_
    refine sound_checkDeclared h bound target value ?_
    cases result with
    | none => exact .inl (by decide)
    | some type => exact hresult type rfl
  · refine (sound_expressionType h bound.file target).bind fun left k _ hleft => ?_
    refine (sound_expressionType h bound.file value).bind fun right j hj hright => ?_
    exact (sound_binaryOperation h bound.file stmt op
      (TypeId.lasting_known left k j hj hleft) hright).discard

/-! ## Checking statements -/

private theorem sound_checkHead (bound : BoundFile) (decorators : List NodeId) (name : NodeId)
    (params : List NodeId) (returns : Option NodeId) :
    D.Sound n (checkHead ask bound decorators name params returns) anything := by
  unfold checkHead
  dsimp only
  refine (Sound.forIn fun decorator _ k _ => ?_).bind fun _ k _ _ => ?_
  · split
    · exact (sound_expressionType h bound.file decorator).discard.bind fun _ _ _ _ =>
        .pure fun _ _ => trivial
    · exact .pure fun _ _ => trivial
  · refine (Sound.forIn fun param _ j _ => ?_).bind fun _ j _ _ => ?_
    · split
      · refine (sound_optionalType h bound.file _).discard.bind fun _ i _ _ => ?_
        exact (Sound.optionForM fun name _ => sound_visitTarget h bound _ name).bind
          fun _ _ _ _ => .pure fun _ _ => trivial
      · exact .pure fun _ _ => trivial
    · refine (sound_optionalHint h bound.file returns).discard.bind fun _ i _ _ => ?_
      exact sound_visitTarget h bound _ name

private theorem sound_checkStatement (bound : BoundFile) (fuel : Nat) (function : Option NodeId)
    (stmt : NodeId) : D.Sound n (checkStatement ask bound fuel function stmt) anything := by
  induction fuel generalizing function stmt n with
  | zero => exact .unit
  | succ fuel ih =>
    have hvisit {n : Nat} := sound_discarded h (n := n) bound
    have hoption {n : Nat} (node : Option NodeId) :
        D.Sound n (discard (optionalType ask bound.file node)) anything :=
      (sound_optionalType h bound.file node).discard
    have hdeclare {n : Nat} (node : NodeId) :
        D.Sound n (visitTarget ask bound bound.arena.size node) anything :=
      sound_visitTarget h bound _ node
    have hblock {n : Nat} (function : Option NodeId) (body : List NodeId) :
        D.Sound n (body.forM (checkStatement ask bound fuel function)) anything :=
      .forM fun stmt _ _ _ => ih function stmt
    have hbranches (test : NodeId) (body orelse : List NodeId) : D.Sound n (do
        discard (expressionType ask bound.file test)
        body.forM (checkStatement ask bound fuel function)
        orelse.forM (checkStatement ask bound fuel function)) anything :=
      (hvisit test).bind fun _ _ _ _ => (hblock function body).bind fun _ _ _ _ =>
        hblock function orelse
    have himport (names : List NodeId) : D.Sound n ((names.filterMap
        (importedName? bound.arena)).forM (visitTarget ask bound bound.arena.size)) anything :=
      .forM fun node _ _ _ => hdeclare node
    rw [checkStatement]
    dsimp only
    split
    · exact hvisit _
    · refine (sound_expressionType h bound.file _).bind fun type k _ htype => ?_
      exact .forM fun target _ j hj =>
        sound_checkTarget h bound _ (TypeId.lasting_known type k j hj htype) target
    · refine (sound_hintType h bound.file _).bind fun declared k _ hdeclared => ?_
      refine (hdeclare _).bind fun _ j hj _ => ?_
      split
      · refine (sound_expressionType h bound.file _).bind fun type i hi htype => ?_
        exact sound_checkAssignment h bound.file _ htype
          (TypeId.lasting_known declared k i (Nat.le_trans hj hi) hdeclared)
      · exact .unit
    · exact sound_checkAugmented h bound stmt _ _ _
    · refine (sound_expressionType h bound.file _).bind fun returned k _ hreturned => ?_
      exact sound_checkReturn h bound _ hreturned function
    · exact sound_checkReturn h bound stmt (.inl (by decide)) function
    · exact (hoption _).bind fun _ _ _ _ => hoption _
    · exact (hvisit _).bind fun _ _ _ _ => hoption _
    · exact .forM fun target _ _ _ => hdeclare target
    · exact hbranches _ _ _
    · exact hbranches _ _ _
    · exact (hvisit _).bind fun _ _ _ _ => (hdeclare _).bind fun _ _ _ _ =>
        (hblock function _).bind fun _ _ _ _ => hblock function _
    · refine (hblock function _).bind fun _ k _ _ => ?_
      refine (Sound.forIn fun clause _ j _ => ?_).bind fun _ j _ _ =>
        (hblock function _).bind fun _ _ _ _ => hblock function _
      split
      · refine (hoption _).bind fun _ i _ _ => ?_
        refine (Sound.optionForM fun name _ => hdeclare name).bind fun _ l _ _ => ?_
        exact (hblock function _).bind fun _ _ _ _ => .pure fun _ _ => trivial
      · exact .pure fun _ _ => trivial
    · refine (Sound.forIn fun item _ j _ => ?_).bind fun _ j _ _ => hblock function _
      split
      · refine (hvisit _).bind fun _ i _ _ => ?_
        exact (Sound.optionForM fun target _ => hdeclare target).bind fun _ _ _ _ =>
          .pure fun _ _ => trivial
      · exact .pure fun _ _ => trivial
    · exact (sound_checkHead h bound _ _ _ _).bind fun _ _ _ _ => hblock (some stmt) _
    · refine (Sound.forM fun node _ _ _ => hvisit node).bind fun _ k _ _ => ?_
      refine (Sound.forM fun node _ _ _ => hvisit node).bind fun _ j _ _ => ?_
      exact (hdeclare _).bind fun _ _ _ _ => hblock none _
    · exact himport _
    · exact himport _
    · exact .unit

omit h in
/-- A check of a file does nothing but what rules do. -/
theorem sound_checkFile (h : Admits slack D evaluate) (file : FileId) :
    D.Sound n (checkFile file) anything := by
  unfold checkFile
  refine (h.binds n file).bind fun o k _ _ => ?_
  split
  · refine (Sound.arrayForM fun record _ _ _ => sound_checkImport h _ record).bind fun _ j _ _ => ?_
    split
    · exact .forM fun stmt _ _ _ => sound_checkStatement h _ _ none stmt
    · exact .unit
  · exact .unit

end LiveCheck.Evaluation
