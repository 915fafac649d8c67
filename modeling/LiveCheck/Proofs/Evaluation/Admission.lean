import LiveCheck.Evaluation.Check
import LiveCheck.Proofs.Types.Operations

/-!
# Rules that keep to a discipline

The rules of evaluation touch the session, the table of types and the rest of the state by a few
operations only, and ask for everything else. A discipline that allows these operations is kept by
all rules, whatever it is about.
-/

namespace LiveCheck.Evaluation

open Discipline TypeTable

/-- The discipline allows all that a rule does by itself, and what is done to answer it. -/
structure Admits (slack : Nat) (D : Discipline EvalState) (ask : Ask) : Prop where
  size : ∀ st, D.size st = st.session.types.extent slack
  closed : ∀ st, D.Ok st → st.session.types.Closed slack
  asks : ∀ n key, D.Sound n (ask key) TypeId.Known
  makes : ∀ {α : Type} {n : Nat} {m : TypeM α} {R : α → Nat → Prop},
    (growth slack).Sound n m R → D.Sound n (withTypes m) R
  binds : ∀ n file, D.Sound n (bound? file) anything
  imports : ∀ n file dotted level,
    D.Sound n (withSession (·.importFrom file dotted level)) anything
  enters : ∀ n package name, D.Sound n (withSession (·.submodule package name)) anything
  reports : ∀ n file diagnostic,
    D.Sound n (modify fun st =>
      { st with session := st.session.modifyUnit file (·.report diagnostic) }) anything
  takes : ∀ n key, D.Sound n (takeReentered key) anything
  bases : ∀ n cls, D.Sound n (declaredBases ask cls) anything
  compares : ∀ {n : Nat} {source target : TypeId}, source.Known n → target.Known n →
    D.Sound n (isAssignable ask source target) anything
  strays : ∀ {α : Type} {n : Nat} {a : α} {R : α → Nat → Prop}, (∀ k, n ≤ k → R a k) →
    D.Sound n (giveUp a) R

/-- A computation may be run with an answer for the key, under a discipline that allows the same and
in which this answer is given. -/
def Provides (slack : Nat) (D : Discipline EvalState) (ask : Ask) (key : EvalKey) : Prop :=
  ∀ n type, type.Known n → ∃ D', Admits slack D' ask ∧
    ∀ {α : Type} {m : EvalM α} {R : α → Nat → Prop},
      D'.Sound n m R → D.Sound n (withProvisional key type m) R

variable {slack n k : Nat} {D : Discipline EvalState} {ask : Ask} (h : Admits slack D ask)

/-! ## Reading -/

theorem sound_state : D.Sound n (get : EvalM EvalState) anything :=
  fun st hs _ => ⟨hs, D.refl st, Nat.le_refl _, trivial⟩

/-! ## Bases of classes -/

theorem sound_classDefinition? (hbinds : ∀ n file, D.Sound n (bound? file) anything)
    (decl : DeclId) : D.Sound n (classDefinition? decl) anything := by
  have hdeclaration : D.Sound n (declaration? decl) anything :=
    (hbinds n decl.file).bind fun _ _ _ _ => .pure fun _ _ => trivial
  unfold classDefinition?
  refine hdeclaration.bind fun o k _ _ => ?_
  split
  · refine .ite (fun _ => .pure fun _ _ => trivial) fun _ => ?_
    exact (hbinds k decl.file).bind fun _ _ _ _ => .pure fun _ _ => trivial
  · exact .pure fun _ _ => trivial

theorem sound_evaluateBases (hasks : ∀ n key, D.Sound n (ask key) TypeId.Known) (file : FileId)
    (found : List ClassKey) (nodes : List NodeId) :
    D.Sound n (evaluateBases ask file found nodes) anything := by
  induction nodes generalizing found n with
  | nil => exact .pure fun _ _ => trivial
  | cons base rest ih =>
    rw [evaluateBases]
    refine (hasks n (.node file base)).bind fun value k _ _ => ?_
    refine sound_state.bind fun st j _ _ => ?_
    split
    · exact ih _
    · exact ih _

private theorem sound_findBases (hasks : ∀ n key, D.Sound n (ask key) TypeId.Known)
    (hbinds : ∀ n file, D.Sound n (bound? file) anything) (decl : DeclId) :
    D.Sound n (findBases ask decl) anything := by
  unfold findBases
  refine (sound_classDefinition? hbinds decl).bind fun o k _ _ => ?_
  split
  · exact sound_evaluateBases hasks decl.file [] _
  · exact .pure fun _ _ => trivial

/-- A discipline that lets bases be noted allows to find them. -/
theorem sound_declaredBases (hasks : ∀ n key, D.Sound n (ask key) TypeId.Known)
    (hbinds : ∀ n file, D.Sound n (bound? file) anything)
    (hnotes : ∀ n decl bases, D.Sound n (setBases decl bases) anything) (cls : DeclaredClass) :
    D.Sound n (declaredBases ask cls) anything := by
  unfold declaredBases
  refine sound_state.bind fun st k _ _ => ?_
  split
  · exact .pure fun _ _ => trivial
  · refine (hnotes k cls.decl []).bind fun _ k _ _ => ?_
    refine (sound_findBases hasks hbinds cls.decl).bind fun bases k _ _ => ?_
    exact (hnotes k cls.decl bases).bind fun _ _ _ _ => .pure fun _ _ => trivial

/-! ## Comparing types -/

section

variable (hbases : ∀ n cls, D.Sound n (declaredBases ask cls) anything)

include hbases

private theorem sound_prepareFirst {next : List DeclaredClass → List DeclId → EvalM Unit}
    (hnext : ∀ n waiting seen, D.Sound n (next waiting seen) anything)
    (waiting : List DeclaredClass) (seen : List DeclId) :
    D.Sound n (prepareFirst ask next waiting seen) anything := by
  induction waiting generalizing seen n with
  | nil => exact .unit
  | cons cls waiting ih =>
    rw [prepareFirst]
    refine .ite (fun _ => ih seen) fun _ => (hbases n cls).bind fun bases k _ _ => ?_
    split
    · exact ih _
    · exact hnext k _ _

private theorem sound_prepareClasses {again : List DeclaredClass → List DeclId → EvalM Unit}
    (hagain : ∀ n waiting seen, D.Sound n (again waiting seen) anything) (classes : Nat)
    (waiting : List DeclaredClass) (seen : List DeclId) :
    D.Sound n (prepareClasses ask again classes waiting seen) anything := by
  induction classes generalizing waiting seen n with
  | zero => exact hagain n waiting seen
  | succ classes ih => exact sound_prepareFirst hbases (fun _ _ _ => ih _ _) waiting seen

private theorem sound_prepareUpTo (files : Nat) (waiting : List DeclaredClass)
    (seen : List DeclId) :
    D.Sound n (prepareUpTo ask files waiting seen) anything := by
  induction files generalizing waiting seen n with
  | zero => exact .unit
  | succ files ih =>
    refine sound_state.bind fun st k _ _ => ?_
    exact sound_prepareClasses hbases (fun _ _ _ => ih _ _) _ waiting seen

theorem sound_prepare (cls : ClassKey) : D.Sound n (prepare ask cls) anything := by
  cases cls with
  | builtin _ => exact .unit
  | declared cls => exact sound_state.bind fun st k _ _ => sound_prepareUpTo hbases _ _ _

/-- A discipline that lets bases be found and comparisons be made allows to ask for both. -/
theorem sound_isAssignable
    (hcompares : ∀ n source target, D.Sound n (compareTypes source target) anything)
    (source target : TypeId) : D.Sound n (isAssignable ask source target) anything := by
  have hplaceholder (n : Nat) (type : TypeId) : D.Sound n (isPlaceholder type) anything :=
    sound_state.bind fun _ _ _ _ => .pure fun _ _ => trivial
  unfold isAssignable
  refine (hplaceholder n source).bind fun b k _ _ => ?_
  refine .ite (fun _ => .pure fun _ _ => trivial) fun _ => ?_
  refine (hplaceholder k target).bind fun b k _ _ => ?_
  refine .ite (fun _ => .pure fun _ _ => trivial) fun _ => ?_
  refine sound_state.bind fun st k _ _ => ?_
  refine (Sound.forIn fun cls _ j _ => (sound_prepare hbases _).bind fun _ _ _ _ =>
    .pure fun _ _ => trivial).bind fun _ k _ _ => ?_
  exact hcompares k source target

end

include h

theorem sound_types : D.Sound n types (Current slack) := by
  intro st hs _
  refine ⟨hs, D.refl st, Nat.le_refl _, h.closed st hs, ?_⟩
  rw [h.size]
  exact Nat.le_refl _

theorem sound_format (type : TypeId) : D.Sound n (format type) anything :=
  (sound_types h).bind fun _ _ _ _ => .pure fun _ _ => trivial

theorem sound_declaration? (decl : DeclId) : D.Sound n (declaration? decl) anything :=
  (h.binds n decl.file).bind fun _ _ _ _ => .pure fun _ _ => trivial

theorem sound_isDeclaredInstance (type : TypeId) :
    D.Sound n (isDeclaredInstance type) anything :=
  (sound_types h).bind fun _ _ _ _ => .pure fun _ _ => trivial

theorem sound_isPlaceholder (type : TypeId) : D.Sound n (isPlaceholder type) anything :=
  (sound_types h).bind fun _ _ _ _ => .pure fun _ _ => trivial

theorem sound_report (file : FileId) (span : Span) (code : Nat) (texts : List String) :
    D.Sound n (report file span code texts) anything :=
  (h.binds n file).bind fun _ k _ _ => h.reports k file _

theorem sound_reportAt (file : FileId) (node : NodeId) (code : Nat) (texts : List String) :
    D.Sound n (reportAt file node code texts) anything :=
  (h.binds n file).bind fun _ _ _ _ => sound_report h file _ code texts

/-- After a report the answer is an unknown type. -/
theorem sound_reportFormat (file : FileId) (node : NodeId) (code : Nat) (type : TypeId)
    (texts : String → List String) :
    D.Sound n (do reportAt file node code (texts (← format type)); return .unknown)
      TypeId.Known := by
  refine (sound_format h type).bind fun text k _ _ => ?_
  exact (sound_reportAt h file node code _).bind fun _ _ _ _ => sound_unknown

/-! ## Asking -/

/-- The type of an expression exists. -/
theorem sound_expressionType (file : FileId) (node : NodeId) :
    D.Sound n (expressionType ask file node) TypeId.Known := h.asks n _

theorem sound_declarationType (file : FileId) (index : DeclIndex) :
    D.Sound n (declarationType ask file index) TypeId.Known := h.asks n _

theorem sound_optionalType (file : FileId) (node : Option NodeId) :
    D.Sound n (optionalType ask file node) TypeId.Known := by
  cases node with
  | none => exact sound_unknown
  | some node => exact h.asks n _

/-! ## Symbols and modules -/

/-- The type of a symbol exists. -/
theorem sound_symbolType (file : FileId) (symbol : SymbolId) :
    D.Sound n (symbolType ask file symbol) TypeId.Known := by
  unfold symbolType
  refine (h.binds n file).bind fun o k _ _ => ?_
  split
  · dsimp only
    split
    · exact sound_declarationType h file _
    · refine (Sound.mapM TypeId.lasting_known fun d _ _ _ => sound_declarationType h file d).bind
        fun found j _ hf => ?_
      exact .ite (fun _ => sound_unknown) fun _ => h.makes (sound_union hf)
  · exact sound_unknown

theorem sound_declaredType? (file : FileId) (symbol : SymbolId) :
    D.Sound n (declaredType? ask file symbol) (ifSome TypeId.Known) := by
  unfold declaredType?
  refine (h.binds n file).bind fun o k _ _ => ?_
  split
  · split
    · exact .mapSome (sound_declarationType h file _)
    · exact .pureNone
  · exact .pureNone

theorem sound_moduleType (file : FileId) : D.Sound n (moduleType file) TypeId.Known := by
  unfold moduleType
  refine (h.binds n file).bind fun o k _ _ => ?_
  split
  · exact h.makes (sound_moduleObject file _)
  · exact sound_unknown

theorem sound_moduleMember? (file : FileId) (name : String) :
    D.Sound n (moduleMember? ask file name) (ifSome TypeId.Known) := by
  unfold moduleMember?
  refine (h.binds n file).bind fun o k _ _ => ?_
  split
  · split
    · exact .mapSome (sound_symbolType h file _)
    · refine (h.enters k file name).bind fun target j _ _ => ?_
      split
      · exact .mapSome (sound_moduleType h _)
      · exact .pureNone
  · exact .pureNone

/-! ## Calls without regard to arguments -/

theorem sound_functionResult {s : Signature} (hs : s.Known n) :
    D.Sound n (functionResult ask s) TypeId.Known := by
  unfold functionResult
  split
  · next hr => exact sound_known (hs.2 _ hr)
  · exact sound_unknown
  · refine (sound_declaration? h _).bind fun o k _ _ => ?_
    split
    · exact h.asks k _
    · exact sound_unknown

private theorem sound_callResultUpTo (fuel : Nat) (callee : TypeId) :
    D.Sound n (callResultUpTo ask fuel callee) TypeId.Known := by
  induction fuel generalizing callee n with
  | zero => exact h.strays fun _ _ => .inl (by decide)
  | succ fuel ih =>
    refine (sound_types h).bind fun t k hk ht => ?_
    split
    · next shape hd =>
      cases hs : t.shape? shape with
      | none => exact sound_unknown
      | some s => exact sound_functionResult h (ht.1.signature ht.2 hs)
    · exact ih _
    · next inner hd => exact sound_known (ht.1.part ht.2 hd (by simp [TypeData.parts]))
    · refine (Sound.mapM TypeId.lasting_known fun m _ _ _ => ih m).bind fun results j _ hr => ?_
      exact h.makes (sound_union hr)
    · exact sound_known (.inl (by decide))
    · exact sound_unknown

theorem sound_callResult (callee : TypeId) :
    D.Sound n (callResult ask callee) TypeId.Known :=
  (sound_types h).bind fun _ _ _ _ => sound_callResultUpTo h _ callee

end LiveCheck.Evaluation

/-!
## Attributes and type expressions keep to a discipline

Looking up attributes, finding the bases of classes, iterating and reading annotations answer with
types that exist, and do nothing that a rule may not do.
-/

namespace LiveCheck.Evaluation

open Discipline TypeTable

variable {slack n k : Nat} {D : Discipline EvalState} {ask : Ask} {id object receiver : TypeId}
  {args : List TypeId} (h : Admits slack D ask)

include h

/-! ### Classes -/

theorem sound_classScope? (decl : DeclId) : D.Sound n (classScope? decl) anything := by
  unfold classScope?
  refine (sound_classDefinition? h.binds decl).bind fun o k _ _ => ?_
  split
  · exact .pure fun _ _ => trivial
  · exact .pure fun _ _ => trivial

omit h in
private theorem sound_hierarchy : D.Sound n hierarchy anything :=
  sound_state.bind fun _ _ _ _ => .pure fun _ _ => trivial

theorem sound_searchOrder (cls : ClassKey) : D.Sound n (searchOrder ask cls) anything := by
  refine (sound_prepare h.bases cls).bind fun _ k _ _ => ?_
  exact sound_hierarchy.bind fun _ _ _ _ => .pure fun _ _ => trivial

/-! ### Looking up attributes -/

private theorem sound_bindAttribute (bound : BoundFile) (symbol : SymbolId) (hr : receiver.Known n)
    (access : Access) :
    D.Sound n (bindAttribute ask bound symbol receiver access) TypeId.Known := by
  unfold bindAttribute
  refine (sound_symbolType h bound.file symbol).bind fun type k hk htype => ?_
  refine (sound_types h).bind fun t j hj ht => ?_
  have htype : type.Known j := TypeId.lasting_known type k j hj htype
  have hr : receiver.Known j := TypeId.lasting_known receiver n j (Nat.le_trans hk hj) hr
  have hmethod (cls : TypeId) (i : Nat) (hi : j ≤ i) (hcls : cls.Known i) :
      D.Sound i (withTypes (boundMethod type cls)) TypeId.Known :=
    h.makes (sound_boundMethod (TypeId.lasting_known type j i hi htype) hcls)
  split
  · next signature hs =>
    dsimp only
    refine .ite (fun _ => sound_known htype) fun _ => ?_
    refine .ite (fun _ => ?_) fun _ => ?_
    · cases access with
      | throughInstance =>
        exact (h.makes (sound_classObject hr)).bind fun cls i hi hcls => hmethod cls i hi hcls
      | throughClass => exact hmethod receiver j (Nat.le_refl _) hr
    · split
      · exact sound_functionResult h (ht.1.signature? ht.2 hs)
      · exact hmethod receiver j (Nat.le_refl _) hr
      · exact sound_known htype
  · exact sound_known htype

private theorem sound_ownMember? (decl : DeclId) (name : String) (hr : receiver.Known n)
    (access : Access) :
    D.Sound n (ownMember? ask decl name receiver access) (ifSome TypeId.Known) := by
  unfold ownMember?
  refine (sound_classScope? h decl).bind fun o k hk _ => ?_
  split
  · next bound scope _ =>
    split
    · exact .mapSome (sound_bindAttribute h bound _ (TypeId.lasting_known _ n k hk hr) access)
    · refine .ite (fun _ => .pureNone) fun _ => ?_
      split
      · exact .mapSome (sound_symbolType h bound.file _)
      · exact .pureNone
  · exact .pureNone

private theorem sound_memberIn? (first : ClassKey) (ha : each TypeId.Known args n) (name : String)
    {self : TypeId} (hself : self.Known n) (hr : receiver.Known n) (access : Access)
    (cls : ClassKey) :
    D.Sound n (memberIn? ask first args name self receiver access cls) (ifSome TypeId.Known) := by
  cases cls with
  | builtin b =>
    refine h.makes (sound_builtinMethod? b name ?_ hself)
    split
    · exact ha
    · exact fun _ hid => nomatch hid
  | declared d => exact sound_ownMember? h d.decl name hr access

-- The search for an attribute in the classes of an order, as instances and classes do it.
private theorem sound_memberSearch (first : ClassKey) (ha : each TypeId.Known args n)
    (name : String) {self : TypeId} (hself : self.Known n) (hr : receiver.Known n)
    (access : Access) (order : List ClassKey) :
    D.Sound n (order.findSomeM? (memberIn? ask first args name self receiver access))
      (ifSome TypeId.Known) :=
  Sound.findSomeM? TypeId.lasting_known fun cls _ j hj =>
    sound_memberIn? h first (TypeId.lasting_known.each args n j hj ha) name
      (TypeId.lasting_known self n j hj hself) (TypeId.lasting_known receiver n j hj hr) access cls

private theorem sound_instanceMember? (hr : receiver.Known n) (cls : ClassKey)
    (ha : each TypeId.Known args n) (name : String) :
    D.Sound n (instanceMember? ask receiver cls args name) (ifSome TypeId.Known) := by
  unfold instanceMember?
  refine (sound_searchOrder h cls).bind fun order k hk _ => ?_
  have hr : receiver.Known k := TypeId.lasting_known receiver n k hk hr
  refine (sound_memberSearch h cls (TypeId.lasting_known.each args n k hk ha) name hr hr
    .throughInstance order).bind fun o j hj ho => ?_
  split
  · exact sound_someKnown (ho _ rfl)
  · refine .ite (fun _ => ?_) fun _ => .pureNone
    exact .mapSome (h.makes (sound_classObject (TypeId.lasting_known receiver k j hj hr)))

private theorem sound_classMember? (ho : object.Known n) {inner : TypeId} (hi : inner.Known n)
    (name : String) : D.Sound n (classMember? ask object inner name) (ifSome TypeId.Known) := by
  unfold classMember?
  refine .ite (fun _ => sound_someKnown (.inl (by decide))) fun _ => ?_
  refine (sound_types h).bind fun t k hk ht => ?_
  split
  · next cls args hp =>
    refine (sound_searchOrder h cls).bind fun order j hj _ => ?_
    have ha : each TypeId.Known args k := ht.1.parts? ht.2 hp
    have hlater := Nat.le_trans hk hj
    exact sound_memberSearch h cls (TypeId.lasting_known.each args k j hj ha) name
      (TypeId.lasting_known inner n j hlater hi) (TypeId.lasting_known object n j hlater ho)
      .throughClass order
  · exact .pureNone

omit h in
-- Functions and bound methods have no attribute but their name.
private theorem sound_nameOnly (name : String) :
    D.Sound n (pure (if name == "__name__" then some .str else none)) (ifSome TypeId.Known) := by
  split
  · exact sound_someKnown (.inl (by decide))
  · exact .pureNone

private theorem sound_simpleMember? (name : String) (ho : object.Known n) :
    D.Sound n (simpleMember? ask name object) (ifSome TypeId.Known) := by
  unfold simpleMember?
  refine .ite (fun _ => sound_someKnown ho) fun _ => ?_
  refine (sound_types h).bind fun t k hk ht => ?_
  have ho : object.Known k := TypeId.lasting_known object n k hk ho
  split
  · exact sound_someKnown (.inl (by decide))
  · next cls args hd =>
    exact sound_instanceMember? h ho cls (fun part hp => ht.1.part ht.2 hd hp) name
  · next inner hd =>
    exact sound_classMember? h ho (ht.1.part ht.2 hd (by simp [TypeData.parts])) name
  · exact sound_moduleMember? h _ name
  · exact sound_nameOnly name
  · exact sound_nameOnly name
  · exact .pureNone

private theorem sound_memberUpTo? (name : String) (fuel : Nat) (ho : object.Known n) :
    D.Sound n (memberUpTo? ask name fuel object) (ifSome TypeId.Known) := by
  induction fuel generalizing object n with
  | zero => exact h.strays fun _ _ => nofun
  | succ fuel ih =>
    refine (sound_types h).bind fun t k hk ht => ?_
    split
    · next members hd =>
      have hm : ∀ m ∈ members, ∀ j, k ≤ j →
          D.Sound j (OptionT.mk (memberUpTo? ask name fuel m)).run (ifSome TypeId.Known) :=
        fun m hm j hj => ih (TypeId.lasting_known m k j hj (ht.1.part ht.2 hd hm))
      refine Sound.optionBind (Sound.optionMapM TypeId.lasting_known hm) fun found j _ hf => ?_
      exact Sound.optionLift (h.makes (sound_union hf))
    · exact sound_simpleMember? h name (TypeId.lasting_known object n k hk ho)

theorem sound_member? (ho : object.Known n) (name : String) :
    D.Sound n (member? ask object name) (ifSome TypeId.Known) :=
  (sound_types h).bind fun _ k hk _ =>
    sound_memberUpTo? h name _ (TypeId.lasting_known object n k hk ho)

theorem sound_memberAccess (file : FileId) (site : NodeId) (ho : object.Known n) (name : String) :
    D.Sound n (memberAccess ask file site object name) TypeId.Known := by
  unfold memberAccess
  refine (sound_member? h ho name).bind fun o k _ hm => ?_
  split
  · exact sound_known (hm _ rfl)
  · exact sound_reportFormat h file site _ object fun text => [name, text]

/-! ### Declarations of attributes -/

theorem sound_memberDeclarationsIn? (access : Access) (name : String) (cls : ClassKey) :
    D.Sound n (memberDeclarationsIn? access name cls) (ifSome anything) := by
  cases cls with
  | builtin _ => exact .pureNone
  | declared d =>
    refine (sound_classScope? h d.decl).bind fun o k _ _ => ?_
    split
    · exact .pure fun _ _ _ _ => trivial
    · exact .pureNone

private theorem sound_memberDeclarationsOf (cls : ClassKey) (access : Access) (name : String) :
    D.Sound n (memberDeclarationsOf ask cls access name) anything := by
  refine (sound_searchOrder h cls).bind fun order k _ _ => ?_
  refine (Sound.findSomeM? lasting_anything fun cls _ _ _ =>
    sound_memberDeclarationsIn? h access name cls).bind fun _ _ _ _ => .pure fun _ _ => trivial

private theorem sound_simpleMemberDeclarations (name : String) (object : TypeId) :
    D.Sound n (simpleMemberDeclarations ask name object) anything := by
  unfold simpleMemberDeclarations
  refine (sound_types h).bind fun t k _ _ => ?_
  split
  · refine (h.binds k _).bind fun o j _ _ => ?_
    split
    · exact .pure fun _ _ => trivial
    · exact .pure fun _ _ => trivial
  · exact sound_memberDeclarationsOf h _ _ name
  · split
    · exact sound_memberDeclarationsOf h _ _ name
    · exact .pure fun _ _ => trivial
  · exact .pure fun _ _ => trivial

theorem sound_memberDeclarationsUpTo (name : String) (fuel : Nat) (object : TypeId) :
    D.Sound n (memberDeclarationsUpTo ask name fuel object) anything := by
  induction fuel generalizing object n with
  | zero => exact h.strays fun _ _ => trivial
  | succ fuel ih =>
    refine (sound_types h).bind fun t k _ _ => ?_
    split
    · refine (Sound.mapM lasting_anything fun m _ _ _ => ih m).bind fun _ _ _ _ => ?_
      exact .pure fun _ _ => trivial
    · exact sound_simpleMemberDeclarations h name object

theorem sound_memberDeclarations (object : TypeId) (name : String) :
    D.Sound n (memberDeclarations ask object name) anything :=
  (sound_types h).bind fun _ _ _ _ => sound_memberDeclarationsUpTo h name _ object

/-! ### Iteration -/

private theorem sound_iteratedType (hid : id.Known n) (iter : Option TypeId) :
    D.Sound n (iteratedType ask id iter) TypeId.Known := by
  cases iter with
  | none =>
    refine (h.makes (sound_element? hid)).bind fun element k _ helement => ?_
    split
    · exact sound_known (known_getD (helement _ rfl))
    · exact h.strays fun _ _ => .inl (by decide)
  | some method =>
    refine (sound_callResult h method).bind fun iterator k _ hiterator => ?_
    refine (sound_member? h hiterator "__next__").bind fun next j _ _ => ?_
    split
    · exact sound_callResult h _
    · exact sound_unknown

theorem sound_elementType (hid : id.Known n) : D.Sound n (elementType ask id) TypeId.Known := by
  unfold elementType
  refine (sound_isDeclaredInstance h id).bind fun b k hk _ => ?_
  have hid : id.Known k := TypeId.lasting_known id n k hk hid
  split
  · refine (sound_member? h hid "__iter__").bind fun iter j hj _ => ?_
    exact sound_iteratedType h (TypeId.lasting_known id k j hj hid) iter
  · exact sound_iteratedType h hid none

/-! ### Type expressions -/

omit h in
private theorem known_formType {t : TypeTable} (ht : t.Current slack k) (hid : id.Known k) :
    (formType t id).Known k := by
  unfold formType
  split
  · next hi => exact ht.1.inner? ht.2 hi
  · split
    · exact hid
    · exact .inl (by decide)

theorem sound_builtinType (name : String) : D.Sound n (builtinType name) (ifSome TypeId.Known) := by
  unfold builtinType
  split
  · next hf => exact .mapSome (h.makes (sound_builtinSymbol hf))
  · exact .pureNone

private theorem sound_followMembers (hid : id.Known n) (parts : List String) :
    D.Sound n (followMembers ask id parts) TypeId.Known := by
  induction parts generalizing id n with
  | nil => exact sound_known hid
  | cons part parts ih =>
    rw [followMembers]
    exact (sound_member? h hid part).bind fun o k _ ho => ih (known_getD ho)

/-- The last step of reading an annotation: the type that the value found stands for. -/
theorem sound_formType (hid : id.Known n) :
    D.Sound n (do return formType (← types) id) TypeId.Known :=
  (sound_types h).bind fun _ k hk ht =>
    sound_known (known_formType ht (TypeId.lasting_known id n k hk hid))

private theorem sound_forwardReference (file : FileId) (text : String) :
    D.Sound n (forwardReference ask file text) TypeId.Known := by
  unfold forwardReference
  refine (h.binds n file).bind fun o k _ _ => ?_
  split
  · split
    · exact sound_unknown
    · next first rest _ =>
      have hrest : ∀ id j, id.Known j → D.Sound j (do
          let form ← followMembers ask id rest
          return formType (← types) form) TypeId.Known := fun id j hid =>
        (sound_followMembers h hid rest).bind fun form _ _ hform => sound_formType h hform
      split
      · exact (sound_symbolType h file _).bind fun id j _ hid => hrest id j hid
      · exact (sound_builtinType h first).bind fun o j _ ho => hrest _ j (known_getD ho)
  · exact sound_unknown

theorem sound_hintType (file : FileId) (node : NodeId) :
    D.Sound n (hintType ask file node) TypeId.Known := by
  unfold hintType
  refine (h.binds n file).bind fun o k _ _ => ?_
  split
  · split
    · exact sound_forwardReference h file _
    · exact (sound_expressionType h file node).bind fun form _ _ hform => sound_formType h hform
  · exact sound_unknown

theorem sound_optionalHint (file : FileId) (node : Option NodeId) :
    D.Sound n (optionalHint ask file node) TypeId.Known := by
  cases node with
  | none => exact sound_unknown
  | some node => exact sound_hintType h file node

/-! ### Subscripts -/

omit h in
private theorem sound_specialized (cls : BuiltinClass) (ha : each TypeId.Known args n) :
    (growth slack).Sound n (specialized cls args) TypeId.Known := by
  unfold specialized
  split
  · refine sound_classObject ?_
    cases args with
    | nil => exact .inl (by decide)
    | cons a rest => exact ha a (by simp)
  · exact sound_tupleOf ha
  · refine sound_builtin fun id hid => ?_
    rcases List.mem_append.mp hid with hid | hid
    · exact ha id (List.mem_of_mem_take hid)
    · obtain rfl := List.eq_of_mem_replicate hid
      exact .inl (by decide)

private theorem sound_notSubscriptable (file : FileId) (node : NodeId) (object : TypeId) :
    D.Sound n (notSubscriptable file node object) TypeId.Known :=
  sound_reportFormat h file node _ object fun text => [text]

private theorem sound_specialize (file : FileId) (node : NodeId) (object inner : TypeId)
    (index : NodeId) : D.Sound n (specialize ask file node object inner index) TypeId.Known := by
  unfold specialize
  refine (h.binds n file).bind fun o k _ _ => ?_
  split
  · dsimp only
    refine (Sound.mapM TypeId.lasting_known fun part _ j _ =>
      (sound_expressionType h file part).bind fun form _ _ hform =>
        sound_formType h hform).bind fun args j _ ha => ?_
    refine (sound_types h).bind fun t i hi ht => ?_
    split
    · refine h.makes ((sound_specialized _ (TypeId.lasting_known.each args j i hi ha)).bind
        fun _ _ _ hid => sound_classObject hid)
    · exact sound_notSubscriptable h file node object
  · exact sound_unknown

private theorem sound_subscriptMember? (isSlice : Bool) (ho : object.Known n) :
    D.Sound n (subscriptMember? ask isSlice object) (ifSome TypeId.Known) := by
  unfold subscriptMember?
  refine .ite (fun _ => sound_someKnown ho) fun _ => ?_
  refine (sound_types h).bind fun t k hk ht => ?_
  have ho : object.Known k := TypeId.lasting_known object n k hk ho
  split
  · exact sound_someKnown (.inl (by decide))
  · next cls args hd =>
    have ha : each TypeId.Known args k := fun part hp => ht.1.part ht.2 hd hp
    split
    · exact sound_someKnown ho
    · exact sound_someKnown (known_argument ha 0)
    · refine (sound_elementType h ho).bind fun element j _ helement => ?_
      exact .mapSome (h.makes (sound_tupleOf (known_pair helement (.inl (by decide)))))
    · exact .mapSome (sound_elementType h ho)
    · exact sound_someKnown (known_argument ha 1)
    · exact sound_someKnown (.inl (by decide))
    · exact sound_someKnown (.inl (by decide))
    · exact sound_someKnown (.inl (by decide))
    · exact sound_someKnown (.inl (by decide))
    · exact .pureNone
  · refine (sound_member? h ho "__getitem__").bind fun o j _ _ => ?_
    split
    · exact .mapSome (sound_callResult h _)
    · exact .pureNone
  · exact .pureNone

/-- A subscript asks for the object first. What is done with the answer keeps to the discipline. -/
theorem exists_subscriptRest (file : FileId) (node value index : NodeId) :
    ∃ rest : TypeId → EvalM TypeId,
      subscriptType ask file node value index = expressionType ask file value >>= rest ∧
        ∀ n object, object.Known n → D.Sound n (rest object) TypeId.Known := by
  refine ⟨_, rfl, fun n object ho => (sound_types h).bind fun t k hk _ => ?_⟩
  split
  · exact sound_specialize h file node object _ index
  · refine (sound_expressionType h file index).bind fun _ j hj _ => ?_
    refine (h.binds j file).bind fun bound i hi _ => ?_
    refine (sound_types h).bind fun t l hl ht => ?_
    have hle := Nat.le_trans (Nat.le_trans (Nat.le_trans hk hj) hi) hl
    have hm : each TypeId.Known (t.members object) l :=
      ht.1.members ht.2 (TypeId.lasting_known object n l hle ho)
    refine (Sound.optionMapM TypeId.lasting_known fun m hmem j hj =>
      sound_subscriptMember? h _ (TypeId.lasting_known m l j hj (hm m hmem))).bind
        fun results j _ hr => ?_
    split
    · exact h.makes (sound_union (hr _ rfl))
    · exact sound_notSubscriptable h file node object

theorem sound_subscriptType (file : FileId) (node value index : NodeId) :
    D.Sound n (subscriptType ask file node value index) TypeId.Known := by
  obtain ⟨rest, hrest, hsound⟩ := exists_subscriptRest h file node value index
  rw [hrest]
  exact (sound_expressionType h file value).bind fun object k _ ho => hsound k object ho

end LiveCheck.Evaluation
