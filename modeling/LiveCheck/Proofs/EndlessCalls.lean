import LiveCheck.Proofs.Evaluation.Answers
import LiveCheck.Proofs.Session.Upkeep
import LiveCheck.Proofs.Types.Hierarchy

/-!
# Calls without end

An instance is called by its `__call__`, and if that is an instance again, by the `__call__` of that
one. Nothing ends this where classes stand for one another in a circle: from every callee in the
circle there is a next one, so a call reaches whatever bound it is given.
-/

namespace LiveCheck

open Session Evaluation TypeTable

/-! ## The next callee -/

/-- The declaration of `__call__` in a class that has an annotation. -/
def Binding.callDeclaration? (b : Binding) (cls : DeclIndex) : Option DeclIndex := do
  let d ← b.declarations[cls]?
  if d.kind = .classDef then
    let symbol ← b.local? (← b.scopeOfDefinition? d.owner) "__call__"
    lastAnnotated? b (b.declarationsOf symbol)
  else none

variable {b : Binding} {index : DeclIndex}

private theorem Binding.callDeclaration?_eq_some {cls : DeclIndex}
    (h : b.callDeclaration? cls = some index)
    :
    ∃ d scope symbol, b.declarations[cls]? = some d ∧ d.kind = .classDef ∧
      b.scopeOfDefinition? d.owner = some scope ∧ b.local? scope "__call__" = some symbol ∧
      lastAnnotated? b (b.declarationsOf symbol) = some index := by
  obtain ⟨d, hd, h⟩ := Option.bind_eq_some_iff.mp h
  split at h
  · next hkind =>
    obtain ⟨scope, hscope, h⟩ := Option.bind_eq_some_iff.mp h
    obtain ⟨symbol, hsymbol, h⟩ := Option.bind_eq_some_iff.mp h
    exact ⟨d, scope, symbol, hd, hkind, hscope, hsymbol, h⟩
  · exact nomatch h

namespace Session

variable {s t : Session} {callee next : TypeId}

/-- The next callee: the type of the annotated `__call__` that the class of an instance declares
itself, if it is known. -/
def nextCallee? (s : Session) (callee : TypeId) : Option TypeId :=
  match s.types.get? callee with
  | some (.inst (.declared cls) _) => do
    let u ← s.unit? cls.decl.file
    let b ← u.binding
    let index ← b.callDeclaration? cls.decl.index
    let d ← b.declarations[index]?
    if !absorbs callee && u.state.isBound && u.analysis.stamp == s.generation then
      u.typeAt? d.node (.declaration index)
    else none
  | _ => none

private def CalledBy (s : Session) (callee next : TypeId) : Prop :=
  absorbs callee = false ∧ ∃ cls args u b index,
    s.types.get? callee = some (.inst (.declared cls) args) ∧
    s.unit? cls.decl.file = some u ∧ u.state.isBound = true ∧ u.binding = some b ∧
    b.callDeclaration? cls.decl.index = some index ∧ s.Knows (.decl ⟨cls.decl.file, index⟩) next

private theorem calledBy_of_nextCallee? (h : s.nextCallee? callee = some next) :
    s.CalledBy callee next := by
  unfold nextCallee? at h
  split at h
  · next cls args hcls =>
    obtain ⟨u, hu, h⟩ := Option.bind_eq_some_iff.mp h
    obtain ⟨b, hb, h⟩ := Option.bind_eq_some_iff.mp h
    obtain ⟨index, hindex, h⟩ := Option.bind_eq_some_iff.mp h
    obtain ⟨d, hd, h⟩ := Option.bind_eq_some_iff.mp h
    split at h
    · next hopen =>
      simp only [Bool.and_eq_true, Bool.not_eq_true', beq_iff_eq] at hopen
      obtain ⟨⟨hsimple, hbound⟩, hstamp⟩ := hopen
      exact ⟨hsimple, cls, args, u, b, index, hcls, hu, hbound, hb, hindex, u, d.node,
        ⟨hu, hbound, hstamp⟩, ⟨b, d, hb, hd, rfl⟩, h⟩
    · exact nomatch h
  · exact nomatch h

private theorem CalledBy.remembers (h : s.CalledBy callee next) (hr : s.Remembers t) :
    t.CalledBy callee next := by
  obtain ⟨hsimple, cls, args, u, b, index, hcls, hu, hb, hbinding, hindex, hknows⟩ := h
  obtain ⟨v, hv, hstays⟩ := (hr _).bound u hu hb
  exact ⟨hsimple, cls, args, v, b, index, (hr 0).types.get? hcls, hv, hstays.isBound,
    hstays.binding.trans hbinding, hindex, (hr _).knows _ _ rfl hknows⟩

end Session

namespace Evaluation

variable {slack limit room : Nat} {keys : List EvalKey} {answers : List (EvalKey × TypeId)}
  {st : EvalState} {callee next : TypeId} {bound : BoundFile} {callees : List TypeId}

private theorem file_of_bound? {file : FileId} (h : (bound? file st).1 = some bound) :
    bound.file = file := by
  have hbind : (st.session.bindFile file).1 = some bound := h
  unfold Session.bindFile at hbind
  split at hbind
  · next t _ =>
    obtain ⟨u, -, hbind⟩ := Option.bind_eq_some_iff.mp hbind
    obtain ⟨tree, -, hbind⟩ := Option.bind_eq_some_iff.mp hbind
    obtain ⟨binding, -, hbind⟩ := Option.bind_eq_some_iff.mp hbind
    rw [← Option.some.inj hbind]
  · exact nomatch hbind

private theorem classScope?_of_bound {decl : DeclId} {d : Declaration} {scope : ScopeId}
    (hbound : bound? decl.file st = (some bound, st))
    (hd : bound.binding.declarations[decl.index]? = some d) (hkind : d.kind = .classDef)
    (hscope : bound.binding.scopeOfDefinition? d.owner = some scope) :
    classScope? decl st = (some (bound, scope), st) := by
  have hdecl : declaration? decl st = (some d, st) := by
    simp only [declaration?, Bind.bind, StateT.bind, hbound, Option.bind_some]
    rw [hd]
    rfl
  have hdefinition : classDefinition? decl st = (some (bound, d.owner), st) := by
    simp only [classDefinition?, Bind.bind, StateT.bind, hdecl, hkind, bne_self_eq_false,
      Bool.false_eq_true, if_false, hbound]
    rfl
  simp only [classScope?, Bind.bind, StateT.bind, hdefinition]
  rw [hscope]
  rfl

private theorem ownMember?_of_knows (hst : st.InOrder slack limit keys answers)
    (hidle : st.session.inProgress = []) (room : Nat) {cls : DeclId} {u : SourceUnit}
    (hu : st.session.unit? cls.file = some u) (hb : u.state.isBound = true)
    (hbinding : u.binding = some b) (hindex : b.callDeclaration? cls.index = some index)
    (hknows : st.session.Knows (.decl ⟨cls.file, index⟩) next)
    (hplain : ∀ t, st.session.types.Extends t → t.signature? next = none) (receiver : TypeId) :
    ownMember? (evaluateBy compute room) cls "__call__" receiver .throughInstance st =
      (some next, (memo? (.decl ⟨cls.file, index⟩) st).2) := by
  obtain ⟨bound, hbound, rfl⟩ := bound?_of_bound hst.coherent.tidy hidle hu hb hbinding
  have hfile : bound.file = cls.file := file_of_bound? (by rw [hbound])
  obtain ⟨d, scope, symbol, hd, hkind, hscope, hsymbol, hlast⟩ :=
    Binding.callDeclaration?_eq_some hindex
  have hmemo := memo?_of_knows hst.coherent.tidy hidle hknows
  have htypes : st.session.types.Extends (memo? (.decl ⟨cls.file, index⟩) st).2.session.types := by
    have hrun : (LiveCheck.evaluation slack limit keys answers).Outcome st _
        (memo? (.decl ⟨cls.file, index⟩) st) :=
      sound_of_access (sound_memo? _) st hst (Nat.zero_le _)
    exact hrun.step.performs.steps.extends
  rcases hfound : memo? (.decl ⟨cls.file, index⟩) st with ⟨found, st'⟩
  rw [hfound] at hmemo htypes
  obtain rfl : found = some next := hmemo
  have hask : evaluateBy compute room (.decl ⟨cls.file, index⟩) st = (next, st') :=
    evaluateBy_of_memo? compute room hfound
  have hsymbolType : symbolType (evaluateBy compute room) bound.file symbol st = (next, st') := by
    simp only [symbolType, Bind.bind, StateT.bind, hfile, hbound, hlast, declarationType, hask]
  have hbind : bindAttribute (evaluateBy compute room) bound symbol receiver .throughInstance st =
      (next, st') := by
    have hread : types st' = (st'.session.types, st') := rfl
    simp only [bindAttribute, Bind.bind, StateT.bind, hsymbolType, hread, hplain _ htypes]
    rfl
  have hscope := classScope?_of_bound hbound hd hkind hscope
  have hmap (m : EvalM TypeId) : (some <$> m) st = (some (m st).1, (m st).2) := rfl
  simp only [ownMember?, Bind.bind, StateT.bind, hscope, hsymbol]
  rw [hmap, hbind]

private theorem signature?_of_calledBy {s : Session} (h : s.CalledBy callee next)
    {other : TypeTable}
     (hother : s.types.Extends other) : other.signature? callee = none := by
  obtain ⟨-, cls, args, u, b, index, hcls, -⟩ := h
  rw [TypeTable.signature?, hother.get? hcls]

private theorem member?_of_calledBy {other : TypeId} (hfits : Fits limit keys answers)
    (hroom : room + keys.length = limit) (hst : st.InOrder slack limit keys answers)
    (hidle : st.session.inProgress = []) (h : st.session.CalledBy callee next)
    (hnext : st.session.CalledBy next other) :
    ∃ st', member? (evaluateBy compute room) callee "__call__" st = (some next, st') ∧
      st'.InOrder slack limit keys answers ∧ st'.session.inProgress = [] ∧
      st.session.Remembers st'.session := by
  have hadmits : Admits slack (LiveCheck.evaluation slack limit keys answers)
      (evaluateBy compute room) := admits_evaluation fun _ key => sound_evaluateBy hfits hroom key
  obtain ⟨habsorbs, cls, args, -, -, -, hcls, -⟩ := id h
  have hsearch : (LiveCheck.evaluation slack limit keys answers).Outcome st _
      (searchOrder (evaluateBy compute room) (.declared cls) st) :=
    sound_searchOrder hadmits (.declared cls) st hst (Nat.zero_le _)
  obtain ⟨rest, hrest⟩ : ∃ rest, (searchOrder (evaluateBy compute room) (.declared cls) st).1 =
      .declared cls :: rest := resolutionOrder_eq_cons _ _
  rcases hrun : searchOrder (evaluateBy compute room) (.declared cls) st with ⟨order, st₁⟩
  rw [hrun] at hsearch hrest
  obtain rfl : order = .declared cls :: rest := hrest
  have hst₁ : st₁.InOrder slack limit keys answers := hsearch.ok
  have hremembers := hsearch.step.performs.remembers hidle
  have hidle₁ := hsearch.step.performs.completes.inProgress.trans hidle
  obtain ⟨-, cls', args', u, b, index, hcls', hu, hb, hbinding, hindex, hknows⟩ :=
    h.remembers hremembers
  obtain ⟨rfl, rfl⟩ : cls' = cls ∧ args' = args := by
    rw [(hremembers 0).types.get? hcls] at hcls'
    simpa [eq_comm] using hcls'
  let key : EvalKey := .decl ⟨cls'.decl.file, index⟩
  have hmemo : (LiveCheck.evaluation slack limit keys answers).Outcome st₁ _ (memo? key st₁) :=
    sound_of_access (sound_memo? key) st₁ hst₁ (Nat.zero_le _)
  have hown := ownMember?_of_knows hst₁ hidle₁ room hu hb hbinding hindex hknows
    (fun t ht => signature?_of_calledBy hnext ((hremembers 0).types.trans ht)) callee
  refine ⟨(memo? key st₁).2, ?_, hmemo.ok,
    hmemo.step.performs.completes.inProgress.trans hidle₁,
    fun file => (hremembers file).trans (hmemo.step.performs.remembers hidle₁ file)⟩
  have hread : types st = (st.session.types, st) := rfl
  have hfirst : (ClassKey.declared cls' :: rest).findSomeM? (memberIn? (evaluateBy compute room)
      (.declared cls') args' "__call__" callee callee .throughInstance) st₁ =
        (some next, (memo? key st₁).2) := by
    simp only [List.findSomeM?, memberIn?, Bind.bind, StateT.bind, hown]
    rfl
  simp only [member?, memberUpTo?, simpleMember?, instanceMember?, Bind.bind, StateT.bind, hread, hcls, habsorbs,
    Bool.false_eq_true, if_false, hrun, hfirst]
  rfl

/-! ## Circles -/

private def Circular (s : Session) (callees : List TypeId) : Prop :=
  ∀ callee ∈ callees, ∃ next ∈ callees, s.CalledBy callee next

private theorem Circular.remembers {s t : Session} (h : Circular s callees) (hr : s.Remembers t) :
    Circular t callees := by
  intro callee hcallee
  obtain ⟨next, hnext, hcalled⟩ := h callee hcallee
  exact ⟨next, hnext, hcalled.remembers hr⟩

private theorem Circular.member? (h : Circular st.session callees) (hfits : Fits limit keys answers)
    (hroom : room + keys.length = limit) (hst : st.InOrder slack limit keys answers)
    (hidle : st.session.inProgress = []) (hcallee : callee ∈ callees) :
    ∃ next ∈ callees, ∃ st', member? (evaluateBy compute room) callee "__call__" st =
        (some next, st') ∧ st'.InOrder slack limit keys answers ∧ st'.session.inProgress = [] ∧
      Circular st'.session callees := by
  obtain ⟨next, hnext, hcalled⟩ := h callee hcallee
  obtain ⟨other, -, hother⟩ := h next hnext
  obtain ⟨st', hmember, hst', hidle', hremembers⟩ :=
    member?_of_calledBy hfits hroom hst hidle hcalled hother
  exact ⟨next, hnext, st', hmember, hst', hidle', h.remembers hremembers⟩

private theorem Circular.declared {s : Session} (h : Circular s callees)
    (hcallee : callee ∈ callees) :
    ∃ cls args, s.types.get? callee = some (.inst (.declared cls) args) := by
  obtain ⟨next, -, -, cls, args, u, b, index, hcls, -⟩ := h callee hcallee
  exact ⟨cls, args, hcls⟩

private theorem isDeclaredInstance_of_inst {cls : DeclaredClass} {args : List TypeId}
    (h : st.session.types.get? callee = some (.inst (.declared cls) args)) :
    isDeclaredInstance callee st = (true, st) := by
  have hread : isDeclaredInstance callee st =
      ((st.session.types.declaredClass? callee).isSome, st) := rfl
  rw [hread, TypeTable.declaredClass?, h]
  rfl

/-- The callee so many steps on: as long as a callee is an instance of a declared class, its
`__call__` is the next one. -/
def calleeAfter (ask : Ask) : Nat → TypeId → EvalM (Option TypeId)
  | 0, callee => do
    return if ← isDeclaredInstance callee then some callee else none
  | n + 1, callee => do
    if ← isDeclaredInstance callee then
      match ← member? ask callee "__call__" with
      | some next => calleeAfter ask n next
      | none => return none
    else return none

private theorem calleeAfter_of_circular (hfits : Fits limit keys answers)
    (hroom : room + keys.length = limit) (hst : st.InOrder slack limit keys answers)
    (hidle : st.session.inProgress = []) (h : Circular st.session callees)
    (hcallee : callee ∈ callees) (n : Nat) :
    ∃ last ∈ callees, (calleeAfter (evaluateBy compute room) n callee st).1 = some last := by
  induction n generalizing callee st with
  | zero =>
    obtain ⟨cls, args, hcls⟩ := h.declared hcallee
    refine ⟨callee, hcallee, ?_⟩
    simp only [calleeAfter, Bind.bind, StateT.bind, isDeclaredInstance_of_inst hcls]
    rfl
  | succ n ih =>
    obtain ⟨cls, args, hcls⟩ := h.declared hcallee
    obtain ⟨next, hnext, st', hmember, hst', hidle', h'⟩ := h.member? hfits hroom hst hidle hcallee
    simp only [calleeAfter, Bind.bind, StateT.bind, isDeclaredInstance_of_inst hcls, if_true,
      hmember]
    exact ih hst' hidle' h' hnext

private theorem callUpTo_endless_of_circular (hfits : Fits limit keys answers)
    (hroom : room + keys.length = limit) (hst : st.InOrder slack limit keys answers)
    (hidle : st.session.inProgress = []) (h : Circular st.session callees)
    (hcallee : callee ∈ callees) (file : FileId) (site : NodeId) (args : List Argument) (fuel : Nat)
    :
    (callUpTo (evaluateBy compute room) file site args fuel callee st).2.endless = true := by
  induction fuel generalizing callee st with
  | zero => rfl
  | succ fuel ih =>
    obtain ⟨cls, classArgs, hcls⟩ := h.declared hcallee
    obtain ⟨next, hnext, st', hmember, hst', hidle', h'⟩ := h.member? hfits hroom hst hidle hcallee
    have hread : types st = (st.session.types, st) := rfl
    have hdeclared : (st.session.types.declaredClass? callee).isSome = true := by
      simp [TypeTable.declaredClass?, hcls]
    simp only [callUpTo, Bind.bind, StateT.bind, hread, hcls, hmember, hdeclared]
    exact ih hst' hidle' h' hnext

private theorem circular_of_nextCallee? {s : Session}
    (h : ∀ callee ∈ callees, ∃ next ∈ callees, s.nextCallee? callee = some next) :
    Circular s callees := by
  intro callee hcallee
  obtain ⟨next, hnext, hcalled⟩ := h callee hcallee
  exact ⟨next, hnext, calledBy_of_nextCallee? hcalled⟩

private theorem exists_inOrder_after (options : Options) (files : FileStore)
    (hostPaths : List String)
    (ops : List Operation) :
    let s := (Session.new options files hostPaths).after ops
    s.inProgress = [] ∧ ∃ slack,
      EvalState.InOrder slack s.options.maxEvaluationDepth [] [] { session := s } := by
  intro s
  obtain ⟨slack, hcoherent⟩ := (orderly_after options files hostPaths ops).1.exists_coherent
  exact ⟨(maintained_after options files hostPaths ops).idle, slack, inOrder_start hcoherent⟩

/-- In every run: if the annotated `__call__`s of some classes stand for one another in a circle,
then the callees follow one another without end, and a call of one of their instances reaches
whatever bound it is given. -/
theorem endless_of_circle (options : Options) (files : FileStore) (hostPaths : List String)
    (ops : List Operation) (callees : List TypeId) (callee : TypeId) :
    let s := (Session.new options files hostPaths).after ops
    let ask := evaluateBy compute s.options.maxEvaluationDepth
    (∀ callee ∈ callees, ∃ next ∈ callees, s.nextCallee? callee = some next) →
      callee ∈ callees →
        (∀ n, ∃ last ∈ callees, (calleeAfter ask n callee { session := s }).1 = some last) ∧
        ∀ file site args fuel,
          (callUpTo ask file site args fuel callee { session := s }).2.endless = true := by
  intro s ask hcircle hcallee
  obtain ⟨hidle, slack, hst⟩ := exists_inOrder_after options files hostPaths ops
  have h := circular_of_nextCallee? hcircle
  constructor
  · intro n
    exact calleeAfter_of_circular (fits_nil _) rfl hst hidle h hcallee n
  · intro file site args fuel
    exact callUpTo_endless_of_circular (fits_nil _) rfl hst hidle h hcallee file site args fuel

/-- Two classes that stand for each other. -/
theorem endless_of_two_classes :
    let files := FileStore.ofList [("a.py", "class A:\n    __call__: B\nclass B:\n" ++
      "    __call__: A\nx = A().__call__\ny = B().__call__\n")]
    let ops : List Operation :=
      [.setRoots ["a.py"], .ask (.typeOfSymbol 0 "x"), .ask (.typeOfSymbol 0 "y")]
    let s := (Session.new {} files []).after ops
    let ask := evaluateBy compute s.options.maxEvaluationDepth
    let callees : List TypeId := [12, 14]
    (∀ callee ∈ callees, ∃ next ∈ callees, s.nextCallee? callee = some next) ∧
      (∀ n, ∃ last ∈ callees, (calleeAfter ask n 12 { session := s }).1 = some last) ∧
      ∀ file site args fuel,
        (callUpTo ask file site args fuel 12 { session := s }).2.endless = true := by
  refine (and_iff_left_of_imp fun hcircle =>
    endless_of_circle {} _ [] _ _ _ hcircle (by decide)).mpr ?_
  decide +kernel

/-- An instance that is its own `__call__` is the next callee again and again. -/
theorem calleeAfter_of_self (options : Options) (files : FileStore) (hostPaths : List String)
    (ops : List Operation) (callee : TypeId) :
    let s := (Session.new options files hostPaths).after ops
    s.nextCallee? callee = some callee → ∀ n,
      (calleeAfter (evaluateBy compute s.options.maxEvaluationDepth) n callee
        { session := s }).1 = some callee := by
  intro s hself n
  obtain ⟨hidle, slack, hst⟩ := exists_inOrder_after options files hostPaths ops
  have h : Circular s [callee] := circular_of_nextCallee? (by simpa using hself)
  obtain ⟨last, hlast, hcallee⟩ :=
    calleeAfter_of_circular (fits_nil _) rfl hst hidle h (List.mem_singleton.mpr rfl) n
  rw [hcallee, List.mem_singleton.mp hlast]

/-- A class whose `__call__` is an instance of the class itself: the callees follow one another
without end, and the question for the problems of the file has no answer. -/
theorem callees_without_end :
    let files := FileStore.ofList
      [("a.py", "class A:\n    __call__: A\nx = A().__call__\ny = x()\n")]
    let s := (Session.new {} files []).after [.setRoots ["a.py"], .ask (.typeOfSymbol 0 "x")]
    s.types.format 12 = "A" ∧ ((Query.diagnostics 0).run s).1 = .error .endless ∧
      ∀ n, (calleeAfter (evaluateBy compute s.options.maxEvaluationDepth) n 12
        { session := s }).1 = some 12 := by
  intro files
  have hrun (ops : List Operation) (h : ops = [.setRoots ["a.py"], .ask (.typeOfSymbol 0 "x")]) :
      ((Session.new {} files []).after ops).types.format 12 = "A" ∧
        ((Query.diagnostics 0).run ((Session.new {} files []).after ops)).1 = .error .endless ∧
        ((Session.new {} files []).after ops).nextCallee? 12 = some 12 := by
    rw [h]
    decide +kernel
  obtain ⟨hformat, hendless, hself⟩ := hrun _ rfl
  exact ⟨hformat, hendless, calleeAfter_of_self {} files [] _ 12 hself⟩

end Evaluation
end LiveCheck
