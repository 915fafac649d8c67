import LiveCheck.Proofs.Evaluation.Engine
import LiveCheck.Session.Query

/-!
# What is answered is known

A key that is asked for while nothing is being computed is answered by a complete result, unless the
stack was full, and the result is kept. So the next time the key is asked for, the answer is found
and is the same. A declaration that does not exist is unknown every time.
-/

namespace LiveCheck

open Session Evaluation Discipline TypeTable

/-- No computation has met a full stack. -/
def EvalState.WithinLimit (st : EvalState) : Prop :=
  ∀ m ∈ st.journal, ¬ m.event matches .exceeded _

instance (st : EvalState) : Decidable st.WithinLimit :=
  inferInstanceAs (Decidable (∀ m ∈ st.journal, _))

variable {st' : EvalState} {file : FileId}

private theorem EvalState.WithinLimit.earlier {st : EvalState} (h : st'.WithinLimit)
    (hadvances : st.Advances st') : st.WithinLimit := by
  obtain ⟨news, hnews, -⟩ := hadvances.events
  exact fun m hm => h m (hnews ▸ List.mem_append_right news hm)

namespace Session

variable {slack : Nat} {s t r : Session} {key : EvalKey} {type : TypeId}

private def Places (s : Session) (key : EvalKey) : Prop :=
  ∃ u node, s.unit? key.file = some u ∧ u.state.isBound = true ∧ u.KeepsAt key node

private def Lacks (s : Session) (key : EvalKey) : Prop :=
  ∃ u b decl, key = .decl decl ∧ s.unit? decl.file = some u ∧ u.state.isBound = true ∧
    u.binding = some b ∧ b.declarations[decl.index]? = none

private def Settles (s : Session) (key : EvalKey) (type : TypeId) : Prop :=
  s.Knows key type ∨ s.Lacks key ∧ type = .unknown

private theorem places_or_lacks (hs : s.Tidy) (hb : s.IsBound key.file) :
    s.Places key ∨ s.Lacks key := by
  obtain ⟨u, hu, hb⟩ := hb
  cases key with
  | node file node => exact .inl ⟨u, node, hu, hb, rfl⟩
  | result file node => exact .inl ⟨u, node, hu, hb, rfl⟩
  | decl decl =>
    obtain ⟨b, hbinding⟩ := Option.isSome_iff_exists.mp ((hs decl.file u hu).bound hb).2
    cases hfound : b.declarations[decl.index]? with
    | none => exact .inr ⟨u, b, decl, rfl, hu, hb, hbinding, hfound⟩
    | some found => exact .inl ⟨u, found.node, hu, hb, b, found, hbinding, hfound, rfl⟩

private theorem Completes.places (h : s.Completes t) (hs : s.Places key) : t.Places key := by
  obtain ⟨u, node, hu, hb, hnode⟩ := hs
  obtain ⟨v, hv, hstays⟩ := h.bound key.file u hu hb
  exact ⟨v, node, hv, hstays.isBound, hnode.congr hstays.binding⟩

private theorem Completes.lacks (h : s.Completes t) (hs : s.Lacks key) : t.Lacks key := by
  obtain ⟨u, b, decl, rfl, hu, hb, hbinding, hnone⟩ := hs
  obtain ⟨v, hv, hstays⟩ := h.bound decl.file u hu hb
  exact ⟨v, b, decl, rfl, hv, hstays.isBound, hstays.binding.trans hbinding, hnone⟩

private theorem Completes.isBound (h : s.Completes t) (hb : s.IsBound file) :
    t.IsBound file := by
  obtain ⟨u, hu, hb⟩ := hb
  obtain ⟨v, hv, hstays⟩ := h.bound file u hu hb
  exact ⟨v, hv, hstays.isBound⟩

/-- The second session shows all problems that the first one shows in a file, if that was checked and
the type at some node is known. -/
def Retells (s : Session) (file : FileId) (t : Session) : Prop :=
  ∀ u, s.Opened file u → u.state = .evaluated true → u.analysis.isEmpty = false →
    ∃ v, t.Opened file v ∧ v.state = .evaluated true ∧ v.analysis.isEmpty = false ∧
      (knownDiagnostics u).Subperm (knownDiagnostics v)

private theorem Retells.refl (s : Session) (file : FileId) : s.Retells file s :=
  fun u hu hstate hknown => ⟨u, hu, hstate, hknown, .refl _⟩

private theorem Retells.trans (h : s.Retells file t) (h' : t.Retells file r) :
    s.Retells file r := by
  intro u hu hstate hknown
  obtain ⟨v, hv, hstate', hknown', hsub⟩ := h u hu hstate hknown
  obtain ⟨w, hw, hstate'', hknown'', hsub'⟩ := h' v hv hstate' hknown'
  exact ⟨w, hw, hstate'', hknown'', hsub.trans hsub'⟩

private theorem subperm_knownDiagnostics {u v : SourceUnit}
    (hparsed : v.syntaxReports = u.syntaxReports) (hbind : v.bindReports = u.bindReports)
    (hcheck : u.checkReports <+: v.checkReports) :
    (knownDiagnostics u).Subperm (knownDiagnostics v) := by
  refine (List.mergeSort_perm _ _).subperm.trans (.trans ?_ (List.mergeSort_perm _ _).symm.subperm)
  rw [hparsed, hbind]
  exact (hcheck.sublist.append_left _).subperm

private theorem EvalStep.retells (h : EvalStep slack s t) (file : FileId) : s.Retells file t := by
  intro u ⟨hu, hb, hstamp⟩ hstate hknown
  have hgeneration : t.generation = s.generation := by rw [h.rest]
  obtain ⟨v, hv, hchange⟩ := h.unit?_of_some hu
  suffices v.analysis.stamp = s.generation ∧ v.state = .evaluated true ∧
      v.analysis.isEmpty = false ∧ (knownDiagnostics u).Subperm (knownDiagnostics v) by
    obtain ⟨hstamp', hstate', h⟩ := this
    exact ⟨v, ⟨hv, by rw [hstate']; rfl, hstamp'.trans hgeneration.symm⟩, hstate', h⟩
  cases hchange with
  | bind hchange =>
    cases hchange with
    | cache entries => exact ⟨hstamp, hstate, hknown, .refl _⟩
    | parse hs => rcases hs with hs | hs <;> cases hstate.symm.trans hs
    | discard hs => cases hstate.symm.trans hs
    | bind binding hblank => cases hknown.symm.trans hblank.2
  | enter =>
    have hsame : u.evaluating s.generation = u := by simp [SourceUnit.evaluating, hstate, hstamp]
    rw [hsame]
    exact ⟨hstamp, hstate, hknown, .refl _⟩
  | report d =>
    rw [SourceUnit.rest_report]
    refine ⟨hstamp, hstate, hknown, subperm_knownDiagnostics rfl rfl ?_⟩
    unfold SourceUnit.report
    split
    · exact List.prefix_rfl
    · exact List.prefix_append _ _
  | learn node key type =>
    have htype := SourceUnit.typeAt?_learned u node node key type key.slot
    rw [if_pos ⟨rfl, rfl⟩] at htype
    exact ⟨hstamp, hstate, SourceUnit.isEmpty_eq_false_of_typeAt? htype,
      subperm_knownDiagnostics rfl rfl List.prefix_rfl⟩

/-- The second session knows all that the first one knows about a file: if that is bound, it is bound
to the same names, results that are known are still known, problems that were found are still shown,
and types mean the same. -/
structure Recalls (s : Session) (file : FileId) (t : Session) : Prop where
  bound : ∀ u, s.unit? file = some u → u.state.isBound = true →
    ∃ v, t.unit? file = some v ∧ u.StaysBound v
  knows : ∀ key type, key.file = file → s.Knows key type → t.Knows key type
  reports : s.Retells file t
  types : s.types.Extends t.types

theorem Recalls.trans (h : s.Recalls file t) (h' : t.Recalls file r) :
    s.Recalls file r where
  bound u hu hb := by
    obtain ⟨v, hv, hbound⟩ := h.bound u hu hb
    obtain ⟨w, hw, hbound'⟩ := h'.bound v hv hbound.isBound
    exact ⟨w, hw, hbound'.isBound, hbound'.tree.trans hbound.tree,
      hbound'.binding.trans hbound.binding⟩
  knows key type hkey hk := h'.knows key type hkey (h.knows key type hkey hk)
  reports := h.reports.trans h'.reports
  types := h.types.trans h'.types

/-- The second session knows all that the first one knows. -/
def Remembers (s t : Session) : Prop := ∀ file, s.Recalls file t

theorem Remembers.refl (s : Session) : s.Remembers s := fun file =>
  ⟨(Completes.refl s).bound file, fun _ _ _ h => h, .refl s file, .refl s.types⟩

/-- Nothing that is known is lost in an evaluation. -/
theorem Performs.remembers (h : Performs slack s t) (hidle : s.inProgress = []) :
    s.Remembers t := fun file =>
  ⟨h.completes.bound file, fun key type _ => h.knows hidle key type,
    h.steps.induct (P := fun t => s.Retells file t)
      (fun _ _ hstep h => h.trans (hstep.retells file)) (.refl s file),
    h.steps.extends⟩

private theorem Recalls.lacks (h : s.Recalls key.file t) (hs : s.Lacks key) : t.Lacks key := by
  obtain ⟨u, b, decl, rfl, hu, hb, hbinding, hnone⟩ := hs
  obtain ⟨v, hv, hstays⟩ := h.bound u hu hb
  exact ⟨v, b, decl, rfl, hv, hstays.isBound, hstays.binding.trans hbinding, hnone⟩

private theorem Settles.recalls (hs : s.Settles key type) (h : s.Recalls key.file t) :
    t.Settles key type :=
  hs.imp (h.knows key type rfl) fun hlacks => ⟨h.lacks hlacks.1, hlacks.2⟩

private theorem Settles.performs (hs : s.Settles key type) (h : Performs slack s t)
    (hidle : s.inProgress = []) : t.Settles key type :=
  hs.imp (h.knows hidle key type) fun hlacks => ⟨h.completes.lacks hlacks.1, hlacks.2⟩

end Session

namespace Evaluation

variable {limit n limit' : Nat} {st : EvalState} {key : EvalKey} {type : TypeId}
  {keys : List EvalKey} {types : List TypeId}

/-! ## Asking for the first time -/

private theorem knows_remember (hs : st.session.Tidy) (hidle : st.session.inProgress = [])
    (hplace : st.session.Places key) (type : TypeId) :
    (remember key type st).2.session.Knows key type := by
  obtain ⟨u, node, hu, hb, hnode⟩ := hplace
  let opened := st.session.modifyUnit key.file (·.evaluating st.session.generation)
  have hopened : opened.Opened key.file (u.evaluating st.session.generation) := by
    refine ⟨?_, SourceUnit.isBound_evaluating hb _, ?_⟩
    · rw [unit?_modifyUnit_self, hu]
      rfl
    · exact SourceUnit.stamp_evaluating ((hs key.file u hu).bound hb).1 _
  have hkeeps : (u.evaluating st.session.generation).KeepsAt key node :=
    hnode.congr (by rw [SourceUnit.rest_evaluating])
  simp only [remember, Bind.bind, StateT.bind, openSite?_of_keepsAt hs hidle hu hb hnode]
  exact knows_learned hopened hkeeps

/-- In a lawful journal, only a full stack is marked by zero. -/
theorem mark?_ne_zero (hl : Lawful limit st.journal) (hw : st.WithinLimit) :
    ∀ m ∈ st.journal, m.event.mark? ≠ some 0 := by
  intro m hm hmark
  obtain ⟨later, earlier, he⟩ := List.append_of_mem hm
  have hlawful := hl.moment he
  cases hevent : m.event with
  | reentered other place =>
    rw [hevent] at hmark
    have hzero : place = 0 := Option.some.inj hmark
    have hplace := (position?_eq_some_iff hlawful.nodup).mp (hlawful.place other place hevent)
    omega
  | exceeded other =>
    have hnot := hw m hm
    rw [hevent] at hnot
    exact hnot rfl
  | began other => rw [hevent] at hmark; exact nomatch hmark
  | ended other => rw [hevent] at hmark; exact nomatch hmark
  | kept other type => rw [hevent] at hmark; exact nomatch hmark

private theorem knows_computation {slack : Nat} {answers : List (EvalKey × TypeId)}
    (hfits : Fits limit [] answers) (hst : st.InOrder slack limit [] answers) (hlt : 0 < limit)
    (hidle : st.session.inProgress = []) (hplace : st.session.Places key) {m : EvalM TypeId}
    (hm : (LiveCheck.evaluation slack limit [key] answers).Sound 0 m TypeId.Known) :
    let r := computation key m st
    r.2.WithinLimit → r.2.session.Knows key r.1 := by
  have hrun := hm _ (inOrder_push hfits hst hlt List.not_mem_nil) (Nat.zero_le _)
  obtain ⟨top, hstack, -⟩ := stack_computed hrun.ok hrun.step.advances
  have hpop := outcome_pop hfits hst hrun
  let found := (m (push key st).2).1
  let popped := pop (st.stack.length + 1) (m (push key st).2).2
  have hpopped : popped = (top.lowest, { (m (push key st).2).2 with
      stack := lowerTop top.lowest st.stack }.note (.ended top.key)) := by
    simp only [popped, pop, hstack]
  have hfound : found.Known (popped.2.session.types.extent slack) := by
    rw [session_pop]
    exact hrun.result
  obtain ⟨hfinish, -⟩ := outcome_finish hpop.ok.access key hfound
  have hcompletes := hpop.step.performs.completes.trans hfinish.step.1.completes
  have hsame := hfinish.step.2
  let finished := finish key found popped.2
  intro r hwithin
  have hr : r = ((if st.stack.length + 1 ≤ popped.1 then
      (do remember key finished.1; return finished.1) else return finished.1 : EvalM TypeId)
        finished.2) := rfl
  have hempty : st.stack = [] := List.map_eq_nil_iff.mp hst.stacked
  rw [hr] at hwithin ⊢
  split
  · exact knows_remember hfinish.ok.1.tidy (hcompletes.inProgress.trans hidle)
      (hcompletes.places hplace) finished.1
  · next hlowest =>
    rw [if_neg hlowest] at hwithin
    refine absurd ?_ hlowest
    have hmarks : ∀ m' ∈ (m (push key st).2).2.journal, m'.event.mark? ≠ some 0 := by
      refine mark?_ne_zero hrun.ok.lawful fun m' hm' => hwithin m' ?_
      change m' ∈ finished.2.journal
      rw [hsame.journal]
      change m' ∈ popped.2.journal
      rw [hpopped]
      exact List.mem_cons_of_mem _ hm'
    have htop := hrun.step.advances.unmarked hmarks (Nat.succ_pos _)
    rw [hstack] at htop
    rw [hpopped, hempty]
    exact htop

/-! ## Asking with an empty stack -/

/-- A key that is known is answered at once. -/
theorem evaluateBy_of_memo? (rules : Ask → EvalKey → EvalM TypeId) (room : Nat)
    (hmemo : memo? key st = (some type, st')) : evaluateBy rules room key st = (type, st') := by
  unfold evaluateBy
  rw [bind_of_eq hmemo]
  rfl

/-- A key that is on the stack is answered by what stands for it. -/
theorem evaluateBy_reentered {place : Nat} (rules : Ask → EvalKey → EvalM TypeId) (room : Nat)
    (hmemo : memo? key st = (none, st')) (hplace : position? st'.stack key = some place) :
    evaluateBy rules room key st = Evaluation.placeholder key (noteReentry key place st').2 := by
  unfold evaluateBy
  rw [bind_of_eq hmemo]
  dsimp only
  rw [bind_of_eq (rfl : (get : EvalM EvalState) st' = (st', st')), hplace]
  rfl

/-- A key that is not known and not on the stack is too deep if there is no room. -/
theorem evaluateBy_zero (rules : Ask → EvalKey → EvalM TypeId) (hmemo : memo? key st = (none, st'))
    (hplace : position? st'.stack key = none) :
    evaluateBy rules 0 key st = tooDeep key st' := by
  rw [evaluateBy]
  simp only [Bind.bind, StateT.bind, hmemo]
  simp only [get, getThe, MonadStateOf.get, StateT.get, Pure.pure, hplace]

/-- A key that is not known and not on the stack is computed if there is room. -/
theorem evaluateBy_succ (rules : Ask → EvalKey → EvalM TypeId) (room : Nat)
    (hmemo : memo? key st = (none, st')) (hplace : position? st'.stack key = none) :
    evaluateBy rules (room + 1) key st = computation key (rules (evaluateBy rules room) key) st' := by
  rw [evaluateBy]
  simp only [Bind.bind, StateT.bind, hmemo]
  simp only [get, getThe, MonadStateOf.get, StateT.get, Pure.pure, hplace]
  rfl

private theorem journal_tooDeep (key : EvalKey) (st : EvalState) :
    ∃ stack earlier, (tooDeep key st).2.journal = ⟨.exceeded key, stack⟩ :: earlier := by
  simp only [tooDeep, Bind.bind, StateT.bind]
  split
  split <;> exact ⟨_, _, rfl⟩

/-! ## Computations that end -/

/-- The computation meets no call without end. -/
def Ends (m : EvalM α) : Prop := ∀ st, (m st).2.endless = st.endless

private theorem Ends.pure (a : α) : Ends (pure a) := fun _ => rfl

private theorem Ends.bind {m : EvalM α} {f : α → EvalM β} (hm : Ends m) (hf : ∀ a, Ends (f a)) :
    Ends (m >>= f) := fun st => (hf (m st).1 (m st).2).trans (hm st)

private theorem ends_site? (key : EvalKey) : Ends (site? key) := by
  intro st
  cases key <;> rfl

private theorem ends_openSite? (key : EvalKey) : Ends (openSite? key) := by
  refine (ends_site? key).bind fun found => ?_
  split
  · exact fun _ => rfl
  · exact .pure _

theorem ends_memo? (key : EvalKey) : Ends (memo? key) := by
  refine (ends_openSite? key).bind fun found => ?_
  split
  · exact fun _ => rfl
  · exact .pure _

theorem ends_remember (key : EvalKey) (type : TypeId) : Ends (remember key type) := by
  refine (ends_openSite? key).bind fun found => ?_
  split
  · exact fun _ => rfl
  · exact .pure _

theorem ends_pop (position : Nat) : Ends (pop position) := by
  intro st
  unfold pop
  split <;> rfl

/-! ## Declarations that do not exist -/

private theorem evaluate_of_lacks (hst : st.InOrder 0 limit [] [])
    (hidle : st.session.inProgress = [])
    (hlacks : st.session.Lacks key) :
    (evaluate key st).1 = .unknown ∧ (evaluate key st).2.endless = st.endless := by
  obtain ⟨u, b, decl, rfl, hu, hb, hbinding, hnone⟩ := hlacks
  have hempty : st.stack = [] := List.map_eq_nil_iff.mp hst.stacked
  have hproper := hst.coherent.closed.proper rfl
  -- All that happens before the answer leaves the session as it is.
  have hbound (st' : EvalState) (h : st'.session = st.session) :
      ∃ bound, bound? decl.file st' = (some bound, st') ∧ bound.binding = b :=
    bound?_of_bound (h ▸ hst.coherent.tidy) (h ▸ hidle) (h ▸ hu) hb hbinding
  have hsite (st' : EvalState) (h : st'.session = st.session) :
      site? (.decl decl) st' = (none, st') := by
    obtain ⟨bound, hfile, rfl⟩ := hbound st' h
    simp only [site?, declaration?, Bind.bind, StateT.bind, hfile]
    change ((Option.bind (some bound) (·.binding.declarations[decl.index]?)).map
      fun found => (decl.file, found.node), st') = _
    rw [Option.bind_some, hnone]
    rfl
  have hmemo : memo? (.decl decl) st = (none, st) := by
    simp only [memo?, openSite?, Bind.bind, StateT.bind, hsite st rfl]
    rfl
  have hcompute (ask : Ask) (st' : EvalState) (h : st'.session = st.session) :
      compute ask (.decl decl) st' = (.unknown, st') := by
    obtain ⟨bound, hfile, rfl⟩ := hbound st' h
    simp only [compute, computeDeclaration, Bind.bind, StateT.bind, hfile, hnone]
    rfl
  have hfinish (st' : EvalState) (h : st'.session = st.session) :
      finish (.decl decl) .unknown st' = (.unknown, st') := by
    have hmembers : st'.session.types.members .unknown = [.unknown] := by
      rw [h]
      exact hproper.members_intrinsic (by decide)
    have hself : st'.session.types.recursiveDecl? .unknown = none := by
      rw [h]
      exact recursiveDecl?_intrinsic hproper (by decide)
    simp only [finish, types, Bind.bind, StateT.bind]
    change (if (st'.session.types.members .unknown).any
      (st'.session.types.recursiveDecl? · == some decl) then _ else pure .unknown : EvalM TypeId)
        st' = _
    rw [hmembers, List.any_cons, List.any_nil, hself]
    rfl
  have heval : evaluate (.decl decl) st =
      evaluateBy compute st.session.options.maxEvaluationDepth (.decl decl) st := rfl
  rw [heval]
  have hplace : position? st.stack (.decl decl) = none := by
    rw [hempty]
    rfl
  cases st.session.options.maxEvaluationDepth with
  | zero =>
    rw [evaluateBy_zero compute hmemo hplace]
    simp only [tooDeep, Bind.bind, StateT.bind, hsite st rfl]
    exact ⟨rfl, rfl⟩
  | succ room =>
    rw [evaluateBy_succ compute room hmemo hplace]
    let pushed := (push (.decl decl) st).2
    have hfound := hcompute (evaluateBy compute room) pushed rfl
    have hpopped : (pop (st.stack.length + 1) pushed).2.session = st.session := session_pop ..
    have hends : (pop (st.stack.length + 1) pushed).2.endless = st.endless := ends_pop _ pushed
    have hpushed : push (.decl decl) st = (st.stack.length + 1, pushed) := rfl
    simp only [computation, Bind.bind, StateT.bind, hpushed, hfound]
    generalize pop (st.stack.length + 1) pushed = r at hpopped hends ⊢
    obtain ⟨lowest, popped⟩ := r
    simp only [hfinish popped hpopped]
    split
    · exact ⟨rfl, ((ends_remember _ _).bind (fun _ => .pure _) popped).trans hends⟩
    · exact ⟨rfl, hends⟩

/-! ## Asking again -/

private theorem settles_evaluate (hst : st.InOrder 0 limit [] [])
    (hidle : st.session.inProgress = [])
    (hb : st.session.IsBound key.file) (hw : (evaluate key st).2.WithinLimit) :
    (evaluate key st).2.session.Settles key (evaluate key st).1 := by
  have hrun : (LiveCheck.evaluation 0 limit [] []).Outcome st TypeId.Known (evaluate key st) :=
    sound_evaluate key st hst (Nat.zero_le _)
  rcases places_or_lacks hst.coherent.tidy hb with hplace | hlacks
  · left
    have hmemo : (LiveCheck.evaluation 0 limit [] []).Outcome st _ (memo? key st) :=
      sound_of_access (sound_memo? key) st hst (Nat.zero_le _)
    have hknows (type : TypeId) (h : (memo? key st).1 = some type) := knows_of_memo? hst.access h
    have heval : evaluate key st = evaluateBy compute st.session.options.maxEvaluationDepth key st :=
      rfl
    rw [heval, hst.depth] at hw ⊢
    rcases hfound : memo? key st with ⟨_ | type, st'⟩
    · rw [hfound] at hmemo
      have hst' : st'.InOrder 0 limit [] [] := hmemo.ok
      have hcompletes : st.session.Completes st'.session := hmemo.step.performs.completes
      have hplace' : position? st'.stack key = none := by
        rw [List.map_eq_nil_iff.mp hst'.stacked]
        rfl
      cases limit with
      | zero =>
        rw [evaluateBy_zero compute hfound hplace'] at hw
        obtain ⟨stack, earlier, hjournal⟩ := journal_tooDeep key st'
        exact absurd rfl (hw ⟨.exceeded key, stack⟩ (hjournal ▸ List.mem_cons_self))
      | succ room =>
        rw [evaluateBy_succ compute room hfound hplace'] at hw ⊢
        refine knows_computation (fits_nil _) hst' (Nat.succ_pos _)
          (hcompletes.inProgress.trans hidle) (hcompletes.places hplace) ?_ hw
        have hfits : Fits (room + 1) [key] [] := (fits_nil _).cons (Nat.succ_pos _) List.not_mem_nil
        refine sound_rules (fits_nil _) hfits List.not_mem_nil fun answers' hfits' n key' => ?_
        exact sound_evaluateBy hfits' rfl key'
    · rw [evaluateBy_of_memo? compute limit hfound]
      have hknown := hknows type (by rw [hfound])
      rwa [hfound] at hknown
  · exact .inr ⟨hrun.step.performs.completes.lacks hlacks, (evaluate_of_lacks hst hidle hlacks).1⟩

private theorem evaluate_of_settles (hst : st.InOrder 0 limit [] [])
    (hidle : st.session.inProgress = [])
    (h : st.session.Settles key type) :
    (evaluate key st).1 = type ∧ (evaluate key st).2.endless = st.endless := by
  rcases h with hknows | ⟨hlacks, rfl⟩
  · have hmemo := memo?_of_knows hst.coherent.tidy hidle hknows
    have hends := ends_memo? key st
    rcases hfound : memo? key st with ⟨found, st'⟩
    rw [hfound] at hmemo hends
    obtain rfl : found = some type := hmemo
    have heval : evaluate key st =
        evaluateBy compute st.session.options.maxEvaluationDepth key st := rfl
    rw [heval, evaluateBy_of_memo? compute _ hfound]
    exact ⟨rfl, hends⟩
  · exact evaluate_of_lacks hst hidle hlacks

private theorem outcome_mapM (keys : List EvalKey) (hst : st.InOrder 0 limit [] []) :
    (LiveCheck.evaluation 0 limit [] []).Outcome st (each TypeId.Known) (keys.mapM evaluate st) :=
  Sound.mapM TypeId.lasting_known (fun key _ _ _ => sound_evaluate key) st hst (Nat.zero_le _)

private theorem settles_mapM (hst : st.InOrder 0 limit [] []) (hidle : st.session.inProgress = [])
    (hb : ∀ key ∈ keys, st.session.IsBound key.file) (hw : (keys.mapM evaluate st).2.WithinLimit) :
    List.Forall₂ (keys.mapM evaluate st).2.session.Settles keys (keys.mapM evaluate st).1 := by
  induction keys generalizing st with
  | nil => exact .nil
  | cons key keys ih =>
    have hfirst : (LiveCheck.evaluation 0 limit [] []).Outcome st _ (evaluate key st) :=
      sound_evaluate key st hst (Nat.zero_le _)
    have hrest := outcome_mapM keys hfirst.ok
    rw [List.mapM_cons] at hw ⊢
    change (keys.mapM evaluate (evaluate key st).2).2.WithinLimit at hw
    have hcompletes := hfirst.step.performs.completes
    have hidle' := hcompletes.inProgress.trans hidle
    refine .cons ?_ (ih hfirst.ok hidle' (fun key' hkey' => ?_) hw)
    · have hsettled := settles_evaluate hst hidle (hb key List.mem_cons_self)
        (hw.earlier hrest.step.advances)
      exact hsettled.performs hrest.step.performs hidle'
    · exact hcompletes.isBound (hb key' (List.mem_cons_of_mem _ hkey'))

private theorem mapM_of_settles (hst : st.InOrder 0 limit [] [])
    (hidle : st.session.inProgress = [])
    (h : List.Forall₂ st.session.Settles keys types) :
    (keys.mapM evaluate st).1 = types ∧ (keys.mapM evaluate st).2.endless = st.endless := by
  induction keys generalizing st types with
  | nil =>
    cases h
    exact ⟨rfl, rfl⟩
  | cons key keys ih =>
    obtain _ | ⟨hkey, hkeys⟩ := h
    have hfirst : (LiveCheck.evaluation 0 limit [] []).Outcome st _ (evaluate key st) :=
      sound_evaluate key st hst (Nat.zero_le _)
    have hperforms := hfirst.step.performs
    obtain ⟨htype, hends⟩ := evaluate_of_settles hst hidle hkey
    obtain ⟨htypes, hendsRest⟩ := ih hfirst.ok (hperforms.completes.inProgress.trans hidle)
      (hkeys.imp fun _ _ h => h.performs hperforms hidle)
    rw [List.mapM_cons]
    change (evaluate key st).1 :: (keys.mapM evaluate (evaluate key st).2).1 = _ ∧
      (keys.mapM evaluate (evaluate key st).2).2.endless = st.endless
    rw [htype, htypes, hendsRest, hends]
    exact ⟨rfl, rfl⟩

/-! ## Symbols -/

private def joined (types : List TypeId) : EvalM TypeId :=
  if types.isEmpty then return .unknown else withTypes (TypeTable.union types)

private def joinedType (keys : List EvalKey) : EvalM TypeId := do joined (← keys.mapM evaluate)

private theorem joined_cases (types : List TypeId) (st : EvalState) :
    (joined types st).2.journal = st.journal ∧
      st.session.Remembers (joined types st).2.session := by
  unfold joined
  split
  · exact ⟨rfl, .refl _⟩
  · exact ⟨rfl, fun file => { Remembers.refl st.session file with types := extends_union types _ }⟩

private theorem ends_joined (types : List TypeId) : Ends (joined types) := by
  unfold joined
  split
  · exact .pure _
  · exact fun _ => rfl

private theorem joined_again (hin : ∀ id ∈ types, id < st.session.types.size)
    (h : (joined types st).2.session.types.Extends st'.session.types) :
    (joined types st').1 = (joined types st).1 := by
  unfold joined at h ⊢
  split
  · rfl
  · next hempty =>
    rw [if_neg hempty] at h
    have hagain : (union types st'.session.types).1 = (union types st.session.types).1 := by
      rw [union_again hin h]
    exact hagain

private theorem joinedType_again (hst : st.InOrder 0 limit [] [])
    (hidle : st.session.inProgress = [])
    (hb : st.session.IsBound file) (hkeys : ∀ key ∈ keys, key.file = file)
    (hw : (joinedType keys st).2.WithinLimit) (hst' : st'.InOrder 0 limit' [] [])
    (hidle' : st'.session.inProgress = [])
    (hlater : (joinedType keys st).2.session.Recalls file st'.session) :
    (joinedType keys st').1 = (joinedType keys st).1 ∧
      (joinedType keys st').2.endless = st'.endless := by
  have hfirst := outcome_mapM keys hst
  have hagain := outcome_mapM keys hst'
  have hrun (st : EvalState) : joinedType keys st =
      joined (keys.mapM evaluate st).1 (keys.mapM evaluate st).2 := rfl
  rw [hrun] at hw hlater
  rw [hrun, hrun]
  obtain ⟨hjournal, hjoined⟩ := joined_cases (keys.mapM evaluate st).1 (keys.mapM evaluate st).2
  have hsettled := settles_mapM hst hidle (fun key hkey => hkeys key hkey ▸ hb) fun m hm =>
    hw m (hjournal ▸ hm)
  have hrecalls := (hjoined file).trans hlater
  have hsettled' : List.Forall₂ st'.session.Settles keys (keys.mapM evaluate st).1 := by
    rw [List.forall₂_iff_zip] at hsettled ⊢
    refine ⟨hsettled.1, fun {key type} hmem => (hsettled.2 hmem).recalls ?_⟩
    exact hkeys key (List.of_mem_zip hmem).1 ▸ hrecalls
  obtain ⟨hsame, hends⟩ := mapM_of_settles hst' hidle' hsettled'
  rw [hsame, ends_joined, hends]
  refine ⟨joined_again (fun id hid => ?_)
    (hlater.types.trans hagain.step.performs.steps.extends), rfl⟩
  exact extent_zero (keys.mapM evaluate st).2.session.types ▸
    hfirst.ok.coherent.closed.lt_extent (hfirst.result id hid)

private theorem symbolType_of_bound (hs : st.session.Tidy) (hidle : st.session.inProgress = [])
    {u : SourceUnit} (hu : st.session.unit? file = some u) (hb : u.state.isBound = true)
    {b : Binding} (hbinding : u.binding = some b) (symbol : SymbolId) :
    symbolType evaluate file symbol st =
      match lastAnnotated? b (b.declarationsOf symbol) with
      | some d => evaluate (.decl ⟨file, d⟩) st
      | none => joinedType ((b.declarationsOf symbol).map fun d => .decl ⟨file, d⟩) st := by
  obtain ⟨bound, hbound, rfl⟩ := bound?_of_bound hs hidle hu hb hbinding
  simp only [symbolType, joinedType, Bind.bind, StateT.bind, hbound, List.mapM_map]
  cases lastAnnotated? bound.binding (bound.binding.declarationsOf symbol) <;> rfl

/-- The type of a symbol is the same when it is asked for again, unless the stack was full, and
finding it again comes to an end. -/
theorem symbolType_again {symbol : SymbolId} (hst : st.InOrder 0 limit [] [])
    (hidle : st.session.inProgress = []) (hb : st.session.IsBound file)
    (hw : (symbolType evaluate file symbol st).2.WithinLimit) (hst' : st'.InOrder 0 limit' [] [])
    (hidle' : st'.session.inProgress = [])
    (hlater : (symbolType evaluate file symbol st).2.session.Recalls file st'.session) :
    (symbolType evaluate file symbol st').1 = (symbolType evaluate file symbol st).1 ∧
      (symbolType evaluate file symbol st').2.endless = st'.endless := by
  have hrun : (LiveCheck.evaluation 0 limit [] []).Outcome st TypeId.Known
      (symbolType evaluate file symbol st) :=
    sound_symbolType admits_evaluate file symbol st hst (Nat.zero_le _)
  obtain ⟨u, hu, hbound⟩ := hb
  obtain ⟨b, hbinding⟩ := Option.isSome_iff_exists.mp ((hst.coherent.tidy file u hu).bound hbound).2
  obtain ⟨v, hv, hstays⟩ :=
    ((hrun.step.performs.remembers hidle file).trans hlater).bound u hu hbound
  rw [symbolType_of_bound hst.coherent.tidy hidle hu hbound hbinding] at hw hlater ⊢
  rw [symbolType_of_bound hst'.coherent.tidy hidle' hv hstays.isBound
    (hstays.binding.trans hbinding)]
  cases hannotated : lastAnnotated? b (b.declarationsOf symbol) with
  | some d =>
    rw [hannotated] at hw hlater
    have hsettled : (evaluate (.decl ⟨file, d⟩) st).2.session.Settles _ _ :=
      settles_evaluate hst hidle ⟨u, hu, hbound⟩ hw
    exact evaluate_of_settles hst' hidle' (hsettled.recalls hlater)
  | none =>
    rw [hannotated] at hw hlater
    refine joinedType_again hst hidle ⟨u, hu, hbound⟩ (fun key hkey => ?_) hw hst' hidle' hlater
    obtain ⟨d, -, rfl⟩ := List.mem_map.mp hkey
    rfl

end Evaluation
end LiveCheck
