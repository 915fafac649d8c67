import LiveCheck.Proofs.Evaluation.Engine
import LiveCheck.Proofs.Session.Flushing
import LiveCheck.Session.Query

/-!
# What questions do to a session

A question takes in the pending changes, and from then on it evaluates, marks files as checked and
gives out handles; a check of the whole program flushes again before each file. A property of
sessions that each of these keeps, and that the first flush brings about, holds behind every
question, whether it has an answer or not.
-/

namespace LiveCheck

open Session Evaluation Discipline

/-! ## Bounds on what is mentioned -/

namespace Session

private theorem exists_bound (l : List Nat) : ∃ n, ∀ i ∈ l, i < n := by
  induction l with
  | nil => exact ⟨0, nofun⟩
  | cons a l ih =>
    obtain ⟨n, hn⟩ := ih
    refine ⟨max (a + 1) n, fun i hi => ?_⟩
    rcases List.mem_cons.mp hi with rfl | hi
    · exact Nat.lt_of_lt_of_le (Nat.lt_succ_self i) (Nat.le_max_left _ _)
    · exact Nat.lt_of_lt_of_le (hn i hi) (Nat.le_max_right _ _)

private def mentionedTypes (entry : NodeAnalysis) : List TypeId :=
  entry.exprType.toList ++ entry.returnType.toList ++ entry.declTypes.map (·.2)

private theorem mem_mentionedTypes {entry : NodeAnalysis} {slot : Slot} {type : TypeId}
    (h : entry.type? slot = some type) : type ∈ mentionedTypes entry := by
  cases slot with
  | expression =>
    have h : entry.exprType = some type := h
    simp [mentionedTypes, h]
  | result =>
    have h : entry.returnType = some type := h
    simp [mentionedTypes, h]
  | declaration index =>
    obtain ⟨before, after, he, -⟩ := List.lookup_eq_some_iff.mp h
    simp [mentionedTypes, he]

/-- A tidy session is coherent up to some bound. -/
theorem Tidy.exists_coherent {s : Session} (hs : s.Tidy) : ∃ slack, s.Coherent slack := by
  obtain ⟨n, hn⟩ := exists_bound
    (s.types.types.toList.flatMap TypeData.parts ++ s.types.shapes.toList.flatMap Signature.parts)
  obtain ⟨k, hk⟩ := exists_bound (s.units.toList.flatMap fun u =>
    u.elim [] fun u => u.analysis.entries.toList.flatMap fun entry => mentionedTypes entry.2)
  have hpart (part : TypeId) (hlt : part < n) :
      part < s.types.extent (max TypeId.intrinsicCount (max n k)) :=
    Nat.lt_of_lt_of_le hlt (Nat.le_trans (Nat.le_trans (Nat.le_max_left n k) (Nat.le_max_right _ _))
      (Nat.le_max_left _ _))
  refine ⟨max TypeId.intrinsicCount (max n k), hs, ⟨?_, ?_, ?_, ?_⟩, ?_⟩
  · exact Nat.le_trans (Nat.le_max_left _ _) (Nat.le_max_left _ _)
  · intro id data hd part hp
    refine hpart part (hn part (List.mem_append_left _ (List.mem_flatMap.mpr ⟨data, ?_, hp⟩)))
    exact Array.mem_toList_iff.mpr (Array.mem_of_getElem? hd)
  · intro shape signature hs part hp
    refine hpart part (hn part (List.mem_append_right _ (List.mem_flatMap.mpr ⟨signature, ?_, hp⟩)))
    exact Array.mem_toList_iff.mpr (Array.mem_of_getElem? hs)
  · intro h0
    have : TypeId.intrinsicCount ≤ 0 := h0 ▸ Nat.le_max_left _ _
    exact absurd this (by decide)
  · intro file u node slot type hu _ htype
    obtain ⟨entry, hentry, htype⟩ := Option.bind_eq_some_iff.mp htype
    have hlt : type < k := by
      refine hk type (List.mem_flatMap.mpr ⟨some u, ?_, ?_⟩)
      · exact Array.mem_toList_iff.mpr (Array.mem_of_getElem? (Option.join_eq_some_iff.mp hu))
      · refine List.mem_flatMap.mpr ⟨(node, entry), ?_, mem_mentionedTypes htype⟩
        exact Std.TreeMap.mem_toList_iff_getElem?_eq_some.mpr hentry
    refine Nat.lt_of_lt_of_le hlt ?_
    exact Nat.le_trans (Nat.le_trans (Nat.le_max_right n k) (Nat.le_max_right _ _))
      (Nat.le_max_left _ _)

end Session

namespace Query

variable {P : Session → Prop} {α β : Type} {q : Query α} {f : α → Query β} {a : α}

/-- Behind an answer a question goes on. -/
theorem run_bind_ok {s t : Session} (h : q.run s = (.ok a, t)) : (q >>= f).run s = (f a).run t := by
  change (ExceptT.bindCont f (q.run s).1) (q.run s).2 = _
  rw [h]
  rfl

/-! ## Questions that keep a property -/

/-- The question keeps a property of sessions, whether it has an answer or not. -/
def Keeps (P : Session → Prop) (q : Query α) : Prop := ∀ s, P s → P (q.run s).2

theorem Keeps.pure (a : α) : Keeps P (pure a) := fun _ hs => hs

private theorem Keeps.throw (e : NoAnswer) : Keeps P (throw e : Query α) := fun _ hs => hs

theorem Keeps.get : Keeps P (get : Query Session) := fun _ hs => hs

/-- A question in two parts keeps a property if the first part does, and the second one after an
answer to the first. -/
theorem bind_cases {s : Session} (hq : P (q.run s).2)
    (hf : ∀ a, (q.run s).1 = .ok a → P ((f a).run (q.run s).2).2) : P ((q >>= f).run s).2 := by
  change P ((ExceptT.bindCont f (q.run s).1) (q.run s).2).2
  cases hr : (q.run s).1 with
  | ok a => exact hf a hr
  | error e => exact hq

theorem Keeps.bind (hq : Keeps P q) (hf : ∀ a, Keeps P (f a)) :
    Keeps P (q >>= f) :=
  fun s hs => bind_cases (hq s hs) fun a _ => hf a _ (hq s hs)

theorem Keeps.map (hq : Keeps P q) (f : α → β) : Keeps P (f <$> q) := by
  rw [map_eq_pure_bind]
  exact hq.bind fun a => .pure (f a)

private theorem Keeps.tryCatch {f : NoAnswer → Query α} (hq : Keeps P q) (hf : ∀ e, Keeps P (f e)) :
    Keeps P (tryCatch q f) := by
  intro s hs
  have h : P (q s).2 := hq s hs
  change P ((ExceptT.tryCatch q f) s).2
  simp only [ExceptT.tryCatch, ExceptT.mk, Bind.bind, StateT.bind]
  generalize q s = r at h ⊢
  obtain ⟨e | a, t⟩ := r
  · exact hf e t h
  · exact h

private theorem Keeps.mapM {l : List α} (hf : ∀ a, Keeps P (f a)) :
    Keeps P (l.mapM f) := by
  induction l with
  | nil => exact .pure []
  | cons a l ih =>
    rw [List.mapM_cons]
    exact (hf a).bind fun b => ih.bind fun bs => .pure (b :: bs)

private theorem Keeps.modify {f : Session → Session} (hf : ∀ s, P s → P (f s)) :
    Keeps P (modify f : Query PUnit) := fun s hs => hf s hs

private theorem Keeps.operate {f : Session → α × Session} (hf : ∀ s, P s → P (f s).2) :
    Keeps P (operate f) := fun s hs => hf s hs

private def Leads (P : Session → Prop) (q : Query α) : Prop := ∀ s, P s.flush → P (q.run s).2

private theorem leads_flush {f : PUnit → Query α} (hf : ∀ a, Keeps P (f a)) :
    Leads P (modify Session.flush >>= f) := fun s hs => hf ⟨⟩ s.flush hs

/-! ## Properties that all questions keep -/

/-- The property is kept by all that a question does, one thing at a time. -/
structure Respected (P : Session → Prop) : Prop where
  flush : ∀ s, P s → P s.flush
  evaluate : ∀ s, P s → ∃ slack, s.Coherent slack ∧ ∀ t, Performs slack s t → P t
  check : ∀ s file, P s → s.IsBound file → P (markChecked file s)
  register : ∀ s target, P s → P { s with handles := (s.handles.register target).2 }

variable (h : Respected P)

include h

theorem Respected.performs {s t : Session} (hs : P s)
    (ht : ∀ slack, s.Tidy → Performs slack s t) : P t := by
  obtain ⟨slack, hc, hkeep⟩ := h.evaluate s hs
  exact hkeep t (ht slack hc.tidy)

private theorem keeps_flush : Keeps P (modify Session.flush : Query PUnit) := .modify h.flush

private theorem keeps_operateEnsureBound (file : FileId) : Keeps P (operate (·.ensureBound file)) :=
  .operate fun _ hs => h.performs hs fun _ ht => (prepares_ensureBound ht file).performs

private theorem keeps_ensureBound (file : FileId) : Keeps P (ensureBound file) := by
  refine (keeps_operateEnsureBound h file).bind fun b => ?_
  split
  · exact Keeps.get.bind fun s => .throw _
  · exact .pure _

private theorem leads_prepare (file : FileId) {f : Unit → Query α} (hf : ∀ a, Keeps P (f a)) :
    Leads P (prepare file >>= f) :=
  fun s hs => ((keeps_ensureBound h file).bind hf) s.flush hs

theorem keeps_evaluating {m : EvalM α}
    (hm : ∀ slack limit, (evaluation slack limit [] []).Sound 0 m anything) :
    Keeps P (evaluating m) := by
  have hrun : Keeps P (operate (run m)) := by
    refine .operate fun s hs => ?_
    obtain ⟨slack, hc, ht⟩ := h.evaluate s hs
    exact ht _ (run_of_sound hc (hm slack)).1
  refine hrun.bind fun a => ?_
  cases a with
  | none => exact .throw _
  | some a => exact .pure a

private theorem keeps_resolveImport (file : FileId) (dotted : String) (level : Nat) :
    Keeps P (operate (·.resolveImport file dotted level)) :=
  .operate fun s hs => h.performs hs fun _ _ => (prepares_resolveImport s file dotted level).performs

/-! ### Types -/

private theorem leads_typeOfNode (file : FileId) (node : NodeId) : Leads P (typeOfNode file node) :=
  leads_prepare h file fun _ =>
    keeps_evaluating h fun _ _ => (sound_typeOfNode? admits_evaluate file node).forget

private theorem leads_typeAt (file : FileId) (position : Position) :
    Leads P (typeAt file position) := by
  refine leads_prepare h file fun _ => Keeps.get.bind fun s => ?_
  split
  · exact keeps_evaluating h fun _ _ => (sound_typeOfNode? admits_evaluate file _).forget
  · exact .pure _

private theorem leads_typeOfSymbol (file : FileId) (name : String) :
    Leads P (typeOfSymbol file name) := by
  refine leads_prepare h file fun _ => Keeps.get.bind fun s => ?_
  dsimp only
  split
  · exact (keeps_evaluating h fun _ _ => (sound_symbolType admits_evaluate file _).forget).map _
  · exact .pure _

/-! ### Declarations -/

private theorem keeps_aliasTargets (decl : DeclId) : Keeps P (aliasTargets decl) := by
  refine Keeps.get.bind fun s => ?_
  split
  · refine (keeps_resolveImport h _ _ _).bind fun o => ?_
    split
    · exact .pure _
    · refine (keeps_operateEnsureBound h _).bind fun b => ?_
      split
      · exact Keeps.get.bind fun s => .pure _
      · exact .pure _
  · exact .pure _

private theorem keeps_followAlias (fuel : Nat) (decl : DeclId) :
    Keeps P (followAlias fuel decl) := by
  induction fuel generalizing decl with
  | zero => exact (keeps_aliasTargets h decl).bind fun _ => .pure _
  | succ fuel ih =>
    rw [followAlias]
    refine (keeps_aliasTargets h decl).bind fun targets => ?_
    split
    · exact .pure _
    · exact (Keeps.mapM ih).bind fun _ => .pure _

private theorem keeps_followAliases (decls : List DeclId) : Keeps P (followAliases decls) :=
  (Keeps.mapM (keeps_followAlias h _)).bind fun _ => .pure _

private theorem leads_declarationsAt (file : FileId) (position : Position) :
    Leads P (declarationsAt file position) := by
  refine leads_prepare h file fun _ => Keeps.get.bind fun s => ?_
  dsimp only
  split
  · exact .pure _
  · split
    · refine (keeps_evaluating h fun slack limit => ?_).bind fun decls => keeps_followAliases h decls
      exact (sound_expressionType admits_evaluate file _).bind fun object _ _ _ =>
        sound_memberDeclarations admits_evaluate object _
    · exact keeps_followAliases h _

/-! ### Diagnostics -/

omit h in
/-- A unit that is bound stays so while an evaluation goes on. -/
theorem isBound_of_evaluates {slack : Nat} {s t : Session} {file : FileId}
    (he : Evaluates slack s t) (hb : s.IsBound file) : t.IsBound file := by
  refine he.induct (P := fun r => r.IsBound file) (fun r t hstep hr => ?_) hb
  obtain ⟨u, hu, hbound⟩ := hr
  obtain ⟨v, hv, hc⟩ := hstep.unit?_of_some hu
  refine ⟨v, hv, ?_⟩
  cases hc with
  | bind hc =>
    cases hc with
    | cache entries => exact hbound
    | parse hs hc => rcases hs with hs | hs <;> rw [hs] at hbound <;> exact nomatch hbound
    | discard hs =>
      rw [hs] at hbound
      exact nomatch hbound
    | bind binding hb => rfl
  | enter hb => exact SourceUnit.isBound_evaluating hb _
  | report d =>
    rw [SourceUnit.rest_report]
    exact hbound
  | learn node key type hb => exact hbound

private theorem keeps_checkBound {s : Session} {file : FileId} (hs : P s) (hb : s.IsBound file) :
    P (markChecked file (run (checkFile file) s).2) := by
  obtain ⟨slack, hc, ht⟩ := h.evaluate s hs
  have he : Performs slack s (run (checkFile file) s).2 :=
    (run_of_sound hc fun _ => sound_checkFile admits_evaluate file).1
  exact h.check _ file (ht _ he) (isBound_of_evaluates he.steps hb)

omit h in
/-- Binding a file for a question fails only if it has no content. -/
theorem run_ensureBound (s : Session) (file : FileId) :
    (ensureBound file).run s =
      (if (s.ensureBound file).1 then .ok ()
        else .error (.failed ((s.ensureBound file).2.notFound file)), (s.ensureBound file).2) := by
  have hrun : (ensureBound file).run s =
      (if !(s.ensureBound file).1 then (do fail ((← get).notFound file)) else pure () :
        Query Unit).run (s.ensureBound file).2 := rfl
  rw [hrun]
  cases (s.ensureBound file).1 <;> rfl

omit h in
/-- If binding a file for a question succeeds, then the file is bound. -/
theorem isBound_of_ensureBound {s : Session} (hs : s.Tidy) {file : FileId} {a : Unit}
    (hok : ((ensureBound file).run s).1 = .ok a) : ((ensureBound file).run s).2.IsBound file := by
  rw [run_ensureBound] at hok ⊢
  cases hb : (s.ensureBound file).1 with
  | true => exact (binds_ensureBound hs file).2 hb
  | false =>
    rw [hb] at hok
    exact nomatch hok

omit h in
private theorem keeps_knownProblems (file : FileId) : Keeps P (knownProblems file) := by
  refine Keeps.get.bind fun s => ?_
  split
  · exact .pure _
  · exact Keeps.get.bind fun _ => .throw _

omit h in
/-- An evaluation that goes on without end has no result; whether it has one makes no difference to
the session. -/
theorem run_evaluating (m : EvalM α) (s : Session) :
    (evaluating m).run s = ((run m s).1.elim (.error .endless) .ok, (run m s).2) := by
  have hrun : (operate (run m)).run s = (.ok (run m s).1, (run m s).2) := rfl
  rw [evaluating, run_bind_ok hrun]
  cases (run m s).1 <;> rfl

private theorem keeps_checkUnit (file : FileId) : Keeps P (checkUnit file) := by
  intro s hs
  obtain ⟨slack, hc, -⟩ := h.evaluate s hs
  refine bind_cases (keeps_ensureBound h file s hs) fun _ hok => ?_
  have hbound := isBound_of_ensureBound hc.tidy hok
  have ht := keeps_ensureBound h file s hs
  generalize ((ensureBound file).run s).2 = t at hbound ht ⊢
  change P ((ite _ _ _ : Query _).run t).2
  split
  · refine bind_cases ?_ fun _ _ => ?_
    · exact keeps_evaluating h (fun _ _ => sound_checkFile admits_evaluate file) t ht
    · rw [run_evaluating]
      exact keeps_knownProblems file _ (keeps_checkBound h ht hbound)
  · exact keeps_knownProblems file t ht

private theorem leads_diagnostics (file : FileId) : Leads P (diagnostics file) :=
  leads_prepare h file fun _ => keeps_checkUnit h file

private theorem keeps_fileReport (file : FileId) : Keeps P (fileReport file) :=
  (keeps_flush h).bind fun _ => (keeps_checkUnit h file).bind fun _ => Keeps.get.bind fun _ => .pure _

theorem keeps_fileReport? (file : FileId) : Keeps P (fileReport? file) := by
  refine ((keeps_fileReport h file).map some).tryCatch fun e => ?_
  split
  · exact .pure _
  · exact .throw _

private theorem keeps_reports (cancelled : Bool) (files : List FileId) :
    Keeps P (reports cancelled files) := by
  induction files with
  | nil => exact .pure _
  | cons file files ih =>
    rw [reports]
    split
    · refine (Keeps.throw _).bind fun _ => ?_
      exact (keeps_fileReport? h file).bind fun _ => ih.bind fun _ => .pure _
    · exact (keeps_fileReport? h file).bind fun _ => ih.bind fun _ => .pure _

private theorem leads_checkProgram (cancelled : Bool) : Leads P (checkProgram cancelled) :=
  leads_flush fun _ => Keeps.get.bind fun _ => keeps_reports h cancelled _

/-! ### Handles -/

private theorem keeps_register (target : HandleTarget) : Keeps P (register target) :=
  fun s hs => h.register s target hs

private theorem leads_registerDeclaration (decl : DeclId) : Leads P (registerDeclaration decl) := by
  refine leads_flush fun _ => Keeps.get.bind fun s => ?_
  split
  · exact keeps_register h _
  · exact .pure _

private theorem leads_registerType (type : TypeId) : Leads P (registerType type) :=
  leads_flush fun _ => keeps_register h _

omit h in
private theorem leads_declarationOf (handle : String) : Leads P (declarationOf handle) :=
  leads_flush fun _ => Keeps.get.bind fun _ => .pure _

omit h in
private theorem leads_typeOf (handle : String) : Leads P (typeOf handle) :=
  leads_flush fun _ => Keeps.get.bind fun _ => .pure _

end Query

/-! ## Answers -/

namespace Query

variable {α β : Type} {s t : Session} {file : FileId} {e : NoAnswer} {q : Query α}
  {f : α → Query β} {a : α}

/-- Without an answer a question ends. -/
theorem run_bind_error (h : q.run s = (.error e, t)) : (q >>= f).run s = (.error e, t) := by
  change (ExceptT.bindCont f (q.run s).1) (q.run s).2 = _
  rw [h]
  rfl

theorem run_map (q : Query α) (f : α → β) (s : Session) :
    (f <$> q).run s = ((q.run s).1.map f, (q.run s).2) := by
  rw [ExceptT.run_map]
  rfl

theorem run_tryCatch_ok {f : NoAnswer → Query α} (h : q.run s = (.ok a, t)) :
    (tryCatch q f).run s = (.ok a, t) := by
  have h : q s = (.ok a, t) := h
  change (ExceptT.tryCatch q f) s = _
  simp only [ExceptT.tryCatch, ExceptT.mk, Bind.bind, StateT.bind, h]
  rfl

theorem run_tryCatch_error {f : NoAnswer → Query α} (h : q.run s = (.error e, t)) :
    (tryCatch q f).run s = (f e).run t := by
  have h : q s = (.error e, t) := h
  change (ExceptT.tryCatch q f) s = _
  simp only [ExceptT.tryCatch, ExceptT.mk, Bind.bind, StateT.bind, h]
  rfl

theorem run_knownProblems {u : SourceUnit} (hu : s.unit? file = some u) :
    (knownProblems file).run s = (.ok (knownDiagnostics u), s) := by
  have hget : (get : Query Session).run s = (.ok s, s) := rfl
  rw [knownProblems, run_bind_ok hget, hu]
  rfl

/-- A check that ends has checked the file, and gives all that is known to be wrong with it. -/
theorem checkUnit_of_bound (hs : s.Tidy) (hb : (s.ensureBound file).1 = true) :
    (∃ t u, (checkUnit file).run s = (.ok (knownDiagnostics u), t) ∧ t.unit? file = some u ∧
      u.state = .evaluated true) ∨ ((checkUnit file).run s).1 = .error .endless := by
  have hensure := run_ensureBound s file
  rw [hb, if_pos rfl] at hensure
  have hbound : (s.ensureBound file).2.IsBound file := (binds_ensureBound hs file).2 hb
  unfold checkUnit
  rw [run_bind_ok hensure]
  have ht : (s.ensureBound file).2.Tidy := (binds_ensureBound hs file).1.tidy hs
  generalize (s.ensureBound file).2 = t at hbound ht
  change (∃ t' u, (ite _ _ _ : Query _).run t = _ ∧ _) ∨ ((ite _ _ _ : Query _).run t).1 = _
  split
  · rcases hrun : run (checkFile file) t with ⟨_ | a, t'⟩
    · have hevaluating : (evaluating (checkFile file)).run t = (.error .endless, t') := by
        rw [run_evaluating, hrun]
        rfl
      rw [run_bind_error hevaluating]
      exact .inr rfl
    · have hevaluating : (evaluating (checkFile file)).run t = (.ok a, t') := by
        rw [run_evaluating, hrun]
        rfl
      have hmarked : (modify (markChecked file) : Query PUnit).run t' =
        (.ok ⟨⟩, markChecked file t') := rfl
      rw [run_bind_ok hevaluating, run_bind_ok hmarked]
      obtain ⟨slack, hc⟩ := ht.exists_coherent
      have he : Performs slack t (run (checkFile file) t).2 :=
        (run_of_sound hc fun _ => sound_checkFile admits_evaluate file).1
      rw [hrun] at he
      obtain ⟨u, hu, -⟩ := isBound_of_evaluates he.steps hbound
      have hchecked : (markChecked file t').unit? file = _ := unit?_modifyUnit_self t' file _
      rw [hu] at hchecked
      exact .inl ⟨_, _, run_knownProblems hchecked, hchecked, rfl⟩
  · next hstate =>
    obtain ⟨u, hu, -⟩ := hbound
    rw [hu] at hstate
    exact .inl ⟨t, u, run_knownProblems hu, hu, by simpa using hstate⟩

/-- The report of a visit is on the file, and there is none if the file cannot be read. -/
theorem fileReport?_eq_ok (hs : s.Tidy) {report : Option FileReport}
    (h : ((fileReport? file).run s).1 = .ok report) :
    report.map (·.file) = if (s.flush.ensureBound file).1 then some file else none := by
  have hflush : (modify Session.flush : Query PUnit).run s = (.ok ⟨⟩, s.flush) := rfl
  have htidy : s.flush.Tidy := hs.flush
  have hmap := run_map (fileReport file) some s
  have hreport : (fileReport file).run s = (do
      let found ← checkUnit file
      return ⟨file, ((← get).path? file).getD "", found⟩ : Query FileReport).run s.flush :=
    run_bind_ok hflush
  cases hb : (s.flush.ensureBound file).1 with
  | true =>
    rcases hchecked : (checkUnit file).run s.flush with ⟨e | found, t⟩
    · have hendless : e = .endless := by
        rcases checkUnit_of_bound htidy hb with ⟨_, _, hfound, -⟩ | hfound
        · rw [hchecked] at hfound
          cases hfound
        · rw [hchecked] at hfound
          exact Except.error.inj hfound
      rw [hreport, run_bind_error hchecked, hendless] at hmap
      rw [fileReport?, run_tryCatch_error hmap] at h
      exact nomatch h
    · rw [hreport, run_bind_ok hchecked] at hmap
      rw [fileReport?, run_tryCatch_ok hmap] at h
      rw [← Except.ok.inj h]
      rfl
  | false =>
    have hensure := run_ensureBound s.flush file
    rw [hb] at hensure
    have hchecked : (checkUnit file).run s.flush = _ := run_bind_error hensure
    rw [hreport, run_bind_error hchecked] at hmap
    rw [fileReport?, run_tryCatch_error hmap] at h
    rw [← Except.ok.inj h]
    rfl

end Query

/-! ## Questions as data -/

/-- A question that a session can be asked. -/
inductive Question
  | typeOfNode (file : FileId) (node : NodeId)
  | typeAt (file : FileId) (position : Position)
  | typeOfSymbol (file : FileId) (name : String)
  | declarationsAt (file : FileId) (position : Position)
  | diagnostics (file : FileId)
  | checkProgram (cancelled : Bool)
  | registerDeclaration (decl : DeclId)
  | registerType (type : TypeId)
  | declarationOf (handle : String)
  | typeOf (handle : String)

/-- The session behind a question. -/
def Session.asked (s : Session) : Question → Session
  | .typeOfNode file node => ((Query.typeOfNode file node).run s).2
  | .typeAt file position => ((Query.typeAt file position).run s).2
  | .typeOfSymbol file name => ((Query.typeOfSymbol file name).run s).2
  | .declarationsAt file position => ((Query.declarationsAt file position).run s).2
  | .diagnostics file => ((Query.diagnostics file).run s).2
  | .checkProgram cancelled => ((Query.checkProgram cancelled).run s).2
  | .registerDeclaration decl => ((Query.registerDeclaration decl).run s).2
  | .registerType type => ((Query.registerType type).run s).2
  | .declarationOf handle => ((Query.declarationOf handle).run s).2
  | .typeOf handle => ((Query.typeOf handle).run s).2

/-- A property that all that questions do keeps, and that the first flush brings about, holds behind
every question. -/
theorem Query.Respected.asked {P : Session → Prop} (h : Query.Respected P) {s : Session}
    (hs : P s.flush) (q : Question) : P (s.asked q) := by
  cases q with
  | typeOfNode file node => exact Query.leads_typeOfNode h file node s hs
  | typeAt file position => exact Query.leads_typeAt h file position s hs
  | typeOfSymbol file name => exact Query.leads_typeOfSymbol h file name s hs
  | declarationsAt file position => exact Query.leads_declarationsAt h file position s hs
  | diagnostics file => exact Query.leads_diagnostics h file s hs
  | checkProgram cancelled => exact Query.leads_checkProgram h cancelled s hs
  | registerDeclaration decl => exact Query.leads_registerDeclaration h decl s hs
  | registerType type => exact Query.leads_registerType h type s hs
  | declarationOf handle => exact Query.leads_declarationOf handle s hs
  | typeOf handle => exact Query.leads_typeOf handle s hs

end LiveCheck
