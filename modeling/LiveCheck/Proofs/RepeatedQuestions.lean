import LiveCheck.Proofs.CompleteResults
import LiveCheck.Proofs.Evaluation.Answers
import LiveCheck.Proofs.FromScratch
import LiveCheck.Proofs.Session.Upkeep

/-!
# Questions that are asked again

Between changes, questions only add to what a session knows: files that are bound stay bound to the
same names, results that are known stay known, and types keep their numbers. So the type of a symbol
is the same whenever it is asked for again, whatever was asked in between, and problems that were
found in a file are found again. The first answer may well depend on what was asked before it: names
that are taken from a module while that module is being bound, and the bases of a class that are
looked for while the class is being evaluated, are kept as they were found.
-/

namespace LiveCheck.Session

open Evaluation Discipline TypeTable

variable {s t : Session} {file : FileId} {name : String} {answer : Option TypeId}

/-! ## What questions leave alone -/

/-- Nothing is pending and nothing is being bound, and all readable types exist. -/
structure Calm (s : Session) : Prop where
  coherent : s.Coherent 0
  idle : s.inProgress = []
  settled : s.hasPendingChanges = false

theorem Calm.performs (hs : s.Calm) (h : Performs 0 s t) : t.Calm where
  coherent := h.steps.coherent hs.coherent
  idle := h.completes.inProgress.trans hs.idle
  settled := by
    rw [hasPendingChanges, h.steps.rest]
    exact hs.settled

/-- To mark a file as checked changes nothing about what is bound and known. -/
theorem staysBound_markChecked (file : FileId) {other : FileId} {u : SourceUnit}
    (hu : s.unit? other = some u) (hb : u.state.isBound = true) :
    ∃ v, (Query.markChecked file s).unit? other = some v ∧ u.StaysBound v ∧
      v.analysis = u.analysis := by
  change ∃ v, (s.modifyUnit file _).unit? other = some v ∧ _
  rw [unit?_modifyUnit, hu]
  split
  · exact ⟨_, rfl, ⟨rfl, rfl, rfl⟩, rfl⟩
  · exact ⟨u, rfl, ⟨hb, rfl, rfl⟩, rfl⟩

private theorem remembers_markChecked (s : Session) (file : FileId) :
    s.Remembers (Query.markChecked file s) := fun other =>
  { bound u hu hb := by
      obtain ⟨v, hv, hstays, -⟩ := staysBound_markChecked file hu hb
      exact ⟨v, hv, hstays⟩
    knows key type hkey := by
      rintro ⟨u, node, ⟨hu, hb, hstamp⟩, hnode, htype⟩
      obtain ⟨v, hv, hstays, hanalysis⟩ := staysBound_markChecked file hu hb
      refine ⟨v, node, ⟨hv, hstays.isBound, ?_⟩, hnode.congr hstays.binding, ?_⟩
      · rw [hanalysis]
        exact hstamp
      · rw [SourceUnit.typeAt?, hanalysis]
        exact htype
    reports u hopened hstate hknown := by
      obtain ⟨hu, hb, hstamp⟩ := hopened
      change ∃ v, ((s.modifyUnit file _).unit? other = some v ∧ v.state.isBound = true ∧
        v.analysis.stamp = s.generation) ∧ _
      rw [unit?_modifyUnit, hu]
      split
      · exact ⟨_, ⟨rfl, rfl, hstamp⟩, rfl, hknown, .refl _⟩
      · exact ⟨u, ⟨rfl, hb, hstamp⟩, hstate, hknown, .refl _⟩
    types := .refl s.types }

theorem coherent_markChecked {slack : Nat} (hs : s.Coherent slack) (hb : s.IsBound file) :
    (Query.markChecked file s).Coherent slack := by
  refine ⟨hs.tidy.markChecked hb, hs.closed, ?_⟩
  intro other v node slot type hv hstamp htype
  obtain ⟨u, hu, ⟨rfl, rfl⟩ | ⟨-, rfl⟩⟩ := unit?_modifyUnit_eq_some (s := s) hv
  · exact hs.readable other u node slot type hu hstamp htype
  · exact hs.readable other v node slot type hu hstamp htype

private theorem Calm.markChecked (hs : s.Calm) (hb : s.IsBound file) :
    (Query.markChecked file s).Calm where
  coherent := coherent_markChecked hs.coherent hb
  idle := hs.idle
  settled := hs.settled

private theorem respected_remembers (s : Session) :
    Query.Respected fun t => t.Calm ∧ s.Remembers t where
  flush t ht := by rwa [flush_of_not_pending ht.1.settled]
  evaluate t ht :=
    ⟨0, ht.1.coherent, fun _ h => ⟨ht.1.performs h, fun file =>
      (ht.2 file).trans (h.remembers ht.1.idle file)⟩⟩
  check t file ht hb :=
    ⟨ht.1.markChecked hb, fun other => (ht.2 other).trans (remembers_markChecked t file other)⟩
  register t target ht :=
    ⟨⟨⟨ht.1.coherent.tidy, ht.1.coherent.closed, ht.1.coherent.readable⟩, ht.1.idle, ht.1.settled⟩,
      fun file => { ht.2 file with }⟩

/-- Behind any number of questions, all is known that was known before. -/
theorem Calm.asked (hs : s.Calm) (questions : List Question) :
    (questions.foldl Session.asked s).Calm ∧ s.Remembers (questions.foldl Session.asked s) := by
  suffices h : ∀ t, t.Calm ∧ s.Remembers t →
      (questions.foldl Session.asked t).Calm ∧ s.Remembers (questions.foldl Session.asked t) from
    h s ⟨hs, .refl s⟩
  induction questions with
  | nil => exact fun _ h => h
  | cons q questions ih =>
    exact fun t ht => ih _ ((respected_remembers s).asked
      (by rwa [flush_of_not_pending ht.1.settled]) q)

/-- A calm session has nothing to do for a file that is bound. -/
theorem Calm.ensureBound {u : SourceUnit} (hs : s.Calm) (hu : s.unit? file = some u)
    (hb : u.state.isBound = true) : s.flush.ensureBound file = (true, s) := by
  rw [flush_of_not_pending hs.settled]
  exact ensureBound_of_bound hu hb (by rw [hs.idle]; exact List.not_mem_nil)

/-! ## Problems that were reported -/

private theorem run_diagnostics (h : s.flush.ensureBound file = (true, t)) :
    (Query.diagnostics file).run s = (Query.checkUnit file).run t := by
  have hensure := Query.run_ensureBound s.flush file
  rw [h] at hensure
  exact Query.run_bind_ok hensure

/-- A calm session shows again what it knows of a file that was checked. -/
theorem Calm.diagnostics {u : SourceUnit} (hs : s.Calm) (hu : s.unit? file = some u)
    (hstate : u.state = .evaluated true) :
    (Query.diagnostics file).run s = (.ok (knownDiagnostics u), s) := by
  have hb : u.state.isBound = true := by rw [hstate]; rfl
  have hensure := hs.ensureBound hu hb
  rw [run_diagnostics hensure]
  rw [flush_of_not_pending hs.settled] at hensure
  have hrun := Query.run_ensureBound s file
  rw [hensure] at hrun
  rw [Query.checkUnit, Query.run_bind_ok hrun]
  change ((ite _ _ _ : Query _).run s) = _
  rw [if_neg (by simp [hu, hstate])]
  exact Query.run_knownProblems hu

private theorem checked_of_diagnostics {found : List Diagnostic} (hs : s.flush.Calm)
    (h : ((Query.diagnostics file).run s).1 = .ok found) :
    ∃ u, (s.asked (.diagnostics file)).unit? file = some u ∧ u.state = .evaluated true ∧
      knownDiagnostics u = found := by
  cases hb : (s.flush.ensureBound file).1 with
  | false =>
    have hensure := Query.run_ensureBound s.flush file
    rw [hb] at hensure
    have hrun : (Query.diagnostics file).run s = _ := Query.run_bind_error hensure
    rw [hrun] at h
    cases h
  | true =>
    have hrun := run_diagnostics (Prod.ext hb rfl)
    have ht := hs.performs (prepares_ensureBound hs.coherent.tidy file).performs
    obtain ⟨u, hu, hbound⟩ := (binds_ensureBound hs.coherent.tidy file).2 hb
    have hensure := ht.ensureBound hu hbound
    rw [flush_of_not_pending ht.settled] at hensure
    change ∃ u, ((Query.diagnostics file).run s).2.unit? file = some u ∧ _
    rcases Query.checkUnit_of_bound ht.coherent.tidy (congrArg Prod.fst hensure) with
      ⟨t, u, hok, hu, hstate⟩ | hendless
    · rw [hrun, hok] at h ⊢
      exact ⟨u, hu, hstate, Except.ok.inj h⟩
    · rw [hrun, hendless] at h
      cases h

/-- What was found in a file, in which a type is known by then, is shown by all calm sessions that know
what was known about the file before. -/
theorem Recalls.diagnostics {found : List Diagnostic} (hs : s.flush.Calm)
    (h : ((Query.diagnostics file).run s).1 = .ok found)
    (hknown : ∃ key type, key.file = file ∧ (s.asked (.diagnostics file)).Knows key type)
    (ht : t.Calm) (hlater : (s.asked (.diagnostics file)).Recalls file t) :
    ∃ more, ((Query.diagnostics file).run t).1 = .ok more ∧ found.Subperm more := by
  obtain ⟨u, hu, hstate, rfl⟩ := checked_of_diagnostics hs h
  obtain ⟨key, type, rfl, u', node, hopened, -, htype⟩ := hknown
  obtain rfl := Option.some.inj (hu.symm.trans hopened.1)
  obtain ⟨v, hv, hstate', -, hsub⟩ :=
    hlater.reports u hopened hstate (SourceUnit.isEmpty_eq_false_of_typeAt? htype)
  exact ⟨_, congrArg Prod.fst (ht.diagnostics hv.1 hstate'), hsub⟩

/-! ## Asking again -/

/-- The symbol of a name in a module. -/
def symbol? (s : Session) (file : FileId) (name : String) : Option SymbolId :=
  ((s.unit? file).bind (·.binding)).bind (·.moduleSymbol? name)

/-- What a question for the type of a symbol does behind the flush and the binding of the file. -/
def symbolAnswer (s : Session) (file : FileId) (name : String) :
    Except NoAnswer (Option TypeId) × Session :=
  match s.symbol? file name with
  | some symbol =>
    let r := run (symbolType evaluate file symbol) s
    (r.1.elim (.error .endless) fun type => .ok (some type), r.2)
  | none => (.ok none, s)

private theorem run_typeOfSymbol_eq (s : Session) (file : FileId) (name : String) :
    (Query.typeOfSymbol file name).run s =
      (if !(s.flush.ensureBound file).1 then
        (do Query.fail ((← get).notFound file) : Query (Option TypeId))
      else
        match (s.flush.ensureBound file).2.symbol? file name with
        | some symbol => some <$> Query.evaluating (symbolType evaluate file symbol)
        | none => return none).run (s.flush.ensureBound file).2 := by
  have hrun : (Query.typeOfSymbol file name).run s =
      ((if !(s.flush.ensureBound file).1 then (do Query.fail ((← get).notFound file)) else pure () :
        Query Unit) >>= fun _ => do
          match (← get).symbol? file name with
          | some symbol => some <$> Query.evaluating (symbolType evaluate file symbol)
          | none => return none).run (s.flush.ensureBound file).2 := rfl
  rw [hrun]
  split <;> rfl

theorem run_typeOfSymbol (h : (s.flush.ensureBound file).1 = true) :
    (Query.typeOfSymbol file name).run s =
      (s.flush.ensureBound file).2.symbolAnswer file name := by
  rw [run_typeOfSymbol_eq, h, symbolAnswer]
  cases (s.flush.ensureBound file).2.symbol? file name with
  | none => rfl
  | some symbol =>
    let t := (s.flush.ensureBound file).2
    let q := Query.evaluating (symbolType evaluate file symbol)
    refine (Query.run_map q some t).trans ?_
    rw [Query.run_evaluating]
    dsimp only
    cases (run (symbolType evaluate file symbol) t).1 <;> rfl

/-- A question that has an answer has bound the file. -/
theorem ensureBound_of_typeOfSymbol (h : ((Query.typeOfSymbol file name).run s).1 = .ok answer) :
    (s.flush.ensureBound file).1 = true := by
  rw [run_typeOfSymbol_eq] at h
  cases hb : (s.flush.ensureBound file).1 with
  | true => rfl
  | false =>
    rw [hb] at h
    exact nomatch h

theorem performs_symbolAnswer (hs : s.Coherent 0) (file : FileId) (name : String) :
    Performs 0 s (s.symbolAnswer file name).2 ∧
      ∀ type, (s.symbolAnswer file name).1 = .ok (some type) →
        type < (s.symbolAnswer file name).2.types.size := by
  unfold symbolAnswer
  split
  · next symbol _ =>
    obtain ⟨hrun, hknown⟩ := run_of_sound hs fun _ => sound_symbolType admits_evaluate file symbol
    generalize run (symbolType evaluate file symbol) s = r at hrun hknown ⊢
    rcases r with ⟨_ | found, t⟩
    · exact ⟨hrun, nofun⟩
    · refine ⟨hrun, fun type htype => ?_⟩
      obtain rfl := Option.some.inj (Except.ok.inj htype)
      exact extent_zero t.types ▸ (hrun.steps.coherent hs).closed.lt_extent (hknown found rfl)
  · exact ⟨.refl s, nofun⟩

private theorem Recalls.symbol? (h : s.Recalls file t) (hs : s.IsBound file) (name : String) :
    t.symbol? file name = s.symbol? file name := by
  obtain ⟨u, hu, hb⟩ := hs
  obtain ⟨v, hv, hstays⟩ := h.bound u hu hb
  rw [Session.symbol?, Session.symbol?, hu, hv, Option.bind_some, Option.bind_some, hstays.binding]

/-- The type of a symbol, and its text, are the same whenever all is known about the file that was
known behind the first answer, unless the stack was full. -/
theorem symbolAnswer_recalled (hs : s.Calm) (hb : s.IsBound file)
    (hw : ∀ symbol ∈ s.symbol? file name, ((Inquiry.ofSymbol file symbol).outcome s).WithinLimit)
    (hanswer : (s.symbolAnswer file name).1 = .ok answer) (ht : t.Calm)
    (hlater : (s.symbolAnswer file name).2.Recalls file t) :
    (t.symbolAnswer file name).1 = .ok answer ∧
      ∀ type ∈ answer,
        (t.symbolAnswer file name).2.types.format type =
          (s.symbolAnswer file name).2.types.format type := by
  obtain ⟨hfirst, hknown⟩ := performs_symbolAnswer hs.coherent file name
  obtain ⟨hagain, -⟩ := performs_symbolAnswer ht.coherent file name
  refine ⟨?_, fun type htype => ?_⟩
  · have hsymbol := ((hfirst.remembers hs.idle file).trans hlater).symbol? hb name
    unfold symbolAnswer at hanswer hlater ⊢
    rw [hsymbol]
    cases hfound : s.symbol? file name with
    | none =>
      rw [hfound] at hanswer
      exact hanswer
    | some symbol =>
      rw [hfound] at hanswer hlater
      obtain ⟨htype, hends⟩ := symbolType_again (inOrder_start hs.coherent) hs.idle hb
        (hw symbol hfound) (inOrder_start ht.coherent) ht.idle hlater
      have hrun : (run (symbolType evaluate file symbol) t).1 =
          some (symbolType evaluate file symbol { session := s }).1 := mem_run.mpr ⟨hends, htype⟩
      dsimp only at hanswer ⊢
      rw [hrun]
      cases hfirst : (run (symbolType evaluate file symbol) s).1 with
      | none =>
        rw [hfirst] at hanswer
        exact nomatch hanswer
      | some type =>
        rw [hfirst] at hanswer
        rw [(mem_run.mp hfirst).2]
        exact hanswer
  · rw [Option.mem_def.mp htype] at hanswer
    exact (hlater.types.trans hagain.steps.extends).format
      (hfirst.steps.coherent hs.coherent).closed (hknown type hanswer)

/-- The type of a symbol, as text. -/
def textOfSymbol (s : Session) (file : FileId) (name : String) :
    Except NoAnswer (Option String) :=
  let r := (Query.typeOfSymbol file name).run s
  r.1.map (·.map r.2.types.format)

/-- A question for the type of a symbol gives the same type and text whenever all is known about the
file that was known behind the first answer, unless the stack was full. -/
theorem typeOfSymbol_recalled (hs : s.Calm) (hb : s.IsBound file)
    (hw : ∀ symbol ∈ s.symbol? file name, ((Inquiry.ofSymbol file symbol).outcome s).WithinLimit)
    (hanswer : (s.symbolAnswer file name).1 = .ok answer) (ht : t.Calm)
    (hlater : (s.symbolAnswer file name).2.Recalls file t) :
    ((Query.typeOfSymbol file name).run t).1 = .ok answer ∧
      t.textOfSymbol file name = .ok (answer.map (s.symbolAnswer file name).2.types.format) := by
  obtain ⟨hfirst, -⟩ := performs_symbolAnswer hs.coherent file name
  obtain ⟨u, hu, hb'⟩ := hb
  obtain ⟨v, hv, hstays⟩ := (hfirst.remembers hs.idle file).trans hlater |>.bound u hu hb'
  have hensure : t.flush.ensureBound file = (true, t) := ht.ensureBound hv hstays.isBound
  have hrun : (Query.typeOfSymbol file name).run t = t.symbolAnswer file name := by
    rw [run_typeOfSymbol (by rw [hensure]), hensure]
  obtain ⟨hsame, htext⟩ := symbolAnswer_recalled hs ⟨u, hu, hb'⟩ hw hanswer ht hlater
  constructor
  · rw [hrun, hsame]
  · simp only [textOfSymbol, hrun, hsame]
    exact congrArg Except.ok (Option.map_congr htext)

/-- Behind a flush, if all flushes were steady and nothing is left to do, the session is calm. -/
theorem calm_flush (options : Options) (files : FileStore) (hostPaths : List String)
    (ops : List Operation) :
    let start := Session.new options files hostPaths
    let s := start.after ops
    (Era.start start).Steady ops → s.Steady ((Era.start start).after ops).since →
      s.flush.hasPendingChanges = false → s.flush.Calm := by
  intro start s hsteady hnext hsettled
  have hfresh : s.flush.Fresh := (maintained_after options files hostPaths ops).flush
  exact ⟨coherent_flush options files hostPaths ops hsteady hnext, hfresh.1.idle, hsettled⟩

/-- A question for the type of a symbol, behind a flush that leaves nothing to do, is answered by a
calm session in which the file is bound. -/
theorem Calm.answered (hs : s.flush.Calm)
    (h : ((Query.typeOfSymbol file name).run s).1 = .ok answer) :
    let t := (s.flush.ensureBound file).2
    t.Calm ∧ t.IsBound file ∧ (Query.typeOfSymbol file name).run s = t.symbolAnswer file name ∧
      (t.symbolAnswer file name).2.Calm := by
  intro t
  have hb := ensureBound_of_typeOfSymbol h
  have ht : t.Calm := hs.performs (prepares_ensureBound hs.coherent.tidy file).performs
  exact ⟨ht, (binds_ensureBound hs.coherent.tidy file).2 hb, run_typeOfSymbol hb,
    ht.performs (performs_symbolAnswer ht.coherent file name).1⟩

/-- In every run whose flushes were steady and left nothing to do: if the type of a symbol was found
within the limit of the stack, then any number of questions later the answer is the same type, with
the same text. -/
theorem typeOfSymbol_again (options : Options) (files : FileStore) (hostPaths : List String)
    (ops : List Operation) (file : FileId) (name : String) (questions : List Question)
    {answer : Option TypeId} :
    let start := Session.new options files hostPaths
    let s := start.after ops
    let t := (s.flush.ensureBound file).2
    let later := questions.foldl asked (s.asked (.typeOfSymbol file name))
    (Era.start start).Steady ops → s.Steady ((Era.start start).after ops).since →
      s.flush.hasPendingChanges = false →
      (∀ symbol ∈ t.symbol? file name, ((Inquiry.ofSymbol file symbol).outcome t).WithinLimit) →
      ((Query.typeOfSymbol file name).run s).1 = .ok answer →
        ((Query.typeOfSymbol file name).run later).1 = .ok answer ∧
          later.textOfSymbol file name = s.textOfSymbol file name := by
  intro start s t later hsteady hnext hsettled hw hanswer
  have hflush := calm_flush options files hostPaths ops hsteady hnext hsettled
  obtain ⟨ht, hbound, hrun, hfirst⟩ := Calm.answered (s := s) hflush hanswer
  -- Behind the first answer, all that follows only adds to what is known.
  have hasked : later = questions.foldl asked (t.symbolAnswer file name).2 :=
    congrArg (fun r => questions.foldl asked r.2) hrun
  obtain ⟨hcalm, hlater⟩ := hfirst.asked questions
  rw [← hasked] at hcalm hlater
  rw [hrun] at hanswer
  obtain ⟨hsame, htext⟩ := typeOfSymbol_recalled ht hbound hw hanswer hcalm (hlater file)
  refine ⟨hsame, htext.trans ?_⟩
  simp only [textOfSymbol, hrun, hanswer]
  rfl

/-- Behind a question for the problems of a file the session is calm. -/
theorem Calm.askedDiagnostics (hs : s.flush.Calm) (file : FileId) :
    (s.asked (.diagnostics file)).Calm :=
  ((respected_remembers s.flush).asked ⟨hs, .refl _⟩ (.diagnostics file)).1

/-- In every such run: all problems that were found in a file are found again any number of questions
later, if the type at some node of the file is known by then. -/
theorem diagnostics_again (options : Options) (files : FileStore) (hostPaths : List String)
    (ops : List Operation) (file : FileId) (questions : List Question) {found : List Diagnostic} :
    let start := Session.new options files hostPaths
    let s := start.after ops
    let t := s.asked (.diagnostics file)
    (Era.start start).Steady ops → s.Steady ((Era.start start).after ops).since →
      s.flush.hasPendingChanges = false → ((Query.diagnostics file).run s).1 = .ok found →
      (∃ key type, key.file = file ∧ t.Knows key type) →
        ∃ more, ((Query.diagnostics file).run (questions.foldl asked t)).1 = .ok more ∧
          found.Subperm more := by
  intro start s t hsteady hnext hsettled hfound hknown
  have hflush := calm_flush options files hostPaths ops hsteady hnext hsettled
  obtain ⟨hcalm, hlater⟩ := (Calm.askedDiagnostics (s := s) hflush file).asked questions
  exact Recalls.diagnostics (s := s) hflush hfound hknown hcalm (hlater file)

/-- Two lists that contain each other: the first one keeps its type when the second one, whose type
is made from it, is asked for and the file is checked. -/
theorem typeOfSymbol_again_of_circle :
    let files := FileStore.ofList [("a.py", "x = [y]\ny = [x]\n")]
    let start := Session.new {} files []
    let ops : List Operation := [.setRoots ["a.py"]]
    let s := start.after ops
    let t := (s.flush.ensureBound 0).2
    let later := [.typeOfSymbol 0 "y", .diagnostics 0].foldl asked (s.asked (.typeOfSymbol 0 "x"))
    (Era.start start).Steady ops ∧ s.Steady ((Era.start start).after ops).since ∧
      s.flush.hasPendingChanges = false ∧
      (∀ symbol ∈ t.symbol? 0 "x", ((Inquiry.ofSymbol 0 symbol).outcome t).WithinLimit) ∧
      ((Query.typeOfSymbol 0 "x").run s).1 = .ok (some 14) ∧
      ((Query.typeOfSymbol 0 "x").run later).1 = .ok (some 14) ∧
        later.textOfSymbol 0 "x" = s.textOfSymbol 0 "x" := by
  intro files start ops s t later
  have hrun : (Era.start start).Steady ops ∧ s.Steady ((Era.start start).after ops).since ∧
      s.flush.hasPendingChanges = false ∧
      (∀ symbol ∈ t.symbol? 0 "x", ((Inquiry.ofSymbol 0 symbol).outcome t).WithinLimit) ∧
      ((Query.typeOfSymbol 0 "x").run s).1 = .ok (some 14) := by
    decide +kernel
  obtain ⟨hsteady, hnext, hsettled, hwithin, hanswer⟩ := hrun
  exact ⟨hsteady, hnext, hsettled, hwithin, hanswer,
    typeOfSymbol_again {} files [] ops 0 "x" [.typeOfSymbol 0 "y", .diagnostics 0] hsteady hnext
      hsettled hwithin hanswer⟩

/-- First answers that depend on what was asked before. A check looks for the bases of a class while
it evaluates them, finds none, and keeps what it finds without them. A module whose names are taken
while it is being bound gives none of them for good. The type that is kept for one of two lists that
contain each other stands in the type of the other one. -/
theorem textOfSymbol_ne_asked :
    (let files := FileStore.ofList
        [("a.py", "class A:\n    v = 1\ndef pick():\n    return A if C.v else A\n" ++
          "class C(pick()):\n    pass\nx = C.v\n")]
      let s := (Session.new {} files []).after [.setRoots ["a.py"]]
      s.textOfSymbol 0 "x" = .ok (some "int") ∧
        (s.asked (.diagnostics 0)).textOfSymbol 0 "x" = .ok (some "Unknown")) ∧
    (let files := FileStore.ofList
        [("a.py", "from b import *\nx = 1\n"), ("b.py", "from a import *\ny = 2\n")]
      let s := (Session.new {} files []).after [.setRoots ["a.py", "b.py"]]
      s.textOfSymbol 1 "x" = .ok (some "int") ∧
        (s.asked (.typeOfSymbol 0 "x")).textOfSymbol 1 "x" = .ok none) ∧
    (let files := FileStore.ofList [("a.py", "x = [y]\ny = [x]\n")]
      let s := (Session.new {} files []).after [.setRoots ["a.py"]]
      s.textOfSymbol 0 "y" = .ok (some "list[list[y]]") ∧
        (s.asked (.typeOfSymbol 0 "x")).textOfSymbol 0 "y" =
          .ok (some "list[list[list[x]]]")) := by
  decide +kernel

end LiveCheck.Session
