import LiveCheck.Proofs.CurrentTrees
import LiveCheck.Proofs.Session.Scheduling
import LiveCheck.Proofs.Session.Upkeep

/-!
# Checks do not mix contents

A check of the whole program that ends with results has seen one state of the contents. Since it was
asked for, nobody asked for a change; since its first step, none was served, and under every path
the content was the same at all visits. Its results are on the files that were chosen at the first
step, in their order, but for those that cannot be read.

Whatever a scheduler does to its session could also be done by a run of operations, so that all that
holds in every run of a session holds at every step of a scheduler.
-/

/-!
## The contents that count

Under each path, the content that counts is the overlay of the unit, or else what the file holds.
Only a request to change a file changes it: taking in changes, evaluating and answering questions
leave it as it was under every path, whether the path has a unit or not.
-/

namespace LiveCheck.Session

variable {s t : Session} {file : FileId} {path text : String} {texts : String → Option String}
  {v : SourceUnit} {slack : Nat}

/-- The content that counts under a path. -/
def textAt? (s : Session) (path : String) : Option String :=
  (((s.find? path).bind s.unit?).bind (·.overlay)).orElse fun _ => s.files.read? path

private def Overlays (s : Session) (path text : String) : Prop :=
  ∃ file u, s.unit? file = some u ∧ u.path = path ∧ u.overlay = some text

private theorem overlays_iff (hs : s.Indexed) :
    s.Overlays path text ↔ ((s.find? path).bind s.unit?).bind (·.overlay) = some text := by
  constructor
  · rintro ⟨file, u, hu, rfl, ho⟩
    simp [find?_path hs hu, hu, ho]
  · intro h
    obtain ⟨u, hu, ho⟩ := Option.bind_eq_some_iff.mp h
    obtain ⟨file, hfile, hu⟩ := Option.bind_eq_some_iff.mp hu
    have hp : s.path? file = some path := (hs path file).mp hfile
    rw [path?_eq_some hu] at hp
    exact ⟨file, u, hu, Option.some.inj hp, ho⟩

private theorem textAt?_congr (hs : s.Indexed) (ht : t.Indexed) (hfiles : t.files = s.files)
    (h : ∀ path text, t.Overlays path text ↔ s.Overlays path text) :
    t.textAt? path = s.textAt? path := by
  have hoverlay : ((t.find? path).bind t.unit?).bind (·.overlay) =
      ((s.find? path).bind s.unit?).bind (·.overlay) := by
    apply Option.ext
    intro text
    rw [← overlays_iff ht, ← overlays_iff hs]
    exact h path text
  rw [textAt?, textAt?, hoverlay, hfiles]

/-! ### One step -/

private theorem Sourced.overlays (h : Sourced s file v) (ho : v.overlay = some text) :
    s.Overlays v.path text := by
  cases h with
  | same hu h => exact ⟨file, _, hu, h.path.symm, h.overlay.symm.trans ho⟩
  | parsed hu hc h =>
    subst h
    exact ⟨file, _, hu, rfl, ho⟩
  | unseen ht hnone =>
    rw [hnone] at ho
    exact nomatch ho

private theorem overlays_congr (hnew : ∀ file v, t.unit? file = some v → Sourced s file v)
    (hold : ∀ file u, s.unit? file = some u → u.overlay.isSome = true →
      ∃ v, t.unit? file = some v ∧ v.path = u.path ∧ v.overlay = u.overlay) :
    t.Overlays path text ↔ s.Overlays path text := by
  constructor
  · rintro ⟨file, v, hv, rfl, ho⟩
    exact (hnew file v hv).overlays ho
  · rintro ⟨file, u, hu, rfl, ho⟩
    obtain ⟨v, hv, hp, hov⟩ := hold file u hu (by simp [ho])
    exact ⟨file, v, hv, hp, hov.trans ho⟩

private theorem EvalChange.sameOverlay {u : SourceUnit} (h : EvalChange s file u v) :
    v.path = u.path ∧ v.overlay = u.overlay := by
  cases h with
  | bind h => cases h <;> exact ⟨rfl, rfl⟩
  | enter hb =>
    have h := u.sameSource_evaluating s.generation
    exact ⟨h.path, h.overlay⟩
  | report d =>
    have h := u.sameSource_report d
    exact ⟨h.path, h.overlay⟩
  | learn node key type hb => exact ⟨rfl, rfl⟩

private theorem EvalStep.overlays (h : EvalStep slack s t) :
    t.Overlays path text ↔ s.Overlays path text := by
  apply overlays_congr fun _ _ => h.sourced
  intro file u hu _
  obtain ⟨v, hv, hc⟩ := h.unit?_of_some hu
  exact ⟨v, hv, hc.sameOverlay⟩

private theorem ReparseStep.overlays (h : ReparseStep s file t) :
    t.Overlays path text ↔ s.Overlays path text := by
  apply overlays_congr fun _ _ => h.sourced
  intro other u hu ho
  by_cases hne : other = file
  · subst hne
    cases h with
    | skip hn => exact ⟨u, hu, rfl, rfl⟩
    | forget hw hc =>
      -- A unit with an overlay has a content.
      rw [content?, hu, Option.bind_some] at hc
      obtain ⟨text, htext⟩ := Option.isSome_iff_exists.mp ho
      rw [htext] at hc
      exact absurd hc (Option.some_ne_none text)
    | restore hw hc ht hf =>
      rw [unit?_modifyUnit_self, hu]
      exact ⟨_, rfl, rfl, rfl⟩
    | parse hw hc hn =>
      rw [unit?_parseUnit hu]
      exact ⟨_, rfl, rfl, rfl⟩
  · rw [h.unit?_of_ne hne]
    exact ⟨u, hu, rfl, rfl⟩

private theorem FlushEnd.overlays (h : FlushEnd s t) :
    t.Overlays path text ↔ s.Overlays path text := by
  apply overlays_congr fun _ _ => h.sourced
  intro file u hu _
  obtain ⟨v, hv, -⟩ := h.unit?_of_some hu
  obtain ⟨w, hw, hrest⟩ := h.unit?_rest hv
  obtain rfl := Option.some.inj (hu.symm.trans hw)
  exact ⟨v, hv, by rw [hrest], by rw [hrest]⟩

/-! ### Questions -/

/-- The session is orderly and has these contents. -/
private structure Holds (texts : String → Option String) (s : Session) : Prop where
  orderly : s.Orderly
  textAt? : ∀ path, s.textAt? path = texts path

private theorem Holds.congr (hs : s.Holds texts) (ht : t.Orderly) (hfiles : t.files = s.files)
    (h : ∀ path text, t.Overlays path text ↔ s.Overlays path text) : t.Holds texts :=
  ⟨ht, fun path => (textAt?_congr hs.orderly.2 ht.2 hfiles h).trans (hs.textAt? path)⟩

private theorem Holds.evalStep (hs : s.Holds texts) (h : EvalStep slack s t) :
    t.Holds texts :=
  hs.congr (h.orderly hs.orderly) (by rw [h.rest]) fun _ _ => h.overlays

private theorem Holds.flush (hs : s.Holds texts) : s.flush.Holds texts := by
  apply flush_induct hs.orderly.1 (P := Holds texts)
  · exact fun h => ⟨h.orderly, h.textAt?⟩
  · intro t r file _ h ht
    exact ht.congr (h.orderly ht.orderly) h.files fun _ _ => h.overlays
  · intro t r h ht
    have he : EvalStep 0 t r := .quiet (.bind h)
    exact ht.evalStep he
  · intro t r _ h ht
    have ho : r.Orderly := ⟨h.tidy ht.orderly.1, h.indexed ht.orderly.2⟩
    exact ht.congr ho (by rw [h.rest]) fun _ _ => h.overlays
  · exact hs

private theorem overlays_markChecked :
    (Query.markChecked file s).Overlays path text ↔ s.Overlays path text := by
  apply overlays_congr fun _ _ => sourced_markChecked
  intro other u hu _
  change ∃ v, (s.modifyUnit file _).unit? other = some v ∧ _
  rw [unit?_modifyUnit, hu]
  split <;> exact ⟨_, rfl, rfl, rfl⟩

private theorem respected_holds : Query.Respected (Holds texts) where
  flush _ hs := hs.flush
  evaluate s hs := by
    obtain ⟨slack, hc⟩ := hs.orderly.1.exists_coherent
    exact ⟨slack, hc, fun t ht => ht.steps.induct (fun _ _ h hs => hs.evalStep h) hs⟩
  check s file hs hb :=
    hs.congr (hs.orderly.markChecked hb) rfl fun _ _ => overlays_markChecked
  register _ _ hs := ⟨hs.orderly, hs.textAt?⟩

end LiveCheck.Session

namespace LiveCheck

open Session Evaluation

variable {α : Type}

/-! ## Visits -/

namespace Session

variable {s : Session} {file : FileId}

private theorem fst_bindUnit (ensure : Binder) (s : Session) (file : FileId) :
    (bindUnit ensure s file).1 = ((s.unit? file).bind (·.tree)).isSome := by
  unfold bindUnit
  split
  · next h => rw [h]; rfl
  · next h => rw [h]; rfl

private theorem Fresh.content?_of_ensureBound (hs : s.Fresh) (h : (s.ensureBound file).1 = false) :
    s.content? file = none := by
  have hidle : s.inProgress.contains file = false := by simp [hs.1.idle]
  cases hu : s.unit? file with
  | none => simp [content?, hu]
  | some u =>
    simp only [Session.ensureBound, bindingDepth, ensureBoundUpTo, hidle, hu, Option.map_some] at h
    cases hstate : u.state with
    | bound => simp [hstate] at h
    | evaluated complete => simp [hstate] at h
    | parsed => exact absurd hstate ((not_isParsed_iff hu).mp (hs.1.bound file))
    | unseen =>
      simp only [hstate] at h
      cases hc : s.content? file with
      | none => rfl
      | some content => simp [hc, fst_bindUnit, unit?_parseUnit hu, SourceUnit.parsed] at h
    | stale reason =>
      cases reason with
      | content => exact absurd ⟨u, hu, hstate⟩ (hs.not_isChanged file)
      | dependency =>
        have htree : u.discardEvaluation.tree.isSome = true :=
          (hs.1.orderly.1 file u hu).stale hstate
        simp [hstate, fst_bindUnit, unit?_modifyUnit_self, hu, htree] at h

end Session

namespace Query

variable {s t : Session} {file : FileId}

private theorem checkUnit_ensureBound (hs : s.Fresh) (hb : (s.ensureBound file).1 = true) :
    (checkUnit file).run (s.ensureBound file).2 = (checkUnit file).run s := by
  have htidy := hs.1.orderly.1
  obtain ⟨u, hu, hbound⟩ := (binds_ensureBound htidy file).2 hb
  have hidle : (s.ensureBound file).2.inProgress = [] :=
    (completes_ensureBound s file).inProgress.trans hs.1.idle
  have hfile : file ∉ (s.ensureBound file).2.inProgress := by simp [hidle]
  have hagain := ensureBound_of_bound hu hbound hfile
  have hfirst := run_ensureBound s file
  have hsecond := run_ensureBound (s.ensureBound file).2 file
  rw [hb] at hfirst
  rw [hagain] at hsecond
  unfold checkUnit
  rw [run_bind_ok hfirst, run_bind_ok hsecond]

private theorem snd_fileReport? (hs : s.Maintained) (file : FileId) :
    ((fileReport? file).run s).2 = s.asked (.diagnostics file) := by
  have hflush : (modify Session.flush : Query PUnit).run s = (.ok ⟨⟩, s.flush) := rfl
  have hmap := run_map (fileReport file) some s
  have hreport : ((fileReport file).run s).2 = ((checkUnit file).run s.flush).2 := by
    rw [fileReport, run_bind_ok hflush]
    rcases hchecked : (checkUnit file).run s.flush with ⟨e | found, t⟩
    · rw [run_bind_error hchecked]
    · rw [run_bind_ok hchecked]
      rfl
  have hvisit : ((fileReport? file).run s).2 = ((checkUnit file).run s.flush).2 := by
    rw [← hreport]
    cases hr : ((fileReport file).run s).1 with
    | ok report =>
      rw [hr] at hmap
      rw [fileReport?, run_tryCatch_ok hmap]
    | error e =>
      rw [hr] at hmap
      rw [fileReport?, run_tryCatch_error hmap]
      cases e with
      | endless => rfl
      | failed e => cases e <;> rfl
  have hasked : s.asked (.diagnostics file) =
      ((ensureBound file >>= fun _ => checkUnit file).run s.flush).2 := rfl
  rw [hvisit, hasked]
  have hensure := run_ensureBound s.flush file
  cases hb : (s.flush.ensureBound file).1 with
  | false =>
    rw [hb] at hensure
    have hchecked : (checkUnit file).run s.flush = _ := run_bind_error hensure
    rw [run_bind_error hensure, hchecked]
  | true =>
    rw [hb] at hensure
    rw [run_bind_ok hensure, checkUnit_ensureBound hs.flush hb]

end Query

/-! ## What a scheduler does to its session -/

/-- A question does no more than operations do, and it leaves all contents as they were. -/
def Harmless (run : Session → Option (α × Session)) : Prop :=
  ∀ s : Session, s.Reached → ∀ a t, run s = some (a, t) →
    (∃ ops, t = s.after ops) ∧ ∀ path, t.textAt? path = s.textAt? path

private theorem harmless_asked (answer : Session → Option α) (question : Question) :
    Harmless fun s => (answer s).map fun a => (a, s.asked question) := by
  intro s hs a t h
  obtain ⟨_, -, hasked⟩ := Option.map_eq_some_iff.mp h
  obtain rfl : s.asked question = t := congrArg Prod.snd hasked
  have hholds : s.Holds s.textAt? := ⟨hs.maintained.orderly, fun _ => rfl⟩
  exact ⟨⟨[.ask question], rfl⟩, (respected_holds.asked hholds.flush question).textAt?⟩

/-- If a request is a question, then it is harmless. -/
def Request.Harmless : Request α → Prop
  | .ask run => LiveCheck.Harmless run
  | _ => True

private def Task.Harmless : Task α → Prop
  | .query run => LiveCheck.Harmless run
  | _ => True

namespace Scheduler

variable {s t : Scheduler α} {r : Request α} {event : Option (Event α)} {texts : String → Option String} {n : Nat}
  {requests : List (Request α)}

theorem session_act (hr : r ≠ .step) : (s.act r).2.session = s.session := by
  have hcancelled : s.cancelChecks.session = s.session := by
    rw [cancelChecks, (cancelChecks_eq s.queuedChecks s).1]
  cases r with
  | update path content => exact hcancelled
  | remove path => exact hcancelled
  | ask run => rfl
  | check => rfl
  | cancel id => rfl
  | step => exact absurd rfl hr

private theorem files_induct {P : Session → Prop} (hflush : ∀ s, P s → P s.flush)
    {session : Session}
    (hs : P session) (task : CheckTask) : P (task.files session).2 := by
  unfold CheckTask.files
  split
  · exact hs
  · exact hflush _ hs

private theorem stepCheck_induct {P : Session → Prop} (hflush : ∀ s, P s → P s.flush)
    (hvisit : ∀ s file, P s → P ((Query.fileReport? file).run s).2) (hs : P s.session)
    {task : CheckTask} (hstep : s.stepCheck? task = some (event, t)) : P t.session := by
  have hfiles := files_induct hflush hs task
  unfold stepCheck? at hstep
  split at hstep
  · cases hstep
    exact hs
  · split at hstep
    · next session h =>
      cases hstep
      rw [h] at hfiles
      exact hfiles
    · next file rest session h =>
      rw [h] at hfiles
      have hdone := hvisit session file hfiles
      split at hstep
      · exact nomatch hstep
      · next e session' hreport =>
        cases hstep
        rwa [Query.outcome?_eq_some hreport] at hdone
      · next report session' hreport =>
        rw [Query.outcome?_eq_some hreport] at hdone
        split at hstep <;> cases hstep <;> exact hdone

private theorem reached_fileReport? (s : Session) (file : FileId) (hs : s.Reached) :
    ((Query.fileReport? file).run s).2.Reached := by
  rw [Query.snd_fileReport? hs.maintained]
  exact hs.apply (.ask (.diagnostics file))

/-- The session is one that a run leads to, and the questions in the queue are harmless. -/
private structure Orderly (s : Scheduler α) : Prop where
  session : s.session.Reached
  queue : ∀ task ∈ s.queue, task.Harmless

private theorem Orderly.serve (hs : s.Orderly) {task : Task α} (htask : task.Harmless)
    (h : s.serve? task = some (event, t)) : t.session.Reached := by
  cases task with
  | update path content =>
    cases h
    exact hs.session.apply (.update path content)
  | remove path =>
    cases h
    exact hs.session.apply (.remove path)
  | query run =>
    obtain ⟨⟨a, session⟩, hrun, hnext⟩ := Option.map_eq_some_iff.mp h
    cases hnext
    obtain ⟨⟨ops, rfl⟩, -⟩ := htask s.session hs.session a session hrun
    exact hs.session.after ops
  | check task =>
    exact stepCheck_induct (fun _ h => h.apply .flush) reached_fileReport? hs.session h

private theorem ActStep.harmless (h : ActStep s r t) (hr : r.Harmless)
    (hs : ∀ task ∈ s.queue, task.Harmless) : ∀ task ∈ t.queue, task.Harmless := by
  intro task htask
  cases h with
  | change new hchange hnew hqueue hsize hcancelled =>
    rw [hqueue, List.mem_append, List.mem_singleton] at htask
    rcases htask with htask | rfl
    · exact hs task htask
    · cases task with
      | query run => exact nomatch hnew
      | update path content | remove path | check task => trivial
  | quiet new hcalm hserved hqueue hnew hask hid hsize hcancelled =>
    rw [hqueue, List.mem_append, Option.mem_toList] at htask
    rcases htask with htask | htask
    · exact hs task htask
    · cases task with
      | query run =>
        rw [hask run htask] at hr
        exact hr
      | update path content | remove path | check task => trivial
  | serve first queue hstep hqueue hserved htokens hrest =>
    rw [hqueue, List.forall_mem_cons] at hs
    rcases hrest with hrest | ⟨check, next, -, -, hrest⟩
    · exact hs.2 task (hrest ▸ htask)
    · rw [hrest, List.mem_append, List.mem_singleton] at htask
      rcases htask with htask | rfl
      · exact hs.2 task htask
      · trivial

private theorem Orderly.act (hs : s.Orderly) (hr : r.Harmless) : (s.act r).2.Orderly := by
  refine ⟨?_, (actStep s r).harmless hr hs.queue⟩
  by_cases hstep : r = .step
  · subst hstep
    cases hnext : s.step? with
    | none =>
      rw [act_step_none hnext]
      exact hs.session
    | some next =>
      rw [act_step_some hnext]
      obtain ⟨task, queue, hq, -, hserve⟩ := exists_of_step? hnext
      have hpopped : ({ s with queue := queue, steps := s.steps + 1 } : Scheduler α).Orderly :=
        ⟨hs.session, fun other hother => hs.queue other (hq ▸ List.mem_cons_of_mem task hother)⟩
      exact hpopped.serve (hs.queue task (hq ▸ List.mem_cons_self)) hserve
  · rw [session_act hstep]
    exact hs.session

private theorem Orderly.after (hs : s.Orderly) (hquiet : ∀ r ∈ requests, r.Harmless) :
    (s.after requests).Orderly := by
  induction requests generalizing s with
  | nil => exact hs
  | cons r rest ih =>
    rw [List.forall_mem_cons] at hquiet
    exact ih (hs.act hquiet.1) hquiet.2

/-! ## One state of the contents -/

private theorem Orderly.holds_act (hs : s.Orderly) (hholds : s.session.Holds texts)
    (hcalm : ∀ task ∈ s.servedBy r, task.isChange = false) :
    (s.act r).2.session.Holds texts ∧
      ∀ visit ∈ s.visitedBy n r, visit.2.Reached ∧ visit.2.Holds texts := by
  by_cases hstep : r = .step
  · subst hstep
    cases hnext : s.step? with
    | none =>
      rw [act_step_none hnext, visitedBy_of_servedBy (servedBy_step_none hnext)]
      exact ⟨hholds, fun _ h => absurd h List.not_mem_nil⟩
    | some next =>
      rw [act_step_some hnext]
      obtain ⟨task, queue, hq, hserved, hserve⟩ := exists_of_step? hnext
      have hnochange : task.isChange = false := hcalm task (by simp [hserved])
      rw [visitedBy, hserved, List.flatMap_singleton]
      cases task with
      | update path content | remove path => exact absurd hnochange.symm Bool.false_ne_true
      | query run =>
        have hquery : LiveCheck.Harmless run := hs.queue (.query run) (hq ▸ List.mem_cons_self)
        obtain ⟨⟨a, session⟩, hrun, hnext⟩ := Option.map_eq_some_iff.mp hserve
        obtain ⟨⟨ops, hops⟩, htexts⟩ := hquery s.session hs.session a session hrun
        have hreached : session.Reached := hops ▸ hs.session.after ops
        rw [← hnext]
        refine ⟨⟨hreached.maintained.orderly, fun path => ?_⟩, fun _ h => absurd h List.not_mem_nil⟩
        exact (htexts path).trans (hholds.textAt? path)
      | check task =>
        let P (t : Session) : Prop := t.Reached ∧ t.Holds texts
        have hflush (t : Session) (h : P t) : P t.flush := ⟨h.1.apply .flush, h.2.flush⟩
        have hvisit (t : Session) (file : FileId) (h : P t) :
            P ((Query.fileReport? file).run t).2 :=
          ⟨reached_fileReport? t file h.1, Query.keeps_fileReport? respected_holds file t h.2⟩
        have hdone : P next.2.session :=
          stepCheck_induct (s := { s with queue := queue, steps := s.steps + 1 }) hflush hvisit
            ⟨hs.session, hholds⟩ hserve
        refine ⟨hdone.2, fun visit hmem => ?_⟩
        rw [visitOf] at hmem
        split at hmem
        · obtain ⟨file, -, rfl⟩ := Option.map_eq_some_iff.mp (Option.mem_toList.mp hmem)
          exact files_induct hflush ⟨hs.session, hholds⟩ task
        · exact absurd hmem List.not_mem_nil
  · have hnone : s.visitedBy n r = [] := by
      apply visitedBy_of_servedBy
      cases r with
      | step => exact absurd rfl hstep
      | update path content | remove path | ask run | check | cancel id => rfl
    rw [session_act hstep, hnone]
    exact ⟨hholds, fun _ h => absurd h List.not_mem_nil⟩

private theorem Orderly.holds_visits (hs : s.Orderly) (hholds : s.session.Holds texts)
    (hquiet : ∀ r ∈ requests, r.Harmless)
    (hcalm : ∀ task ∈ s.served requests, task.isChange = false) :
    ∀ visit ∈ s.visits n requests, visit.2.Reached ∧ visit.2.Holds texts := by
  induction requests generalizing s with
  | nil => exact fun _ h => absurd h List.not_mem_nil
  | cons r rest ih =>
    rw [List.forall_mem_cons] at hquiet
    have hcalm : ∀ task ∈ s.servedBy r ++ (s.act r).2.served rest, task.isChange = false := hcalm
    rw [List.forall_mem_append] at hcalm
    obtain ⟨hnext, hvisits⟩ := hs.holds_act hholds hcalm.1
    change ∀ visit ∈ s.visitedBy n r ++ (s.act r).2.visits n rest, _
    rw [List.forall_mem_append]
    exact ⟨hvisits, ih (hs.act hquiet.1) hnext hquiet.2 hcalm.2⟩

private theorem map_file_reportsOf {visits : List (FileId × Session)}
    (htidy : ∀ visit ∈ visits, visit.2.Tidy) (hvisited : ∀ visit ∈ visits, Visited visit) :
    (visits.flatMap reportsOf).map (·.file) =
      (visits.filter fun visit => (visit.2.flush.ensureBound visit.1).1).map (·.1) := by
  induction visits with
  | nil => rfl
  | cons visit visits ih =>
    rw [List.forall_mem_cons] at htidy hvisited
    obtain ⟨report, hreport⟩ := hvisited.1
    have hfile := Query.fileReport?_eq_ok htidy.1 hreport
    have hhead : (reportsOf visit).map (·.file) = (report.map (·.file)).toList := by
      rw [reportsOf, hreport]
      cases report <;> rfl
    rw [List.flatMap_cons, List.map_append, ih htidy.2 hvisited.2, hhead, hfile, List.filter_cons]
    split <;> rfl

/-- If a check of the whole program ends with results, then nobody asked for a change since the
check was asked for, and none was served since its first step. The check visited the files that were
chosen at its first step, in their order, and at every visit each path had the content of then. The
results are the reports on the files that could be read; those that could not had no content. -/
theorem checked_without_change {start : Session} (hstart : start.Reached)
    (before during : List (Request α)) (hquiet : ∀ r ∈ before ++ during, r.Harmless)
    (results : List FileReport) :
    let asked : Scheduler α := ({ session := start } : Scheduler α).after before
    let n := asked.tokens.size
    let submitted := (asked.act .check).2
    ((submitted.after during).act .step).1 = some (.checked n (.ok results)) →
      (∀ r ∈ during, r.isChange = false) ∧
      ∃ early rest, during ++ [.step] = early ++ .step :: rest ∧
        let first := submitted.after early
        let visits := first.visits n (.step :: rest)
        first.queue.head? = some (.check { id := n }) ∧
        (∀ task ∈ first.served (.step :: rest), task.isChange = false) ∧
        visits.map (·.1) = first.session.flush.checkTargets ∧
        (∀ visit ∈ visits, ∀ path, visit.2.textAt? path = first.session.textAt? path) ∧
        results = visits.flatMap reportsOf ∧
        results.map (·.file) =
          (visits.filter fun visit => (visit.2.flush.ensureBound visit.1).1).map (·.1) ∧
        ∀ visit ∈ visits, (visit.2.flush.ensureBound visit.1).1 = false →
          visit.2.flush.content? visit.1 = none := by
  intro asked n submitted h
  have hempty : ({ session := start } : Scheduler α).Numbered := ⟨List.nodup_nil, nofun⟩
  have hnumbered : asked.Numbered := hempty.after before
  obtain ⟨hcalm, early, rest, hrequests, hprogress⟩ := progress_of_checked hnumbered h
  refine ⟨hcalm, early, rest, hrequests, ?_⟩
  rw [List.forall_mem_append] at hquiet
  -- All requests of the run are harmless, also those of its parts.
  have hsteps : ∀ r ∈ early ++ .step :: rest, r.Harmless := by
    rw [← hrequests]
    exact List.forall_mem_append.mpr ⟨hquiet.2, List.forall_mem_singleton.mpr trivial⟩
  rw [List.forall_mem_append] at hsteps
  have hidle : ({ session := start } : Scheduler α).Orderly := ⟨hstart, nofun⟩
  have hsubmitted : submitted.Orderly := (hidle.after hquiet.1).act trivial
  have hfirst : (submitted.after early).Orderly := hsubmitted.after hsteps.1
  have hholds : (submitted.after early).session.Holds (submitted.after early).session.textAt? :=
    ⟨hfirst.session.maintained.orderly, fun _ => rfl⟩
  have hvisits := hfirst.holds_visits (n := n) hholds hsteps.2 hprogress.calm
  have htargets := hprogress.targets
  rw [List.append_nil] at htargets
  refine ⟨hprogress.front, hprogress.calm, htargets,
    fun visit hmem => (hvisits visit hmem).2.textAt?, hprogress.reports.symm, ?_,
    fun visit hmem hb => ?_⟩
  · rw [← hprogress.reports]
    exact map_file_reportsOf (fun visit hmem => (hvisits visit hmem).2.orderly.1) hprogress.visited
  · exact (hvisits visit hmem).1.maintained.flush.content?_of_ensureBound hb

deriving instance DecidableEq for Event

/-- A check behind an update, with a question between its visits and a file that is not there. -/
theorem checked_behind_update_and_question :
    let files := FileStore.ofList [("a.py", "x = 1\n"), ("b.py", "y = 1\n")]
    let start := (Session.new {} files []).after [.setRoots ["a.py", "b.py", "c.py"]]
    let question : Session → Option (Unit × Session) := fun s =>
      some ((), s.asked (.typeOfSymbol 0 "x"))
    let before : List (Request Unit) := [.update "b.py" "import a\n"]
    let during : List (Request Unit) := [.ask question, .step, .step, .step, .step]
    let asked : Scheduler Unit := ({ session := start } : Scheduler Unit).after before
    let submitted := (asked.act .check).2
    let results : List FileReport := [⟨0, "a.py", []⟩, ⟨1, "b.py", []⟩]
    ((submitted.after during).act .step).1 = some (.checked 0 (.ok results)) ∧
      ∃ early rest, during ++ [.step] = early ++ .step :: rest ∧
        let visits := (submitted.after early).visits 0 (.step :: rest)
        visits.map (·.1) = (submitted.after early).session.flush.checkTargets ∧
        results.map (·.file) =
          (visits.filter fun visit => (visit.2.flush.ensureBound visit.1).1).map (·.1) := by
  intro files start question before during asked submitted results
  have hended : ((submitted.after during).act .step).1 = some (.checked 0 (.ok results)) := by
    decide +kernel
  have hquestion : LiveCheck.Harmless question :=
    harmless_asked (fun _ => some ()) (.typeOfSymbol 0 "x")
  have hquiet : ∀ r ∈ before ++ during, r.Harmless := by
    simpa [before, during, Request.Harmless] using hquestion
  obtain ⟨-, early, rest, hrequests, -, -, htargets, -, -, hfiles, -⟩ :=
    checked_without_change ⟨_, _, _, _, rfl⟩ before during hquiet results hended
  exact ⟨hended, early, rest, hrequests, htargets, hfiles⟩

end Scheduler
end LiveCheck
