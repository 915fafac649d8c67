import LiveCheck.Session.Scheduler
import Mathlib.Data.List.Induction
import Mathlib.Data.List.Nodup

/-!
# The course of a check

Requests come in any order, and steps serve them one by one. A check of the whole program that ends
with results has visited the files that were chosen at its first step, in their order; nobody asked
for a change since the check was asked for, and no change was served since its first step.

The reason is that a change calls off the checks in the queue, and that changes which were asked for
before a check are served before its first step. A step that is never over serves nothing.
-/

namespace LiveCheck

variable {α β : Type}

/-! ## Runs -/

/-- What can be asked of a scheduler. -/
inductive Request (α : Type)
  | update (path content : String)
  | remove (path : String)
  | ask (run : Session → Option (α × Session))
  | check
  | cancel (id : Nat)
  | step

/-- Whether a request is one to change contents. -/
def Request.isChange : Request α → Bool
  | .update _ _ | .remove _ => true
  | _ => false

/-- Whether a task changes contents. -/
def Task.isChange : Task α → Bool
  | .update _ _ | .remove _ => true
  | _ => false

/-- The file that the next step of a check visits, with the session in which it does. -/
def CheckTask.visit? (task : CheckTask) (s : Session) : Option (FileId × Session) :=
  (task.files s).1.head?.map fun file => (file, (task.files s).2)

/-- The report that a visit adds to a check, unless the file cannot be read. -/
def reportsOf (visit : FileId × Session) : List FileReport :=
  match ((Query.fileReport? visit.1).run visit.2).1 with
  | .ok report => report.toList
  | .error _ => []

/-- The visit came to an end. -/
def Visited (visit : FileId × Session) : Prop :=
  ∃ report, ((Query.fileReport? visit.1).run visit.2).1 = .ok report

/-- The outcome of a question is what running it gives. -/
theorem Query.outcome?_eq_some {question : Query β} {s t : Session} {result : Except SessionError β}
    (h : question.outcome? s = some (result, t)) :
    question.run s = (result.mapError .failed, t) := by
  unfold Query.outcome? at h
  split at h <;> cases h <;> assumption

namespace Scheduler

/-- What a request does. A step that is never over leaves everything as it is. -/
def act (s : Scheduler α) : Request α → Option (Event α) × Scheduler α
  | .update path content => (none, s.update path content)
  | .remove path => (none, s.remove path)
  | .ask run => (none, s.ask run)
  | .check => (none, s.check.2)
  | .cancel id => (none, s.cancel id)
  | .step => s.step?.getD (none, s)

/-- The scheduler behind some requests. -/
def after (s : Scheduler α) (requests : List (Request α)) : Scheduler α :=
  requests.foldl (fun s r => (s.act r).2) s

/-- What is seen in the course of a run, request by request. -/
def collect (see : Scheduler α → Request α → List β) (s : Scheduler α) :
    List (Request α) → List β
  | [] => []
  | r :: rest => see s r ++ collect see (s.act r).2 rest

/-- The task that a request serves, if its step is over some time. -/
def servedBy (s : Scheduler α) : Request α → List (Task α)
  | .step => if s.step?.isSome then s.queue.head?.toList else []
  | _ => []

/-- The visit of a check, should the task be that check. -/
def visitOf (n : Nat) (s : Scheduler α) : Task α → List (FileId × Session)
  | .check task =>
    if task.id = n ∧ s.isCancelled n = false then (task.visit? s.session).toList else []
  | _ => []

/-- The visit of a check that a request makes. -/
def visitedBy (n : Nat) (s : Scheduler α) (r : Request α) : List (FileId × Session) :=
  (s.servedBy r).flatMap (s.visitOf n)

/-- The tasks that are served in a run, step by step. -/
def served : Scheduler α → List (Request α) → List (Task α) := collect servedBy

/-- The visits of a check in a run, step by step. -/
def visits (n : Nat) : Scheduler α → List (Request α) → List (FileId × Session) :=
  collect (visitedBy n)

variable {s t : Scheduler α} {n : Nat} {task : CheckTask} {queue : List (Task α)} {r : Request α}

theorem after_append (s : Scheduler α) (requests more : List (Request α)) :
    s.after (requests ++ more) = (s.after requests).after more := List.foldl_append

theorem after_snoc (s : Scheduler α) (requests : List (Request α)) (r : Request α) :
    s.after (requests ++ [r]) = ((s.after requests).act r).2 := after_append s requests [r]

theorem collect_append (see : Scheduler α → Request α → List β) (s : Scheduler α)
    (requests more : List (Request α)) :
    collect see s (requests ++ more) =
      collect see s requests ++ collect see (s.after requests) more := by
  induction requests generalizing s with
  | nil => rfl
  | cons r rest ih => simp [collect, ih, after]

theorem collect_snoc (see : Scheduler α → Request α → List β) (s : Scheduler α)
    (requests : List (Request α)) (r : Request α) :
    collect see s (requests ++ [r]) = collect see s requests ++ see (s.after requests) r := by
  simp [collect_append, collect]

/-! ## One step of a check -/

/-- What a step of a check can do. -/
inductive CheckStep (s : Scheduler α) (task : CheckTask) :
    Option (Event α) × Scheduler α → Prop
  /-- The check was called off. -/
  | calledOff (h : s.isCancelled task.id = true) :
    CheckStep s task (some (.checked task.id (.error .cancelled)), s)
  /-- The visit failed. -/
  | failed (e : SessionError) (session : Session) :
    CheckStep s task (some (.checked task.id (.error e)), { s with session := session })
  /-- There is no other file to visit. -/
  | last (session : Session) (h : s.isCancelled task.id = false)
    (hvisit : ∀ visit ∈ task.visit? s.session, Visited visit)
    (htail : (task.files s.session).1.tail = []) :
    CheckStep s task
      (some (.checked task.id
        (.ok (task.done ++ (task.visit? s.session).toList.flatMap reportsOf))),
      { s with session := session })
  /-- There are other files to visit. -/
  | more (session : Session) (h : s.isCancelled task.id = false)
    (hvisit : ∀ visit ∈ task.visit? s.session, Visited visit)
    (htail : (task.files s.session).1.tail ≠ []) :
    CheckStep s task (none, { s with session := session }.enqueue (.check
      { task with
        remaining := some (task.files s.session).1.tail
        done := task.done ++ (task.visit? s.session).toList.flatMap reportsOf }))

theorem checkStep {next : Option (Event α) × Scheduler α} (hstep : s.stepCheck? task = some next) :
    CheckStep s task next := by
  unfold stepCheck? at hstep
  split at hstep
  · next h =>
    obtain rfl := Option.some.inj hstep
    exact .calledOff h
  · next h =>
    have h : s.isCancelled task.id = false := by simpa using h
    split at hstep
    · next session hfiles =>
      obtain rfl := Option.some.inj hstep
      have hvisit : task.visit? s.session = none := by simp [CheckTask.visit?, hfiles]
      have hlast : CheckStep s task _ := .last session h (by simp [hvisit]) (by simp [hfiles])
      simpa [hvisit] using hlast
    · next file rest session hfiles =>
      have hvisit : task.visit? s.session = some (file, session) := by
        simp [CheckTask.visit?, hfiles]
      split at hstep
      · exact nomatch hstep
      · next e session' _ =>
        obtain rfl := Option.some.inj hstep
        exact .failed e session'
      · next report session' hreport =>
        have hok : ((Query.fileReport? file).run session).1 = .ok report :=
          congrArg Prod.fst (Query.outcome?_eq_some hreport)
        have hvisited : ∀ visit ∈ task.visit? s.session, Visited visit := by
          simpa [hvisit] using ⟨report, hok⟩
        have hreports : (task.visit? s.session).toList.flatMap reportsOf = report.toList := by
          simp [hvisit, reportsOf, hok]
        split at hstep
        · next hrest =>
          obtain rfl := Option.some.inj hstep
          have hlast : CheckStep s task _ :=
            .last session' h hvisited (by simpa [hfiles] using hrest)
          simpa [hreports] using hlast
        · next hrest =>
          obtain rfl := Option.some.inj hstep
          have hmore : CheckStep s task _ :=
            .more session' h hvisited (by simpa [hfiles] using hrest)
          simpa [hreports, hfiles] using hmore

/-! ## Calling off -/

private theorem isCancelled_cancel (s : Scheduler α) (id n : Nat) :
    (s.cancel id).isCancelled n = true ↔
      s.isCancelled n = true ∨ n = id ∧ n < s.tokens.size := by
  simp only [isCancelled, cancel, Array.getElem?_modify]
  by_cases hn : id = n <;> cases ht : s.tokens[n]? <;> grind

theorem cancelChecks_eq (ids : List Nat) (s : Scheduler α) :
    ids.foldl cancel s = { s with tokens := (ids.foldl cancel s).tokens } ∧
      (ids.foldl cancel s).tokens.size = s.tokens.size ∧
      ∀ n, (ids.foldl cancel s).isCancelled n = true ↔
        s.isCancelled n = true ∨ n ∈ ids ∧ n < s.tokens.size := by
  induction ids generalizing s with
  | nil => simp
  | cons id ids ih =>
    obtain ⟨heq, hsize, hcancelled⟩ := ih (s.cancel id)
    have hkept : (s.cancel id).tokens.size = s.tokens.size := by simp [cancel]
    refine ⟨heq, hsize.trans hkept, fun n => ?_⟩
    rw [List.foldl_cons, hcancelled, isCancelled_cancel, hkept, List.mem_cons]
    tauto

private theorem act_change (hr : r.isChange = true) :
    ∃ task : Task α, task.isChange = true ∧ (s.act r).2.queue = s.queue ++ [task] ∧
      (s.act r).2.tokens.size = s.tokens.size ∧
      ∀ n, (s.act r).2.isCancelled n = true ↔
        s.isCancelled n = true ∨ n ∈ s.queuedChecks ∧ n < s.tokens.size := by
  obtain ⟨heq, hsize, hcancelled⟩ := cancelChecks_eq s.queuedChecks s
  have hqueue : s.cancelChecks.queue = s.queue := by rw [cancelChecks, heq]
  cases r with
  | update path content =>
    exact ⟨.update path content, rfl, congrArg (· ++ _) hqueue, hsize, hcancelled⟩
  | remove path => exact ⟨.remove path, rfl, congrArg (· ++ _) hqueue, hsize, hcancelled⟩
  | ask run => exact nomatch hr
  | check => exact nomatch hr
  | cancel id => exact nomatch hr
  | step => exact nomatch hr

/-! ## The queue -/

theorem act_step_none (h : s.step? = none) : s.act .step = (none, s) := by
  rw [act, h, Option.getD_none]

theorem act_step_some {next : Option (Event α) × Scheduler α} (h : s.step? = some next) :
    s.act .step = next := by
  rw [act, h, Option.getD_some]

theorem step?_cons {task : Task α} (h : s.queue = task :: queue) :
    s.step? = { s with queue := queue, steps := s.steps + 1 }.serve? task := by
  rw [step?, h]

theorem servedBy_step_some {next : Option (Event α) × Scheduler α} (h : s.step? = some next) :
    s.servedBy .step = s.queue.head?.toList := by
  rw [servedBy, h]
  rfl

/-- A step that is over has served the task at the front of the queue. -/
theorem exists_of_step? {next : Option (Event α) × Scheduler α} (h : s.step? = some next) :
    ∃ task queue, s.queue = task :: queue ∧ s.servedBy .step = [task] ∧
      { s with queue := queue, steps := s.steps + 1 }.serve? task = some next := by
  cases hq : s.queue with
  | nil => simp [step?, hq] at h
  | cons task queue =>
    refine ⟨task, queue, rfl, ?_, step?_cons hq ▸ h⟩
    rw [servedBy_step_some h, hq]
    rfl

theorem servedBy_step_none (h : s.step? = none) : s.servedBy .step = [] := by
  rw [servedBy, h]
  rfl

/-- The number of a task that is a check. -/
def checkId? : Task α → Option Nat
  | .check task => some task.id
  | _ => none

theorem queuedChecks_eq (s : Scheduler α) : s.queuedChecks = s.queue.filterMap checkId? := by
  unfold queuedChecks
  congr 1

/-- A task that was served has left the queue, or it is a check that is back at its end. -/
theorem serve_cases {task : Task α} {event : Option (Event α)}
    (h : s.serve? task = some (event, t)) :
    t.tokens = s.tokens ∧ (t.queue = s.queue ∨
      ∃ check next, task = .check check ∧ next.id = check.id ∧
        t.queue = s.queue ++ [.check next]) := by
  cases task with
  | update path content =>
    cases h
    exact ⟨rfl, .inl rfl⟩
  | remove path =>
    cases h
    exact ⟨rfl, .inl rfl⟩
  | query run =>
    obtain ⟨answer, -, hnext⟩ := Option.map_eq_some_iff.mp h
    cases hnext
    exact ⟨rfl, .inl rfl⟩
  | check check =>
    have h : s.stepCheck? check = some (event, t) := h
    cases checkStep h with
    | calledOff h => exact ⟨rfl, .inl rfl⟩
    | failed e session => exact ⟨rfl, .inl rfl⟩
    | last session h hvisit htail => exact ⟨rfl, .inl rfl⟩
    | more session h hvisit htail =>
      refine ⟨rfl, .inr ⟨check, _, rfl, ?_, rfl⟩⟩
      rfl

/-- What a request does to the queue and to the tokens. -/
inductive ActStep (s : Scheduler α) (r : Request α) (t : Scheduler α) : Prop
  /-- All checks in the queue are called off, and a change is put behind them. -/
  | change (task : Task α) (hr : r.isChange = true) (htask : task.isChange = true)
    (hqueue : t.queue = s.queue ++ [task]) (hsize : t.tokens.size = s.tokens.size)
    (hcancelled : ∀ n, t.isCancelled n = true ↔
      s.isCancelled n = true ∨ n ∈ s.queuedChecks ∧ n < s.tokens.size)
  /-- At most one task is put into the queue; if it is a check, then its number is a new one. -/
  | quiet (new : Option (Task α)) (hr : r.isChange = false) (hserved : s.servedBy r = [])
    (hqueue : t.queue = s.queue ++ new.toList) (hnew : ∀ task ∈ new, task.isChange = false)
    (hask : ∀ run, new = some (.query run) → r = .ask run)
    (hid : ∀ id ∈ new.bind checkId?, id = s.tokens.size ∧ id < t.tokens.size)
    (hsize : s.tokens.size ≤ t.tokens.size)
    (hcancelled : ∀ n, s.isCancelled n = true → t.isCancelled n = true)
  /-- The first task is served. -/
  | serve (task : Task α) (queue : List (Task α)) (hr : r = .step)
    (hqueue : s.queue = task :: queue) (hserved : s.servedBy .step = [task])
    (htokens : t.tokens = s.tokens)
    (hrest : t.queue = queue ∨ ∃ check next, task = .check check ∧ next.id = check.id ∧
      t.queue = queue ++ [.check next])

theorem actStep (s : Scheduler α) (r : Request α) : ActStep s r (s.act r).2 := by
  cases hr : r.isChange with
  | true =>
    obtain ⟨task, htask, hqueue, hsize, hcancelled⟩ := act_change (s := s) hr
    exact .change task hr htask hqueue hsize hcancelled
  | false =>
    cases r with
    | update path content => exact nomatch hr
    | remove path => exact nomatch hr
    | ask run =>
      refine .quiet (some (.query run)) hr rfl rfl (by simp [Task.isChange]) (fun other h => ?_)
        (by simp [checkId?]) (Nat.le_refl _) fun _ h => h
      obtain rfl := Task.query.inj (Option.some.inj h)
      rfl
    | cancel id =>
      refine .quiet none hr rfl (by simp [act, cancel]) (by simp) nofun (by simp)
        (by simp [act, cancel]) fun n h => ?_
      exact (isCancelled_cancel s id n).mpr (.inl h)
    | check =>
      refine .quiet (some (.check { id := s.tokens.size })) hr rfl rfl (by simp [Task.isChange])
        nofun ?_ ?_ fun n h => ?_
      · simp [checkId?, act, check, enqueue]
      · simp [act, check, enqueue]
      · simp only [isCancelled, act, check, enqueue, Array.getElem?_push] at h ⊢
        split
        · next hn => simp [hn] at h
        · exact h
    | step =>
      cases hstep : s.step? with
      | none =>
        rw [act_step_none hstep]
        exact .quiet none hr (servedBy_step_none hstep) (by simp) (by simp) nofun (by simp)
          (Nat.le_refl _) fun _ h => h
      | some next =>
        rw [act_step_some hstep]
        obtain ⟨task, queue, hq, hserved, hserve⟩ := exists_of_step? hstep
        obtain ⟨htokens, hrest⟩ := serve_cases hserve
        exact .serve task queue rfl hq hserved htokens hrest

private theorem ActStep.size_le (h : ActStep s r t) :
    s.tokens.size ≤ t.tokens.size := by
  cases h with
  | change task hr htask hqueue hsize hcancelled => exact Nat.le_of_eq hsize.symm
  | quiet new hr hserved hqueue hnew hask hid hsize hcancelled => exact hsize
  | serve task queue hr hqueue hserved htokens hrest =>
    exact Nat.le_of_eq (congrArg Array.size htokens.symm)

/-- A check that was called off stays so. -/
theorem ActStep.isCancelled (h : ActStep s r t) (hn : s.isCancelled n = true) :
    t.isCancelled n = true := by
  cases h with
  | change task hr htask hqueue hsize hcancelled => exact (hcancelled n).mpr (.inl hn)
  | quiet new hr hserved hqueue hnew hask hid hsize hcancelled => exact hcancelled n hn
  | serve task queue hr hqueue hserved htokens hrest =>
    rw [Scheduler.isCancelled, htokens]
    exact hn

/-- The checks in the queue have numbers that were given out, and no two have the same. -/
structure Numbered (s : Scheduler α) : Prop where
  nodup : (s.queue.filterMap checkId?).Nodup
  lt : ∀ id ∈ s.queue.filterMap checkId?, id < s.tokens.size

private theorem checkId?_of_isChange {task : Task α} (h : task.isChange = true) :
    checkId? task = none := by
  cases task <;> first | rfl | exact nomatch h

private theorem ActStep.numbered (h : ActStep s r t) (hs : s.Numbered) :
    t.Numbered := by
  obtain ⟨hnodup, hlt⟩ := hs
  cases h with
  | change task hr htask hqueue hsize hcancelled =>
    have hids : t.queue.filterMap checkId? = s.queue.filterMap checkId? := by
      simp [hqueue, checkId?_of_isChange htask]
    exact ⟨hids ▸ hnodup, by rwa [hids, hsize]⟩
  | quiet new hr hserved hqueue hnew hask hid hsize hcancelled =>
    have hids : t.queue.filterMap checkId? =
        s.queue.filterMap checkId? ++ (new.bind checkId?).toList := by
      cases new with
      | none => simp [hqueue]
      | some task => cases hc : checkId? task <;> simp [hqueue, hc]
    constructor <;> rw [hids]
    · refine List.nodup_append.mpr ⟨hnodup, ?_, fun id hmem other hother => ?_⟩
      · cases new.bind checkId? <;> simp
      · have := hlt id hmem
        have := hid other (Option.mem_toList.mp hother)
        omega
    · intro id hmem
      rcases List.mem_append.mp hmem with hmem | hmem
      · exact Nat.lt_of_lt_of_le (hlt id hmem) hsize
      · exact (hid id (Option.mem_toList.mp hmem)).2
  | serve task queue hr hqueue hserved htokens hrest =>
    rw [hqueue] at hnodup hlt
    rcases hrest with hrest | ⟨check, next, rfl, hid, hrest⟩
    · have hsub : (queue.filterMap checkId?).Sublist ((task :: queue).filterMap checkId?) :=
        (List.sublist_cons_self task queue).filterMap checkId?
      constructor <;> rw [hrest]
      · exact hnodup.sublist hsub
      · rw [htokens]
        exact fun id hmem => hlt id (hsub.subset hmem)
    · have hperm :
          (t.queue.filterMap checkId?).Perm ((.check check :: queue).filterMap checkId?) := by
        have hback : t.queue.filterMap checkId? = queue.filterMap checkId? ++ [check.id] := by
          simp [hrest, checkId?, hid]
        rw [hback]
        exact List.perm_append_singleton _ _
      refine ⟨hperm.nodup_iff.mpr hnodup, ?_⟩
      rw [htokens]
      exact fun id hmem => hlt id (hperm.mem_iff.mp hmem)

/-! ## The course of a check -/

/-- How far a check has come since its first step: the files that it has visited and those that it
has yet to visit are the ones that were chosen, and no change was made. -/
structure Progress (n : Nat) (first : Scheduler α) (rest : List (Request α))
    (remaining : List FileId) (done : List FileReport) : Prop where
  front : first.queue.head? = some (.check { id := n })
  calm : ∀ task ∈ first.served (.step :: rest), task.isChange = false
  targets : (first.visits n (.step :: rest)).map (·.1) ++ remaining =
    first.session.flush.checkTargets
  visited : ∀ visit ∈ first.visits n (.step :: rest), Visited visit
  reports : (first.visits n (.step :: rest)).flatMap reportsOf = done

variable {first now : Scheduler α} {rest : List (Request α)} {remaining : List FileId}
  {done : List FileReport}

private theorem visit?_append_tail (task : CheckTask) (s : Session) :
    (task.visit? s).toList.map (·.1) ++ (task.files s).1.tail = (task.files s).1 := by
  cases h : (task.files s).1 <;> simp [CheckTask.visit?, h]

private theorem Progress.other (h : Progress n first rest remaining done)
    (hcalm : ∀ task ∈ (first.after (.step :: rest)).servedBy r, task.isChange = false)
    (hvisits : (first.after (.step :: rest)).visitedBy n r = []) :
    Progress n first (rest ++ [r]) remaining done := by
  have hserved : first.served (.step :: (rest ++ [r])) =
      first.served (.step :: rest) ++ (first.after (.step :: rest)).servedBy r :=
    collect_snoc servedBy first (.step :: rest) r
  have hsame : first.visits n (.step :: (rest ++ [r])) = first.visits n (.step :: rest) := by
    have := collect_snoc (visitedBy n) first (.step :: rest) r
    rwa [hvisits, List.append_nil] at this
  refine ⟨h.front, ?_, hsame ▸ h.targets, hsame ▸ h.visited, hsame ▸ h.reports⟩
  rw [hserved]
  intro task htask
  rcases List.mem_append.mp htask with htask | htask
  · exact h.calm task htask
  · exact hcalm task htask

private theorem visitedBy_step (hserved : s.servedBy .step = [.check task]) (hid : task.id = n)
    (hn : s.isCancelled n = false) : s.visitedBy n .step = (task.visit? s.session).toList := by
  simp [visitedBy, hserved, visitOf, hid, hn]

private theorem Progress.visit (h : Progress n first rest (task.files now.session).1 task.done)
    (hnow : first.after (.step :: rest) = now) (hq : now.servedBy .step = [.check task])
    (hid : task.id = n) (hn : now.isCancelled n = false)
    (hvisit : ∀ visit ∈ task.visit? now.session, Visited visit) :
    Progress n first (rest ++ [.step]) (task.files now.session).1.tail
      (task.done ++ (task.visit? now.session).toList.flatMap reportsOf) := by
  have hserved : first.served (.step :: (rest ++ [.step])) =
      first.served (.step :: rest) ++ [.check task] := by
    have := collect_snoc servedBy first (.step :: rest) .step
    rwa [hnow, hq] at this
  have hvisits : first.visits n (.step :: (rest ++ [.step])) =
      first.visits n (.step :: rest) ++ (task.visit? now.session).toList := by
    have := collect_snoc (visitedBy n) first (.step :: rest) .step
    rwa [hnow, visitedBy_step hq hid hn] at this
  constructor
  · exact h.front
  · rw [hserved]
    intro other hother
    rcases List.mem_append.mp hother with hother | hother
    · exact h.calm other hother
    · rw [List.mem_singleton.mp hother]
      rfl
  · rw [hvisits, List.map_append, List.append_assoc, visit?_append_tail]
    exact h.targets
  · rw [hvisits]
    intro visit hmem
    rcases List.mem_append.mp hmem with hmem | hmem
    · exact h.visited visit hmem
    · exact hvisit visit (Option.mem_toList.mp hmem)
  · rw [hvisits, List.flatMap_append, h.reports]

private theorem progress_first (hq : s.queue = .check { id := n } :: queue)
    (hfirst : s.servedBy .step = [.check { id := n }]) (hn : s.isCancelled n = false)
    (hvisit : ∀ visit ∈ ({ id := n } : CheckTask).visit? s.session, Visited visit) :
    let task : CheckTask := { id := n }
    Progress n s [] (task.files s.session).1.tail
      ((task.visit? s.session).toList.flatMap reportsOf) := by
  intro task
  have hserved : s.served [.step] = [.check task] := by
    simp [served, collect, hfirst, task]
  have hvisits : s.visits n [.step] = (task.visit? s.session).toList := by
    have := visitedBy_step hfirst rfl hn
    simp [visits, collect, this, task]
  constructor
  · simp [hq]
  · simp [hserved, Task.isChange]
  · rw [hvisits, visit?_append_tail]
    rfl
  · rw [hvisits]
    exact fun visit hmem => hvisit visit (Option.mem_toList.mp hmem)
  · rw [hvisits]

/-- Where a check stands when some requests were made since it was asked for. -/
private inductive Stage (n : Nat) (s : Scheduler α) (requests : List (Request α)) : Prop
  /-- It is not in the queue any more. -/
  | gone (h : n ∉ (s.after requests).queuedChecks)
  /-- It was called off. -/
  | calledOff (h : (s.after requests).isCancelled n = true)
  /-- It has not begun, and there are no changes behind it in the queue. -/
  | waiting (front behind : List (Task α))
    (hqueue : (s.after requests).queue = front ++ .check { id := n } :: behind)
    (hbehind : ∀ task ∈ behind, task.isChange = false)
    (hcalm : ∀ r ∈ requests, r.isChange = false)
  /-- It has begun, and there are no changes in the queue. -/
  | begun (early rest : List (Request α)) (remaining : List FileId) (done : List FileReport)
    (hrequests : requests = early ++ .step :: rest)
    (hprogress : Progress n (s.after early) rest remaining done)
    (htask : .check ⟨n, some remaining, done⟩ ∈ (s.after requests).queue)
    (hqueue : ∀ task ∈ (s.after requests).queue, task.isChange = false)
    (hcalm : ∀ r ∈ requests, r.isChange = false)

private theorem mem_queuedChecks :
    n ∈ s.queuedChecks ↔ ∃ task, .check task ∈ s.queue ∧ task.id = n := by
  rw [queuedChecks_eq, List.mem_filterMap]
  constructor
  · rintro ⟨task, htask, hid⟩
    cases task with
    | check task => exact ⟨task, htask, Option.some.inj hid⟩
    | update path content => exact nomatch hid
    | remove path => exact nomatch hid
    | query run => exact nomatch hid
  · rintro ⟨task, htask, rfl⟩
    exact ⟨.check task, htask, rfl⟩

private theorem Numbered.front (hs : s.Numbered) (hq : s.queue = .check task :: queue)
    {other : CheckTask}
    (hother : .check other ∈ queue) : other.id ≠ task.id := by
  have hnodup := hs.nodup
  rw [hq] at hnodup
  have hid : other.id ∈ queue.filterMap checkId? :=
    List.mem_filterMap.mpr ⟨.check other, hother, rfl⟩
  rintro he
  exact (List.nodup_cons.mp hnodup).1 (he ▸ hid)

private theorem ActStep.mem_queuedChecks (h : ActStep s r t) (hn : n ∈ t.queuedChecks) :
    n ∈ s.queuedChecks ∨ n = s.tokens.size := by
  rw [Scheduler.mem_queuedChecks] at hn ⊢
  obtain ⟨check, hcheck, hid⟩ := hn
  cases h with
  | change task hr htask hqueue hsize hcancelled =>
    rw [hqueue, List.mem_append, List.mem_singleton] at hcheck
    rcases hcheck with hcheck | rfl
    · exact .inl ⟨check, hcheck, hid⟩
    · exact nomatch htask
  | quiet new hr hserved hqueue hnew hask hnumber hsize hcancelled =>
    rw [hqueue, List.mem_append, Option.mem_toList] at hcheck
    rcases hcheck with hcheck | hcheck
    · exact .inl ⟨check, hcheck, hid⟩
    · refine .inr (hnumber n ?_).1
      simp [Option.mem_def.mp hcheck, checkId?, hid]
  | serve task queue hr hqueue hserved htokens hrest =>
    rw [hqueue]
    rcases hrest with hrest | ⟨first, next, rfl, hnext, hrest⟩
    · rw [hrest] at hcheck
      exact .inl ⟨check, List.mem_cons_of_mem task hcheck, hid⟩
    · rw [hrest, List.mem_append, List.mem_singleton] at hcheck
      rcases hcheck with hcheck | hcheck
      · exact .inl ⟨check, List.mem_cons_of_mem _ hcheck, hid⟩
      · obtain rfl := Task.check.inj hcheck
        exact .inl ⟨first, List.mem_cons_self, hnext.symm.trans hid⟩

variable {requests : List (Request α)} {results : List FileReport}

private theorem Stage.front (h : Stage n s requests) (hs : (s.after requests).Numbered)
    (hq : (s.after requests).queue = .check task :: queue)
    (hserved : (s.after requests).servedBy .step = [.check task]) (hid : task.id = n)
    (hn : (s.after requests).isCancelled n = false) :
    (∀ r ∈ requests, r.isChange = false) ∧ (∀ task ∈ queue, task.isChange = false) ∧
      ∃ early rest, requests ++ [.step] = early ++ .step :: rest ∧
        ((∀ visit ∈ task.visit? (s.after requests).session, Visited visit) →
          Progress n (s.after early) rest (task.files (s.after requests).session).1.tail
            (task.done ++ (task.visit? (s.after requests).session).toList.flatMap reportsOf)) := by
  cases h with
  | gone h =>
    exact absurd (mem_queuedChecks.mpr ⟨task, hq ▸ List.mem_cons_self, hid⟩) h
  | calledOff h =>
    rw [hn] at h
    exact nomatch h
  | waiting front behind hqueue hbehind hcalm =>
    cases front with
    | nil =>
      rw [hq, List.nil_append, List.cons.injEq] at hqueue
      obtain ⟨htask, rfl⟩ := hqueue
      obtain rfl := Task.check.inj htask
      refine ⟨hcalm, hbehind, requests, [], rfl, fun hvisit => ?_⟩
      simpa using progress_first hq hserved hn hvisit
    | cons other front =>
      rw [hq, List.cons_append, List.cons.injEq] at hqueue
      have hsame : Task.check { id := n } ∈ queue := by simp [hqueue.2]
      exact absurd hid.symm (hs.front hq hsame)
  | begun early rest remaining done hrequests hprogress htask hqueue hcalm =>
    rw [hq] at htask hqueue
    have hfirst : task = ⟨n, some remaining, done⟩ := by
      rcases List.mem_cons.mp htask with htask | htask
      · exact (Task.check.inj htask).symm
      · exact absurd hid.symm (hs.front hq htask)
    refine ⟨hcalm, fun other hother => hqueue other (List.mem_cons_of_mem _ hother), early,
      rest ++ [.step], by simp [hrequests], fun hvisit => ?_⟩
    have hnow : (s.after early).after (.step :: rest) = s.after requests := by
      rw [hrequests, after_append]
    subst hfirst
    exact Progress.visit hprogress hnow hserved hid hn hvisit

theorem visitedBy_of_servedBy (h : s.servedBy r = []) :
    s.visitedBy n r = [] := by
  rw [visitedBy, h, List.flatMap_nil]

private theorem visitedBy_other {other : Task α} (hserved : s.servedBy .step = [other])
    (hother : ∀ check, other = .check check → check.id ≠ n) : s.visitedBy n .step = [] := by
  rw [visitedBy, hserved, List.flatMap_singleton]
  cases other with
  | check check => simp [visitOf, hother check rfl]
  | _ => rfl

private theorem Stage.served (h : Stage n s requests) (hs : (s.after requests).Numbered)
    (hq : (s.after requests).queue = .check task :: queue)
    (hserved : (s.after requests).servedBy .step = [.check task]) (hid : task.id = n) :
    Stage n s (requests ++ [.step]) := by
  let popped : Scheduler α :=
    { s.after requests with queue := queue, steps := (s.after requests).steps + 1 }
  obtain ⟨r, hr⟩ : ∃ r, (s.after requests).step? = some r := by
    refine Option.ne_none_iff_exists'.mp fun hnone => ?_
    rw [servedBy_step_none hnone] at hserved
    exact nomatch hserved
  have hnow : s.after (requests ++ [.step]) = r.2 := by rw [after_snoc, act_step_some hr]
  have hgone {t : Scheduler α} (hqueue : t.queue = queue) : n ∉ t.queuedChecks := by
    rw [mem_queuedChecks, hqueue]
    rintro ⟨other, hother, hid'⟩
    exact hs.front hq hother (hid'.trans hid.symm)
  have hstep : popped.stepCheck? task = some r := (step?_cons hq).symm.trans hr
  cases checkStep hstep with
  | calledOff h => exact .gone (hnow ▸ hgone rfl)
  | failed e session => exact .gone (hnow ▸ hgone rfl)
  | last session h hvisit htail => exact .gone (hnow ▸ hgone rfl)
  | more session hn hvisit htail =>
    rw [hid] at hn
    obtain ⟨hcalm, hqueue, early, rest, hrequests, hprogress⟩ := h.front hs hq hserved hid hn
    refine .begun early rest _ _ hrequests (hprogress hvisit) ?_ ?_ ?_
    · rw [hnow]
      simp [enqueue, popped, hid]
    · rw [hnow]
      intro other hother
      rcases List.mem_append.mp hother with hother | hother
      · exact hqueue other hother
      · rw [List.mem_singleton.mp hother]
        rfl
    · exact List.forall_mem_append.mpr ⟨hcalm, List.forall_mem_singleton.mpr rfl⟩

private theorem Stage.act (h : Stage n s requests) (hs : (s.after requests).Numbered)
    (hn : n < (s.after requests).tokens.size) (r : Request α) : Stage n s (requests ++ [r]) := by
  have hstep := actStep (s.after requests) r
  rw [← after_snoc] at hstep
  cases h with
  | gone h =>
    refine .gone fun hmem => ?_
    rcases hstep.mem_queuedChecks hmem with hmem | hnew
    · exact h hmem
    · omega
  | calledOff h => exact .calledOff (hstep.isCancelled h)
  | waiting front behind hqueue hbehind hcalm =>
    have hmem : n ∈ (s.after requests).queuedChecks :=
      mem_queuedChecks.mpr ⟨{ id := n }, by simp [hqueue], rfl⟩
    cases hstep with
    | change task hr htask hnext hsize hcancelled =>
      exact .calledOff ((hcancelled n).mpr (.inr ⟨hmem, hn⟩))
    | quiet new hr hserved hnext hnew hask hnumber hsize hcancelled =>
      refine .waiting front (behind ++ new.toList) (by simp [hnext, hqueue]) ?_ ?_
      · exact List.forall_mem_append.mpr ⟨hbehind, by simpa using hnew⟩
      · exact List.forall_mem_append.mpr ⟨hcalm, List.forall_mem_singleton.mpr hr⟩
    | serve task queue hr hfirst hserved htokens hrest =>
      subst hr
      have hcalm' : ∀ r ∈ requests ++ [.step], r.isChange = false :=
        List.forall_mem_append.mpr ⟨hcalm, List.forall_mem_singleton.mpr rfl⟩
      cases front with
      | nil =>
        have hstage : Stage n s requests := .waiting [] behind hqueue hbehind hcalm
        obtain rfl := (List.cons.inj (hqueue.symm.trans hfirst)).1
        exact hstage.served hs hqueue hserved rfl
      | cons other front =>
        rw [hqueue, List.cons_append, List.cons.injEq] at hfirst
        obtain ⟨rfl, rfl⟩ := hfirst
        rcases hrest with hrest | ⟨check, next, -, -, hrest⟩
        · exact .waiting front behind hrest hbehind hcalm'
        · refine .waiting front (behind ++ [.check next]) (by simp [hrest]) ?_ hcalm'
          exact List.forall_mem_append.mpr ⟨hbehind, List.forall_mem_singleton.mpr rfl⟩
  | begun early rest remaining done hrequests hprogress htask hqueue hcalm =>
    have hmem : n ∈ (s.after requests).queuedChecks := mem_queuedChecks.mpr ⟨_, htask, rfl⟩
    have hnow : (s.after early).after (.step :: rest) = s.after requests := by
      rw [hrequests, after_append]
    have hrequests' : requests ++ [r] = early ++ .step :: (rest ++ [r]) := by simp [hrequests]
    cases hstep with
    | change task hr htask hnext hsize hcancelled =>
      exact .calledOff ((hcancelled n).mpr (.inr ⟨hmem, hn⟩))
    | quiet new hr hserved hnext hnew hask hnumber hsize hcancelled =>
      have hprogress' : Progress n (s.after early) (rest ++ [r]) remaining done := by
        refine hprogress.other ?_ ?_ <;> rw [hnow]
        · simp [hserved]
        · exact visitedBy_of_servedBy hserved
      refine .begun early (rest ++ [r]) remaining done hrequests' hprogress' ?_ ?_ ?_
      · simp [hnext, htask]
      · rw [hnext]
        exact List.forall_mem_append.mpr ⟨hqueue, by simpa using hnew⟩
      · exact List.forall_mem_append.mpr ⟨hcalm, List.forall_mem_singleton.mpr hr⟩
    | serve task queue hr hfirst hserved htokens hrest =>
      subst hr
      rw [hfirst] at htask
      rcases List.mem_cons.mp htask with hown | hlater
      · -- The check itself is at the front.
        have hstage : Stage n s requests :=
          .begun early rest remaining done hrequests hprogress (hfirst ▸ htask) hqueue hcalm
        exact hstage.served hs (hown ▸ hfirst) (hown ▸ hserved) rfl
      · have hother : ∀ check, task = .check check → check.id ≠ n := by
          rintro check rfl hid
          exact hs.front hfirst hlater hid.symm
        have hprogress' : Progress n (s.after early) (rest ++ [.step]) remaining done := by
          refine hprogress.other ?_ ?_ <;> rw [hnow]
          · simpa [hserved] using hqueue task (by simp [hfirst])
          · exact visitedBy_other hserved hother
        rw [hfirst, List.forall_mem_cons] at hqueue
        refine .begun early (rest ++ [.step]) remaining done hrequests' hprogress' ?_ ?_ ?_
        · rcases hrest with hrest | ⟨check, next, -, -, hrest⟩ <;> simp [hrest, hlater]
        · rcases hrest with hrest | ⟨check, next, -, -, hrest⟩ <;> rw [hrest]
          · exact hqueue.2
          · exact List.forall_mem_append.mpr ⟨hqueue.2, List.forall_mem_singleton.mpr rfl⟩
        · exact List.forall_mem_append.mpr ⟨hcalm, List.forall_mem_singleton.mpr rfl⟩

/-- In every run, the checks in the queue have different numbers. -/
theorem Numbered.after (hs : s.Numbered) (requests : List (Request α)) :
    (s.after requests).Numbered := by
  induction requests generalizing s with
  | nil => exact hs
  | cons r rest ih => exact ih ((actStep s r).numbered hs)

private theorem stage_after (hs : s.Numbered) (requests : List (Request α)) :
    Stage s.tokens.size (s.act .check).2 requests ∧
      s.tokens.size < ((s.act .check).2.after requests).tokens.size := by
  have hsubmitted : (s.act .check).2.Numbered := (actStep s .check).numbered hs
  induction requests using List.reverseRecOn with
  | nil =>
    refine ⟨.waiting s.queue [] rfl (by simp) (by simp), ?_⟩
    simp [after, act, check, enqueue]
  | append_singleton requests r ih =>
    refine ⟨ih.1.act (hsubmitted.after requests) ih.2 r, ?_⟩
    rw [after_snoc]
    exact Nat.lt_of_lt_of_le ih.2 (actStep _ r).size_le

private theorem act_step_checked (h : (s.act .step).1 = some (.checked n (.ok results))) :
    ∃ task queue, s.queue = .check task :: queue ∧ s.servedBy .step = [.check task] ∧
      task.id = n ∧ s.isCancelled n = false ∧
      (∀ visit ∈ task.visit? s.session, Visited visit) ∧ (task.files s.session).1.tail = [] ∧
      task.done ++ (task.visit? s.session).toList.flatMap reportsOf = results := by
  cases hstep : s.step? with
  | none =>
    rw [act_step_none hstep] at h
    exact nomatch h
  | some next =>
    obtain ⟨event, t⟩ := next
    rw [act_step_some hstep] at h
    obtain rfl : event = _ := h
    obtain ⟨task, queue, hq, hserved, hserve⟩ := exists_of_step? hstep
    cases task with
    | update path content => exact nomatch hserve
    | remove path => exact nomatch hserve
    | query run =>
      obtain ⟨answer, -, hnext⟩ := Option.map_eq_some_iff.mp hserve
      exact nomatch hnext
    | check task =>
      cases checkStep (show stepCheck? _ task = some _ from hserve) with
      | last session hn hvisit htail =>
        exact ⟨task, queue, hq, hserved, rfl, hn, hvisit, htail, rfl⟩

/-- A check that ends with results has visited the files that were chosen at its first step, while
nobody asked for a change and none was made. -/
theorem progress_of_checked (hs : s.Numbered)
    (h : (((s.act .check).2.after requests).act .step).1 =
      some (.checked s.tokens.size (.ok results))) :
    (∀ r ∈ requests, r.isChange = false) ∧ ∃ early rest,
      requests ++ [.step] = early ++ .step :: rest ∧
        Progress s.tokens.size ((s.act .check).2.after early) rest [] results := by
  have hnumbered := ((actStep s .check).numbered hs).after requests
  obtain ⟨task, queue, hq, hserved, hid, hn, hvisit, htail, hresults⟩ := act_step_checked h
  obtain ⟨hcalm, -, early, rest, hrequests, hprogress⟩ :=
    (stage_after hs requests).1.front hnumbered hq hserved hid hn
  refine ⟨hcalm, early, rest, hrequests, ?_⟩
  have hfinal := hprogress hvisit
  rwa [htail, hresults] at hfinal

end Scheduler
end LiveCheck
