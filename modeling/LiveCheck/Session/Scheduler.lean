import LiveCheck.Session.Query

/-!
# Scheduling

Requests wait in a queue and are served one step at a time. A step never interrupts the work on a
file. A check of the whole program takes one step for each file and goes to the back of the queue
between them, so later requests are served before it goes on. A change of content calls off all
checks that are waiting. A step in which the work goes on without end is never over.
-/

namespace LiveCheck

structure CheckTask where
  id : Nat
  /-- The files that it has yet to visit; they are chosen at the first step. -/
  remaining : Option (List FileId) := none
  done : List FileReport := []
deriving Repr, DecidableEq, Inhabited

/-- A request. Questions have answers of type `α`, or none if the work on them has no end. -/
inductive Task (α : Type)
  | update (path content : String)
  | remove (path : String)
  | query (run : Session → Option (α × Session))
  | check (task : CheckTask)

/-- The files that a check has yet to visit. At the first step they are chosen. -/
def CheckTask.files (task : CheckTask) (s : Session) : List FileId × Session :=
  match task.remaining with
  | some files => (files, s)
  | none => (s.flush.checkTargets, s.flush)

/-- What a step tells to whoever made the request. -/
inductive Event (α : Type)
  | answered (result : α)
  | checked (id : Nat) (result : Except SessionError (List FileReport))

/-- Whether a request is a check that has not chosen its files. -/
def Task.isUnstarted {α : Type} : Task α → Bool
  | .check task => task.remaining.isNone
  | _ => false

/-- A bound on the steps that a request takes once it has begun. -/
def Task.stepsLeft {α : Type} : Task α → Nat
  | .check task => (task.remaining.getD []).length + 1
  | _ => 1

theorem Task.stepsLeft_pos {α : Type} (task : Task α) : 0 < task.stepsLeft := by
  cases task <;> simp [Task.stepsLeft]

def Task.allStepsLeft {α : Type} : List (Task α) → Nat
  | [] => 0
  | task :: tasks => task.stepsLeft + allStepsLeft tasks

theorem Task.allStepsLeft_append {α : Type} (tasks tasks' : List (Task α)) :
    allStepsLeft (tasks ++ tasks') = allStepsLeft tasks + allStepsLeft tasks' := by
  induction tasks with
  | nil => simp [allStepsLeft]
  | cons task tasks ih => simp [allStepsLeft, ih, Nat.add_assoc]

structure Scheduler (α : Type) where
  session : Session
  /-- The requests that wait, the next one first. -/
  queue : List (Task α) := []
  /-- For each check so far, whether it was called off. -/
  tokens : Array Bool := #[]
  steps : Nat := 0

namespace Scheduler

variable {α : Type}

def pending (s : Scheduler α) : Nat := s.queue.length

def isCancelled (s : Scheduler α) (id : Nat) : Bool := s.tokens[id]?.getD false

/-! ## Requests -/

def cancel (s : Scheduler α) (id : Nat) : Scheduler α :=
  { s with tokens := s.tokens.modify id fun _ => true }

def queuedChecks (s : Scheduler α) : List Nat :=
  s.queue.filterMap fun
    | .check task => some task.id
    | _ => none

/-- Calls off all checks that wait. -/
def cancelChecks (s : Scheduler α) : Scheduler α := s.queuedChecks.foldl cancel s

/-- Puts a request at the back of the queue. -/
def enqueue (s : Scheduler α) (task : Task α) : Scheduler α :=
  { s with queue := s.queue ++ [task] }

def update (s : Scheduler α) (path content : String) : Scheduler α :=
  s.cancelChecks.enqueue (.update path content)

def remove (s : Scheduler α) (path : String) : Scheduler α :=
  s.cancelChecks.enqueue (.remove path)

def ask (s : Scheduler α) (run : Session → Option (α × Session)) : Scheduler α :=
  s.enqueue (.query run)

def check (s : Scheduler α) : Nat × Scheduler α :=
  let id := s.tokens.size
  (id, { s with tokens := s.tokens.push false }.enqueue (.check { id := id }))

/-! ## Steps -/

/-- What a step tells and the scheduler behind it; nothing if the step is never over. -/
abbrev Step (α : Type) := Option (Option (Event α) × Scheduler α)

/-- Visits the next file of a check. -/
def stepCheck? (s : Scheduler α) (task : CheckTask) : Step α :=
  let finish (session : Session) (result : Except SessionError (List FileReport)) : Step α :=
    some (some (.checked task.id result), { s with session := session })
  if s.isCancelled task.id then finish s.session (.error .cancelled)
  else
    match task.files s.session with
    | ([], session) => finish session (.ok task.done)
    | (file :: rest, session) =>
      match (Query.fileReport? file).outcome? session with
      | none => none
      | some (.error e, session) => finish session (.error e)
      | some (.ok report, session) =>
        let done := task.done ++ report.toList
        if rest.isEmpty then finish session (.ok done)
        else
          let task := { task with remaining := some rest, done := done }
          some (none, { s with session := session }.enqueue (.check task))

/-- Serves one request that has left the queue. -/
def serve? (s : Scheduler α) : Task α → Step α
  | .update path content => some (none, { s with session := (s.session.update path content).2 })
  | .remove path => some (none, { s with session := (s.session.removeFile path).2 })
  | .query run =>
    (run s.session).map fun (result, session) =>
      (some (.answered result), { s with session := session })
  | .check task => s.stepCheck? task

/-- One step for the request at the front of the queue; nothing if the queue is empty. -/
def step? (s : Scheduler α) : Step α :=
  match s.queue with
  | [] => none
  | task :: queue => { s with queue := queue, steps := s.steps + 1 }.serve? task

/-! ## Running until the queue is empty -/

/-- The checks that have not begun, and the steps that are left for the other requests. Every step
lowers this pair. -/
def workLeft (s : Scheduler α) : Nat × Nat :=
  (s.queue.countP Task.isUnstarted, Task.allStepsLeft s.queue)

/-- After a visit the check is over, or it is back in the queue with fewer files. -/
theorem queue_stepCheck? {s next : Scheduler α} {task : CheckTask} {event : Option (Event α)}
    (h : s.stepCheck? task = some (event, next)) :
    next.queue = s.queue ∨
      ∃ rest done, next.queue =
          s.queue ++ [.check { task with remaining := some rest, done := done }] ∧
        ∀ files, task.remaining = some files → rest.length < files.length := by
  unfold stepCheck? at h
  split at h
  · cases h
    exact .inl rfl
  · split at h
    · cases h
      exact .inl rfl
    · next file rest session hfiles =>
      split at h
      · cases h
      · cases h
        exact .inl rfl
      · next report session' _ =>
        split at h
        · cases h
          exact .inl rfl
        · cases h
          refine .inr ⟨rest, task.done ++ report.toList, rfl, fun files h => ?_⟩
          have : files = file :: rest := by
            simp only [CheckTask.files, h] at hfiles
            exact congrArg Prod.fst hfiles
          simp [this]

/-- After a step the request has left the queue, or it is a check that is back in the queue and has
begun, with fewer steps left if it had begun before. -/
theorem queue_serve? {s next : Scheduler α} {task : Task α} {event : Option (Event α)}
    (h : s.serve? task = some (event, next)) :
    next.queue = s.queue ∨
      ∃ again, next.queue = s.queue ++ [again] ∧ again.isUnstarted = false ∧
        (task.isUnstarted = false → again.stepsLeft < task.stepsLeft) := by
  cases task with
  | update path content =>
    cases h
    exact .inl rfl
  | remove path =>
    cases h
    exact .inl rfl
  | query run =>
    obtain ⟨answer, -, hnext⟩ := Option.map_eq_some_iff.mp h
    cases hnext
    exact .inl rfl
  | check task =>
    rcases queue_stepCheck? h with h | ⟨rest, done, h, hlt⟩
    · exact .inl h
    · refine .inr ⟨_, h, rfl, fun hstarted => ?_⟩
      cases hr : task.remaining with
      | none => simp [Task.isUnstarted, hr] at hstarted
      | some files => simpa [Task.stepsLeft, hr] using hlt files hr

/-- Every step lowers the work that is left. -/
theorem workLeft_step? {s next : Scheduler α} {event : Option (Event α)}
    (h : s.step? = some (event, next)) :
    Prod.Lex (· < ·) (· < ·) next.workLeft s.workLeft := by
  cases hq : s.queue with
  | nil => simp [step?, hq] at h
  | cons task queue =>
    simp only [step?, hq] at h
    have hpos := task.stepsLeft_pos
    rw [Prod.lex_def]
    rcases queue_serve? h with hs | ⟨t, hs, ht, hlt⟩
    · cases hu : task.isUnstarted <;> simp [workLeft, Task.allStepsLeft, hq, hs, hu, hpos]
    · cases hu : task.isUnstarted
      · have := hlt hu
        simp [workLeft, Task.allStepsLeft, Task.allStepsLeft_append, hq, hs, hu, ht]
        omega
      · simp [workLeft, hq, hs, hu, ht]

/-- Steps until the queue is empty; the answer is what the steps told. There is none if a step is
never over. -/
def runUntilIdle? (s : Scheduler α) : Option (List (Event α) × Scheduler α) :=
  match _h : s.step? with
  | none => if s.queue.isEmpty then some ([], s) else none
  | some (event, next) =>
    (runUntilIdle? next).map fun (events, last) => (event.toList ++ events, last)
termination_by s.workLeft
decreasing_by exact workLeft_step? _h

end Scheduler
end LiveCheck
