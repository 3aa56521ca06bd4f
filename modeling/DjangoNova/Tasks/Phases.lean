import Mathlib.Data.List.Perm.Basic
import DjangoNova.Tasks.EventLoop

/-!
# The phases of a worker

An abstract backend in which a worker is in one of five phases and every
stretch of its loop is one explicit change of the world. The tracing
provider does not occur in it. As long as `set_attribute` does not raise,
each step of the code is the step of the abstract backend with the same
action.
-/

namespace DjangoNova

section Phases

variable {I F O V : Type}

/-- Where a worker is suspended: with a delayed task, in the task function,
or before the next attempt of a task that it still holds. -/
inductive Phase (I F O : Type) where
  | idle
  | delaying (p : Payload I F O)
  | running (p : Payload I F O)
  | resting (p : Payload I F O)
  | dead

namespace Phase

/-- The payload that the worker holds. -/
def payload : Phase I F O → Option (Payload I F O)
  | .delaying p | .running p | .resting p => some p
  | .idle | .dead => none

def isDead : Phase I F O → Bool
  | .dead => true
  | _ => false

end Phase

namespace AsyncioBackend

variable (p : Payload I F O)

/-- The code from the announcement of an attempt on. -/
def launchCode : TaskProgram I F O V Unit := do
  announce p
  attempt p false

/-- The loop once the delay is over, or was cancelled. -/
def afterDelay (v : Except TaskExn Unit) : TaskProgram I F O V Unit := do
  (Program.done v : TaskProgram I F O V Unit)
  launchCode p

def delayCode : TaskProgram I F O V Unit := .step (.sleep p.delay) (afterDelay p)

/-- The loop once the task function has returned or raised. -/
def afterRun (v : Except TaskExn V) : TaskProgram I F O V Unit :=
  (((do
    let v ← (Program.done v : TaskProgram I F O V V)
    succeed p false v)).andThen (onException p false)).tryFinally (conclude p false)

def runCode : TaskProgram I F O V Unit := .step (.await p.taskId) (afterRun p)

/-- The loop once the sleep before the next attempt is over, or was cancelled. -/
def afterRest (v : Except TaskExn Unit) : TaskProgram I F O V Unit :=
  (do
    (Program.done v : TaskProgram I F O V Unit)
    ask (.putNowait (Payload.next p))).tryFinally (conclude p false)

def restCode : TaskProgram I F O V Unit := .step (.sleep p.retryDelay) (afterRest p)

/-- `worker` without its span. -/
def plainWorker : TaskProgram I F O V Unit := do
  ask (.lookup p.taskId)
  Tracing.onlyIf (p.attempts = 0 ∧ 0 < p.delay) (sleep p.delay)
  launchCode p

/-- `submit` without its span. -/
def plainSubmit : TaskProgram I F O V I := do
  enqueue p false
  return p.taskId

end AsyncioBackend

/-- The code at which a worker of the phase is suspended. -/
def Phase.code : Phase I F O → Option (Payload I F O × TaskProgram I F O V Unit)
  | .delaying p => some (p, AsyncioBackend.delayCode p)
  | .running p => some (p, AsyncioBackend.runCode p)
  | .resting p => some (p, AsyncioBackend.restCode p)
  | .idle | .dead => none

namespace TaskWorld

variable [DecidableEq I] (w : TaskWorld I F O V) (p : Payload I F O)

def status (id : I) : TaskStatus := (w.results id).elim .pending TaskResult.status

def accepted : TaskWorld I F O V :=
  let w := w.record (.submitted p)
  { w with results := Function.update w.results p.taskId (some .new) }.put p

/-- An attempt starts. -/
def launched : TaskWorld I F O V :=
  ((w.modify p.taskId (.status .running)).modify p.taskId .started).record (.started p)

/-- The `finally` block of the loop. -/
def concluded : TaskWorld I F O V :=
  (if w.status p.taskId = .retrying then w else w.modify p.taskId .finished).taskDone

def succeeded (v : V) : TaskWorld I F O V :=
  ((w.modify p.taskId (.status .success)).modify p.taskId (.result v)).modify p.taskId
    (.attempts (p.attempts + 1))

def retried : TaskWorld I F O V :=
  (w.modify p.taskId (.attempts (p.attempts + 1))).modify p.taskId (.status .retrying)

/-- What a worker does once the task function has returned or raised. -/
def completed : Except TaskExn V → TaskWorld I F O V × Phase I F O
  | .ok v => ((w.succeeded p v).concluded p, .idle)
  | .error .cancelled => (w.concluded p, .dead)
  | .error (.exception text) =>
      if (p.attempts : ℤ) < p.maxRetries then
        match text with
        | some text =>
            ((w.retried p).modify p.taskId
              (.error (AsyncioBackend.attemptFailed (p.attempts + 1) text)), .resting p)
        | none => ((w.retried p).concluded p, .dead)
      else
        let w := w.modify p.taskId (.status .failed)
        match text with
        | some text =>
            (((w.modify p.taskId (.error text)).modify p.taskId
              (.attempts (p.attempts + 1))).concluded p, .idle)
        | none => (w.concluded p, .dead)

def begun : TaskWorld I F O V × Phase I F O :=
  if p.attempts = 0 ∧ 0 < p.delay then (w, .delaying p) else (w.launched p, .running p)

end TaskWorld

namespace TaskSystem

variable [DecidableEq I] (a : TaskSystem I F O V (Phase I F O))

/-- One step of the abstract backend. -/
def phaseStep (n : ℕ) : TaskAction I F O V → Option (TaskSystem I F O V (Phase I F O))
  | .tick => some a.tick
  | .submit p _ =>
      if p.attempts = 0 ∧ a.world.results p.taskId = none then
        some { a with world := a.world.accepted p }
      else none
  | .take i _ =>
      match a.tasks[i]?, a.world.queue with
      | some ⟨.idle, false⟩, p :: rest =>
          let q := { a.world with queue := rest }.begun p
          some (a.settle i q.1 q.2)
      | _, _ => none
  | .complete i v _ =>
      match a.tasks[i]? with
      | some ⟨.running p, _⟩ =>
          let q := (a.world.record (.ended p.taskId v)).completed p v
          some (a.settle i q.1 q.2)
      | _ => none
  | .wake i _ =>
      match a.tasks[i]? with
      | some ⟨.delaying p, false⟩ => some (a.settle i (a.world.launched p) (.running p))
      | some ⟨.resting p, false⟩ =>
          some (a.settle i ((a.world.put (AsyncioBackend.Payload.next p)).concluded p) .idle)
      | _ => none
  | .cancel i _ =>
      match a.tasks[i]? with
      | some ⟨.idle, true⟩ => some (a.settle i a.world .dead)
      | some ⟨.delaying _, true⟩ => some (a.settle i a.world .dead)
      | some ⟨.resting p, true⟩ => some (a.settle i (a.world.concluded p) .dead)
      | _ => none
  | .start => a.start n .idle
  | .stop => a.stop
  | .joined => a.joined
  | .stopped => a.stopped Phase.isDead

end TaskSystem

end Phases

end DjangoNova
