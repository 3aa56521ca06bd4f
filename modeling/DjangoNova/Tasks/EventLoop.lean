import Mathlib.Logic.Function.Basic
import DjangoNova.Concurrency.Transition
import DjangoNova.Tasks.AsyncioBackend

/-!
# The event loop around the task backend

The state of a backend with its worker tasks, one caller of `start` and
`stop`, and any number of submitters. Each step is one stretch of a
coroutine between suspension points.
-/

namespace DjangoNova

section EventLoop

variable (I F O V : Type)

/-- What the log of a backend records. -/
inductive TaskEvent where
  | submitted (p : Payload I F O)
  | started (p : Payload I F O)
  | ended (id : I) (v : Except TaskExn V)

/-- The queue with its counter of unfinished items, the results and the
log. `waiter` is the wake-up flag of a waiting `queue.join()`. -/
structure TaskWorld where
  now : ℕ
  queue : List (Payload I F O)
  unfinished : ℕ
  waiter : Option Bool
  results : I → Option (TaskResult V)
  log : List (TaskEvent I F O V)

/-- A worker task: at `queue.get()`, suspended elsewhere with the payload
that it took, or ended by an exception. -/
inductive WorkerState where
  | idle
  | busy (p : Payload I F O) (code : TaskProgram I F O V Unit)
  | dead

/-- A worker task in a state of type `S`. -/
structure Worker (S : Type) where
  state : S
  /-- `cancel()` was called and the error is not delivered yet. -/
  cancelRequested : Bool

inductive Controller where
  | ready
  | joining
  | gathering (workers : List ℕ)

inductive LifecycleCall where
  | start
  | stop
  deriving DecidableEq

structure TaskSystem (S : Type) where
  world : TaskWorld I F O V
  /-- All worker tasks that were created. -/
  tasks : List (Worker S)
  /-- `self._workers` -/
  workers : List ℕ
  started : Bool
  controller : Controller
  /-- Ghost: the calls of `start` and `stop` that have returned. -/
  history : List LifecycleCall
  /-- Ghost: the tasks submitted before the last call of `stop`. -/
  promised : List I
  /-- Ghost: some worker was told to cancel. -/
  cancelling : Bool

/-- The replies of the tracing provider in one stretch; a missing one says
that there is no tracer. -/
abbrev SpanReplies := List (Except (Option Str) Bool)

inductive TaskAction where
  | tick
  | submit (p : Payload I F O) (replies : SpanReplies)
  | take (worker : ℕ) (replies : SpanReplies)
  | complete (worker : ℕ) (v : Except TaskExn V) (replies : SpanReplies)
  | wake (worker : ℕ) (replies : SpanReplies)
  | cancel (worker : ℕ) (replies : SpanReplies)
  | start
  | stop
  | joined
  | stopped

variable {I F O V} [DecidableEq I]

namespace TaskWorld

def initial : TaskWorld I F O V := ⟨0, [], 0, none, fun _ ↦ none, []⟩

def record (w : TaskWorld I F O V) (e : TaskEvent I F O V) : TaskWorld I F O V :=
  { w with log := w.log ++ [e] }

def modify (w : TaskWorld I F O V) (id : I) (u : ResultUpdate V) : TaskWorld I F O V :=
  { w with results := Function.update w.results id ((w.results id).map (u.apply w.now)) }

def put (w : TaskWorld I F O V) (p : Payload I F O) : TaskWorld I F O V :=
  { w with queue := w.queue ++ [p], unfinished := w.unfinished + 1 }

/-- `task_done`; the last one wakes up the waiter of `join`. -/
def taskDone (w : TaskWorld I F O V) : TaskWorld I F O V :=
  { w with
    unfinished := w.unfinished - 1
    waiter := if w.unfinished = 1 then w.waiter.map fun _ ↦ true else w.waiter }

def perform (w : TaskWorld I F O V) :
    (a : BackendEffect I F O V) → Except TaskExn a.Reply × TaskWorld I F O V
  | .lookup id =>
      (if (w.results id).isSome then .ok () else .error (.exception (some "KeyError".toList)), w)
  | .create id => (.ok (), { w with results := Function.update w.results id (some .new) })
  | .modify id u => (.ok (), w.modify id u)
  | .readStatus id => (.ok ((w.results id).elim .pending TaskResult.status), w)
  | .call p => (.ok (), w.record (.started p))
  | .putNowait p => (.ok (), w.put p)
  | .taskDone =>
      if w.unfinished = 0 then (.error (.exception (some "ValueError".toList)), w)
      else (.ok (), w.taskDone)

end TaskWorld

/-- The reply of the tracing provider to the next call. -/
def spanReply : SpanReplies → Except TaskExn Bool
  | [] => .ok false
  | .ok b :: _ => .ok b
  | .error text :: _ => .error (.exception text)

/-- Run a coroutine up to its next suspension point. -/
def advance {α : Type} : TaskProgram I F O V α → TaskWorld I F O V → SpanReplies →
    TaskWorld I F O V × TaskProgram I F O V α
  | .done v, w, _ => (w, .done v)
  | .step (.atomic a) k, w, replies => advance (k (w.perform a).1) (w.perform a).2 replies
  | .step (.span _) k, w, replies => advance (k (spanReply replies)) w replies.tail
  | .step (.await id) k, w, _ => (w, .step (.await id) k)
  | .step (.sleep seconds) k, w, _ => (w, .step (.sleep seconds) k)

/-- No call of `set_attribute` in the stretch raises. -/
def Calm {α : Type} : TaskProgram I F O V α → TaskWorld I F O V → SpanReplies → Prop
  | .step (.atomic a) k, w, replies => Calm (k (w.perform a).1) (w.perform a).2 replies
  | .step (.span c) k, w, replies =>
      (c = .setAttribute → ∃ b, spanReply replies = .ok b) ∧
        Calm (k (spanReply replies)) w replies.tail
  | _, _, _ => True

namespace TaskSystem

section Control

variable {S : Type} (s : TaskSystem I F O V S)

def initial : TaskSystem I F O V S :=
  ⟨.initial, [], [], false, .ready, [], [], false⟩

/-- The identifiers that `submit` has generated. -/
def submittedIds (log : List (TaskEvent I F O V)) : List I :=
  log.filterMap fun
    | .submitted p => some p.taskId
    | _ => none

/-- The part of `stop` after the join: take the workers and cancel them. -/
def cancelAll : TaskSystem I F O V S :=
  { s with
    world := { s.world with waiter := none }
    tasks := s.tasks.mapIdx fun i w ↦
      if i ∈ s.workers then { w with cancelRequested := true } else w
    workers := []
    controller := .gathering s.workers
    cancelling := true }

/-- Worker `i` has run up to its next suspension point. -/
def settle (i : ℕ) (w : TaskWorld I F O V) (state : S) : TaskSystem I F O V S :=
  { s with world := w, tasks := s.tasks.set i ⟨state, false⟩ }

def tick : TaskSystem I F O V S :=
  { s with world := { s.world with now := s.world.now + 1 } }

/-- `start` of a backend with `max_concurrent = n`. -/
def start (n : ℕ) (idle : S) : Option (TaskSystem I F O V S) :=
  match s.controller with
  | .ready =>
      if s.started then some { s with history := s.history ++ [.start] }
      else some { s with
        tasks := s.tasks ++ List.replicate n ⟨idle, false⟩
        workers := List.range' s.tasks.length n
        started := true
        history := s.history ++ [.start] }
  | _ => none

/-- `stop` up to its first suspension. -/
def stop : Option (TaskSystem I F O V S) :=
  match s.controller with
  | .ready =>
      let s' := { s with promised := submittedIds s.world.log }
      if s.workers = [] then some { s' with history := s.history ++ [.stop] }
      else if s.world.unfinished = 0 then some s'.cancelAll
      else some { s' with
        world := { s.world with waiter := some false }
        controller := .joining }
  | _ => none

/-- The join of `stop` was woken up. -/
def joined : Option (TaskSystem I F O V S) :=
  match s.controller, s.world.waiter with
  | .joining, some true => some s.cancelAll
  | _, _ => none

/-- The return of `stop`, when all its workers have ended. -/
def stopped (isDead : S → Bool) : Option (TaskSystem I F O V S) :=
  match s.controller with
  | .gathering workers =>
      if workers.all fun i ↦ (s.tasks[i]?).any fun w ↦ isDead w.state then
        some { s with controller := .ready, history := s.history ++ [.stop] }
      else none
  | _ => none

end Control

/-- The state of a worker after a stretch of its loop. -/
def workerState (p : Payload I F O) : TaskProgram I F O V Unit → WorkerState I F O V
  | .done (.ok _) => .idle
  | .done (.error _) => .dead
  | code => .busy p code

def WorkerState.isDead : WorkerState I F O V → Bool
  | .dead => true
  | _ => false

variable (s : TaskSystem I F O V (WorkerState I F O V))

/-- Worker `i` resumes its loop with `code`. -/
def resume (i : ℕ) (p : Payload I F O) (code : TaskProgram I F O V Unit)
    (w : TaskWorld I F O V) (replies : SpanReplies) :
    TaskSystem I F O V (WorkerState I F O V) :=
  let q := advance code w replies
  s.settle i q.1 (workerState p q.2)

/-- One step of a backend with `max_concurrent = n`. -/
def step (n : ℕ) : TaskAction I F O V → Option (TaskSystem I F O V (WorkerState I F O V))
  | .tick => some s.tick
  | .submit p replies =>
      if p.attempts = 0 ∧ s.world.results p.taskId = none then
        some { s with
          world := (advance (AsyncioBackend.submit p) (s.world.record (.submitted p)) replies).1 }
      else none
  | .take i replies =>
      match s.tasks[i]?, s.world.queue with
      | some ⟨.idle, false⟩, p :: rest =>
          some (s.resume i p (AsyncioBackend.worker p) { s.world with queue := rest } replies)
      | _, _ => none
  | .complete i v replies =>
      match s.tasks[i]? with
      | some ⟨.busy p (.step (.await _) k), _⟩ =>
          some (s.resume i p (k v) (s.world.record (.ended p.taskId v)) replies)
      | _ => none
  | .wake i replies =>
      match s.tasks[i]? with
      | some ⟨.busy p (.step (.sleep _) k), false⟩ =>
          some (s.resume i p (k (.ok ())) s.world replies)
      | _ => none
  | .cancel i replies =>
      match s.tasks[i]? with
      | some ⟨.idle, true⟩ => some (s.settle i s.world .dead)
      | some ⟨.busy p (.step (.sleep _) k), true⟩ =>
          some (s.resume i p (k (.error .cancelled)) s.world replies)
      | _ => none
  | .start => s.start n .idle
  | .stop => s.stop
  | .joined => s.joined
  | .stopped => s.stopped WorkerState.isDead

end TaskSystem

end EventLoop

end DjangoNova
