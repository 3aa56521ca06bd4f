import Mathlib.Data.Rat.Defs
import DjangoNova.Core.Tracing
import DjangoNova.Text.Str

/-!
# The asyncio task backend

The body of a worker's loop and `submit` are programs. Between two
suspension points (the awaited function and the sleeps) a coroutine runs
undisturbed, so one step of the system runs a program up to its next
suspension point. The replies of the tracing provider are part of the step.

`I` is the type of task identifiers, `F` of task functions, `O` of their
arguments and `V` of their values.
-/

namespace DjangoNova

inductive TaskStatus where
  | pending
  | running
  | retrying
  | success
  | failed
  deriving DecidableEq

/-- `TaskResult`, apart from its identifier. -/
structure TaskResult (V : Type) where
  status : TaskStatus
  startedAt : Option ℕ
  finishedAt : Option ℕ
  result : Option V
  error : Option Str
  attempts : ℕ

def TaskResult.new {V : Type} : TaskResult V := ⟨.pending, none, none, none, none, 0⟩

/-- The assignments to the fields of a result. -/
inductive ResultUpdate (V : Type) where
  | status (s : TaskStatus)
  /-- `if result.started_at is None: result.started_at = now` -/
  | started
  | result (v : V)
  | attempts (n : ℕ)
  | error (text : Str)
  | finished

def ResultUpdate.apply {V : Type} (now : ℕ) : ResultUpdate V → TaskResult V → TaskResult V
  | .status s, r => { r with status := s }
  | .started, r => { r with startedAt := some (r.startedAt.getD now) }
  | .result v, r => { r with result := some v }
  | .attempts n, r => { r with attempts := n }
  | .error text, r => { r with error := some text }
  | .finished, r => { r with finishedAt := some now }

/-- `_TaskPayload` -/
structure Payload (I F O : Type) where
  taskId : I
  func : F
  args : List O
  kwargs : List (Str × O)
  delay : ℚ
  maxRetries : ℤ
  retryDelay : ℚ
  attempts : ℕ

/-- An ordinary exception, with its text unless `str` raises on it, or a
`CancelledError`. -/
inductive TaskExn where
  | exception (text : Option Str)
  | cancelled
  deriving DecidableEq

namespace TaskExn

def isException : TaskExn → Bool
  | .exception _ => true
  | .cancelled => false

/-- `str(e)` -/
def str : TaskExn → Except TaskExn Str
  | .exception (some text) => .ok text
  | .exception none => .error (.exception (some []))
  | .cancelled => .ok []

end TaskExn

section Programs

variable (I F O V : Type)

/-- What a coroutine does without being suspended. -/
inductive BackendEffect where
  /-- `self._results[task_id]` -/
  | lookup (id : I)
  | create (id : I)
  | modify (id : I) (u : ResultUpdate V)
  | readStatus (id : I)
  /-- `payload.func(*payload.args, **payload.kwargs)` -/
  | call (p : Payload I F O)
  | putNowait (p : Payload I F O)
  | taskDone

inductive TaskEffect where
  | atomic (a : BackendEffect I F O V)
  | span (c : SpanCall)
  /-- The `await` of the called function. -/
  | await (id : I)
  | sleep (seconds : ℚ)

variable {I F O V}

abbrev BackendEffect.Reply : BackendEffect I F O V → Type
  | .readStatus _ => TaskStatus
  | _ => Unit

abbrev TaskEffect.Reply : TaskEffect I F O V → Type
  | .atomic a => a.Reply
  | .span _ => Bool
  | .await _ => V
  | .sleep _ => Unit

abbrev TaskProgram (I F O V α : Type) : Type :=
  Program (TaskEffect I F O V) TaskEffect.Reply TaskExn α

namespace AsyncioBackend

open Tracing

variable {α : Type}

def ask (a : BackendEffect I F O V) : TaskProgram I F O V a.Reply :=
  Program.call (TaskEffect.atomic a)

def awaited (id : I) : TaskProgram I F O V V := Program.call (TaskEffect.await id)

def sleep (seconds : ℚ) : TaskProgram I F O V Unit := Program.call (TaskEffect.sleep seconds)

def spanCall (c : SpanCall) : TaskProgram I F O V Bool := Program.call (TaskEffect.span c)

/-- `with nova_span(...) as span: body` -/
def taskSpan (body : Bool → TaskProgram I F O V α) : TaskProgram I F O V α :=
  novaSpan spanCall TaskExn.isException body

variable (p : Payload I F O)

/-- An assignment to a field of the task's result. -/
def assign (u : ResultUpdate V) : TaskProgram I F O V Unit := ask (.modify p.taskId u)

def succeed (span : Bool) (v : V) : TaskProgram I F O V Unit := do
  assign p (.status .success)
  assign p (.result v)
  assign p (.attempts (p.attempts + 1))
  setAttribute spanCall span

/-- `f"Attempt {attempts} failed: {e!s}"` -/
def attemptFailed (attempts : ℕ) (text : Str) : Str :=
  "Attempt ".toList ++ (Nat.repr attempts).toList ++ " failed: ".toList ++ text

/-- The payload of the next attempt. -/
def Payload.next (p : Payload I F O) : Payload I F O := { p with attempts := p.attempts + 1 }

def retry (span : Bool) (x : TaskExn) : TaskProgram I F O V Unit := do
  assign p (.attempts (p.attempts + 1))
  assign p (.status .retrying)
  let text ← (Program.done x.str : TaskProgram I F O V Str)
  assign p (.error (attemptFailed (p.attempts + 1) text))
  setAttribute spanCall span
  setAttribute spanCall span
  sleep p.retryDelay
  ask (.putNowait (Payload.next p))

def fail (span : Bool) (x : TaskExn) : TaskProgram I F O V Unit := do
  assign p (.status .failed)
  let text ← (Program.done x.str : TaskProgram I F O V Str)
  assign p (.error text)
  assign p (.attempts (p.attempts + 1))
  setAttribute spanCall span
  setAttribute spanCall span

/-- `except Exception as e: ...` -/
def onException (span : Bool) : Except TaskExn Unit → TaskProgram I F O V Unit
  | .ok _ => return ()
  | .error .cancelled => .throw .cancelled
  | .error (.exception text) =>
      if (p.attempts : ℤ) < p.maxRetries then retry p span (.exception text)
      else fail p span (.exception text)

/-- The block after `finally`. -/
def conclude (span : Bool) : TaskProgram I F O V Unit := do
  setAttribute spanCall span
  let status ← ask (.readStatus p.taskId)
  onlyIf (status ≠ .retrying) (assign p .finished)
  ask .taskDone

/-- The statement under `try`. -/
def invoke (span : Bool) : TaskProgram I F O V Unit := do
  ask (.call p)
  let v ← awaited p.taskId
  succeed p span v

/-- The traced part of the loop. -/
def attempt (span : Bool) : TaskProgram I F O V Unit :=
  ((invoke p span).andThen (onException p span)).tryFinally (conclude p span)

/-- `result.status = "RUNNING"`, and the start of the first attempt. -/
def announce : TaskProgram I F O V Unit := do
  assign p (.status .running)
  assign p .started

/-- The body of the loop of `_worker`, once it got a payload. -/
def worker : TaskProgram I F O V Unit := do
  ask (.lookup p.taskId)
  onlyIf (p.attempts = 0 ∧ 0 < p.delay) (sleep p.delay)
  announce p
  taskSpan (attempt p)

/-- The block of `submit`. -/
def enqueue (span : Bool) : TaskProgram I F O V Unit := do
  ask (.create p.taskId)
  ask (.putNowait p)
  onlyIf span do
    setAttribute spanCall true
    onlyIf (0 < p.delay) (setAttribute spanCall true)
    onlyIf (0 < p.maxRetries) (setAttribute spanCall true)

/-- `submit`, with the identifier that it generated. -/
def submit : TaskProgram I F O V I := do
  taskSpan (enqueue p)
  return p.taskId

end AsyncioBackend

end Programs

end DjangoNova
