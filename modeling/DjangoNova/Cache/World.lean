import DjangoNova.Concurrency.Pool
import DjangoNova.Cache.QuerySetCache

/-!
# Processes around one server

The world in which cache methods run: every process has a cache state and
a reentrant lock, and all of them share a server that stores result
entries and generation tokens. A choice decides the content that SQL
reads, the faults of an effect (raised before or after it was applied),
and the evictions of the environment.

The log lists the performed effects. Its length is the clock: an effect
performed now gets the stamp `w.now`, and rows carry the stamp of the SQL
that read them. The fields marked as ghosts are never read by an effect.
-/

namespace DjangoNova

/-- A list of rows, with the stamp of the SQL that read it. -/
structure Rows (D : Type) where
  content : D
  readAt : ℕ
  deriving DecidableEq

structure CacheEvent (T Sql D : Type) where
  thread : T
  effect : CacheEffect Sql (Rows D)
  reply : Except CacheError effect.Reply

structure CacheWorld (T P Sql D : Type) where
  states : P → CacheState
  locks : P → Option (T × ℕ)
  entries : Str → Option (Stored (Rows D))
  tokens : Scope → Option Raw
  log : List (CacheEvent T Sql D)
  /-- Ghost: the thread that generated a token. -/
  reserved : Str → Option T
  /-- Ghost: the stamp of the write that installed a token. -/
  installedAt : Str → Option ℕ
  /-- Ghost: the last stamp at which a token of the scope was installed. -/
  latest : Scope → ℕ
  /-- Ghost: the last stamp at which a process marked the scope as
  pending or failed to rotate it. -/
  floor : P → Scope → ℕ

inductive CacheChoice (D : Type) where
  | ok
  | fail (x : CacheError) (applied : Bool)
  | refuse (applied : Bool)
  | flag (b : Bool)
  | content (c : D)
  | token (s : Str)
  | order (keys : List Str)
  | evictEntry (key : Str)
  | evictToken (scope : Scope)

namespace CacheWorld

variable {T P Sql D : Type}

def initial : CacheWorld T P Sql D where
  states := fun _ ↦ CacheState.initial
  locks := fun _ ↦ none
  entries := fun _ ↦ none
  tokens := fun _ ↦ none
  log := []
  reserved := fun _ ↦ none
  installedAt := fun _ ↦ none
  latest := fun _ ↦ 0
  floor := fun _ _ ↦ 0

/-- The stamp of the next effect. -/
def now (w : CacheWorld T P Sql D) : ℕ := w.log.length + 1

def evictEntry (w : CacheWorld T P Sql D) (key : Str) : CacheWorld T P Sql D :=
  { w with entries := Function.update w.entries key none }

def evictToken (w : CacheWorld T P Sql D) (scope : Scope) : CacheWorld T P Sql D :=
  { w with tokens := Function.update w.tokens scope none }

def putEntry (w : CacheWorld T P Sql D) (key : Str) (v : Rows D) : CacheWorld T P Sql D :=
  { w with entries := Function.update w.entries key (some (.rows v)) }

def clearServer (w : CacheWorld T P Sql D) : CacheWorld T P Sql D :=
  { w with entries := fun _ ↦ none, tokens := fun _ ↦ none }

/-- Store a token now. -/
def install (w : CacheWorld T P Sql D) (scope : Scope) (token : Str) : CacheWorld T P Sql D :=
  { w with
    tokens := Function.update w.tokens scope (some (.bytes (encodeAscii token)))
    installedAt := Function.update w.installedAt token (some w.now)
    latest := Function.update w.latest scope w.now }

/-- The server side of a metadata write: create-if-absent or overwrite. -/
def writeToken (w : CacheWorld T P Sql D) (scope : Scope) (token : Str) (onlyIfAbsent : Bool) :
    CacheWorld T P Sql D :=
  if onlyIfAbsent && (w.tokens scope).isSome then w else w.install scope token

def applyIf (applied : Bool) (f : CacheWorld T P Sql D → CacheWorld T P Sql D)
    (w : CacheWorld T P Sql D) : CacheWorld T P Sql D :=
  if applied then f w else w

variable [DecidableEq P]

def setState (w : CacheWorld T P Sql D) (p : P) (s : CacheState) : CacheWorld T P Sql D :=
  { w with states := Function.update w.states p s }

def setLock (w : CacheWorld T P Sql D) (p : P) (l : Option (T × ℕ)) : CacheWorld T P Sql D :=
  { w with locks := Function.update w.locks p l }

/-- Ghost: raise the floor of the process for a scope to the present. -/
def raiseFloor (w : CacheWorld T P Sql D) (p : P) (scope : Scope) : CacheWorld T P Sql D :=
  { w with floor := Function.update w.floor p (Function.update (w.floor p) scope w.now) }

def applyUpdate (w : CacheWorld T P Sql D) (p : P) (u : Update) : CacheWorld T P Sql D :=
  let w' := w.setState p (u.apply (w.states p))
  match u with
  | .addPending scope => w'.raiseFloor p scope
  | _ => w'

variable [DecidableEq T] (proc : T → P)

/-- One effect of thread `t`, apart from its entry in the log. -/
def act (t : T) (w : CacheWorld T P Sql D) :
    (e : CacheEffect Sql (Rows D)) → CacheChoice D →
      Option (Except CacheError e.Reply × CacheWorld T P Sql D)
  | .acquire, .ok =>
      match w.locks (proc t) with
      | none => some (.ok (), w.setLock (proc t) (some (t, 1)))
      | some (u, n) =>
          if u = t then some (.ok (), w.setLock (proc t) (some (t, n + 1))) else none
  | .release, .ok =>
      match w.locks (proc t) with
      | some (u, n) =>
          if u = t then
            some (.ok (), w.setLock (proc t) (if n ≤ 1 then none else some (t, n - 1)))
          else none
      | none => none
  | .readState, .ok => some (.ok (w.states (proc t)), w)
  | .update u, .ok => some (.ok (), w.applyUpdate (proc t) u)
  | .transactional _, .flag b => some (.ok b, w)
  | .transactional _, .fail x _ => some (.error x, w)
  | .sql _, .content c => some (.ok ⟨c, w.now⟩, w)
  | .sql _, .fail x _ => some (.error x, w)
  | .copyRows v, .ok => some (.ok v, w)
  | .copyRows _, .fail x _ => some (.error x, w)
  | .backendGet key, .ok => some (.ok (w.entries key), w)
  | .backendGet _, .fail x _ => some (.error x, w)
  | .backendSet key v, .ok => some (.ok (), w.putEntry key v)
  | .backendSet key v, .fail x applied => some (.error x, w.applyIf applied (putEntry · key v))
  | .backendDelete key, .ok => some (.ok (w.entries key).isSome, w.evictEntry key)
  | .backendDelete key, .fail x applied => some (.error x, w.applyIf applied (evictEntry · key))
  | .backendClear, .ok => some (.ok (), w.clearServer)
  | .backendClear, .fail x applied => some (.error x, w.applyIf applied clearServer)
  | .generationWriter, .ok => some (.ok (), w)
  | .generationWriter, .fail x _ => some (.error x, w)
  | .newGeneration, .token s =>
      if IsGeneration s ∧ w.reserved s = none then
        some (.ok s, { w with reserved := Function.update w.reserved s (some t) })
      else none
  | .tokenGet scope, .ok => some (.ok (w.tokens scope), w)
  | .tokenGet _, .fail x _ => some (.error x, w)
  | .tokenWrite scope token onlyIfAbsent, .ok =>
      some (.ok !(onlyIfAbsent && (w.tokens scope).isSome), w.writeToken scope token onlyIfAbsent)
  | .tokenWrite scope token onlyIfAbsent, .fail x applied =>
      let w' := w.applyIf applied (writeToken · scope token onlyIfAbsent)
      some (.error x, if onlyIfAbsent then w' else w'.raiseFloor (proc t) scope)
  | .tokenWrite scope token false, .refuse applied =>
      let w' := w.applyIf applied (writeToken · scope token false)
      some (.ok false, w'.raiseFloor (proc t) scope)
  | .keyOrder keys, .order l => if l.Nodup ∧ l.toFinset = keys then some (.ok l, w) else none
  | .span _, .flag b => some (.ok b, w)
  | .span _, .fail x _ => some (.error x, w)
  | _, _ => none

def record (t : T) (e : CacheEffect Sql (Rows D)) (r : Except CacheError e.Reply)
    (w : CacheWorld T P Sql D) : CacheWorld T P Sql D :=
  { w with log := w.log ++ [⟨t, e, r⟩] }

def machine : Machine T (CacheEffect Sql (Rows D)) CacheEffect.Reply CacheError
    (CacheWorld T P Sql D) (CacheChoice D) where
  perform := fun t e c w ↦ (w.act proc t e c).map fun q ↦ (q.1, q.2.record t e q.1)
  environment := fun c w ↦
    match c with
    | .evictEntry key => some (w.evictEntry key)
    | .evictToken scope => some (w.evictToken scope)
    | _ => none

end CacheWorld

abbrev CachePool (T P Sql D : Type) : Type :=
  Pool T (CacheEffect Sql (Rows D)) CacheEffect.Reply CacheError (CacheResult (Rows D))
    (CacheWorld T P Sql D)

section System

variable {T P Sql D : Type} [DecidableEq P] [DecidableEq T]

/-- One turn of the threads `T`, each a call made in the process `proc t`. -/
def cacheStep (d : Deployment Sql) (proc : T → P) (call : T → CacheCall Sql) :
    CachePool T P Sql D → Turn T (CacheChoice D) → Option (CachePool T P Sql D) :=
  Pool.step (CacheWorld.machine proc) fun t ↦ (call t).program d

/-- The pools that some interleaving reaches from an empty server. -/
def CacheReaches (d : Deployment Sql) (proc : T → P) (call : T → CacheCall Sql) :
    CachePool T P Sql D → Prop :=
  Transition.Reaches (cacheStep d proc call) Transition.Always (Pool.start CacheWorld.initial)

end System

end DjangoNova
