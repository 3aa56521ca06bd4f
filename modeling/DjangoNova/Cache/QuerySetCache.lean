import DjangoNova.Core.Tracing
import DjangoNova.Cache.State

/-!
# The methods of QuerySetCache

Each method is a program over the effects that other threads or the
environment can observe: the lock, the state, SQL, the backend, the
metadata server and the tracing provider. Logging has no effect on them
and is left out. The row lists are a parameter `V`, the compiled query
with its parameters and result shape a parameter `Sql`.
-/

namespace DjangoNova

/-- What the cache reads from a queryset that `_prepare_queryset` has
pinned to a database, with the outcome of `query_dependencies` on it. -/
structure PreparedQuery (Sql : Type) where
  model : ModelLabel
  db : Str
  sql : Sql
  dependencies : Except CacheError (Option (List ModelLabel × List Str))

/-- The tuple that `_query_digest` hashes. -/
structure KeyParts (Sql : Type) where
  fullName : Str
  sql : Sql
  prefetches : List Str
  generations : List (Scope × Str)

structure KeySnapshot where
  key : Str
  shortName : Str
  names : Finset Str
  generations : List (Scope × Str)

/-- What the source takes from outside: the capabilities of the backend,
`str.lower` and the two digests. -/
structure Deployment (Sql : Type) where
  generation : Bool
  batch : Bool
  readMany : Bool
  returnsDetached : Except CacheError Bool
  storesDetached : Except CacheError Bool
  lower : Str → Str
  databaseDigest : Str → Str
  queryDigest : KeyParts Sql → Str

/-- What a backend can return for a result key. -/
inductive Stored (V : Type) where
  | rows (v : V)
  | other
  deriving DecidableEq

inductive CacheEffect (Sql V : Type) where
  | acquire
  | release
  | readState
  | update (u : Update)
  | transactional (q : PreparedQuery Sql)
  | sql (q : PreparedQuery Sql)
  | copyRows (v : V)
  | backendGet (key : Str)
  | backendSet (key : Str) (v : V)
  | backendDelete (key : Str)
  | backendClear
  | generationWriter
  | newGeneration
  | tokenGet (scope : Scope)
  | tokenWrite (scope : Scope) (token : Str) (onlyIfAbsent : Bool)
  | keyOrder (keys : Finset Str)
  | span (c : SpanCall)

abbrev CacheEffect.Reply {Sql V : Type} : CacheEffect Sql V → Type
  | .acquire | .release | .update _ | .backendSet _ _ | .backendClear | .generationWriter => Unit
  | .readState => CacheState
  | .transactional _ | .backendDelete _ | .tokenWrite _ _ _ | .span _ => Bool
  | .sql _ | .copyRows _ => V
  | .backendGet _ => Option (Stored V)
  | .newGeneration => Str
  | .tokenGet _ => Option Raw
  | .keyOrder _ => List Str

abbrev CacheProgram (Sql V α : Type) : Type :=
  Program (CacheEffect Sql V) CacheEffect.Reply CacheError α

namespace QuerySetCache

open Program
open Tracing (onlyIf)

variable {Sql V α : Type}

def ask (e : CacheEffect Sql V) : CacheProgram Sql V e.Reply := call e

def update (u : Update) : CacheProgram Sql V Unit := ask (.update u)

def raise (x : CacheError) : CacheProgram Sql V α := throw x

/-- `with state.lock: body` -/
def withLock (body : CacheProgram Sql V α) : CacheProgram Sql V α :=
  (ask .acquire).bind fun _ ↦ body.tryFinally (ask .release)

def spanCall (c : SpanCall) : CacheProgram Sql V Bool := ask (.span c)

/-- `if span: span.set_attribute(...)` -/
def setAttribute (span : Bool) : CacheProgram Sql V Unit := Tracing.setAttribute spanCall span

/-- `with nova_span(...) as span: body`; what a method raises is an `Exception`. -/
def novaSpan (body : Bool → CacheProgram Sql V α) : CacheProgram Sql V α :=
  Tracing.novaSpan spanCall (fun _ ↦ true) body

section Generations

/-- `get_generation`: the remaining attempts of its loop. -/
def getGenerationLoop (scope : Scope) : ℕ → CacheProgram Sql V Str
  | 0 => raise .generationUnavailable
  | attempts + 1 => do
      match ← ask (.tokenGet scope) with
      | some raw => Program.done (validateGeneration raw)
      | none => do
          let token ← ask .newGeneration
          let _ ← ask (.tokenWrite scope token true)
          getGenerationLoop scope attempts

/-- Report every exception of `p` as a `GenerationUnavailableError`. -/
def orUnavailable (p : CacheProgram Sql V α) : CacheProgram Sql V α :=
  p.tryCatch fun _ ↦ raise .generationUnavailable

def getGeneration (scope : Scope) : CacheProgram Sql V Str :=
  orUnavailable do
    ask .generationWriter
    getGenerationLoop scope 3

def getEach : List Scope → CacheProgram Sql V (List (Scope × Str))
  | [] => return []
  | scope :: rest => do
      let token ← getGeneration scope
      let tokens ← getEach rest
      return (scope, token) :: tokens

/-- The batch read of the client, one atomic read per key. -/
def readRaw : List Scope → CacheProgram Sql V (List (Scope × Option Raw))
  | [] => return []
  | scope :: rest => do
      let raw ← ask (.tokenGet scope)
      let raws ← readRaw rest
      return (scope, raw) :: raws

/-- Validate the tokens that are present. -/
def validatePresent : List (Scope × Option Raw) → Except CacheError (List (Scope × Str))
  | [] => .ok []
  | (_, none) :: rest => validatePresent rest
  | (scope, some raw) :: rest => do
      let token ← validateGeneration raw
      let tokens ← validatePresent rest
      return (scope, token) :: tokens

/-- `get_generations` of a backend whose client reads many keys at once
(`readMany`), or one key at a time. -/
def getGenerations (readMany : Bool) (scopes : List Scope) :
    CacheProgram Sql V (List (Scope × Str)) :=
  match scopes.eraseDups with
  | [] => return []
  | scopes =>
      orUnavailable do
        ask .generationWriter
        if readMany then
          let raws ← readRaw scopes
          let present ← (Program.done (validatePresent raws) : CacheProgram Sql V _)
          let missing ← getEach ((raws.filter fun r ↦ r.2.isNone).map Prod.fst)
          return present ++ missing
        else
          getEach scopes

/-- `rotate_generation`. -/
def rotateGeneration (scope : Scope) : CacheProgram Sql V Str := do
  let token ← ask .newGeneration
  orUnavailable do
    ask .generationWriter
    if ← ask (.tokenWrite scope token false) then
      return token
    else
      raise .generationUnavailable

/-- `validate_generation(backend.rotate_generation(scope))`. -/
def rotateValidated (scope : Scope) : CacheProgram Sql V Unit := do
  let token ← rotateGeneration scope
  let _ ← (Program.done (validateGeneration (.str token)) : CacheProgram Sql V Str)
  return ()

/-- Rotate the requested scopes that an earlier failure left pending. -/
def rotatePending : List Scope → CacheProgram Sql V Unit
  | [] => return ()
  | scope :: rest => do
      let state ← ask .readState
      onlyIf (scope ∈ state.pendingGenerations) do
        rotateValidated scope
        update (.discardPending scope)
      rotatePending rest

/-- `tuple((scope, validate_generation(tokens[scope])) for scope in scopes)`. -/
def selectTokens (tokens : List (Scope × Str)) :
    List Scope → Except CacheError (List (Scope × Str))
  | [] => .ok []
  | scope :: rest =>
      match tokens.lookup scope with
      | none => .error .generationUnavailable
      | some token => do
          let token ← validateGeneration (.str token)
          let selected ← selectTokens tokens rest
          return (scope, token) :: selected

variable (d : Deployment Sql)

/-- One batch read where the backend has it, else one read for each scope. -/
def readTokens (scopes : List Scope) : CacheProgram Sql V (List (Scope × Str)) :=
  if d.batch then getGenerations d.readMany scopes else getEach scopes

/-- `_read_generations`. -/
def readGenerations (scopes : List Scope) : CacheProgram Sql V (List (Scope × Str)) :=
  if d.generation then
    withLock <| orUnavailable do
      rotatePending scopes
      let tokens ← readTokens d scopes
      Program.done (selectTokens tokens scopes)
  else
    return []

/-- `_generations_match`. -/
def generationsMatch (snapshot : KeySnapshot) : CacheProgram Sql V Bool :=
  if snapshot.generations = [] then
    return true
  else
    (readGenerations d (snapshot.generations.map Prod.fst)).andThen fun
      | .ok current => return (current = snapshot.generations)
      | .error .generationUnavailable => return false
      | .error x => raise x

end Generations

variable (d : Deployment Sql)

section Keys

def dependencyModels (q : PreparedQuery Sql) (models : List ModelLabel) : List ModelLabel :=
  q.model :: models

/-- The scopes of a query over its model and its dependencies. -/
def scopesOf (q : PreparedQuery Sql) (models : List ModelLabel) : List Scope :=
  Scope.sorted ((dependencyModels q models).flatMap fun m ↦
    [generationScope (m.shortName d.lower) ['*'], generationScope (m.shortName d.lower) q.db])

def namesOf (q : PreparedQuery Sql) (models : List ModelLabel) : Finset Str :=
  (dependencyModels q models).toFinset.biUnion (ModelLabel.names d.lower)

def makeKey (db : Str) (parts : KeyParts Sql) : Str :=
  databaseTag d.databaseDigest db ++ d.queryDigest parts

/-- `_key_snapshot`. -/
def keySnapshot (q : PreparedQuery Sql) : CacheProgram Sql V KeySnapshot := do
  let dependencies ← (Program.done q.dependencies : CacheProgram Sql V _)
  let (models, prefetches) := dependencies.getD ([], [])
  let generations ← readGenerations d (scopesOf d q models)
  let parts : KeyParts Sql := ⟨q.model.fullName d.lower, q.sql, prefetches, generations⟩
  return ⟨makeKey d q.db parts, q.model.shortName d.lower, namesOf d q models, generations⟩

end Keys

section Backend

/-- The cached value as rows that the caller may own. -/
def detach : Stored V → CacheProgram Sql V (Option V)
  | .other => raise .typeError
  | .rows v => do
      if ← (Program.done d.returnsDetached : CacheProgram Sql V Bool) then
        return some v
      else
        let copy ← ask (.copyRows v)
        return some copy

/-- `_backend_get`. -/
def backendGet (snapshot : KeySnapshot) : CacheProgram Sql V (Option V) :=
  (ask (.backendGet snapshot.key)).andThen fun
    | .error x => if snapshot.generations = [] then raise x else return none
    | .ok none => return none
    | .ok (some stored) => (detach d stored).tryCatch fun _ ↦ pure none

/-- The list that `_backend_set` publishes; none when copying failed. -/
def detachedResult (result : V) : CacheProgram Sql V (Option V) :=
  match d.storesDetached with
  | .ok true => return some result
  | _ => (ask (.copyRows result)).andThen fun
      | .ok copy => return some copy
      | .error _ => return none

/-- `_backend_set`. -/
def backendSet (snapshot : KeySnapshot) (result : V) : CacheProgram Sql V Bool := do
  match ← detachedResult d result with
  | none => return false
  | some detached =>
      (ask (.backendSet snapshot.key detached)).andThen fun
        | .ok _ => return true
        | .error x => if snapshot.generations = [] then raise x else return false

def registerKey (key : Str) (names : Finset Str) : CacheProgram Sql V Unit :=
  withLock (update (.register key names))

def unregisterKey (key : Str) : CacheProgram Sql V Unit :=
  withLock (update (.unregister key))

end Backend

/-- The guarded read that `get` and `get_or_set` share, under the lock. -/
def lookup (snapshot : KeySnapshot) : CacheProgram Sql V (Option V) := do
  let state ← ask .readState
  if !state.clearFailed && snapshot.key ∉ state.invalidatedKeys then
    match ← backendGet d snapshot with
    | none => return none
    | some rows =>
        if ← generationsMatch d snapshot then
          registerKey snapshot.key snapshot.names
          return some rows
        else
          return none
  else
    return none

def runSql (q : PreparedQuery Sql) : CacheProgram Sql V V := ask (.sql q)

/-- `get`. -/
def get (q : PreparedQuery Sql) : CacheProgram Sql V (Option V) := do
  if ← ask (.transactional q) then
    return none
  else
    (keySnapshot d q).andThen fun
      | .error .uncacheableQuery => return none
      | .error .generationUnavailable => return none
      | .error x => raise x
      | .ok snapshot => novaSpan fun span ↦ do
          let cached ← withLock (lookup d snapshot)
          setAttribute span
          return cached

/-- The publication of a fill, under the lock. -/
def publish (q : PreparedQuery Sql) (snapshot : KeySnapshot) (generation : ℕ) (result : V) :
    CacheProgram Sql V Unit := do
  let state ← ask .readState
  onlyIf (generation = state.generation && !state.clearFailed) do
    let transactional ← ask (.transactional q)
    onlyIf (transactional = false) do
      let matching ← generationsMatch d snapshot
      onlyIf matching do
        let stored ← backendSet d snapshot result
        onlyIf stored do
          registerKey snapshot.key snapshot.names
          update (.unblock snapshot.key)

/-- The guarded read of `get_or_set`, with the generation that fences its fill. -/
def lookupFenced (snapshot : KeySnapshot) : CacheProgram Sql V (Option V × ℕ) := do
  let cached ← lookup d snapshot
  let state ← ask .readState
  return (cached, state.generation)

/-- The miss path of `get_or_set`. -/
def fill (q : PreparedQuery Sql) (snapshot : KeySnapshot) (generation : ℕ) :
    CacheProgram Sql V V :=
  novaSpan fun span ↦ do
    let result ← runSql q
    withLock (publish d q snapshot generation result)
    setAttribute span
    return result

/-- `get_or_set`. -/
def getOrSet (q : PreparedQuery Sql) : CacheProgram Sql V V := do
  if ← ask (.transactional q) then
    runSql q
  else
    (keySnapshot d q).andThen fun
      | .error .uncacheableQuery => runSql q
      | .error .generationUnavailable => runSql q
      | .error x => raise x
      | .ok snapshot => do
          let (cached, generation) ← novaSpan fun span ↦ do
            let found ← withLock (lookupFenced d snapshot)
            setAttribute span
            return found
          match cached with
          | some rows => return rows
          | none => fill d q snapshot generation

/-- The deletion loop of `invalidate_model` over the keys in their iteration order. -/
def deleteKeys : List Str → ℕ → CacheProgram Sql V ℕ
  | [], deleted => return deleted
  | key :: rest, deleted =>
      (ask (.backendDelete key)).andThen fun
        | .error _ => deleteKeys rest deleted
        | .ok found => do
            unregisterKey key
            deleteKeys rest (if found then deleted + 1 else deleted)

/-- The rotation inside `invalidate_model`; a failure leaves the scope pending. -/
def rotateForWrite (scope : Scope) : CacheProgram Sql V Unit := do
  update (.addPending scope)
  (rotateValidated scope).andThen fun
    | .ok _ => update (.discardPending scope)
    | .error _ => return ()

/-- `invalidate_model` under the lock: the number of deleted entries, `none`
when the index lists no key and the span already has its attribute. -/
def invalidateLocked (span : Bool) (modelName : Str) (db : Str) :
    CacheProgram Sql V (Option ℕ) := do
  update .bumpGeneration
  onlyIf d.generation (rotateForWrite (generationScope (shortModelName d.lower modelName) db))
  let state ← ask .readState
  let keys := state.invalidationKeys d.databaseDigest (normalizeModelNames d.lower modelName) db
  if keys = ∅ then
    setAttribute span
    return none
  else
    update (.block keys)
    let order ← ask (.keyOrder keys)
    let deleted ← deleteKeys order 0
    return some deleted

/-- `invalidate_model`. -/
def invalidateModel (modelName : Str) (db : Str) : CacheProgram Sql V ℕ :=
  novaSpan fun span ↦ do
    if normalizeModelNames d.lower modelName = ∅ then
      setAttribute span
      return 0
    else
      match ← withLock (invalidateLocked d span modelName db) with
      | none => return 0
      | some deleted => do
          setAttribute span
          return deleted

/-- `clear` under the lock; a failure stops all reads until a later success. -/
def clearLocked : CacheProgram Sql V Unit := do
  update .bumpGeneration
  (ask .backendClear).andThen fun
    | .error _ => update .failClear
    | .ok _ => update .reset

/-- `clear`. -/
def clear : CacheProgram Sql V Unit := withLock clearLocked

end QuerySetCache

/-- The public calls, with the arguments that they receive. -/
inductive CacheCall (Sql : Type) where
  | get (q : PreparedQuery Sql)
  | getOrSet (q : PreparedQuery Sql)
  | invalidateModel (modelName db : Str)
  | clear

inductive CacheResult (V : Type) where
  | rows (v : V)
  | miss
  | count (n : ℕ)
  | unit

/-- The program of a public call. -/
def CacheCall.program {Sql V : Type} (d : Deployment Sql) :
    CacheCall Sql → CacheProgram Sql V (CacheResult V)
  | .get q => do
      match ← QuerySetCache.get d q with
      | some rows => return .rows rows
      | none => return .miss
  | .getOrSet q => do
      let rows ← QuerySetCache.getOrSet d q
      return .rows rows
  | .invalidateModel modelName db => do
      let deleted ← QuerySetCache.invalidateModel d modelName db
      return .count deleted
  | .clear => do
      QuerySetCache.clear
      return .unit

end DjangoNova
