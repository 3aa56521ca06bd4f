import DjangoNova.Numbers.Binary64
import DjangoNova.Redis.Server

/-!
# The operations of RedisCacheBackend

Each method is a program of Redis commands. `V` is the type of cached
values; the serializer may raise. The loop of `clear` is cut off after a
number of pages: every run of the loop is a run for some such number.
-/

namespace DjangoNova

variable {V α : Type}

structure RedisCacheBackend (V : Type) where
  keyPrefix : Str
  dumps : V → Except RedisError Str
  loads : Str → Except RedisError V

namespace RedisCacheBackend

variable (b : RedisCacheBackend V)

/-- `_make_key` -/
def makeKey (key : Str) : Str :=
  if b.keyPrefix = [] then key else b.keyPrefix ++ ':' :: key

/-- `_ttl_ms`, of the float with the seconds of a time to live. The product is
a float as well, and `int` raises an `OverflowError` where it is infinite. -/
def ttlMs : Option ℚ → Except RedisError (Option ℤ)
  | none => .ok none
  | some seconds =>
      if seconds ≤ 0 then .ok (some 0)
      else
        match Binary64.nearest (seconds * 1000) with
        | none => .error .other
        | some product => .ok (some (max 1 ⌊product⌋))

/-- `_handle_redis_error` around an operation: errors of the client become
cache errors. -/
def handled (p : RedisProgram α) : RedisProgram α :=
  p.tryCatch fun
    | .response | .connection => .throw .novaCache
    | x => .throw x

def get (key : Str) : RedisProgram (Option V) :=
  handled do
    match ← redis (.get (b.makeKey key)) with
    | none => return none
    | some raw => do
        let value ← (Program.done (b.loads raw) : RedisProgram V)
        return some value

def set (key : Str) (value : V) (ttl : Option ℚ) : RedisProgram Unit :=
  handled do
    let ms ← (Program.done (ttlMs ttl) : RedisProgram (Option ℤ))
    if ms.any (· ≤ 0) then
      let _ ← redis (.delete [b.makeKey key])
      return ()
    else
      let payload ← (Program.done (b.dumps value) : RedisProgram Str)
      let _ ← redis (.set (b.makeKey key) payload false (ms.map (max · 1)))
      return ()

def delete (key : Str) : RedisProgram Bool :=
  handled do
    let removed ← redis (.delete [b.makeKey key])
    return removed ≠ 0

/-- The pattern of `clear`. -/
def pattern : Str := Glob.escape b.keyPrefix ++ [':', '*']

def deleteAll (keys : List Str) : RedisProgram Unit :=
  if keys = [] then return ()
  else do
    let _ ← redis (.delete keys)
    return ()

/-- The loop of `clear` over at most so many pages. -/
def clearLoop : ℕ → ℕ → RedisProgram Unit
  | 0, _ => .throw .other
  | pages + 1, cursor => do
      let page ← redis (.scan cursor b.pattern)
      deleteAll page.2
      if page.1 = 0 then return () else clearLoop pages page.1

def clear (pages : ℕ) : RedisProgram Unit :=
  handled (if b.keyPrefix = [] then .throw .novaCache else b.clearLoop pages 0)

/-- Deserialize the values of `get_many`. -/
def loadAll : List (Str × Option Str) → Except RedisError (List (Str × Option V))
  | [] => .ok []
  | (key, none) :: rest => do
      let values ← loadAll rest
      return (key, none) :: values
  | (key, some raw) :: rest => do
      let value ← b.loads raw
      let values ← loadAll rest
      return (key, some value) :: values

def getMany (keys : List Str) : RedisProgram (List (Str × Option V)) :=
  handled <|
    if keys = [] then return []
    else do
      let raws ← redis (.mget (keys.map b.makeKey))
      Program.done (b.loadAll (keys.zip raws))

/-- A pipeline executes all its commands and then raises the first error. -/
def pipeline (error : Option RedisError) : List RedisCommand → RedisProgram Unit
  | [] => Program.done (error.elim (.ok ()) .error)
  | c :: rest => (redis c).andThen fun
      | .ok _ => pipeline error rest
      | .error x => pipeline (some (error.getD x)) rest

def dumpAll (px : Option ℤ) : List (Str × V) → Except RedisError (List RedisCommand)
  | [] => .ok []
  | (key, value) :: rest => do
      let payload ← b.dumps value
      let commands ← dumpAll px rest
      return .set (b.makeKey key) payload false px :: commands

def setMany (values : List (Str × V)) (ttl : Option ℚ) : RedisProgram Unit :=
  handled <|
    if values = [] then return ()
    else do
      let ms ← (Program.done (ttlMs ttl) : RedisProgram (Option ℤ))
      if ms.any (· ≤ 0) then
        let _ ← redis (.delete (values.map fun entry ↦ b.makeKey entry.1))
        return ()
      else
        let commands ← (Program.done (b.dumpAll (ms.map (max · 1)) values) : RedisProgram _)
        pipeline none commands

def deleteMany (keys : List Str) : RedisProgram ℕ :=
  handled <|
    if keys = [] then return 0 else redis (.delete (keys.map b.makeKey))

end RedisCacheBackend

/-- The calls of a cache backend. -/
inductive BackendCall (V : Type) where
  | get (key : Str)
  | set (key : Str) (value : V) (ttl : Option ℚ)
  | delete (key : Str)
  | clear (pages : ℕ)
  | getMany (keys : List Str)
  | setMany (values : List (Str × V)) (ttl : Option ℚ)
  | deleteMany (keys : List Str)

inductive BackendResult (V : Type) where
  | value (v : Option V)
  | done
  | deleted (b : Bool)
  | values (vs : List (Str × Option V))
  | count (n : ℕ)

/-- The program of a call. -/
def BackendCall.program (b : RedisCacheBackend V) : BackendCall V → RedisProgram (BackendResult V)
  | .get key => do
      let v ← b.get key
      return .value v
  | .set key value ttl => do
      b.set key value ttl
      return .done
  | .delete key => do
      let deleted ← b.delete key
      return .deleted deleted
  | .clear pages => do
      b.clear pages
      return .done
  | .getMany keys => do
      let vs ← b.getMany keys
      return .values vs
  | .setMany values ttl => do
      b.setMany values ttl
      return .done
  | .deleteMany keys => do
      let n ← b.deleteMany keys
      return .count n

end DjangoNova
