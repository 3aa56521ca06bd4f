import DjangoNova.Cache.QuerySetCache
import DjangoNova.Concurrency.Trace
import DjangoNova.Fallible.Except

/-!
# Reading shared generations

`get_generation` and `get_generations` of the Redis and the Memcached
backend, over a server whose metadata keys any other process may write and
drop at any time. The two backends differ in their keys and clients only.
-/

namespace DjangoNova

/-- A stored value; Redis also has values that are not strings. -/
inductive StoredToken where
  | raw (r : Raw)
  | nonString
  deriving DecidableEq

abbrev TokenStore : Type := Str → Option StoredToken

/-- The batch read is one effect for each of its keys, and one for the
shape of the whole response. -/
inductive TokenEffect where
  | writer
  | get (scope : Scope)
  | batchGet (scope : Scope)
  | wellFormed
  | newGeneration
  | write (scope : Scope) (token : Str) (onlyIfAbsent : Bool)

abbrev TokenEffect.Reply : TokenEffect → Type
  | .writer => Unit
  | .get _ | .batchGet _ => Option Raw
  | .wellFormed | .write _ _ _ => Bool
  | .newGeneration => Str

abbrev TokenProgram (α : Type) : Type := Program TokenEffect TokenEffect.Reply CacheError α

namespace GenerationBackend

open Program

variable {α : Type}

def ask (e : TokenEffect) : TokenProgram e.Reply := call e

/-- `except Exception`, with a `GenerationUnavailableError` in any case. -/
def orUnavailable (p : TokenProgram α) : TokenProgram α :=
  p.tryCatch fun _ ↦ throw .generationUnavailable

/-- The remaining attempts of the loop. -/
def getGenerationLoop (scope : Scope) : ℕ → TokenProgram Str
  | 0 => throw .generationUnavailable
  | attempts + 1 => do
      match ← ask (.get scope) with
      | some raw => Program.done (validateGeneration raw)
      | none => do
          let token ← ask .newGeneration
          let _ ← ask (.write scope token true)
          getGenerationLoop scope attempts

/-- `get_generation`. -/
def getGeneration (scope : Scope) : TokenProgram Str :=
  orUnavailable do
    ask .writer
    getGenerationLoop scope 3

def getEach : List Scope → TokenProgram (List (Scope × Str))
  | [] => return []
  | scope :: rest => do
      let token ← getGeneration scope
      let tokens ← getEach rest
      return (scope, token) :: tokens

def readBatch : List Scope → TokenProgram (List (Scope × Option Raw))
  | [] => return []
  | scope :: rest => do
      let raw ← ask (.batchGet scope)
      let raws ← readBatch rest
      return (scope, raw) :: raws

/-- The batch read, the validation of what is present, and the reads of
what is missing. -/
def batchTokens (scopes : List Scope) : TokenProgram (List (Scope × Str)) := do
  let raws ← readBatch scopes
  if ← ask .wellFormed then
    let present ← (Program.done (QuerySetCache.validatePresent raws) : TokenProgram _)
    let missing ← getEach ((raws.filter fun r ↦ r.2.isNone).map Prod.fst)
    return present ++ missing
  else
    throw .generationUnavailable

/-- `get_generations`; `readMany` tells whether the client has `mget` or
`get_many`. -/
def getGenerations (readMany : Bool) (scopes : List Scope) : TokenProgram (List (Scope × Str)) :=
  match scopes.eraseDups with
  | [] => return []
  | scopes =>
      orUnavailable do
        ask .writer
        if readMany then batchTokens scopes else getEach scopes

section Connection

variable {Sql V : Type}

/-- What the cache methods see of a metadata effect. -/
def cacheEffect : (e : TokenEffect) → CacheProgram Sql V e.Reply
  | .writer => QuerySetCache.ask .generationWriter
  | .get scope | .batchGet scope => QuerySetCache.ask (.tokenGet scope)
  | .wellFormed => return true
  | .newGeneration => QuerySetCache.ask .newGeneration
  | .write scope token onlyIfAbsent => QuerySetCache.ask (.tokenWrite scope token onlyIfAbsent)

theorem interpret_orUnavailable (p : TokenProgram α) :
    (orUnavailable p).interpret cacheEffect =
      (QuerySetCache.orUnavailable (p.interpret cacheEffect) : CacheProgram Sql V α) := by
  refine (interpret_andThen p _).trans (congrArg _ (funext fun v ↦ ?_))
  cases v <;> rfl

theorem interpret_getGenerationLoop (scope : Scope) (attempts : ℕ) :
    (getGenerationLoop scope attempts).interpret cacheEffect =
      (QuerySetCache.getGenerationLoop scope attempts : CacheProgram Sql V Str) := by
  induction attempts with
  | zero => rfl
  | succ attempts ih =>
      refine (interpret_bind _ _).trans (congrArg _ (funext fun raw ↦ ?_))
      cases raw with
      | some raw => rfl
      | none =>
          refine (interpret_bind _ _).trans (congrArg _ (funext fun token ↦ ?_))
          exact (interpret_bind _ _).trans (congrArg _ (funext fun _ ↦ ih))

theorem interpret_getGeneration (scope : Scope) :
    (getGeneration scope).interpret cacheEffect =
      (QuerySetCache.getGeneration scope : CacheProgram Sql V Str) := by
  refine (interpret_orUnavailable _).trans (congrArg _ ?_)
  refine (interpret_bind _ _).trans (congrArg _ (funext fun _ ↦ ?_))
  exact interpret_getGenerationLoop scope 3

theorem interpret_getEach (scopes : List Scope) :
    (getEach scopes).interpret cacheEffect =
      (QuerySetCache.getEach scopes : CacheProgram Sql V (List (Scope × Str))) := by
  induction scopes with
  | nil => rfl
  | cons scope rest ih =>
      have htail : ∀ token : Str, (do
          let tokens ← getEach rest
          return (scope, token) :: tokens : TokenProgram (List (Scope × Str))).interpret
            cacheEffect = (do
          let tokens ← QuerySetCache.getEach rest
          return (scope, token) :: tokens : CacheProgram Sql V (List (Scope × Str))) := by
        intro token
        rw [interpret_bind, ih]
        rfl
      refine (interpret_bind _ _).trans ?_
      rw [interpret_getGeneration]
      exact congrArg _ (funext htail)

theorem interpret_readBatch (scopes : List Scope) :
    (readBatch scopes).interpret cacheEffect =
      (QuerySetCache.readRaw scopes : CacheProgram Sql V (List (Scope × Option Raw))) := by
  induction scopes with
  | nil => rfl
  | cons scope rest ih =>
      refine (interpret_bind _ _).trans (congrArg _ (funext fun raw ↦ ?_))
      rw [interpret_bind, ih]
      rfl

/-- The methods of the cache call this code, with a client that answers
every batch read with a well formed response. -/
theorem interpret_getGenerations (readMany : Bool) (scopes : List Scope) :
    (getGenerations readMany scopes).interpret cacheEffect =
      (QuerySetCache.getGenerations readMany scopes : CacheProgram Sql V (List (Scope × Str))) := by
  unfold getGenerations QuerySetCache.getGenerations
  generalize scopes.eraseDups = distinct
  cases distinct with
  | nil => rfl
  | cons scope rest =>
      refine (interpret_orUnavailable _).trans (congrArg _ ?_)
      refine (interpret_bind _ _).trans (congrArg _ (funext fun _ ↦ ?_))
      cases readMany with
      | false => exact interpret_getEach _
      | true =>
          refine (interpret_bind _ _).trans ?_
          rw [interpret_readBatch]
          refine congrArg _ (funext fun raws ↦ ?_)
          refine (interpret_bind (ask .wellFormed) _).trans ?_
          refine (interpret_bind (Program.done (QuerySetCache.validatePresent raws)) _).trans
            (congrArg _ (funext fun present ↦ ?_))
          rw [interpret_bind, interpret_getEach]
          rfl

end Connection

section Traces

variable {tr : List (Event TokenEffect TokenEffect.Reply CacheError)} {scope : Scope} {token : Str}
  {scopes : List Scope}

/-- The event read this value of the scope. -/
def Reads (ev : Event TokenEffect TokenEffect.Reply CacheError) (scope : Scope)
    (raw : Raw) : Prop :=
  ev = ⟨.get scope, .ok (some raw)⟩ ∨ ev = ⟨.batchGet scope, .ok (some raw)⟩

/-- Some event of the trace read this valid token of the scope. -/
def ReadToken (tr : List (Event TokenEffect TokenEffect.Reply CacheError)) (scope : Scope)
    (token : Str) : Prop :=
  ∃ ev ∈ tr, ∃ raw, Reads ev scope raw ∧ validateGeneration raw = .ok token

theorem ReadToken.mono {tr' : List (Event TokenEffect TokenEffect.Reply CacheError)}
    (h : ReadToken tr scope token) (htr : tr ⊆ tr') : ReadToken tr' scope token := by
  obtain ⟨ev, hev, hread⟩ := h
  exact ⟨ev, htr hev, hread⟩

theorem yields_orUnavailable {p : TokenProgram α} {v : Except CacheError α}
    (h : Yields (orUnavailable p) tr v) :
    (∃ a, Yields p tr (.ok a) ∧ v = .ok a) ∨
      (∃ x, Yields p tr (.error x)) ∧ v = .error .generationUnavailable := by
  obtain ⟨tr₁, tr₂, u, htr, hp, hv⟩ := yields_andThen_iff.mp h
  cases u with
  | ok a =>
      obtain ⟨hnil, hok⟩ := yields_done_iff.mp hv
      rw [htr, hnil, List.append_nil]
      exact .inl ⟨a, hp, hok.symm⟩
  | error x =>
      obtain ⟨hnil, hraised⟩ := yields_done_iff.mp hv
      rw [htr, hnil, List.append_nil]
      exact .inr ⟨⟨x, hp⟩, hraised.symm⟩

theorem read_getGenerationLoop {attempts : ℕ}
    (h : Yields (getGenerationLoop scope attempts) tr (.ok token)) : ReadToken tr scope token := by
  induction attempts generalizing tr with
  | zero =>
      obtain ⟨-, hraised⟩ := yields_done_iff.mp h
      cases hraised
  | succ attempts ih =>
      rcases h.bind with ⟨tr₁, tr₂, raw, htr, hget, hrest⟩ | ⟨x, -, hraised⟩
      · have hread := hget.call
        cases raw with
        | some raw =>
            obtain ⟨-, hvalid⟩ := yields_done_iff.mp hrest
            refine ⟨_, ?_, raw, .inl rfl, hvalid⟩
            simp [htr, hread]
        | none =>
            rcases hrest.bind with ⟨tr₃, tr₄, fresh, htr₂, -, hwrite⟩ | ⟨x, -, hraised⟩
            · rcases hwrite.bind with ⟨tr₅, tr₆, stored, htr₄, -, hloop⟩ | ⟨x, -, hraised⟩
              · apply (ih hloop).mono
                rw [htr, htr₂, htr₄]
                intro ev hev
                simp [hev]
              · cases hraised
            · cases hraised
      · cases hraised

theorem read_getGeneration (h : Yields (getGeneration scope) tr (.ok token)) :
    ReadToken tr scope token := by
  rcases yields_orUnavailable h with ⟨a, hbody, hok⟩ | ⟨-, hraised⟩
  · cases hok
    rcases hbody.bind with ⟨tr₁, tr₂, u, htr, -, hloop⟩ | ⟨x, -, hraised⟩
    · apply (read_getGenerationLoop hloop).mono
      rw [htr]
      exact List.subset_append_right _ _
    · cases hraised
  · cases hraised

theorem read_getEach {result : List (Scope × Str)} (h : Yields (getEach scopes) tr (.ok result)) :
    result.map Prod.fst = scopes ∧ ∀ entry ∈ result, ReadToken tr entry.1 entry.2 := by
  induction scopes generalizing tr result with
  | nil =>
      obtain ⟨-, hok⟩ := yields_done_iff.mp h
      cases hok
      exact ⟨rfl, nofun⟩
  | cons scope rest ih =>
      rcases h.bind with ⟨tr₁, tr₂, token, htr, hget, hrest⟩ | ⟨x, -, hraised⟩
      · rcases hrest.bind with ⟨tr₃, tr₄, tokens, htr₂, heach, hend⟩ | ⟨x, -, hraised⟩
        · obtain ⟨hkeys, hread⟩ := ih heach
          obtain ⟨-, hok⟩ := yields_done_iff.mp hend
          cases hok
          constructor
          · rw [List.map_cons, hkeys]
          · intro entry hentry
            rcases List.mem_cons.mp hentry with hentry | hentry
            · rw [hentry]
              apply (read_getGeneration hget).mono
              rw [htr]
              exact List.subset_append_left _ _
            · apply (hread entry hentry).mono
              rw [htr, htr₂]
              intro ev hev
              simp [hev]
        · cases hraised
      · cases hraised

theorem read_readBatch {raws : List (Scope × Option Raw)}
    (h : Yields (readBatch scopes) tr (.ok raws)) :
    raws.map Prod.fst = scopes ∧
      ∀ scope raw, (scope, raw) ∈ raws ↔ ⟨.batchGet scope, .ok raw⟩ ∈ tr := by
  induction scopes generalizing tr raws with
  | nil =>
      obtain ⟨hnil, hok⟩ := yields_done_iff.mp h
      cases hok
      rw [hnil]
      exact ⟨rfl, fun _ _ ↦ ⟨nofun, nofun⟩⟩
  | cons scope rest ih =>
      rcases h.bind with ⟨tr₁, tr₂, raw, htr, hget, hrest⟩ | ⟨x, -, hraised⟩
      · rcases hrest.bind with ⟨tr₃, tr₄, raws', htr₂, hbatch, hend⟩ | ⟨x, -, hraised⟩
        · obtain ⟨hkeys, hread⟩ := ih hbatch
          obtain ⟨hnil, hok⟩ := yields_done_iff.mp hend
          cases hok
          constructor
          · rw [List.map_cons, hkeys]
          · intro scope' raw'
            rw [htr, htr₂, hnil, hget.call, List.append_nil, List.singleton_append, List.mem_cons,
              List.mem_cons, hread]
            apply or_congr _ (Iff.refl _)
            constructor
            · intro heq
              cases heq
              rfl
            · intro heq
              cases heq
              rfl
        · cases hraised
      · cases hraised

theorem validatePresent_ok {raws : List (Scope × Option Raw)} {present : List (Scope × Str)}
    (h : QuerySetCache.validatePresent raws = .ok present) :
    present.map Prod.fst = (raws.filter fun r ↦ r.2.isSome).map Prod.fst ∧
      (∀ entry ∈ present, ∃ raw, (entry.1, some raw) ∈ raws ∧
        validateGeneration raw = .ok entry.2) ∧
      ∀ scope raw, (scope, some raw) ∈ raws → ∃ token, validateGeneration raw = .ok token := by
  induction raws generalizing present with
  | nil =>
      cases h
      exact ⟨rfl, nofun, fun _ _ ↦ nofun⟩
  | cons head rest ih =>
      obtain ⟨scope, raw⟩ := head
      cases raw with
      | none =>
          obtain ⟨hkeys, hpresent, hvalid⟩ := ih h
          refine ⟨hkeys, fun entry hentry ↦ ?_, fun scope' raw' hmem ↦ ?_⟩
          · obtain ⟨raw, hraw, htoken⟩ := hpresent entry hentry
            exact ⟨raw, List.mem_cons_of_mem _ hraw, htoken⟩
          · rcases List.mem_cons.mp hmem with hmem | hmem
            · cases hmem
            · exact hvalid scope' raw' hmem
      | some raw =>
          obtain ⟨token, htoken, hrest⟩ := bind_eq_ok.mp h
          obtain ⟨tokens, htokens, hok⟩ := bind_eq_ok.mp hrest
          cases hok
          obtain ⟨hkeys, hpresent, hvalid⟩ := ih htokens
          refine ⟨?_, fun entry hentry ↦ ?_, fun scope' raw' hmem ↦ ?_⟩
          · simp [hkeys]
          · rcases List.mem_cons.mp hentry with hentry | hentry
            · rw [hentry]
              exact ⟨raw, List.mem_cons_self, htoken⟩
            · obtain ⟨raw', hraw, htoken'⟩ := hpresent entry hentry
              exact ⟨raw', List.mem_cons_of_mem _ hraw, htoken'⟩
          · rcases List.mem_cons.mp hmem with hmem | hmem
            · cases hmem
              exact ⟨token, htoken⟩
            · exact hvalid scope' raw' hmem

theorem read_batchTokens {result : List (Scope × Str)}
    (h : Yields (batchTokens scopes) tr (.ok result)) :
    (result.map Prod.fst).Perm scopes ∧ ∀ entry ∈ result, ReadToken tr entry.1 entry.2 := by
  rcases h.bind with ⟨tr₁, tr₂, raws, htr, hbatch, hrest⟩ | ⟨x, -, hraised⟩
  swap
  · cases hraised
  obtain ⟨hkeys, hread⟩ := read_readBatch hbatch
  rcases hrest.bind with ⟨tr₃, tr₄, wellFormed, htr₂, -, hrest⟩ | ⟨x, -, hraised⟩
  swap
  · cases hraised
  cases wellFormed with
  | false =>
      obtain ⟨-, hraised⟩ := yields_done_iff.mp hrest
      cases hraised
  | true =>
      rcases hrest.bind with ⟨tr₅, tr₆, present, htr₄, hpresent, hrest⟩ | ⟨x, -, hraised⟩
      swap
      · cases hraised
      rcases hrest.bind with ⟨tr₇, tr₈, missing, htr₆, hmissing, hend⟩ | ⟨x, -, hraised⟩
      swap
      · cases hraised
      obtain ⟨-, hok⟩ := yields_done_iff.mp hend
      cases hok
      obtain ⟨hpresentKeys, htokens, -⟩ := validatePresent_ok (yields_done_iff.mp hpresent).2
      obtain ⟨hmissingKeys, hmissingRead⟩ := read_getEach hmissing
      constructor
      · have hsplit : (raws.filter fun r ↦ r.2.isNone) = raws.filter fun r ↦ !r.2.isSome := by
          simp
        rw [List.map_append, hpresentKeys, hmissingKeys, hsplit, ← List.map_append, ← hkeys]
        exact (List.filter_append_perm _ raws).map Prod.fst
      · intro entry hentry
        rcases List.mem_append.mp hentry with hentry | hentry
        · obtain ⟨raw, hraw, htoken⟩ := htokens entry hentry
          refine ⟨_, ?_, raw, .inr rfl, htoken⟩
          rw [htr]
          exact List.mem_append_left _ ((hread _ _).mp hraw)
        · apply (hmissingRead entry hentry).mono
          rw [htr, htr₂, htr₄, htr₆]
          intro ev hev
          simp [hev]

theorem nodup_eraseDups (scopes : List Scope) : scopes.eraseDups.Nodup := by
  induction hlength : scopes.length using Nat.strong_induction_on generalizing scopes with
  | _ n ih =>
      cases scopes with
      | nil => exact List.nodup_nil
      | cons scope rest =>
          rw [List.eraseDups_cons]
          have hle : (rest.filter fun s ↦ !s == scope).length < n := by
            have hfilter := List.length_filter_le (fun s ↦ !s == scope) rest
            rw [List.length_cons] at hlength
            omega
          refine List.nodup_cons.mpr ⟨?_, ih _ hle _ rfl⟩
          simp

/-- What a returning read of many scopes returns. -/
theorem read_getGenerations {readMany : Bool} {result : List (Scope × Str)}
    (h : Yields (getGenerations readMany scopes) tr (.ok result)) :
    (result.map Prod.fst).Nodup ∧ (∀ scope, scope ∈ result.map Prod.fst ↔ scope ∈ scopes) ∧
      ∀ entry ∈ result, ReadToken tr entry.1 entry.2 := by
  have hread : (result.map Prod.fst).Perm scopes.eraseDups ∧
      ∀ entry ∈ result, ReadToken tr entry.1 entry.2 := by
    unfold getGenerations at h
    generalize scopes.eraseDups = distinct at h ⊢
    cases distinct with
    | nil =>
        obtain ⟨-, hok⟩ := yields_done_iff.mp h
        cases hok
        exact ⟨.refl _, nofun⟩
    | cons scope rest =>
        rcases yields_orUnavailable h with ⟨a, hbody, hok⟩ | ⟨-, hraised⟩
        swap
        · cases hraised
        cases hok
        rcases hbody.bind with ⟨tr₁, tr₂, u, htr, -, hbody⟩ | ⟨x, -, hraised⟩
        swap
        · cases hraised
        have hsub : tr₂ ⊆ tr := by
          rw [htr]
          exact List.subset_append_right _ _
        cases readMany with
        | true =>
            obtain ⟨hperm, hread⟩ := read_batchTokens hbody
            exact ⟨hperm, fun entry hentry ↦ (hread entry hentry).mono hsub⟩
        | false =>
            obtain ⟨hkeys, hread⟩ := read_getEach hbody
            exact ⟨.of_eq hkeys, fun entry hentry ↦ (hread entry hentry).mono hsub⟩
  obtain ⟨hperm, hread⟩ := hread
  refine ⟨hperm.nodup_iff.mpr (nodup_eraseDups scopes), fun scope ↦ ?_, hread⟩
  rw [hperm.mem_iff, List.mem_eraseDups]

end Traces

section Writes

variable {tr : List (Event TokenEffect TokenEffect.Reply CacheError)}

/-- A read writes only what is absent. -/
def Careful : TokenEffect → Prop
  | .write _ _ onlyIfAbsent => onlyIfAbsent = true
  | _ => True

/-- The effects of the reads of one scope after the other. -/
def OneByOne : TokenEffect → Prop
  | .write _ _ onlyIfAbsent => onlyIfAbsent = true
  | .batchGet _ => False
  | _ => True

def ReadsOnly : TokenEffect → Prop
  | .write _ _ _ => False
  | _ => True

theorem OneByOne.careful (e : TokenEffect) (h : OneByOne e) : Careful e := by
  cases e with
  | batchGet scope => exact h.elim
  | _ => exact h

theorem ReadsOnly.careful (e : TokenEffect) (h : ReadsOnly e) : Careful e := by
  cases e with
  | write scope token onlyIfAbsent => exact h.elim
  | _ => exact h

variable {allowed : TokenEffect → Prop}

theorem within_ask (e : TokenEffect) (he : allowed e) :
    (ask e).Within allowed fun _ _ ↦ True := within_call he

theorem within_orUnavailable {p : TokenProgram α} (h : p.Within allowed fun _ _ ↦ True) :
    (orUnavailable p).Within allowed fun _ _ ↦ True := by
  apply h.andThen
  intro v
  cases v <;> trivial

theorem oneByOne_getGeneration (scope : Scope) :
    (getGeneration scope).Within OneByOne fun _ _ ↦ True := by
  have hloop : ∀ attempts, (getGenerationLoop scope attempts).Within OneByOne fun _ _ ↦ True := by
    intro attempts
    induction attempts with
    | zero => trivial
    | succ attempts ih =>
        apply (within_ask (.get scope) trivial).bind
        intro raw
        cases raw with
        | some raw => trivial
        | none =>
            apply (within_ask .newGeneration trivial).bind
            intro token
            have hwrite : OneByOne (.write scope token true) := rfl
            exact (within_ask _ hwrite).bind fun _ ↦ ih
  apply within_orUnavailable
  exact (within_ask .writer trivial).bind fun _ ↦ hloop 3

theorem oneByOne_getEach (scopes : List Scope) :
    (getEach scopes).Within OneByOne fun _ _ ↦ True := by
  induction scopes with
  | nil => trivial
  | cons scope rest ih =>
      apply (oneByOne_getGeneration scope).bind
      intro token
      exact ih.bind fun _ ↦ trivial

theorem readsOnly_readBatch (scopes : List Scope) :
    (readBatch scopes).Within ReadsOnly fun _ _ ↦ True := by
  induction scopes with
  | nil => trivial
  | cons scope rest ih =>
      apply (within_ask (.batchGet scope) trivial).bind
      intro raw
      exact ih.bind fun _ ↦ trivial

theorem careful_getGenerations (readMany : Bool) (scopes : List Scope) :
    (getGenerations readMany scopes).Within Careful fun _ _ ↦ True := by
  have heach : ∀ scopes, (getEach scopes).Within Careful fun _ _ ↦ True :=
    fun scopes ↦ (oneByOne_getEach scopes).mono OneByOne.careful
  have hbatch : ∀ scopes, (batchTokens scopes).Within Careful fun _ _ ↦ True := by
    intro scopes
    apply ((readsOnly_readBatch scopes).mono ReadsOnly.careful).bind
    intro raws
    apply (within_ask .wellFormed trivial).bind
    intro wellFormed
    cases wellFormed with
    | false => trivial
    | true =>
        apply Within.bind (p := .done _) trivial
        intro present
        exact (heach _).bind fun _ ↦ trivial
  unfold getGenerations
  split
  · trivial
  · apply within_orUnavailable
    apply (within_ask .writer trivial).bind
    intro _
    split
    · exact hbatch _
    · exact heach _

variable {scope : Scope} {raw : Raw} {x : CacheError}

/-- A batch read that meets an invalid token ends before any write. -/
theorem batchTokens_corrupt {scopes : List Scope} {v : Except CacheError (List (Scope × Str))}
    (h : Yields (batchTokens scopes) tr v) (hmem : ⟨.batchGet scope, .ok (some raw)⟩ ∈ tr)
    (hraw : validateGeneration raw = .error x) :
    (∃ x, v = .error x) ∧ ∀ ev ∈ tr, ReadsOnly ev.effect := by
  have hreads : ∀ {tr : List (Event TokenEffect TokenEffect.Reply CacheError)} {u},
      Yields (readBatch scopes) tr u → ∀ ev ∈ tr, ReadsOnly ev.effect :=
    fun hu ↦ hu.within (readsOnly_readBatch scopes)
  rcases h.bind with ⟨tr₁, tr₂, raws, htr, hbatch, hrest⟩ | ⟨x, hbatch, hraised⟩
  swap
  · exact ⟨⟨x, hraised⟩, hreads hbatch⟩
  obtain ⟨-, hread⟩ := read_readBatch hbatch
  have hshape : ∀ {tr : List (Event TokenEffect TokenEffect.Reply CacheError)} {u},
      Yields (ask .wellFormed) tr u → ∀ ev ∈ tr, ReadsOnly ev.effect :=
    fun hu ↦ hu.within (within_ask _ trivial)
  have hboth : ∀ {tr₃}, (∀ ev ∈ tr₃, ReadsOnly ev.effect) →
      ∀ ev ∈ tr₁ ++ tr₃, ReadsOnly ev.effect := by
    intro tr₃ h₃ ev hev
    rcases List.mem_append.mp hev with hev | hev
    · exact hreads hbatch ev hev
    · exact h₃ ev hev
  rcases hrest.bind with ⟨tr₃, tr₄, wellFormed, htr₂, hwell, hrest⟩ | ⟨x, hwell, hraised⟩
  swap
  · rw [htr]
    exact ⟨⟨x, hraised⟩, hboth (hshape hwell)⟩
  cases wellFormed with
  | false =>
      obtain ⟨hnil, hraised⟩ := yields_done_iff.mp hrest
      rw [htr, htr₂, hnil, List.append_nil]
      exact ⟨⟨_, hraised.symm⟩, hboth (hshape hwell)⟩
  | true =>
      rcases hrest.bind with ⟨tr₅, tr₆, present, htr₄, hpresent, hrest⟩ | ⟨x, hpresent, hraised⟩
      · -- All tokens of the batch are valid; the later reads are single ones.
        obtain ⟨hnil, hpresent⟩ := yields_done_iff.mp hpresent
        obtain ⟨-, -, hvalid⟩ := validatePresent_ok hpresent
        have hsingle : ∀ ev ∈ tr₆, OneByOne ev.effect := by
          have hwithin := (oneByOne_getEach ((raws.filter fun r ↦ r.2.isNone).map Prod.fst)).bind
            (f := fun missing ↦ (pure (present ++ missing) : TokenProgram _)) fun _ ↦ trivial
          exact hrest.within hwithin
        rw [htr, htr₂, htr₄, hnil, List.nil_append, hwell.call] at hmem
        rcases List.mem_append.mp hmem with hmem | hmem
        · obtain ⟨token, htoken⟩ := hvalid scope raw ((hread _ _).mpr hmem)
          cases htoken.symm.trans hraw
        · rcases List.mem_cons.mp hmem with hmem | hmem
          · cases hmem
          · exact (hsingle _ hmem).elim
      · obtain ⟨hnil, -⟩ := yields_done_iff.mp hpresent
        rw [htr, htr₂, hnil, List.append_nil]
        exact ⟨⟨x, hraised⟩, hboth (hshape hwell)⟩

theorem getGenerations_corrupt {readMany : Bool} {scopes : List Scope}
    {v : Except CacheError (List (Scope × Str))}
    (h : Yields (getGenerations readMany scopes) tr v)
    (hmem : ⟨.batchGet scope, .ok (some raw)⟩ ∈ tr) (hraw : validateGeneration raw = .error x) :
    v = .error .generationUnavailable ∧ ∀ ev ∈ tr, ReadsOnly ev.effect := by
  unfold getGenerations at h
  generalize scopes.eraseDups = distinct at h
  cases distinct with
  | nil =>
      obtain ⟨hnil, -⟩ := yields_done_iff.mp h
      rw [hnil] at hmem
      cases hmem
  | cons first rest =>
      have hbody : ∀ {u}, Yields (do
          ask .writer
          if readMany then batchTokens (first :: rest) else getEach (first :: rest)) tr u →
          (∃ x, u = .error x) ∧ ∀ ev ∈ tr, ReadsOnly ev.effect := by
        intro u hu
        rcases hu.bind with ⟨tr₁, tr₂, _, htr, hwriter, hu⟩ | ⟨x, hwriter, hraised⟩
        · rw [htr, hwriter.call, List.singleton_append] at hmem
          have hmem₂ : ⟨.batchGet scope, .ok (some raw)⟩ ∈ tr₂ := by
            rcases List.mem_cons.mp hmem with hmem | hmem
            · cases hmem
            · exact hmem
          cases readMany with
          | true =>
              obtain ⟨hraised, hreads⟩ := batchTokens_corrupt hu hmem₂ hraw
              refine ⟨hraised, fun ev hev ↦ ?_⟩
              rw [htr, hwriter.call, List.singleton_append] at hev
              rcases List.mem_cons.mp hev with hev | hev
              · rw [hev]
                trivial
              · exact hreads ev hev
          | false => exact (hu.within (oneByOne_getEach _) _ hmem₂).elim
        · rw [hwriter.call] at hmem
          cases List.mem_singleton.mp hmem
      rcases yields_orUnavailable h with ⟨a, ha, -⟩ | ⟨⟨x, hx⟩, hv⟩
      · obtain ⟨⟨x, hx⟩, -⟩ := hbody ha
        cases hx
      · exact ⟨hv, (hbody hx).2⟩

end Writes

end GenerationBackend

end DjangoNova
