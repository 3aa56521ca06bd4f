import DjangoNova.Cache.GenerationReads

/-!
# Runs of generation reads

Any number of reads over one store of tokens that other processes change
at any time. What a read returns was stored while it ran, no read replaces
a token, and without interference the batch read does what the single reads
do.
-/

namespace DjangoNova

open Program Transition

/-- A performed effect, with the stored tokens before and after it. -/
structure TokenEvent (T : Type) where
  thread : T
  event : Program.Event TokenEffect TokenEffect.Reply CacheError
  before : TokenStore
  after : TokenStore

structure TokenWorld (T : Type) where
  tokens : TokenStore
  log : List (TokenEvent T)

/-- An effect is served, fails before or after it was applied, or gets a
malformed response; another process stores or drops a value. -/
inductive TokenChoice where
  | served (fresh : {s // IsGeneration s})
  | fail (x : CacheError) (applied : Bool)
  | malformed
  | change (k : Str) (v : Option StoredToken)

inductive GenerationCall where
  | one (scope : Scope)
  | many (scopes : List Scope)

namespace GenerationCall

def scopes : GenerationCall → List Scope
  | .one scope => [scope]
  | .many scopes => scopes

def program (readMany : Bool) : GenerationCall → TokenProgram (List (Scope × Str))
  | .one scope => do
      let token ← GenerationBackend.getGeneration scope
      return [(scope, token)]
  | .many scopes => GenerationBackend.getGenerations readMany scopes

end GenerationCall

namespace TokenStore

variable (key : Scope → Str)

/-- `SET key token NX` or `ADD`, and the plain write. -/
def write (tokens : TokenStore) (k token : Str) (onlyIfAbsent : Bool) : Bool × TokenStore :=
  if onlyIfAbsent && (tokens k).isSome then (false, tokens)
  else (true, Function.update tokens k (some (.raw (.bytes (encodeAscii token)))))

/-- What a reachable server answers. A single read of a value that is not a
string is an error, a batch read leaves it out. -/
def serve (fresh : Str) (tokens : TokenStore) :
    (e : TokenEffect) → Except CacheError e.Reply × TokenStore
  | .writer => (.ok (), tokens)
  | .get scope =>
      match tokens (key scope) with
      | none => (.ok none, tokens)
      | some (.raw r) => (.ok (some r), tokens)
      | some .nonString => (.error (.raised 0), tokens)
  | .batchGet scope =>
      match tokens (key scope) with
      | some (.raw r) => (.ok (some r), tokens)
      | _ => (.ok none, tokens)
  | .wellFormed => (.ok true, tokens)
  | .newGeneration => (.ok fresh, tokens)
  | .write scope token onlyIfAbsent =>
      let q := write tokens (key scope) token onlyIfAbsent
      (.ok q.1, q.2)

def perform (tokens : TokenStore) (e : TokenEffect) :
    TokenChoice → Option (Except CacheError e.Reply × TokenStore)
  | .served fresh => some (serve key fresh tokens e)
  | .fail x applied => some (.error x, if applied then (serve key [] tokens e).2 else tokens)
  | .malformed =>
      match e with
      | .wellFormed => some (.ok false, tokens)
      | _ => none
  | .change _ _ => none

end TokenStore

section System

variable {T : Type}

/-- The metadata of a server; `key` is `generation_key`, behind the prefix of
the backend for Redis. -/
def tokenMachine (key : Scope → Str) :
    Machine T TokenEffect TokenEffect.Reply CacheError (TokenWorld T) TokenChoice where
  perform := fun t e c w ↦ (w.tokens.perform key e c).map fun q ↦
    (q.1, ⟨q.2, w.log ++ [⟨t, ⟨e, q.1⟩, w.tokens, q.2⟩]⟩)
  environment := fun c w ↦
    match c with
    | .change k v => some { w with tokens := Function.update w.tokens k v }
    | _ => none

abbrev TokenPool (T : Type) : Type :=
  Pool T TokenEffect TokenEffect.Reply CacheError (List (Scope × Str)) (TokenWorld T)

def tokenStep [DecidableEq T] (key : Scope → Str) (readMany : Bool) (call : T → GenerationCall) :
    TokenPool T → Turn T TokenChoice → Option (TokenPool T) :=
  Pool.step (tokenMachine key) fun t ↦ (call t).program readMany

end System

section Solo

open TokenStore GenerationBackend

variable {α β : Type} (key : Scope → Str) (gen : ℕ → {s // IsGeneration s})

/-- Whether the effect draws a new token. -/
def TokenEffect.draws : TokenEffect → ℕ
  | .newGeneration => 1
  | _ => 0

/-- Run a program alone; `gen` lists the tokens that are drawn. -/
def solo : TokenProgram α → TokenStore → ℕ → Except CacheError α × TokenStore × ℕ
  | .done v, tokens, n => (v, tokens, n)
  | .step e k, tokens, n =>
      let q := serve key (gen n) tokens e
      solo (k q.1) q.2 (n + e.draws)

/-- The token of a key, when it is valid. -/
def Valid (tokens : TokenStore) (k token : Str) : Prop :=
  ∃ raw, tokens k = some (.raw raw) ∧ validateGeneration raw = .ok token

/-- No value of the scopes is corrupt. -/
def Clean (tokens : TokenStore) (scopes : List Scope) : Prop :=
  ∀ scope ∈ scopes, tokens (key scope) ≠ none → ∃ token, Valid tokens (key scope) token

/-- Store new tokens where there are none. -/
def installAll : List Scope → TokenStore → ℕ → TokenStore × ℕ
  | [], tokens, n => (tokens, n)
  | scope :: rest, tokens, n =>
      if (tokens (key scope)).isSome then installAll rest tokens n
      else installAll rest (write tokens (key scope) (gen n) true).2 (n + 1)

variable {key gen} {tokens tokens' : TokenStore} {scope : Scope} {scopes : List Scope} {n : ℕ}

theorem solo_andThen (p : TokenProgram α) (f : Except CacheError α → TokenProgram β)
    (tokens : TokenStore) (n : ℕ) :
    solo key gen (p.andThen f) tokens n =
      let q := solo key gen p tokens n
      solo key gen (f q.1) q.2.1 q.2.2 := by
  induction p generalizing tokens n with
  | done v => rfl
  | step e k ih =>
      rw [andThen_step, solo]
      exact ih _ _ _

theorem solo_bind_ok {p : TokenProgram α} {f : α → TokenProgram β} {a : α}
    (h : solo key gen p tokens n = (.ok a, tokens', n')) :
    solo key gen (p >>= f) tokens n = solo key gen (f a) tokens' n' := by
  refine (solo_andThen p _ tokens n).trans ?_
  rw [h]

theorem solo_bind_error {p : TokenProgram α} {f : α → TokenProgram β}
    (h : ∃ x, (solo key gen p tokens n).1 = .error x) :
    ∃ x, (solo key gen (p >>= f) tokens n).1 = .error x := by
  obtain ⟨x, hx⟩ := h
  have hbind : solo key gen (p >>= f) tokens n =
      (.error x, (solo key gen p tokens n).2) := by
    refine (solo_andThen p _ tokens n).trans ?_
    dsimp only
    rw [hx]
    rfl
  exact ⟨x, by rw [hbind]⟩

theorem solo_orUnavailable_ok {p : TokenProgram α} {a : α}
    (h : solo key gen p tokens n = (.ok a, tokens', n')) :
    solo key gen (orUnavailable p) tokens n = (.ok a, tokens', n') := by
  refine (solo_andThen p _ tokens n).trans ?_
  rw [h]
  rfl

theorem solo_orUnavailable_error {p : TokenProgram α}
    (h : ∃ x, (solo key gen p tokens n).1 = .error x) :
    ∃ x, (solo key gen (orUnavailable p) tokens n).1 = .error x := by
  obtain ⟨x, hx⟩ := h
  have hraised : (solo key gen (orUnavailable p) tokens n).1 = .error .generationUnavailable := by
    refine congrArg Prod.fst (solo_andThen p _ tokens n) |>.trans ?_
    dsimp only
    rw [hx]
    rfl
  exact ⟨_, hraised⟩

theorem Valid.unique {k token token' : Str} (h : Valid tokens k token)
    (h' : Valid tokens k token') :
    token = token' := by
  obtain ⟨raw, hraw, hvalid⟩ := h
  obtain ⟨raw', hraw', hvalid'⟩ := h'
  cases hraw.symm.trans hraw'
  cases hvalid.symm.trans hvalid'
  rfl

theorem solo_get (tokens : TokenStore) (n : ℕ) :
    solo key gen (ask (.get scope)) tokens n =
      ((serve key (gen n) tokens (.get scope)).1, tokens, n) := by
  have hserve : (serve key (gen n) tokens (.get scope)).2 = tokens := by
    unfold serve
    dsimp only
    split <;> rfl
  refine Prod.ext_iff.mpr ⟨rfl, ?_⟩
  show ((serve key (gen n) tokens (.get scope)).2, n) = (tokens, n)
  rw [hserve]

theorem solo_getGeneration_present {token : Str} (h : Valid tokens (key scope) token) :
    solo key gen (getGeneration scope) tokens n = (.ok token, tokens, n) := by
  obtain ⟨raw, hraw, hvalid⟩ := h
  have hget : solo key gen (ask (.get scope)) tokens n = (.ok (some raw), tokens, n) := by
    rw [solo_get]
    simp only [serve, hraw]
  apply solo_orUnavailable_ok
  refine (solo_bind_ok (p := ask .writer) rfl).trans ?_
  refine (solo_bind_ok hget).trans ?_
  show (validateGeneration raw, tokens, n) = _
  rw [hvalid]

theorem valid_write (h : tokens (key scope) = none) (fresh : {s // IsGeneration s}) :
    Valid (write tokens (key scope) fresh true).2 (key scope) fresh := by
  refine ⟨_, ?_, validateGeneration_encode fresh.2⟩
  simp [write, h]

theorem solo_getGeneration_absent (h : tokens (key scope) = none) :
    solo key gen (getGeneration scope) tokens n =
      (.ok (gen n).1, (write tokens (key scope) (gen n) true).2, n + 1) := by
  have hget : solo key gen (ask (.get scope)) tokens n = (.ok none, tokens, n) := by
    rw [solo_get]
    simp only [serve, h]
  obtain ⟨raw, hraw, hvalid⟩ := valid_write h (gen n)
  generalize hwritten : (write tokens (key scope) (gen n) true).2 = written at hraw ⊢
  have hwrite : solo key gen (ask (.write scope (gen n) true)) tokens (n + 1) =
      (.ok (write tokens (key scope) (gen n) true).1, written, n + 1) := by
    rw [← hwritten]
    rfl
  have hagain : solo key gen (ask (.get scope)) written (n + 1) =
      (.ok (some raw), written, n + 1) := by
    rw [solo_get]
    simp only [serve, hraw]
  apply solo_orUnavailable_ok
  refine (solo_bind_ok (p := ask .writer) rfl).trans ?_
  refine (solo_bind_ok hget).trans ?_
  refine (solo_bind_ok (p := ask .newGeneration) rfl).trans ?_
  refine (solo_bind_ok hwrite).trans ?_
  refine (solo_bind_ok hagain).trans ?_
  show (validateGeneration raw, written, n + 1) = _
  rw [hvalid]

theorem solo_getGeneration_corrupt (h : tokens (key scope) ≠ none)
    (hcorrupt : ¬∃ token, Valid tokens (key scope) token) :
    ∃ x, (solo key gen (getGeneration scope) tokens n).1 = .error x := by
  apply solo_orUnavailable_error
  have hloop : ∃ x, (solo key gen (getGenerationLoop scope 3) tokens n).1 = .error x := by
    cases hstored : tokens (key scope) with
    | none => exact absurd hstored h
    | some stored =>
        cases stored with
        | nonString =>
            apply solo_bind_error
            refine ⟨.raised 0, ?_⟩
            rw [solo_get]
            simp only [serve, hstored]
        | raw raw =>
            have hget : solo key gen (ask (.get scope)) tokens n = (.ok (some raw), tokens, n) := by
              rw [solo_get]
              simp only [serve, hstored]
            cases hvalid : validateGeneration raw with
            | ok token => exact absurd ⟨token, raw, hstored, hvalid⟩ hcorrupt
            | error x =>
                refine ⟨x, ?_⟩
                rw [show getGenerationLoop scope 3 = (ask (.get scope) >>= _) from rfl,
                  solo_bind_ok hget]
                exact hvalid
  rwa [solo_bind_ok (p := ask .writer) rfl]

theorem write_present {k : Str} (h : tokens k ≠ none) (k' token : Str) :
    (write tokens k' token true).2 k = tokens k := by
  unfold write
  split
  · rfl
  · rename_i habsent
    have hk : k ≠ k' := by
      rintro rfl
      simp [Option.isSome_iff_ne_none, h] at habsent
    exact Function.update_of_ne hk _ _

theorem Valid.present {k token : Str} (h : Valid tokens k token) : tokens k ≠ none := by
  obtain ⟨raw, hraw, -⟩ := h
  rw [hraw]
  exact nofun

theorem installAll_present {k : Str} (h : tokens k ≠ none) :
    (installAll key gen scopes tokens n).1 k = tokens k := by
  induction scopes generalizing tokens n with
  | nil => rfl
  | cons scope rest ih =>
      unfold installAll
      split
      · exact ih h
      · have hwrite := write_present h (key scope) (gen n)
        rw [ih (hwrite ▸ h), hwrite]

theorem Valid.kept {k token : Str} (h : Valid tokens k token) (hkept : tokens' k = tokens k) :
    Valid tokens' k token := by
  unfold Valid
  rw [hkept]
  exact h

theorem Clean.write (h : Clean key tokens scopes) (habsent : tokens (key scope) = none) :
    Clean key (write tokens (key scope) (gen n) true).2 scopes := by
  intro s hs hpresent
  by_cases hold : tokens (key s) = none
  · by_cases hkey : key s = key scope
    · rw [hkey]
      exact ⟨_, valid_write habsent (gen n)⟩
    · have hsame : (TokenStore.write tokens (key scope) (gen n) true).2 (key s) =
          tokens (key s) := by
        simp [TokenStore.write, habsent, Function.update_of_ne hkey]
      rw [hsame] at hpresent
      exact absurd hold hpresent
  · obtain ⟨token, htoken⟩ := h s hs hold
    exact ⟨token, htoken.kept (write_present hold _ _)⟩

theorem Clean.cons_iff : Clean key tokens (scope :: scopes) ↔
    (tokens (key scope) ≠ none → ∃ token, Valid tokens (key scope) token) ∧
      Clean key tokens scopes := List.forall_mem_cons

variable (gen) in
theorem solo_getEach (h : Clean key tokens scopes) :
    ∃ r, solo key gen (getEach scopes) tokens n = (.ok r, installAll key gen scopes tokens n) ∧
      r.map Prod.fst = scopes ∧
      ∀ entry ∈ r, Valid (installAll key gen scopes tokens n).1 (key entry.1) entry.2 := by
  induction scopes generalizing tokens n with
  | nil => exact ⟨[], rfl, rfl, nofun⟩
  | cons scope rest ih =>
      obtain ⟨hscope, hrest⟩ := Clean.cons_iff.mp h
      -- Whatever the first read finds, the others go on from what it leaves.
      have hcons : ∀ {token tokens' n'},
          solo key gen (getGeneration scope) tokens n = (.ok token, tokens', n') →
          installAll key gen (scope :: rest) tokens n = installAll key gen rest tokens' n' →
          Valid tokens' (key scope) token → Clean key tokens' rest →
          ∃ r, solo key gen (getEach (scope :: rest)) tokens n =
              (.ok r, installAll key gen (scope :: rest) tokens n) ∧
            r.map Prod.fst = scope :: rest ∧
            ∀ entry ∈ r, Valid (installAll key gen (scope :: rest) tokens n).1 (key entry.1)
              entry.2 := by
        intro token tokens' n' hget hinstall hvalid hclean
        obtain ⟨r, hr, hkeys, htokens⟩ := ih (n := n') hclean
        rw [hinstall]
        refine ⟨(scope, token) :: r, ?_, by simp [hkeys], ?_⟩
        · refine (solo_bind_ok hget).trans ?_
          exact solo_bind_ok hr
        · intro entry hentry
          rcases List.mem_cons.mp hentry with hentry | hentry
          · rw [hentry]
            exact hvalid.kept (installAll_present hvalid.present)
          · exact htokens entry hentry
      by_cases habsent : tokens (key scope) = none
      · refine hcons (solo_getGeneration_absent habsent) ?_ (valid_write habsent (gen n))
          (hrest.write habsent)
        simp [installAll, habsent]
      · obtain ⟨token, htoken⟩ := hscope habsent
        refine hcons (solo_getGeneration_present htoken) ?_ htoken hrest
        simp [installAll, Option.isSome_iff_ne_none, habsent]

variable (gen) in
theorem solo_getEach_error (h : ¬Clean key tokens scopes) :
    ∃ x, (solo key gen (getEach scopes) tokens n).1 = .error x := by
  induction scopes generalizing tokens n with
  | nil => exact absurd (fun _ ↦ nofun) h
  | cons scope rest ih =>
      have hcons : ∀ {token tokens' n'},
          solo key gen (getGeneration scope) tokens n = (.ok token, tokens', n') →
          ¬Clean key tokens' rest →
          ∃ x, (solo key gen (getEach (scope :: rest)) tokens n).1 = .error x := by
        intro token tokens' n' hget hrest
        have hgo : solo key gen (getEach (scope :: rest)) tokens n =
            solo key gen (do
              let r ← getEach rest
              return (scope, token) :: r) tokens' n' := solo_bind_ok hget
        rw [hgo]
        exact solo_bind_error (ih hrest)
      by_cases habsent : tokens (key scope) = none
      · apply hcons (solo_getGeneration_absent habsent)
        intro hclean
        apply h
        refine Clean.cons_iff.mpr ⟨fun hpresent ↦ absurd habsent hpresent, fun s hs hpresent ↦ ?_⟩
        have hkept := write_present hpresent (key scope) (gen n)
        obtain ⟨token, htoken⟩ := hclean s hs (hkept ▸ hpresent)
        exact ⟨token, htoken.kept hkept.symm⟩
      · by_cases hvalid : ∃ token, Valid tokens (key scope) token
        · obtain ⟨token, htoken⟩ := hvalid
          apply hcons (solo_getGeneration_present htoken)
          exact fun hclean ↦ h (Clean.cons_iff.mpr ⟨fun _ ↦ ⟨token, htoken⟩, hclean⟩)
        · exact solo_bind_error (solo_getGeneration_corrupt habsent hvalid)

theorem installAll_filter {keep : Scope → Bool}
    (h : ∀ scope ∈ scopes, keep scope = false → tokens (key scope) ≠ none) :
    installAll key gen (scopes.filter keep) tokens n = installAll key gen scopes tokens n := by
  induction scopes generalizing tokens n with
  | nil => rfl
  | cons scope rest ih =>
      have hrest : ∀ s ∈ rest, keep s = false → tokens (key s) ≠ none :=
        fun s hs ↦ h s (List.mem_cons_of_mem _ hs)
      have hwritten : ∀ s ∈ rest, keep s = false →
          (write tokens (key scope) (gen n) true).2 (key s) ≠ none := by
        intro s hs hkeep
        rw [write_present (hrest s hs hkeep)]
        exact hrest s hs hkeep
      cases hkeep : keep scope with
      | true =>
          rw [List.filter_cons_of_pos hkeep, installAll, installAll]
          split
          · exact ih hrest
          · exact ih hwritten
      | false =>
          have hpresent := h scope List.mem_cons_self hkeep
          have hskip : installAll key gen (scope :: rest) tokens n =
              installAll key gen rest tokens n := by
            simp [installAll, Option.isSome_iff_ne_none, hpresent]
          rw [List.filter_cons_of_neg (by simp [hkeep]), hskip]
          exact ih hrest

theorem installAll_eraseDups :
    installAll key gen scopes.eraseDups tokens n = installAll key gen scopes tokens n := by
  induction hlength : scopes.length using Nat.strong_induction_on generalizing scopes tokens n with
  | _ m ih =>
      cases scopes with
      | nil => rfl
      | cons scope rest =>
          have hlt : (rest.filter fun s ↦ !s == scope).length < m := by
            have hle := List.length_filter_le (fun s ↦ !s == scope) rest
            rw [List.length_cons] at hlength
            omega
          have htail : ∀ {tokens' : TokenStore} {n'}, tokens' (key scope) ≠ none →
              installAll key gen (rest.filter fun s ↦ !s == scope).eraseDups tokens' n' =
                installAll key gen rest tokens' n' := by
            intro tokens' n' hpresent
            rw [ih _ hlt rfl]
            apply installAll_filter
            intro s _ hs
            obtain rfl : s = scope := by simpa using hs
            exact hpresent
          rw [List.eraseDups_cons, installAll, installAll]
          split
          next hpresent => exact htail (Option.isSome_iff_ne_none.mp hpresent)
          next habsent =>
            have hnone : tokens (key scope) = none := by simpa using habsent
            exact htail (valid_write hnone (gen n)).present

/-- What a batch read finds under a key. -/
def batchValue (tokens : TokenStore) (k : Str) : Option Raw :=
  match tokens k with
  | some (.raw r) => some r
  | _ => none

theorem solo_readBatch : solo key gen (readBatch scopes) tokens n =
    (.ok (scopes.map fun scope ↦ (scope, batchValue tokens (key scope))), tokens, n) := by
  induction scopes with
  | nil => rfl
  | cons scope rest ih =>
      have hget : solo key gen (ask (.batchGet scope)) tokens n =
          (.ok (batchValue tokens (key scope)), tokens, n) := by
        unfold batchValue
        cases hstored : tokens (key scope) with
        | none => simp [ask, call, solo, serve, hstored, TokenEffect.draws]
        | some stored =>
            cases stored <;> simp [ask, call, solo, serve, hstored, TokenEffect.draws]
      refine (solo_bind_ok hget).trans ?_
      exact solo_bind_ok ih

theorem validatePresent_clean (h : Clean key tokens scopes) :
    ∃ present, QuerySetCache.validatePresent
        (scopes.map fun scope ↦ (scope, batchValue tokens (key scope))) = .ok present ∧
      ∀ entry ∈ present, Valid tokens (key entry.1) entry.2 := by
  induction scopes with
  | nil => exact ⟨[], rfl, nofun⟩
  | cons scope rest ih =>
      obtain ⟨hscope, hrest⟩ := Clean.cons_iff.mp h
      obtain ⟨present, hpresent, hvalid⟩ := ih hrest
      cases hstored : tokens (key scope) with
      | none =>
          refine ⟨present, ?_, hvalid⟩
          simpa [batchValue, hstored, QuerySetCache.validatePresent] using hpresent
      | some stored =>
          obtain ⟨token, raw, hraw, htoken⟩ := hscope (by rw [hstored]; exact nofun)
          refine ⟨(scope, token) :: present, ?_, ?_⟩
          · rw [List.map_cons, batchValue, hraw]
            exact bind_eq_ok.mpr ⟨token, htoken, bind_eq_ok.mpr ⟨present, hpresent, rfl⟩⟩
          · intro entry hentry
            rcases List.mem_cons.mp hentry with hentry | hentry
            · rw [hentry]
              exact ⟨raw, hraw, htoken⟩
            · exact hvalid entry hentry

/-- The scopes that a batch read leaves to single reads. -/
def missing (key : Scope → Str) (tokens : TokenStore) (scopes : List Scope) : List Scope :=
  scopes.filter fun scope ↦ (batchValue tokens (key scope)).isNone

theorem missing_eq : ((scopes.map fun scope ↦ (scope, batchValue tokens (key scope))).filter
    fun r ↦ r.2.isNone).map Prod.fst = missing key tokens scopes := by
  rw [List.filter_map, List.map_map]
  exact List.map_id _

theorem installAll_missing :
    installAll key gen (missing key tokens scopes) tokens n =
      installAll key gen scopes tokens n := by
  apply installAll_filter
  intro scope _ hsome habsent
  simp [batchValue, habsent] at hsome

variable (gen) in
theorem solo_batchTokens (h : Clean key tokens scopes) :
    ∃ r, solo key gen (batchTokens scopes) tokens n = (.ok r, installAll key gen scopes tokens n) ∧
      ∀ entry ∈ r, Valid (installAll key gen scopes tokens n).1 (key entry.1) entry.2 := by
  obtain ⟨present, hpresent, hvalid⟩ := validatePresent_clean h
  have hmissing : Clean key tokens (missing key tokens scopes) :=
    fun s hs ↦ h s (List.mem_of_mem_filter hs)
  obtain ⟨r, hr, -, htokens⟩ := solo_getEach gen (n := n) hmissing
  rw [installAll_missing] at hr htokens
  refine ⟨present ++ r, ?_, fun entry hentry ↦ ?_⟩
  · refine (solo_bind_ok solo_readBatch).trans ?_
    refine (solo_bind_ok (p := ask .wellFormed) rfl).trans ?_
    have hdone : solo key gen (Program.done (QuerySetCache.validatePresent
        (scopes.map fun scope ↦ (scope, batchValue tokens (key scope)))) :
          TokenProgram _) tokens n =
        (.ok present, tokens, n) := by
      rw [hpresent]
      rfl
    refine (solo_bind_ok hdone).trans ?_
    rw [missing_eq]
    exact solo_bind_ok hr
  · rcases List.mem_append.mp hentry with hentry | hentry
    · have hold := hvalid entry hentry
      exact hold.kept (installAll_present hold.present)
    · exact htokens entry hentry

variable (gen) in
theorem solo_batchTokens_error (h : ¬Clean key tokens scopes) :
    ∃ x, (solo key gen (batchTokens scopes) tokens n).1 = .error x := by
  have hbatch : solo key gen (batchTokens scopes) tokens n = solo key gen (do
      let present ← (Program.done (QuerySetCache.validatePresent
        (scopes.map fun scope ↦ (scope, batchValue tokens (key scope)))) : TokenProgram _)
      let r ← getEach (missing key tokens scopes)
      return present ++ r) tokens n := by
    refine (solo_bind_ok solo_readBatch).trans ?_
    refine (solo_bind_ok (p := ask .wellFormed) rfl).trans ?_
    rw [← missing_eq]
    rfl
  rw [hbatch]
  cases hpresent : QuerySetCache.validatePresent
      (scopes.map fun scope ↦ (scope, batchValue tokens (key scope))) with
  | error x => exact ⟨x, rfl⟩
  | ok present =>
      obtain ⟨-, -, hvalid⟩ := validatePresent_ok hpresent
      -- What is corrupt is not a string, so a single read meets it.
      have hmissing : ¬Clean key tokens (missing key tokens scopes) := by
        intro hclean
        apply h
        intro s hs hstored
        cases hvalue : batchValue tokens (key s) with
        | none =>
            have hleft : s ∈ missing key tokens scopes :=
              List.mem_filter.mpr ⟨hs, by rw [hvalue, Option.isNone_none]⟩
            exact hclean s hleft hstored
        | some raw =>
            have hread : (s, some raw) ∈
                scopes.map fun scope ↦ (scope, batchValue tokens (key scope)) := by
              rw [← hvalue]
              exact List.mem_map_of_mem hs
            obtain ⟨token, htoken⟩ := hvalid s raw hread
            refine ⟨token, raw, ?_, htoken⟩
            unfold batchValue at hvalue
            split at hvalue
            next r hraw =>
              cases hvalue
              exact hraw
            next => cases hvalue
      show ∃ x, (solo key gen (do
        let r ← getEach (missing key tokens scopes)
        return present ++ r) tokens n).1 = .error x
      exact solo_bind_error (solo_getEach_error gen hmissing)

theorem solo_yields (key : Scope → Str) (gen : ℕ → {s // IsGeneration s}) (p : TokenProgram α)
    (tokens : TokenStore) (n : ℕ) :
    ∃ tr, Yields p tr (solo key gen p tokens n).1 := by
  induction p generalizing tokens n with
  | done v => exact ⟨[], .refl _⟩
  | step e k ih =>
      obtain ⟨tr, htr⟩ := ih (serve key (gen n) tokens e).1 (serve key (gen n) tokens e).2
        (n + e.draws)
      exact ⟨_, .step htr⟩

/-- Both runs return or both raise, and if they return they leave the same
tokens and return the same map. -/
structure SameTokens (b e : Except CacheError (List (Scope × Str)) × TokenStore × ℕ) : Prop where
  returns : (∃ r, b.1 = .ok r) ↔ ∃ r, e.1 = .ok r
  tokens : ∀ r r', b.1 = .ok r → e.1 = .ok r' →
    b.2.1 = e.2.1 ∧ ∀ scope, r.lookup scope = r'.lookup scope

theorem lookup_valid {r : List (Scope × Str)} (hkeys : ∀ s, s ∈ r.map Prod.fst ↔ s ∈ scopes)
    (h : ∀ entry ∈ r, Valid tokens (key entry.1) entry.2) (scope : Scope) :
    scope ∉ scopes ∧ r.lookup scope = none ∨
      ∃ token, scope ∈ scopes ∧ r.lookup scope = some token ∧ Valid tokens (key scope) token := by
  cases hlookup : r.lookup scope with
  | none =>
      refine .inl ⟨fun hscope ↦ ?_, rfl⟩
      obtain ⟨entry, hentry, hfst⟩ := List.mem_map.mp ((hkeys scope).mpr hscope)
      have hne := List.lookup_eq_none_iff.mp hlookup entry hentry
      simp [hfst] at hne
  | some token =>
      obtain ⟨l₁, l₂, hr, -⟩ := List.lookup_eq_some_iff.mp hlookup
      have hentry : (scope, token) ∈ r := by simp [hr]
      exact .inr ⟨token, (hkeys scope).mp (List.mem_map_of_mem hentry), rfl, h _ hentry⟩

/-- Without interference the batch read is the same as the single reads. -/
theorem solo_getGenerations (key : Scope → Str) (gen : ℕ → {s // IsGeneration s})
    (tokens : TokenStore) (n : ℕ) (scopes : List Scope) :
    SameTokens (solo key gen (getGenerations true scopes) tokens n)
      (solo key gen (getEach scopes) tokens n) := by
  by_cases hclean : Clean key tokens scopes
  · obtain ⟨r', hr', hkeys', hvalid'⟩ := solo_getEach gen (n := n) hclean
    have hbatch : ∃ r, solo key gen (getGenerations true scopes) tokens n =
          (.ok r, installAll key gen scopes tokens n) ∧
        ∀ entry ∈ r, Valid (installAll key gen scopes tokens n).1 (key entry.1) entry.2 := by
      have hdistinct : Clean key tokens scopes.eraseDups :=
        fun s hs ↦ hclean s (List.mem_eraseDups.mp hs)
      rw [← installAll_eraseDups]
      unfold getGenerations
      generalize scopes.eraseDups = distinct at hdistinct ⊢
      cases distinct with
      | nil => exact ⟨[], rfl, nofun⟩
      | cons scope rest =>
          obtain ⟨r, hr, hvalid⟩ := solo_batchTokens gen (n := n) hdistinct
          refine ⟨r, solo_orUnavailable_ok ?_, hvalid⟩
          exact (solo_bind_ok (p := ask .writer) rfl).trans hr
    obtain ⟨r, hr, hvalid⟩ := hbatch
    constructor
    · rw [hr, hr']
      exact ⟨fun _ ↦ ⟨r', rfl⟩, fun _ ↦ ⟨r, rfl⟩⟩
    · intro q q' hq hq'
      have hyields := solo_yields key gen (getGenerations true scopes) tokens n
      rw [hr] at hq hyields
      rw [hr'] at hq'
      cases hq
      cases hq'
      obtain ⟨tr, htr⟩ := hyields
      obtain ⟨-, hkeys, -⟩ := read_getGenerations htr
      refine ⟨by rw [hr, hr'], fun scope ↦ ?_⟩
      have hkeys₂ : ∀ s, s ∈ r'.map Prod.fst ↔ s ∈ scopes := by
        intro s
        rw [hkeys']
      rcases lookup_valid hkeys hvalid scope with ⟨hout, hnone⟩ | ⟨token, hin, hsome, htoken⟩
      · rcases lookup_valid hkeys₂ hvalid' scope with ⟨-, hnone'⟩ | ⟨token, hin, -⟩
        · rw [hnone, hnone']
        · exact absurd hin hout
      · rcases lookup_valid hkeys₂ hvalid' scope with ⟨hout, -⟩ | ⟨token', -, hsome', htoken'⟩
        · exact absurd hin hout
        · rw [hsome, hsome', htoken.unique htoken']
  · obtain ⟨x', hx'⟩ := solo_getEach_error gen (n := n) hclean
    have hbatch : ∃ x, (solo key gen (getGenerations true scopes) tokens n).1 = .error x := by
      have hdistinct : ¬Clean key tokens scopes.eraseDups :=
        fun h ↦ hclean fun s hs ↦ h s (List.mem_eraseDups.mpr hs)
      unfold getGenerations
      generalize scopes.eraseDups = distinct at hdistinct ⊢
      cases distinct with
      | nil => exact absurd (fun _ ↦ nofun) hdistinct
      | cons scope rest =>
          apply solo_orUnavailable_error
          rw [solo_bind_ok (p := ask .writer) rfl]
          exact solo_batchTokens_error gen hdistinct
    obtain ⟨x, hx⟩ := hbatch
    constructor
    · rw [hx, hx']
      exact ⟨nofun, nofun⟩
    · intro r r' hr
      rw [hx] at hr
      cases hr

end Solo

section Runs

open GenerationBackend

variable {T : Type} [DecidableEq T] {key : Scope → Str} {readMany : Bool}
  {call : T → GenerationCall} {tokens : TokenStore} {p : TokenPool T}

/-- The events of a thread, which are those during its call. -/
def TokenWorld.events (w : TokenWorld T) (t : T) :
    List (Event TokenEffect TokenEffect.Reply CacheError) :=
  (w.log.filter fun ev ↦ ev.thread = t).map TokenEvent.event

/-- A read shows what was stored, and no stored token is replaced. -/
def Recorded (key : Scope → Str) (ev : TokenEvent T) : Prop :=
  (∀ scope raw, Reads ev.event scope raw → ev.before (key scope) = some (.raw raw)) ∧
    ∀ k v, ev.before k = some v → ev.after k = some v

omit [DecidableEq T] in
theorem serve_reads {fresh : Str} {e : TokenEffect} {scope : Scope} {raw : Raw}
    (h : Reads ⟨e, (tokens.serve key fresh e).1⟩ scope raw) :
    tokens (key scope) = some (.raw raw) := by
  rcases h with h | h
  · obtain ⟨he, hr⟩ := Event.mk.inj h
    subst he
    have hr := eq_of_heq hr
    cases hstored : tokens (key scope) with
    | none => simp [TokenStore.serve, hstored] at hr
    | some stored => cases stored <;> simp_all [TokenStore.serve]
  · obtain ⟨he, hr⟩ := Event.mk.inj h
    subst he
    have hr := eq_of_heq hr
    cases hstored : tokens (key scope) with
    | none => simp [TokenStore.serve, hstored] at hr
    | some stored => cases stored <;> simp_all [TokenStore.serve]

theorem serve_keeps {fresh : Str} {e : TokenEffect} (he : Careful e) {k : Str} {v : StoredToken}
    (h : tokens k = some v) : (tokens.serve key fresh e).2 k = some v := by
  cases e with
  | get scope =>
      unfold TokenStore.serve
      dsimp only
      split <;> exact h
  | batchGet scope =>
      unfold TokenStore.serve
      dsimp only
      split <;> exact h
  | write scope token onlyIfAbsent =>
      cases he
      exact (write_present (by rw [h]; exact nofun) _ _).trans h
  | _ => exact h

omit [DecidableEq T] in
theorem recorded_perform {t : T} {e : TokenEffect} (he : Careful e) {c : TokenChoice}
    {r : Except CacheError e.Reply} {after : TokenStore}
    (h : tokens.perform key e c = some (r, after)) :
    Recorded key (⟨t, ⟨e, r⟩, tokens, after⟩ : TokenEvent T) := by
  cases c with
  | served fresh =>
      obtain ⟨hr, hafter⟩ := Prod.ext_iff.mp (Option.some.inj h)
      obtain rfl : _ = r := hr
      obtain rfl : _ = after := hafter
      exact ⟨fun _ _ hreads ↦ serve_reads hreads, fun _ _ hk ↦ serve_keeps he hk⟩
  | fail x applied =>
      cases h
      refine ⟨fun scope raw hreads ↦ ?_, fun k v hk ↦ ?_⟩
      · rcases hreads with hreads | hreads <;>
          · obtain ⟨rfl, hr⟩ := Event.mk.inj hreads
            cases eq_of_heq hr
      · dsimp only
        split
        · exact serve_keeps he hk
        · exact hk
  | malformed =>
      cases e with
      | wellFormed =>
          cases h
          refine ⟨fun scope raw hreads ↦ ?_, fun _ _ hk ↦ hk⟩
          rcases hreads with hreads | hreads <;> cases hreads
      | _ => cases h
  | change k v => cases h

/-- What is logged was stored when it was read, and no write replaced a token. -/
theorem run_recorded
    (h : Reaches (tokenStep key readMany call) Always (Pool.start ⟨tokens, []⟩) p) :
    ∀ ev ∈ p.world.log, Recorded key ev := by
  have hcareful : ∀ t, ((call t).program readMany).Within Careful fun _ _ ↦ True := by
    intro t
    cases call t with
    | one scope =>
        apply ((oneByOne_getGeneration scope).mono OneByOne.careful).bind
        exact fun _ ↦ trivial
    | many scopes => exact careful_getGenerations readMany scopes
  refine Pool.invariant_within (G := fun w ↦ ∀ ev ∈ w.log, Recorded key ev)
    (fun ev hev ↦ absurd hev List.not_mem_nil) ?_ ?_ hcareful h
  · intro t e c w r w' he hw hperform
    obtain ⟨⟨r', after⟩, hserved, heq⟩ := Option.map_eq_some_iff.mp hperform
    cases heq
    refine ⟨trivial, fun ev hev ↦ ?_⟩
    rcases List.mem_append.mp hev with hev | hev
    · exact hw ev hev
    · rw [List.mem_singleton.mp hev]
      exact recorded_perform he hserved
  · intro c w w' hw henv
    cases c with
    | change k v =>
        cases henv
        exact hw
    | _ => cases henv

/-- The events of a thread that has ended are a trace of its call. -/
theorem run_yields
    (h : Reaches (tokenStep key readMany call) Always (Pool.start ⟨tokens, []⟩) p) {t : T}
    {v : Except CacheError (List (Scope × Str))} (hv : p.outcome t = some v) :
    Yields ((call t).program readMany) (p.world.events t) v := by
  refine Pool.yields_of_outcome TokenWorld.events (fun _ ↦ rfl) ?_ ?_ h hv
  · intro t e c w r w' hperform
    obtain ⟨⟨r', after⟩, -, heq⟩ := Option.map_eq_some_iff.mp hperform
    cases heq
    constructor
    · simp [TokenWorld.events]
    · intro u hu
      simp [TokenWorld.events, hu.symm]
  · intro c w w' henv
    cases c with
    | change k v =>
        cases henv
        rfl
    | _ => cases henv

theorem call_read {c : GenerationCall} {tr : List (Event TokenEffect TokenEffect.Reply CacheError)}
    {result : List (Scope × Str)} (h : Yields (c.program readMany) tr (.ok result)) :
    (result.map Prod.fst).Nodup ∧ (∀ scope, scope ∈ result.map Prod.fst ↔ scope ∈ c.scopes) ∧
      ∀ entry ∈ result, ReadToken tr entry.1 entry.2 := by
  cases c with
  | one scope =>
      rcases h.bind with ⟨tr₁, tr₂, token, htr, hget, hend⟩ | ⟨x, -, hraised⟩
      · obtain ⟨hnil, hok⟩ := yields_done_iff.mp hend
        cases hok
        refine ⟨List.nodup_singleton _, fun _ ↦ Iff.refl _, fun entry hentry ↦ ?_⟩
        rw [List.mem_singleton.mp hentry, htr, hnil, List.append_nil]
        exact read_getGeneration hget
      · cases hraised
  | many scopes => exact read_getGenerations h

theorem call_corrupt {c : GenerationCall}
    {tr : List (Event TokenEffect TokenEffect.Reply CacheError)}
    {v : Except CacheError (List (Scope × Str))} (h : Yields (c.program readMany) tr v)
    {scope : Scope} {raw : Raw} {x : CacheError}
    (hmem : ⟨.batchGet scope, .ok (some raw)⟩ ∈ tr) (hraw : validateGeneration raw = .error x) :
    v = .error .generationUnavailable ∧ ∀ ev ∈ tr, ReadsOnly ev.effect := by
  cases c with
  | one scope =>
      have hwithin := (oneByOne_getGeneration scope).bind
        (f := fun token ↦ (pure [(scope, token)] : TokenProgram _)) fun _ ↦ trivial
      exact (h.within hwithin _ hmem).elim
  | many scopes => exact getGenerations_corrupt h hmem hraw

theorem isGeneration_of_valid {raw : Raw} {token : Str} (h : validateGeneration raw = .ok token) :
    IsGeneration token := by
  unfold validateGeneration at h
  dsimp only at h
  split at h
  · split at h
    next hform =>
      cases h
      exact hform
    next => cases h
  · cases h

end Runs

section Sample

def sampleToken : {s // IsGeneration s} := ⟨List.replicate 32 'a', by decide⟩

/-- A batch of a present and a missing scope, while another process
initializes the missing one. -/
def batchTurns : List (Turn Unit TokenChoice) :=
  [.begin (), .act () (.served sampleToken), .act () (.served sampleToken),
    .act () (.served sampleToken), .act () (.served sampleToken), .act () (.served sampleToken),
    .act () (.served sampleToken),
    .environment (.change ['y'] (some (.raw (.str sampleToken)))),
    .act () (.served sampleToken), .act () (.served sampleToken), .act () (.served sampleToken)]

def batchCall : Unit → GenerationCall := fun _ ↦ .many [⟨['x'], []⟩, ⟨['y'], []⟩, ⟨['x'], []⟩]

def batchStore : TokenStore := fun k ↦ if k = ['x'] then some (.raw (.str sampleToken)) else none

/-- No token for `x`, and a value that is not a token for `y`. -/
def corruptStore : TokenStore := fun k ↦ if k = ['y'] then some (.raw (.str ['?'])) else none

end Sample

end DjangoNova
