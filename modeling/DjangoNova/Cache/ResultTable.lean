import DjangoNova.Cache.CalmStore

/-!
# A calm cache is a table of results

When calls come one after another and nothing fails, a cache with all its
processes behaves as one table from queries to rows: a fill stores its rows
for every query with the same result, an invalidation removes the rows of
the queries that it reaches and no others, and a lookup reads the table.
-/

namespace DjangoNova

open Program QuerySetCache

/-- A finished call; `inside` tells whether its caller was in a transaction. -/
structure CalmCall (T Sql D : Type) where
  thread : T
  inside : Bool
  call : CacheCall Sql
  answer : Except CacheError (CacheResult (Rows D))

namespace CalmCall

variable {T Sql D : Type}

/-- What was asked, without who asked it. -/
def request (x : CalmCall T Sql D) : Bool × CacheCall Sql := (x.inside, x.call)

def missed (x : CalmCall T Sql D) : Bool :=
  match x.answer with
  | .ok .miss => true
  | _ => false

/-- Some call asks for the query. -/
def Asked (calls : List (CalmCall T Sql D)) (q : PreparedQuery Sql) : Prop :=
  ∃ x ∈ calls, x.call = .get q ∨ x.call = .getOrSet q

end CalmCall

/-- Calls in turn from one world to another; each runs to its end without a fault. -/
inductive SequentialRun {T P Sql D : Type} [DecidableEq T] [DecidableEq P] (d : Deployment Sql)
    (proc : T → P) : CacheWorld T P Sql D → List (CalmCall T Sql D) → CacheWorld T P Sql D → Prop
  | nil (w : CacheWorld T P Sql D) : SequentialRun d proc w [] w
  | cons {w w₁ w' : CacheWorld T P Sql D} {x : CalmCall T Sql D} {rest : List (CalmCall T Sql D)}
      (hcall : Runs ((CacheWorld.machine proc).acts (CacheChoice.calm x.inside) x.thread)
        (x.call.program d) w x.answer w₁) (hrest : SequentialRun d proc w₁ rest w') :
      SequentialRun d proc w (x :: rest) w'

deriving instance DecidableEq for CacheResult

section Play

variable {T P Sql D : Type} [DecidableEq T] [DecidableEq P] [DecidableEq D] {d : Deployment Sql}
  {proc : T → P}

/-- Make the calls, each on its own choices, and check their answers. -/
def playCalls (d : Deployment Sql) (proc : T → P) :
    List (CalmCall T Sql D) → List (List (CacheChoice D)) → CacheWorld T P Sql D → Bool
  | [], [], _ => true
  | x :: rest, cs :: choices, w =>
      match along (CacheWorld.machine proc) (CacheChoice.calm x.inside) x.thread
        (x.call.program d) cs w with
      | some (a, w') => a = x.answer && playCalls d proc rest choices w'
      | none => false
  | _, _, _ => false

theorem run_of_playCalls {calls : List (CalmCall T Sql D)} (choices : List (List (CacheChoice D)))
    {w : CacheWorld T P Sql D} (h : playCalls d proc calls choices w = true) :
    ∃ w', SequentialRun d proc w calls w' := by
  induction calls generalizing choices w with
  | nil => exact ⟨w, .nil w⟩
  | cons x rest ih =>
      cases choices with
      | nil => cases h
      | cons cs choices =>
          unfold playCalls at h
          split at h
          · rename_i a w₁ halong
            obtain ⟨hanswer, hrest⟩ := Bool.and_eq_true_iff.mp h
            obtain ⟨w', hrun⟩ := ih choices hrest
            refine ⟨w', .cons (runs_of_along cs ?_) hrun⟩
            rw [halong, of_decide_eq_true hanswer]
          · cases h

end Play

/-- The exceptions of the dependency analysis after which the call uses plain SQL. -/
def CacheError.bypasses : CacheError → Bool
  | .uncacheableQuery | .generationUnavailable => true
  | _ => false

abbrev ResultTable (Sql D : Type) : Type := PreparedQuery Sql → Option (Rows D)

namespace ResultTable

variable {T Sql D : Type} (d : Deployment Sql)

open Classical in
/-- The rows of every query with the same result. -/
noncomputable def store (t : ResultTable Sql D) (q : PreparedQuery Sql) (v : Rows D) :
    ResultTable Sql D :=
  fun q' ↦ if q'.SameResult d q then some v else t q'

open Classical in
/-- The table without the queries that depend on the model on the database. -/
noncomputable def without (t : ResultTable Sql D) (modelName db : Str) : ResultTable Sql D :=
  fun q ↦ if DependsOn d q modelName db then none else t q

def found : Option (Rows D) → CacheResult (Rows D)
  | some v => .rows v
  | none => .miss

/-- The answer is the one that the table gives. -/
def Agrees (t : ResultTable Sql D) (x : CalmCall T Sql D) : Prop :=
  match x.call with
  | .get q =>
      if x.inside then x.answer = .ok .miss
      else match q.dependencies with
        | .ok _ => x.answer = .ok (found (t q))
        | .error e => x.answer = if e.bypasses then .ok .miss else .error e
  | .getOrSet q =>
      if x.inside then ∃ v, x.answer = .ok (.rows v)
      else match q.dependencies with
        | .ok _ => ∃ v, x.answer = .ok (.rows v) ∧ ∀ v', t q = some v' → v = v'
        | .error e =>
            if e.bypasses then ∃ v, x.answer = .ok (.rows v) else x.answer = .error e
  | .invalidateModel _ _ => ∃ n, x.answer = .ok (.count n)
  | .clear => x.answer = .ok .unit

open Classical in
/-- The table after the call. -/
noncomputable def after (t : ResultTable Sql D) (x : CalmCall T Sql D) : ResultTable Sql D :=
  match x.call, x.answer with
  | .getOrSet q, .ok (.rows v) => if x.inside = false ∧ q.Cacheable then t.store d q v else t
  | .invalidateModel modelName db, _ => t.without d modelName db
  | .clear, _ => fun _ ↦ none
  | _, _ => t

/-- The table gives the answers of all calls, in their order. -/
def Explains (t : ResultTable Sql D) : List (CalmCall T Sql D) → Prop
  | [] => True
  | x :: rest => t.Agrees x ∧ Explains (t.after d x) rest

end ResultTable

/-- The filled queries after a call: it adds the query that it fills or hits,
or removes those that it reaches. -/
def CalmCall.filledAfter {T Sql D : Type} (d : Deployment Sql) (filled : PreparedQuery Sql → Prop)
    (x : CalmCall T Sql D) : PreparedQuery Sql → Prop :=
  match x.call, x.answer with
  | .get q, .ok (.rows _) => fun q' ↦ filled q' ∨ q' = q
  | .get _, _ => filled
  | .getOrSet q, _ => fun q' ↦ filled q' ∨ (x.inside = false ∧ q.Cacheable) ∧ q' = q
  | .invalidateModel modelName db, _ =>
      fun q' ↦ filled q' ∧ ¬CalmServer.Reached d filled q' modelName db
  | .clear, _ => fun _ ↦ False

namespace CalmServer

open ResultTable CacheWorld

variable {T P Sql D : Type} {d : Deployment Sql} {known filled : PreparedQuery Sql → Prop}
  {c c' : CalmServer P D} {q q' : PreparedQuery Sql} {v v' : Rows D} {t : ResultTable Sql D}

/-- The table has what the server holds. -/
def Represents (d : Deployment Sql) (known : PreparedQuery Sql → Prop) (t : ResultTable Sql D)
    (c : CalmServer P D) : Prop :=
  ∀ q, known q → q.Cacheable → ∀ v, t q = some v ↔ Holds d c q v

/-- What a call leaves: its filled queries, and where keys determine scopes a
server that the table after it represents, if the one before was represented. -/
def Follows (d : Deployment Sql) (known filled : PreparedQuery Sql → Prop) (c : CalmServer P D)
    (x : CalmCall T Sql D) (c' : CalmServer P D) : Prop :=
  Sound d known (x.filledAfter d filled) c' ∧ (KeyScopes d known → ∀ t,
    Represents d known t c → t.Agrees x ∧ Represents d known (t.after d x) c')

/-- Where keys determine scopes, the call reaches the rows of the queries that
depend on the model. -/
theorem reached_iff_of_holds (hs : Suits P d known) (hc : Sound d known filled c)
    (hk : KeyScopes d known) (hknown : known q) (hq : q.Cacheable) (hv : Holds d c q v)
    {modelName db : Str} : Reached d filled q modelName db ↔ DependsOn d q modelName db := by
  cases hd : d.generation with
  | true => exact reached_iff_dependsOn hd hq
  | false =>
      constructor
      · rintro ⟨q', hfilled, hq', hsame, hdep⟩
        have hresult := hk.same hsame (hc.held q' (hfilled hd)).1 hknown hq' hq
        exact (PreparedQuery.dependsOn_of_scopes hresult.scopes hq' hq).mp hdep
      · intro hdep
        obtain ⟨tokens, hvector, hentry⟩ := hv
        obtain ⟨q', tokens', hmade, hfilled⟩ := hc.entries _ _ hentry
        have hsame := (hs.same hmade (hvector.made hc.valid hknown hq)).2
        have hresult := hk.same hsame hmade.known hknown hmade.cacheable hq
        exact ⟨q', hfilled, hmade.cacheable, hsame,
          (PreparedQuery.dependsOn_of_scopes hresult.scopes hmade.cacheable hq).mpr hdep⟩

section Calls

variable [DecidableEq P] {p : P} {thread : T} {inside own : Bool} {e : CacheError}

theorem get_error (hq : q.dependencies = .error e) :
    Ensures (acts p false)
      (QuerySetCache.get d q : CacheProgram Sql (Rows D) (Option (Rows D))) c
      fun cached c' ↦ cached = (if e.bypasses then .ok none else .error e) ∧ c' = c := by
  refine ensures_andThen.mpr fun u c₁ hu ↦ ?_
  obtain ⟨b, rfl, rfl, rfl⟩ := gives_transactional u c₁ hu
  have hsnapshot : (keySnapshot d q : CacheProgram Sql (Rows D) KeySnapshot) =
      .done (.error e) := by
    unfold keySnapshot
    rw [hq]
    rfl
  show Ensures _ ((keySnapshot d q).andThen _) c₁ _
  rw [hsnapshot, andThen_done]
  intro cached c' hrun
  cases e <;> obtain ⟨rfl, rfl⟩ := runs_done_iff.mp hrun <;> exact ⟨rfl, rfl⟩

/-- A value of `get` becomes the answer of the call. -/
theorem get_program {Q : Option (Rows D) → CalmServer P D → Prop}
    (h : Gives (acts p inside) (QuerySetCache.get d q) c Q) :
    Ensures (acts p inside) ((CacheCall.get q).program d) c
      fun a c' ↦ ∃ r, a = .ok (found r) ∧ Q r c' := by
  refine ensures_andThen.mpr fun u c₁ hu ↦ ?_
  obtain ⟨r, rfl, hr⟩ := h u c₁ hu
  intro a c' hrun
  cases r <;> obtain ⟨rfl, rfl⟩ := runs_done_iff.mp hrun <;> exact ⟨_, rfl, hr⟩

theorem get_follows (hs : Suits P d known) (hd : d.returnsDetached = .ok own)
    (hc : Sound d known filled c) (hknown : known q) :
    Ensures (acts p inside) ((CacheCall.get q).program d) c
      fun a c' ↦ Follows d known filled c ⟨thread, inside, .get q, a⟩ c' := by
  intro a c' hrun
  cases inside with
  | true =>
      obtain ⟨r, rfl, rfl, rfl⟩ := get_program gives_get_inside a c' hrun
      exact ⟨hc, fun _ t ht ↦ ⟨rfl, ht⟩⟩
  | false =>
      cases hdeps : q.dependencies with
      | ok dependencies =>
          have hq : q.Cacheable := ⟨dependencies, hdeps⟩
          obtain ⟨r, rfl, hr, hsound, hholds⟩ :=
            get_program (gives_get_rows hs hc hd hknown hq) a c' hrun
          refine ⟨?_, fun _ t ht ↦ ⟨?_, fun q' hknown' hq' v ↦ ?_⟩⟩
          · cases r with
            | none => simpa [CalmCall.filledAfter, found] using hsound
            | some v => simpa [CalmCall.filledAfter, found] using hsound
          · have htable : t q = r := Option.ext fun v ↦ (ht q hknown hq v).trans (hr v).symm
            simp only [Agrees, Bool.false_eq_true, if_false, hdeps, htable]
          · rw [hholds q' hknown' hq', ← ht q' hknown' hq']
            rfl
      | error e =>
          obtain ⟨u, c₁, hu, hrest⟩ := runs_andThen_iff.mp hrun
          obtain ⟨houtcome, rfl⟩ := get_error hdeps u c₁ hu
          suffices hanswer : a = (if e.bypasses then .ok .miss else .error e) ∧ c₁ = c' by
            obtain ⟨rfl, rfl⟩ := hanswer
            refine ⟨?_, fun _ t ht ↦ ⟨?_, ht⟩⟩
            · cases hb : e.bypasses <;> simpa [CalmCall.filledAfter] using hc
            · simp only [Agrees, Bool.false_eq_true, if_false, hdeps]
          subst houtcome
          cases hb : e.bypasses <;> rw [hb] at hrest <;>
            obtain ⟨rfl, rfl⟩ := runs_done_iff.mp hrest <;> exact ⟨rfl, rfl⟩

/-- A value of `get_or_set` becomes the answer of the call. -/
theorem getOrSet_program {Q : Rows D → CalmServer P D → Prop}
    (h : Gives (acts p inside) (QuerySetCache.getOrSet d q) c Q) :
    Gives (acts p inside) ((CacheCall.getOrSet q).program d) c
      fun a c' ↦ ∃ v, a = .rows v ∧ Q v c' :=
  h.bind fun v _ hv ↦ gives_pure ⟨v, rfl, hv⟩

theorem getOrSet_error (hq : q.dependencies = .error e) :
    Ensures (acts p false) ((CacheCall.getOrSet q).program d) c fun a c' ↦ c' = c ∧
      if e.bypasses then ∃ v : Rows D, a = .ok (.rows v) else a = .error e := by
  refine ensures_andThen.mpr (ensures_andThen.mpr fun u c₁ hu ↦ ?_)
  obtain ⟨b, rfl, rfl, rfl⟩ := gives_transactional u c₁ hu
  have hsnapshot : (keySnapshot d q : CacheProgram Sql (Rows D) KeySnapshot) =
      .done (.error e) := by
    unfold keySnapshot
    rw [hq]
    rfl
  show Ensures _ ((keySnapshot d q).andThen _) c₁ _
  rw [hsnapshot, andThen_done]
  intro u c₂ hu a c' hrun
  cases e with
  | uncacheableQuery | generationUnavailable =>
      obtain ⟨v, rfl, rfl⟩ := gives_runSql u c₂ hu
      obtain ⟨rfl, rfl⟩ := runs_done_iff.mp hrun
      exact ⟨rfl, (if_pos rfl).mpr ⟨v, rfl⟩⟩
  | typeError | raised origin =>
      obtain ⟨rfl, rfl⟩ := runs_done_iff.mp hu
      obtain ⟨rfl, rfl⟩ := runs_done_iff.mp hrun
      exact ⟨rfl, rfl⟩

theorem getOrSet_follows (hs : Suits P d known) (hd : d.returnsDetached = .ok own)
    (hc : Sound d known filled c) (hknown : known q) :
    Ensures (acts p inside) ((CacheCall.getOrSet q).program d) c
      fun a c' ↦ Follows d known filled c ⟨thread, inside, .getOrSet q, a⟩ c' := by
  intro a c' hrun
  cases inside with
  | true =>
      obtain ⟨_, rfl, v, rfl, rfl⟩ := getOrSet_program gives_getOrSet_inside a c' hrun
      refine ⟨by simpa [CalmCall.filledAfter] using hc, fun _ t ht ↦ ⟨⟨v, rfl⟩, ?_⟩⟩
      simpa only [after, Bool.true_eq_false, false_and, if_false] using ht
  | false =>
      cases hdeps : q.dependencies with
      | ok dependencies =>
          have hq : q.Cacheable := ⟨dependencies, hdeps⟩
          obtain ⟨_, rfl, v, rfl, hv, hsound, hholds⟩ :=
            getOrSet_program (gives_getOrSet_rows hs hc hd hknown hq) a c' hrun
          refine ⟨by simpa [CalmCall.filledAfter, hq] using hsound, fun hk t ht ↦ ⟨?_, ?_⟩⟩
          · simp only [Agrees, Bool.false_eq_true, if_false, hdeps]
            exact ⟨v, rfl, fun v' hv' ↦ hv v' ((ht q hknown hq v').mp hv')⟩
          · have hafter : t.after d ⟨thread, false, .getOrSet q, .ok (.rows v)⟩ =
                t.store d q v := if_pos ⟨rfl, hq⟩
            rw [hafter]
            intro q' hknown' hq' v'
            have hsame : q'.SameResult d q ↔ q'.SameKey d q :=
              ⟨PreparedQuery.SameResult.sameKey, fun h ↦ hk.same h hknown' hknown hq' hq⟩
            rw [hholds q' hknown' hq', ← ht q' hknown' hq', ResultTable.store, ← hsame]
            split <;> simp_all [eq_comm]
      | error e =>
          obtain ⟨rfl, hanswer⟩ := getOrSet_error hdeps a c' hrun
          have hnot : ¬q.Cacheable := by
            rintro ⟨dependencies, hok⟩
            rw [hdeps] at hok
            cases hok
          refine ⟨by simpa [CalmCall.filledAfter, hnot] using hc, fun _ t ht ↦ ⟨?_, ?_⟩⟩
          · simp only [Agrees, Bool.false_eq_true, if_false, hdeps]
            exact hanswer
          · have hafter : t.after d ⟨thread, false, .getOrSet q, a⟩ = t := by
              unfold after
              split <;> simp_all
            rw [hafter]
            exact ht

/-- The count of `invalidate_model` becomes the answer of the call. -/
theorem invalidateModel_program (hs : Suits P d known) (hc : Sound d known filled c)
    {modelName db : Str} :
    Ensures (acts p inside) ((CacheCall.invalidateModel modelName db).program d) c
      fun a c' ↦ (∃ n, a = .ok (.count n)) ∧
        Sound d known (fun q ↦ filled q ∧ ¬Reached d filled q modelName db) c' ∧
        ∀ q, known q → q.Cacheable → ∀ v,
          Holds d c' q v ↔ Holds d c q v ∧ ¬Reached d filled q modelName db := by
  refine ensures_andThen.mpr fun u c₁ hu ↦ ?_
  obtain ⟨n, rfl, hn⟩ := gives_invalidateModel_rows hs hc modelName db u c₁ hu
  intro a c' hrun
  obtain ⟨rfl, rfl⟩ := runs_done_iff.mp hrun
  exact ⟨⟨n, rfl⟩, hn⟩

theorem invalidateModel_follows (hs : Suits P d known) (hc : Sound d known filled c)
    (modelName db : Str) :
    Ensures (acts p inside) ((CacheCall.invalidateModel modelName db).program d) c
      fun a c' ↦
        Follows d known filled c ⟨thread, inside, .invalidateModel modelName db, a⟩ c' := by
  intro a c' hrun
  obtain ⟨⟨n, rfl⟩, hsound, hholds⟩ := invalidateModel_program hs hc a c' hrun
  refine ⟨hsound, fun hk t ht ↦ ⟨⟨n, rfl⟩, fun q hknown hq v ↦ ?_⟩⟩
  show t.without d modelName db q = some v ↔ _
  rw [hholds q hknown hq, ResultTable.without]
  split
  · rename_i hdep
    refine iff_of_false nofun fun h ↦ h.2 ?_
    exact (reached_iff_of_holds hs hc hk hknown hq h.1).mpr hdep
  · rename_i hdep
    rw [ht q hknown hq]
    exact (and_iff_left_of_imp fun hv hreached ↦
      hdep ((reached_iff_of_holds hs hc hk hknown hq hv).mp hreached)).symm

theorem clear_follows (hs : Suits P d known) (hc : Sound d known filled c) :
    Ensures (acts p inside) (CacheCall.clear.program d) c
      fun a c' ↦ Follows d known filled c ⟨thread, inside, .clear, a⟩ c' := by
  intro a c' hrun
  have hprogram : Gives (acts p inside) (CacheCall.clear.program d) c
      fun a c' ↦ a = .unit ∧ Sound d known (fun _ ↦ False) c' ∧ ∀ q v, ¬Holds d c' q v :=
    (gives_clear_rows hs hc).bind fun _ _ hn ↦ gives_pure ⟨rfl, hn⟩
  obtain ⟨_, rfl, rfl, hsound, hholds⟩ := hprogram a c' hrun
  exact ⟨hsound, fun _ t _ ↦ ⟨rfl, fun q _ _ v ↦ iff_of_false nofun (hholds q v)⟩⟩

theorem call_follows (hs : Suits P d known) (hd : d.returnsDetached = .ok own)
    (hc : Sound d known filled c) {call : CacheCall Sql}
    (hknown : ∀ q, call = .get q ∨ call = .getOrSet q → known q) :
    Ensures (acts p inside) (call.program d) c
      fun a c' ↦ Follows d known filled c ⟨thread, inside, call, a⟩ c' := by
  cases call with
  | get q => exact get_follows hs hd hc (hknown q (.inl rfl))
  | getOrSet q => exact getOrSet_follows hs hd hc (hknown q (.inr rfl))
  | invalidateModel modelName db => exact invalidateModel_follows hs hc modelName db
  | clear => exact clear_follows hs hc

end Calls

/-- A run from a sound server ends in one with the filled queries of its calls. -/
theorem sound_of_run [DecidableEq P] [DecidableEq T] {proc : T → P} {own : Bool}
    {w w' : CacheWorld T P Sql D} {calls : List (CalmCall T Sql D)}
    (hs : Suits P d known) (hd : d.returnsDetached = .ok own)
    (hrun : SequentialRun d proc w calls w')
    (hknown : ∀ q, CalmCall.Asked calls q → known q) (hw : Reduces w c)
    (hc : Sound d known filled c) :
    ∃ c', Reduces w' c' ∧ Sound d known (calls.foldl (CalmCall.filledAfter d) filled) c' ∧
      (KeyScopes d known → ∀ t, Represents d known t c → t.Explains d calls) := by
  induction hrun generalizing c filled with
  | nil w => exact ⟨c, hw, hc, fun _ _ _ ↦ trivial⟩
  | @cons w w₁ w' x rest hcall hrest ih =>
      obtain ⟨c₁, hrun₁, hw₁⟩ := hcall.simulate (fun _ _ _ _ _ ↦ acts_of_machine) hw
      have hasked : ∀ q, x.call = .get q ∨ x.call = .getOrSet q → known q :=
        fun q hq ↦ hknown q ⟨x, List.mem_cons_self, hq⟩
      have hfollows : Follows d known filled c x c₁ := call_follows hs hd hc hasked _ _ hrun₁
      have hrestKnown : ∀ q, CalmCall.Asked rest q → known q := by
        rintro q ⟨y, hy, hyq⟩
        exact hknown q ⟨y, List.mem_cons_of_mem x hy, hyq⟩
      obtain ⟨c', hw', hc', hexplains⟩ := ih hrestKnown hw₁ hfollows.1
      refine ⟨c', hw', hc', fun hk t ht ↦ ?_⟩
      obtain ⟨hagrees, ht₁⟩ := hfollows.2 hk t ht
      exact ⟨hagrees, hexplains hk _ ht₁⟩

end CalmServer

open CalmServer ResultTable

section System

variable {T P Sql D : Type} [DecidableEq T] [DecidableEq P] {d : Deployment Sql} {proc : T → P}
  {own : Bool} {calls : List (CalmCall T Sql D)} {w : CacheWorld T P Sql D}

omit [DecidableEq P] in
theorem represents_initial {known : PreparedQuery Sql → Prop} :
    Represents d known (fun _ ↦ none) (CalmServer.initial : CalmServer P D) := by
  refine fun q _ _ v ↦ ⟨nofun, ?_⟩
  rintro ⟨tokens, -, hentry⟩
  cases hentry

/-- In every run of calls one after another without faults, a cache answers
as one table of results does. -/
theorem calm_cache_table (hs : Suits P d (CalmCall.Asked calls))
    (hk : KeyScopes d (CalmCall.Asked calls)) (hd : d.returnsDetached = .ok own)
    (hrun : SequentialRun d proc CacheWorld.initial calls w) :
    Explains d (fun _ ↦ none) calls := by
  obtain ⟨_, -, -, hexplains⟩ :=
    sound_of_run hs hd hrun (fun _ ↦ id) reduces_initial CalmServer.sound_initial
  exact hexplains hk _ represents_initial

end System

/-- The plain digests, with aliases that can be told apart. -/
def aliasDeployment (generation : Bool) : Deployment Str :=
  { plainDeployment generation with databaseDigest := escapedDigest }

def postQuery : PreparedQuery Str where
  model := ⟨"blog".toList, "post".toList⟩
  db := "default".toList
  sql := []
  dependencies := .ok none

/-- A fill, the invalidation of its model under another spelling, and a lookup. -/
def postCalls (readAt : ℕ) : List (CalmCall Unit Str Bool) :=
  [⟨(), false, .getOrSet postQuery, .ok (.rows ⟨true, readAt⟩)⟩,
    ⟨(), false, .invalidateModel "blog.post".toList "default".toList, .ok (.count 1)⟩,
    ⟨(), false, .get postQuery, .ok .miss⟩]

theorem asked_postCalls {readAt : ℕ} {q : PreparedQuery Str}
    (h : CalmCall.Asked (postCalls readAt) q) : q = postQuery := by
  obtain ⟨x, hx, hq⟩ := h
  simp only [postCalls, List.mem_cons, List.not_mem_nil, or_false] at hx
  rcases hx with rfl | rfl | rfl
  · exact (CacheCall.getOrSet.inj (hq.resolve_left nofun)).symm
  · rcases hq with hq | hq <;> cases hq
  · exact (CacheCall.get.inj (hq.resolve_right nofun)).symm

theorem suits_aliasDeployment {P : Type} {known : PreparedQuery Str → Prop} (generation : Bool)
    (halone : generation = false → ∀ p p' : P, p = p')
    (hnamed : ∀ q, known q → q.Named (aliasDeployment generation)) :
    Suits P (aliasDeployment generation) known :=
  ⟨⟨(plainDeployment_faithful generation).query, separator_not_mem_escapedDigest⟩,
    escapedDigest_injective, hnamed, halone⟩

theorem suits_postCalls {P : Type} (generation : Bool)
    (halone : generation = false → ∀ p p' : P, p = p') (readAt : ℕ) :
    Suits P (aliasDeployment generation) (CalmCall.Asked (postCalls readAt)) := by
  refine suits_aliasDeployment generation halone fun q hq ↦ ?_
  rw [asked_postCalls hq]
  intro m hm
  obtain rfl := List.mem_singleton.mp hm
  cases generation <;> exact ⟨by decide, by decide⟩

theorem keyScopes_postCalls {d : Deployment Str} (readAt : ℕ) :
    KeyScopes d (CalmCall.Asked (postCalls readAt)) := by
  intro _ q q' hq hq' _ _ _ _
  rw [asked_postCalls hq, asked_postCalls hq']

/-- Served effects before the next choice. -/
def served (n : ℕ) (rest : List (CacheChoice Bool)) : List (CacheChoice Bool) :=
  List.replicate n .ok ++ rest

def indexedChoices : List (List (CacheChoice Bool)) :=
  [.flag false :: .flag false :: served 5 (.flag false :: .content true :: served 2
      (.flag false :: served 6 [])),
    .flag false :: served 4 (.order [postQuery.key (aliasDeployment false) []] :: served 5 []),
    .flag false :: .flag false :: served 4 []]

theorem postCalls_indexed : ∃ w : CacheWorld Unit Unit Str Bool,
    SequentialRun (aliasDeployment false) id CacheWorld.initial (postCalls 9) w :=
  run_of_playCalls indexedChoices (by decide +kernel)

theorem calm_cache_table_sample :
    Explains (aliasDeployment false) (fun _ ↦ none) (postCalls 9) := by
  obtain ⟨w, hrun⟩ := postCalls_indexed
  exact calm_cache_table (suits_postCalls false (fun _ _ _ ↦ rfl) 9) (keyScopes_postCalls 9) rfl
    hrun

section Agreement

variable {T T' P P' Sql D D' : Type} {d d' : Deployment Sql} {q q' : PreparedQuery Sql}

theorem sameResult_congr (h : d.lower = d'.lower) : q.SameResult d q' ↔ q.SameResult d' q' := by
  have hparts : ∀ q : PreparedQuery Sql, q.parts d [] = q.parts d' [] := by
    intro q
    simp only [PreparedQuery.parts, h]
  have hscopes : ∀ q : PreparedQuery Sql, CacheWorld.queryScopes d q =
      CacheWorld.queryScopes d' q := by
    intro q
    simp only [CacheWorld.queryScopes, scopesOf, h]
  constructor
  · rintro ⟨hdb, hp, hs⟩
    exact ⟨hdb, by rw [← hparts, hp, hparts], by rw [← hscopes, hs, hscopes]⟩
  · rintro ⟨hdb, hp, hs⟩
    exact ⟨hdb, by rw [hparts, hp, hparts], by rw [hscopes, hs, hscopes]⟩

theorem dependsOn_congr (h : d.lower = d'.lower) {modelName db : Str} :
    DependsOn d q modelName db ↔ DependsOn d' q modelName db := by
  simp only [DependsOn, h]

/-- The table has rows for the query. -/
def ResultTable.Has (t : ResultTable Sql D) (q : PreparedQuery Sql) : Prop := (t q).isSome = true

/-- The queries with rows after a request, which does not depend on the rows. -/
def hasAfter (d : Deployment Sql) (has : PreparedQuery Sql → Prop) :
    Bool × CacheCall Sql → PreparedQuery Sql → Prop
  | (_, .get _), q => has q
  | (inside, .getOrSet q'), q => inside = false ∧ q'.Cacheable ∧ q.SameResult d q' ∨ has q
  | (_, .invalidateModel modelName db), q => ¬DependsOn d q modelName db ∧ has q
  | (_, .clear), _ => False

theorem has_after {t : ResultTable Sql D} {x : CalmCall T Sql D} (h : t.Agrees x) :
    (t.after d x).Has = hasAfter d t.Has x.request := by
  obtain ⟨thread, inside, call, answer⟩ := x
  funext q
  rw [eq_iff_iff]
  cases call with
  | get q' => exact Iff.rfl
  | getOrSet q' =>
      by_cases hfill : inside = false ∧ q'.Cacheable
      · obtain ⟨rfl, hq'⟩ := hfill
        obtain ⟨v, rfl⟩ : ∃ v, answer = .ok (.rows v) := by
          obtain ⟨dependencies, hdeps⟩ := hq'
          simp only [Agrees, Bool.false_eq_true, if_false, hdeps] at h
          obtain ⟨v, rfl, -⟩ := h
          exact ⟨v, rfl⟩
        have hafter : t.after d ⟨thread, false, .getOrSet q', .ok (.rows v)⟩ =
            t.store d q' v := if_pos ⟨rfl, hq'⟩
        rw [hafter]
        simp only [hasAfter, CalmCall.request, ResultTable.Has, ResultTable.store]
        by_cases hsame : q.SameResult d q' <;> simp [hsame, hq']
      · have hafter : t.after d ⟨thread, inside, .getOrSet q', answer⟩ = t := by
          unfold after
          split <;> simp_all
        rw [hafter]
        simp only [hasAfter, CalmCall.request]
        tauto
  | invalidateModel modelName db =>
      simp only [after, hasAfter, CalmCall.request, ResultTable.Has, ResultTable.without]
      by_cases hdep : DependsOn d q modelName db <;> simp [hdep]
  | clear => simp [after, hasAfter, CalmCall.request, ResultTable.Has]

/-- Whether a request misses, given the queries with rows. -/
def Misses (has : PreparedQuery Sql → Prop) : Bool × CacheCall Sql → Prop
  | (inside, .get q) => inside = true ∨ match q.dependencies with
      | .ok _ => ¬has q
      | .error e => e.bypasses = true
  | _ => False

theorem CalmCall.missed_iff {x : CalmCall T Sql D} : x.missed = true ↔ x.answer = .ok .miss := by
  unfold missed
  split <;> simp_all

theorem misses_of_agrees {t : ResultTable Sql D} {x : CalmCall T Sql D} (h : t.Agrees x) :
    x.missed = true ↔ Misses t.Has x.request := by
  rw [CalmCall.missed_iff]
  obtain ⟨thread, inside, call, answer⟩ := x
  unfold Agrees at h
  cases call with
  | get q =>
      dsimp only [CalmCall.request, Misses] at h ⊢
      cases inside with
      | true => simp_all
      | false =>
          cases hdeps : q.dependencies with
          | error e => cases hb : e.bypasses <;> simp_all
          | ok dependencies => cases ht : t q <;> simp_all [found, ResultTable.Has]
  | getOrSet q =>
      dsimp only [CalmCall.request, Misses] at h ⊢
      rw [iff_false]
      rintro rfl
      cases inside with
      | true => simp at h
      | false =>
          cases hdeps : q.dependencies with
          | error e => cases hb : e.bypasses <;> simp_all
          | ok dependencies => simp_all
  | invalidateModel modelName db =>
      obtain ⟨n, rfl⟩ := h
      simp [Misses, CalmCall.request]
  | clear =>
      obtain rfl := h
      simp [Misses, CalmCall.request]

theorem hasAfter_congr (h : d.lower = d'.lower) (has : PreparedQuery Sql → Prop)
    (r : Bool × CacheCall Sql) : hasAfter d has r = hasAfter d' has r := by
  obtain ⟨inside, call⟩ := r
  funext q
  cases call <;> simp only [hasAfter, sameResult_congr h, dependsOn_congr h]

theorem missed_congr (h : d.lower = d'.lower) {calls : List (CalmCall T Sql D)}
    {calls' : List (CalmCall T' Sql D')} {t : ResultTable Sql D} {t' : ResultTable Sql D'}
    (hhas : t.Has = t'.Has) (he : t.Explains d calls) (he' : t'.Explains d' calls')
    (hrequests : calls.map CalmCall.request = calls'.map CalmCall.request) :
    calls.map CalmCall.missed = calls'.map CalmCall.missed := by
  induction calls generalizing calls' t t' with
  | nil =>
      cases calls' with
      | nil => rfl
      | cons x' rest' => cases hrequests
  | cons x rest ih =>
      cases calls' with
      | nil => cases hrequests
      | cons x' rest' =>
          obtain ⟨hrequest, hrest⟩ := List.cons.inj hrequests
          obtain ⟨hx, he⟩ := he
          obtain ⟨hx', he'⟩ := he'
          have hmissed : x.missed = x'.missed := by
            rw [Bool.eq_iff_iff, misses_of_agrees hx, misses_of_agrees hx', hrequest, hhas]
          have hafter : (t.after d x).Has = (t'.after d' x').Has := by
            rw [has_after hx, has_after hx', hrequest, hhas, hasAfter_congr h]
          rw [List.map_cons, List.map_cons, hmissed, ih hafter he he' hrest]

variable [DecidableEq T] [DecidableEq P] [DecidableEq T'] [DecidableEq P'] {proc : T → P}
  {proc' : T' → P'} {own own' : Bool} {calls : List (CalmCall T Sql D)}
  {calls' : List (CalmCall T' Sql D')} {w : CacheWorld T P Sql D} {w' : CacheWorld T' P' Sql D'}

def postToken (c : Char) : Str := List.replicate 31 '0' ++ [c]

def sharedChoices : List (List (CacheChoice Bool)) :=
  [.flag false :: served 5 (.token (postToken 'a') :: served 4 (.token (postToken 'b') ::
      served 3 (.flag false :: served 5 (.flag false :: .content true :: served 2
        (.flag false :: served 14 []))))),
    .flag false :: served 3 (.token (postToken 'c') :: served 5
      (.order [postQuery.key (aliasDeployment true)
        [(generationScope "post".toList "*".toList, postToken 'a'),
          (generationScope "post".toList "default".toList, postToken 'b')]] :: served 5 [])),
    .flag false :: served 8 (.flag false :: served 4 [])]

theorem postCalls_shared : ∃ w : CacheWorld Unit Bool Str Bool,
    SequentialRun (aliasDeployment true) (fun _ ↦ true) CacheWorld.initial (postCalls 23) w :=
  run_of_playCalls sharedChoices (by decide +kernel)

end Agreement

end DjangoNova
