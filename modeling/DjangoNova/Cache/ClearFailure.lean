import DjangoNova.Cache.AnswerRules
import DjangoNova.Cache.LocalFreshness

/-!
# A cache whose clear has failed

A `clear` that the backend fails bypasses the cache of its process until a
later one succeeds. Whatever the threads of this and of other processes do
in the meantime, calls that begin in between get no rows from the backend.
-/

namespace DjangoNova

namespace CacheWorld

open Protocol QuerySetCache

variable {T P Sql D : Type} {proc : T → P}

/-- A clear of the process has succeeded after event `i`. -/
def ResetAfter (proc : T → P) (w : CacheWorld T P Sql D) (i : ℕ) (process : P) : Prop :=
  ∃ j u r, i < j ∧ proc u = process ∧ w.log[j]? = some ⟨u, .update .reset, r⟩

/-- A failed clear is marked in the state of its process until one succeeds. -/
def Marked (proc : T → P) (w : CacheWorld T P Sql D) : Prop :=
  ∀ i u r, w.log[i]? = some ⟨u, .update .failClear, r⟩ →
    (w.states (proc u)).clearFailed = true ∨ w.ResetAfter proc i (proc u)

/-- The call of `t`, which began in `born`, read the rows itself, or all
clears of its process that had failed were followed by a successful one. -/
def Bypassed (proc : T → P) (t : T) (born : CacheWorld T P Sql D) (q : PreparedQuery Sql)
    (rows : Rows D) (w : CacheWorld T P Sql D) : Prop :=
  (∃ j, born.log.length ≤ j ∧ w.log[j]? = some ⟨t, .sql q, .ok rows⟩) ∨
    ∀ i u r, born.log[i]? = some ⟨u, .update .failClear, r⟩ → proc u = proc t →
      w.ResetAfter proc i (proc t)

variable {w w' born : CacheWorld T P Sql D} {t : T} {q : PreparedQuery Sql}

theorem ResetAfter.later {i : ℕ} {process : P} (hlog : w.log <+: w'.log)
    (h : w.ResetAfter proc i process) : w'.ResetAfter proc i process := by
  obtain ⟨j, u, r, hij, hu, hj⟩ := h
  exact ⟨j, u, r, hij, hu, getElem?_extends hlog hj⟩

theorem Bypassed.later {rows : Rows D} (hlog : w.log <+: w'.log)
    (h : Bypassed proc t born q rows w) : Bypassed proc t born q rows w' := by
  refine h.imp ?_ fun hall i u r hi hu ↦ (hall i u r hi hu).later hlog
  rintro ⟨j, hj, hread⟩
  exact ⟨j, hj, getElem?_extends hlog hread⟩

variable [DecidableEq P] [DecidableEq T]

omit [DecidableEq T] in
/-- An update keeps the mark, unless it is the one of a successful clear. -/
theorem clearFailed_update {u : Update} (hu : u ≠ .reset) {process : P}
    (h : (w.states process).clearFailed = true) :
    ((w.applyUpdate (proc t) u).states process).clearFailed = true := by
  have hstates : (w.applyUpdate (proc t) u).states =
      Function.update w.states (proc t) (u.apply (w.states (proc t))) := by
    cases u <;> rfl
  rw [hstates]
  by_cases hp : process = proc t
  · subst hp
    rw [Function.update_self]
    cases u <;> first | exact absurd rfl hu | exact h | rfl
  · rwa [Function.update_of_ne hp]

/-- The mark of a process survives an effect that is not the end of a
successful clear of this process. -/
theorem clearFailed_act {e : CacheEffect Sql (Rows D)} {c : CacheChoice D}
    {r : Except CacheError e.Reply} (h : w.act proc t e c = some (r, w')) {process : P}
    (hfailed : (w.states process).clearFailed = true) :
    (w'.states process).clearFailed = true ∨ (e = .update .reset ∧ proc t = process) := by
  by_cases he : ∃ u, e = .update u
  · obtain ⟨u, rfl⟩ := he
    obtain ⟨-, rfl⟩ := act_update h
    by_cases hu : u = .reset
    · subst hu
      by_cases hp : proc t = process
      · exact .inr ⟨rfl, hp⟩
      · refine .inl ?_
        show (Function.update w.states (proc t) _ process).clearFailed = true
        rwa [Function.update_of_ne (Ne.symm hp)]
    · exact .inl (clearFailed_update hu hfailed)
  · rw [(act_frame h).2 fun u hu ↦ he ⟨u, hu⟩]
    exact .inl hfailed

theorem Marked.perform {e : CacheEffect Sql (Rows D)} {c : CacheChoice D}
    {r : Except CacheError e.Reply} (hw : w.Marked proc)
    (h : (machine proc).perform t e c w = some (r, w')) : w'.Marked proc := by
  have hlog := perform_log h
  obtain ⟨⟨r', w₁⟩, hact, heq⟩ := Option.map_eq_some_iff.mp h
  obtain ⟨rfl, rfl⟩ := Prod.mk.inj heq
  intro i u r₁ hi
  rw [hlog] at hi
  rcases Nat.lt_or_ge i w.log.length with hlt | hge
  · rw [List.getElem?_append_left hlt] at hi
    rcases hw i u r₁ hi with hfailed | hreset
    · rcases clearFailed_act hact hfailed with hkept | ⟨he, hproc⟩
      · exact .inl hkept
      · subst he
        refine .inr ⟨w.log.length, t, r', hlt, hproc, ?_⟩
        rw [hlog, List.getElem?_concat_length]
    · exact .inr (hreset.later (perform_extends h))
  · -- the event is the effect itself
    have hlen := (List.getElem?_eq_some_iff.mp hi).1
    rw [List.length_append, List.length_singleton] at hlen
    obtain rfl : i = w.log.length := by omega
    rw [List.getElem?_concat_length] at hi
    cases hi
    obtain ⟨-, rfl⟩ := act_update hact
    refine .inl ?_
    show (Function.update w.states (proc t) _ (proc t)).clearFailed = true
    rw [Function.update_self]
    rfl

theorem Marked.environment {c : CacheChoice D} (hw : w.Marked proc)
    (h : (machine proc).environment c w = some w') : w'.Marked proc := by
  cases c <;> simp only [machine, Option.some.injEq, reduceCtorEq] at h <;> subst h <;> exact hw

variable (proc) in
/-- Any program of any thread keeps the marks. -/
def bypassProtocol : CacheProtocol T P Sql D where
  machine := machine proc
  allowed := fun _ _ _ _ ↦ True
  inv := Marked proc
  rely := fun _ w w' ↦ w.log <+: w'.log
  rely_refl := fun _ _ ↦ List.prefix_rfl
  rely_trans := fun _ _ _ _ ↦ List.IsPrefix.trans
  environment_inv := fun _ _ _ hw h ↦ hw.environment h
  environment_rely := fun _ _ _ _ _ h ↦ (environment_log h) ▸ List.prefix_rfl

theorem bypass_keeping : (bypassProtocol proc : CacheProtocol T P Sql D).Keeping := by
  intro t e c w r w' hw h
  exact ⟨hw.perform h, fun _ ↦ perform_extends h⟩

theorem stable_extends :
    (bypassProtocol proc : CacheProtocol T P Sql D).Stable t fun w ↦ born.log <+: w.log :=
  fun _ _ _ _ h hborn ↦ hborn.trans h

theorem stable_bypassed (rows : Rows D) :
    (bypassProtocol proc : CacheProtocol T P Sql D).Stable t (Bypassed proc t born q rows) :=
  fun _ _ _ _ h hrows ↦ hrows.later h

abbrev BypassTriple {α : Type} (proc : T → P) (t : T) (pre : CacheWorld T P Sql D → Prop)
    (p : CacheProgram Sql (Rows D) α)
    (post : Except CacheError α → CacheWorld T P Sql D → Prop) : Prop :=
  (bypassProtocol proc).Triple t pre p post

theorem runSql_bypass :
    BypassTriple proc t (fun w ↦ born.log <+: w.log) (runSql q)
      (Ends (Bypassed proc t born q) fun _ _ ↦ True) := by
  refine bypass_keeping.call stable_extends fun w c r w' _ hborn hperform _ ↦ ?_
  cases r with
  | error x => trivial
  | ok rows =>
      refine .inl ⟨w.log.length, hborn.length_le, ?_⟩
      rw [perform_log hperform, List.getElem?_concat_length]

/-- A lookup that goes to the backend has seen that no clear is failed. -/
theorem lookup_bypass {d : Deployment Sql} {snapshot : KeySnapshot} :
    BypassTriple proc t (fun w ↦ born.log <+: w.log) (lookup d snapshot)
      (Ends (Finds (fun w ↦ born.log <+: w.log) (Bypassed proc t born q)) fun _ _ ↦ True) := by
  have hread : BypassTriple proc t (fun w ↦ born.log <+: w.log) (ask .readState) fun r w ↦
      born.log <+: w.log ∧ ∀ state, r = .ok state → state.clearFailed = false →
        ∀ rows, Bypassed proc t born q rows w := by
    refine bypass_keeping.call stable_extends fun w c r w' hw hborn hperform hborn' ↦ ⟨hborn', ?_⟩
    rintro state rfl hclear rows
    obtain ⟨⟨r', w₁⟩, hact, heq⟩ := Option.map_eq_some_iff.mp hperform
    obtain ⟨rfl, rfl⟩ := Prod.mk.inj heq
    obtain rfl := Except.ok.inj (act_readState hact)
    refine .inr fun i u r hi hu ↦ ?_
    rcases hw i u r (getElem?_extends hborn hi) with hfailed | hreset
    · rw [hu, hclear] at hfailed
      cases hfailed
    · rw [hu] at hreset
      exact hreset.later (perform_extends hperform)
  refine hread.bind (fun state ↦ ?_) fun _ _ _ _ ↦ trivial
  cases hclear : state.clearFailed with
  | true =>
      simp only [Bool.not_true, Bool.false_and]
      exact Triple.pure none fun _ _ h ↦ ⟨h.1, fun _ hrows ↦ by cases hrows⟩
  | false =>
      have hstable : (bypassProtocol proc : CacheProtocol T P Sql D).Stable t fun w ↦
          born.log <+: w.log ∧ ∀ rows, Bypassed proc t born q rows w :=
        fun _ _ _ _ h hall ↦ ⟨hall.1.trans h, fun rows ↦ (hall.2 rows).later h⟩
      refine (bypass_keeping.program hstable _).consequence
        (fun _ _ h ↦ ⟨h.1, h.2 state rfl hclear⟩) fun v _ _ h ↦ ?_
      cases v with
      | ok cached => exact ⟨h.1, fun rows _ ↦ h.2 rows⟩
      | error x => trivial

theorem sourced_bypass {d : Deployment Sql} :
    Sourced (bypassProtocol proc) t d q (fun w : CacheWorld T P Sql D ↦ born.log <+: w.log)
      (Bypassed proc t born q) where
  stable := stable_extends
  rows := stable_bypassed
  sql := runSql_bypass
  lookup := by
    refine (bypass_keeping.program stable_extends _).consequence (fun _ _ h ↦ h) fun v _ _ h ↦ ?_
    cases v with
    | ok snapshot => exact ⟨h, lookup_bypass⟩
    | error x => exact h

end CacheWorld

section Runs

open CacheWorld

variable {T P Sql D : Type} [DecidableEq P] [DecidableEq T] {d : Deployment Sql} {proc : T → P}
variable {call : T → CacheCall Sql}

/-- A clear has failed in the process of the reader: a reader that begins
afterwards returns rows that it has read itself, or a later clear of the
process has succeeded. -/
theorem failed_clear_bypassed {p₀ p : CachePool T P Sql D}
    (h₀ : CacheReaches d proc call p₀)
    (h : Transition.Reaches (cacheStep d proc call) Transition.Always p₀ p)
    {reader writer : T} {i : ℕ} {r : Except CacheError Unit}
    (hfail : p₀.world.log[i]? = some ⟨writer, .update .failClear, r⟩)
    (hproc : proc writer = proc reader) {q : PreparedQuery Sql} {rows : Rows D}
    (hq : (call reader).reads = some q) (hnone : p₀.threads reader = none)
    (hreader : p.outcome reader = some (.ok (.rows rows))) :
    (∃ j, p₀.world.log.length ≤ j ∧ p.world.log[j]? = some ⟨reader, .sql q, .ok rows⟩) ∨
      p.world.ResetAfter proc i (proc reader) := by
  have hstable : ∀ t born v, (bypassProtocol proc : CacheProtocol T P Sql D).Stable t
      (Answered (Bypassed proc t born) (call t) v) :=
    fun t born v ↦ stable_answered (fun _ ↦ stable_bypassed) v
  have hbody : ∀ t w, Marked proc w → (bypassProtocol proc : CacheProtocol T P Sql D).Safe t
      (Answered (Bypassed proc t w) (call t)) ((call t).program d) w := fun t w hw ↦
    answered_call bypass_keeping stable_extends (fun _ _ ↦ sourced_bypass) w hw List.prefix_rfl
  have hinitial : Marked proc (initial : CacheWorld T P Sql D) := fun i u r hi ↦ by
    simp [initial] at hi
  obtain ⟨th, hth, hanswer⟩ := Protocol.outcome_of_run (fun _ _ _ _ ↦ trivial) hinitial hstable
    hbody (h₀.trans h) hreader
  have hborn := log_born_later h hnone hth
  rcases hanswer q hq with ⟨j, hj, hread⟩ | hall
  · exact .inl ⟨j, hborn.length_le.trans hj, hread⟩
  · exact .inr (hall i writer r (getElem?_extends hborn hfail) hproc)

end Runs

section Sample

/-! An entry is stored, the backend fails to clear it, and a reader gets the
same query. -/

def clearedCall : Caller → CacheCall Str
  | .filler | .refresher | .reader => .getOrSet sharedQuery
  | .invalidator => .clear

def clearedStep : LocalPool Caller Str ℕ → Turn Caller (CacheChoice ℕ) →
    Option (LocalPool Caller Str ℕ) :=
  cacheStep (plainDeployment false) (fun _ ↦ ()) clearedCall

def isFailedClear : CacheEvent Caller Str ℕ → Bool
  | ⟨.invalidator, .update .failClear, _⟩ => true
  | _ => false

theorem isFailedClear_eq_true {ev : CacheEvent Caller Str ℕ} (h : isFailedClear ev = true) :
    ∃ r, ev = ⟨.invalidator, .update .failClear, r⟩ := by
  unfold isFailedClear at h
  split at h
  · exact ⟨_, rfl⟩
  · cases h

/-- The entry is still stored, but the reader reads again. -/
theorem failed_clear_bypassed_sample :
    ∃ p₀ p, CacheReaches (plainDeployment false) (fun _ ↦ ()) clearedCall p₀ ∧
      Transition.Reaches clearedStep Transition.Always p₀ p ∧
      p.outcome .reader = some (.ok (.rows ⟨8, 31⟩)) ∧
      ((∃ j, p₀.world.log.length ≤ j ∧
          p.world.log[j]? = some ⟨.reader, .sql sharedQuery, .ok ⟨8, 31⟩⟩) ∨
        p.world.ResetAfter (fun _ ↦ ()) 21 ()) := by
  have hrun : ((Transition.run clearedStep (Pool.start CacheWorld.initial)
      (turnsOf .filler (fillChoices .ok 5) ++
        turnsOf .invalidator [.ok, .ok, .fail (.raised 0) false, .ok, .ok])).bind fun p₀ ↦
      (Transition.run clearedStep p₀ (turnsOf .reader ([.flag false, .flag false, .ok, .ok, .ok,
        .ok, .flag false, .content 8, .ok, .ok, .ok]))).bind fun p ↦
      (lateRows p₀ p).map fun rows ↦ (rows, p₀.world.log[21]?.any isFailedClear)) =
        some (⟨8, 31⟩, true) := by
    decide +kernel
  obtain ⟨p₀, h₀, hrun⟩ := Option.bind_eq_some_iff.mp hrun
  obtain ⟨p, h, hrun⟩ := Option.bind_eq_some_iff.mp hrun
  obtain ⟨rows, hlate, hrows⟩ := Option.map_eq_some_iff.mp hrun
  obtain ⟨rfl, hany⟩ := Prod.mk.inj hrows
  obtain ⟨-, hnone, hreader⟩ := lateRows_some hlate
  obtain ⟨ev, hev, hfail⟩ := (Option.any_eq_true _ _).mp hany
  obtain ⟨r, rfl⟩ := isFailedClear_eq_true hfail
  have hreach₀ : CacheReaches (plainDeployment false) (fun _ ↦ ()) clearedCall p₀ :=
    Transition.reaches_of_run (fun _ _ _ ↦ trivial) h₀
  have hreach : Transition.Reaches clearedStep Transition.Always p₀ p :=
    Transition.reaches_of_run (fun _ _ _ ↦ trivial) h
  exact ⟨p₀, p, hreach₀, hreach, hreader,
    failed_clear_bypassed hreach₀ hreach hev rfl rfl hnone hreader⟩

end Sample

end DjangoNova
