import DjangoNova.Tasks.Lifecycle

/-!
# Attempts

The account of a task is its result together with what the log says of its
invocations. In runs with an inert tracer, before any worker is cancelled,
the account of a task is determined by the stage of its payload, and by its
limit of retries once it is finished.
-/

namespace DjangoNova

section Accounts

variable {I F O V : Type}

def Raised (v : Except TaskExn V) : Prop := ∃ x, v = .error x

variable [DecidableEq I]

def TaskEvent.startOf (id : I) : TaskEvent I F O V → Bool
  | .started p => p.taskId = id
  | _ => false

def TaskEvent.outcomeOf (id : I) : TaskEvent I F O V → Option (Except TaskExn V)
  | .ended id' v => if id' = id then some v else none
  | _ => none

/-- The number of invocations of a task. -/
def invocations (log : List (TaskEvent I F O V)) (id : I) : ℕ := log.countP (TaskEvent.startOf id)

/-- The outcomes of the invocations that are over. -/
def outcomes (log : List (TaskEvent I F O V)) (id : I) : List (Except TaskExn V) :=
  log.filterMap (TaskEvent.outcomeOf id)

structure TaskAccount (V : Type) where
  result : Option (TaskResult V)
  invocations : ℕ
  outcomes : List (Except TaskExn V)

def TaskWorld.account (w : TaskWorld I F O V) (id : I) : TaskAccount V :=
  ⟨w.results id, invocations w.log id, outcomes w.log id⟩

namespace Stage

/-- How many attempts have ended. -/
def ended : Stage I F O → ℕ
  | .waiting p | .running p => p.attempts
  | .resting p => p.attempts + 1

/-- How many attempts have begun. -/
def begun : Stage I F O → ℕ
  | .waiting p => p.attempts
  | .running p | .resting p => p.attempts + 1

def status : Stage I F O → TaskStatus
  | .waiting p => if p.attempts = 0 then .pending else .retrying
  | .running _ => .running
  | .resting _ => .retrying

end Stage

/-- The account of a task whose payload is at stage `x`. -/
structure Ongoing (c : TaskAccount V) (x : Stage I F O) : Prop where
  begun : c.invocations = x.begun
  ended : c.outcomes.length = x.ended
  raised : ∀ v ∈ c.outcomes, Raised v
  bounded : (x.ended : ℤ) ≤ max 0 x.payload.maxRetries
  result : ∃ r, c.result = some r ∧ r.status = x.status ∧ r.finishedAt = none ∧
    (r.status = .retrying → r.attempts = x.ended)

/-- The account of a task whose last attempt has returned a value. -/
def Succeeded (c : TaskAccount V) (r : TaskResult V) (maxRetries : ℤ) : Prop :=
  r.status = .success ∧ ∃ vs v, c.outcomes = vs ++ [.ok v] ∧ (∀ u ∈ vs, Raised u) ∧
    r.result = some v ∧ (vs.length : ℤ) ≤ max 0 maxRetries

/-- The account of a task all of whose attempts have raised. -/
def Exhausted (c : TaskAccount V) (r : TaskResult V) (maxRetries : ℤ) : Prop :=
  r.status = .failed ∧ (∀ v ∈ c.outcomes, Raised v) ∧
    (c.outcomes.length : ℤ) = max 0 maxRetries + 1

structure Finished (c : TaskAccount V) (maxRetries : ℤ) : Prop where
  result : ∃ r, c.result = some r ∧ r.finishedAt.isSome ∧ r.attempts = c.outcomes.length ∧
    (Succeeded c r maxRetries ∨ Exhausted c r maxRetries)
  begun : c.invocations = c.outcomes.length

/-- Invocations of one task do not overlap. -/
def Sequential (log : List (TaskEvent I F O V)) : Prop :=
  ∀ l, l <+: log → ∀ id, (outcomes l id).length ≤ invocations l id ∧
    invocations l id ≤ (outcomes l id).length + 1

structure Accounted (w : TaskWorld I F O V) (l : List (Stage I F O)) : Prop where
  ongoing : ∀ x ∈ l, Ongoing (w.account x.id) x
  submitted : ∀ p, .submitted p ∈ w.log →
    (∃ x ∈ l, x.payload = { p with attempts := x.payload.attempts }) ∨
      Finished (w.account p.taskId) p.maxRetries
  unknown : ∀ id, w.results id = none → w.account id = ⟨none, 0, []⟩
  sequential : Sequential w.log

end Accounts

section Log

variable {I F O V : Type} [DecidableEq I] {log : List (TaskEvent I F O V)}

@[simp] theorem invocations_append (l l' : List (TaskEvent I F O V)) (id : I) :
    invocations (l ++ l') id = invocations l id + invocations l' id := List.countP_append ..

@[simp] theorem outcomes_append (l l' : List (TaskEvent I F O V)) (id : I) :
    outcomes (l ++ l') id = outcomes l id ++ outcomes l' id := List.filterMap_append ..

theorem Sequential.append {e : TaskEvent I F O V} (h : Sequential log)
    (he : ∀ id, (outcomes (log ++ [e]) id).length ≤ invocations (log ++ [e]) id ∧
      invocations (log ++ [e]) id ≤ (outcomes (log ++ [e]) id).length + 1) :
    Sequential (log ++ [e]) := by
  intro l hl id
  rcases List.prefix_concat_iff.mp hl with rfl | hl
  · exact he id
  · exact h l hl id

variable {w : TaskWorld I F O V} {p : Payload I F O} {id : I}

theorem concluded_log : (w.concluded p).log = w.log := by
  unfold TaskWorld.concluded
  split <;> rfl

theorem completed_log (v : Except TaskExn V) : (w.completed p v).1.log = w.log := by
  rcases v with (text | _) | v
  · unfold TaskWorld.completed
    dsimp only
    split
    · cases text with
      | some text => rfl
      | none => exact concluded_log
    · cases text with
      | some text => exact concluded_log
      | none => exact concluded_log
  · exact concluded_log
  · exact concluded_log

end Log

section Turns

variable {I F O V : Type} [DecidableEq I] {w w' : TaskWorld I F O V} {p : Payload I F O}
  {r : TaskResult V} {act : TaskAction I F O V} {flag : Bool} {x : Stage I F O}
  {ys rest : List (Stage I F O)}

/-- A turn logs at most one event, about its own task. -/
theorem Progress.log (h : Progress w act flag x w' ys) :
    w'.log = w.log ∨ w'.log = w.log ++ [.started x.payload] ∨
      ∃ v, w'.log = w.log ++ [.ended x.id v] := by
  cases h with
  | delayed p => exact .inl rfl
  | launched p => exact .inr (.inl rfl)
  | completed i v r flag p => exact .inr (.inr ⟨v, completed_log v⟩)
  | requeued p => exact .inl concluded_log
  | dropped p => exact .inl rfl
  | withdrawn p => exact .inl concluded_log

theorem Progress.account_elsewhere (h : Progress w act flag x w' ys) {id : I} (hid : id ≠ x.id) :
    w'.account id = w.account id := by
  have hid' : x.payload.taskId ≠ id := hid.symm
  have hresult := h.elsewhere hid
  unfold TaskWorld.account
  rw [hresult]
  rcases h.log with hlog | hlog | ⟨v, hlog⟩
  · rw [hlog]
  · simp [hlog, invocations, outcomes, TaskEvent.startOf, TaskEvent.outcomeOf, hid']
  · simp [hlog, invocations, outcomes, TaskEvent.startOf, TaskEvent.outcomeOf, hid.symm]

theorem launched_account (h : w.results p.taskId = some r) :
    (w.launched p).account p.taskId =
      ⟨some { r with status := .running, startedAt := some (r.startedAt.getD w.now) },
        invocations w.log p.taskId + 1, outcomes w.log p.taskId⟩ := by
  have hlog : (w.launched p).log = w.log ++ [.started p] := rfl
  unfold TaskWorld.account
  rw [TaskWorld.launched_self h, hlog]
  simp [invocations, outcomes, TaskEvent.startOf, TaskEvent.outcomeOf]

theorem completed_account (v : Except TaskExn V) :
    ((w.record (.ended p.taskId v)).completed p v).1.account p.taskId =
      ⟨((w.record (.ended p.taskId v)).completed p v).1.results p.taskId,
        invocations w.log p.taskId, outcomes w.log p.taskId ++ [v]⟩ := by
  unfold TaskWorld.account
  rw [completed_log]
  simp [TaskWorld.record, invocations, outcomes, TaskEvent.startOf, TaskEvent.outcomeOf]

theorem ongoing_launched (h : Ongoing (w.account p.taskId) (.waiting p)) :
    Ongoing ((w.launched p).account p.taskId) (.running p) := by
  obtain ⟨r, hr, -, hfinished, -⟩ := h.result
  rw [launched_account hr]
  constructor
  · exact congrArg (· + 1) h.begun
  · exact h.ended
  · exact h.raised
  · exact h.bounded
  · exact ⟨_, rfl, rfl, hfinished, nofun⟩

/-- The next stage of a running task, or its end. -/
theorem ongoing_completed {v : Except TaskExn V} (hv : ProperOutcome v)
    (h : Ongoing (w.account p.taskId) (.running p)) :
    let q := (w.record (.ended p.taskId v)).completed p v
    q.2.stage = some (.resting p) ∧ Ongoing (q.1.account p.taskId) (.resting p) ∨
      q.2.stage = none ∧ Finished (q.1.account p.taskId) p.maxRetries := by
  obtain ⟨r, hr, hstatus, hfinished, -⟩ := h.result
  have hrecord : (w.record (.ended p.taskId v)).results p.taskId = some r := hr
  have hended : (outcomes w.log p.taskId).length = p.attempts := h.ended
  have hbounded : (p.attempts : ℤ) ≤ max 0 p.maxRetries := h.bounded
  have hbegun : invocations w.log p.taskId = p.attempts + 1 := h.begun
  have hlength : (outcomes w.log p.taskId ++ [v]).length = p.attempts + 1 := by
    rw [List.length_append, hended]
    rfl
  dsimp only
  rw [completed_account]
  rcases v with (text | _) | v
  · cases text with
    | none => exact hv.elim
    | some text =>
        have hraised : ∀ u ∈ outcomes w.log p.taskId ++ [.error (.exception (some text))],
            Raised u := by
          intro u hu
          rcases List.mem_append.mp hu with hu | hu
          · exact h.raised u hu
          · exact ⟨_, List.mem_singleton.mp hu⟩
        by_cases hretry : (p.attempts : ℤ) < p.maxRetries
        · obtain ⟨hresult, hphase⟩ := TaskWorld.completed_retry hrecord hretry text
          rw [hresult, hphase]
          refine .inl ⟨rfl, hbegun, hlength, hraised, ?_, _, rfl, rfl, hfinished, fun _ ↦ rfl⟩
          show ((p.attempts + 1 : ℕ) : ℤ) ≤ max 0 p.maxRetries
          omega
        · obtain ⟨hresult, hphase⟩ := TaskWorld.completed_fail hrecord hretry text
          rw [hresult, hphase]
          refine .inr ⟨rfl, ⟨_, rfl, rfl, hlength.symm, .inr ⟨rfl, hraised, ?_⟩⟩,
            hbegun.trans hlength.symm⟩
          show ((outcomes w.log p.taskId ++ [_]).length : ℤ) = max 0 p.maxRetries + 1
          rw [hlength]
          omega
  · exact hv.elim
  · have hresult := TaskWorld.completed_ok hrecord v
    rw [hresult]
    refine .inr ⟨rfl, ⟨_, rfl, rfl, hlength.symm, .inl ⟨rfl, _, v, rfl, h.raised, rfl, ?_⟩⟩,
      hbegun.trans hlength.symm⟩
    show ((outcomes w.log p.taskId).length : ℤ) ≤ max 0 p.maxRetries
    rw [hended]
    exact hbounded

theorem ongoing_requeued (h : Ongoing (w.account p.taskId) (.resting p)) :
    Ongoing (((w.put (AsyncioBackend.Payload.next p)).concluded p).account p.taskId)
      (.waiting (AsyncioBackend.Payload.next p)) := by
  obtain ⟨r, hr, hstatus, hfinished, hattempts⟩ := h.result
  have hresult : w.results p.taskId = some r := hr
  have hput : (w.put (AsyncioBackend.Payload.next p)).results p.taskId = some r := hr
  have haccount : ((w.put (AsyncioBackend.Payload.next p)).concluded p).account p.taskId =
      w.account p.taskId := by
    unfold TaskWorld.account
    rw [TaskWorld.concluded_retrying hput hstatus, concluded_log, hresult]
    rfl
  rw [haccount]
  exact ⟨h.begun, h.ended, h.raised, h.bounded, r, hr, hstatus, hfinished, hattempts⟩

/-- The payload goes to its next stage, or the task is finished. -/
theorem Progress.next (h : Progress w act false x w' ys)
    (hproper : act.Proper)
    (hx : Ongoing (w.account x.id) x) :
    (∃ y, ys = [y] ∧ y.payload = { x.payload with attempts := y.payload.attempts } ∧
        Ongoing (w'.account y.id) y) ∨
      ys = [] ∧ Finished (w'.account x.id) x.payload.maxRetries := by
  cases h with
  | delayed p => exact .inl ⟨_, rfl, rfl, hx⟩
  | launched p => exact .inl ⟨_, rfl, rfl, ongoing_launched hx⟩
  | completed i v r flag p =>
      have hrunning : Ongoing (w.account p.taskId) (.running p) := hx
      rcases ongoing_completed hproper hrunning with
        ⟨hstage, hnext⟩ | ⟨hstage, hfinished⟩
      · rw [hstage]
        exact .inl ⟨_, rfl, rfl, hnext⟩
      · rw [hstage]
        exact .inr ⟨rfl, hfinished⟩
  | requeued p => exact .inl ⟨_, rfl, rfl, ongoing_requeued hx⟩

theorem Progress.submitted (h : Progress w act flag x w' ys) {p : Payload I F O}
    (hp : .submitted p ∈ w'.log) : .submitted p ∈ w.log := by
  rcases h.log with hlog | hlog | ⟨v, hlog⟩
  · rwa [hlog] at hp
  · rw [hlog] at hp
    rcases List.mem_append.mp hp with hp | hp
    · exact hp
    · cases List.mem_singleton.mp hp
  · rw [hlog] at hp
    rcases List.mem_append.mp hp with hp | hp
    · exact hp
    · cases List.mem_singleton.mp hp

omit [DecidableEq I] in
theorem Ongoing.sequential {c : TaskAccount V} (h : Ongoing c x) :
    c.outcomes.length ≤ c.invocations ∧ c.invocations ≤ c.outcomes.length + 1 := by
  rw [h.begun, h.ended]
  cases x <;> simp [Stage.begun, Stage.ended]

/-- The log stays sequential when the accounts of all tasks are. -/
theorem Progress.sequential (h : Progress w act flag x w' ys) (hlog : Sequential w.log)
    (hx : (w'.account x.id).outcomes.length ≤ (w'.account x.id).invocations ∧
      (w'.account x.id).invocations ≤ (w'.account x.id).outcomes.length + 1) :
    Sequential w'.log := by
  have hall : ∀ id, (outcomes w'.log id).length ≤ invocations w'.log id ∧
      invocations w'.log id ≤ (outcomes w'.log id).length + 1 := by
    intro id
    by_cases hid : id = x.id
    · subst hid
      exact hx
    · have haccount := h.account_elsewhere hid
      have hinvocations : invocations w'.log id = invocations w.log id :=
        congrArg TaskAccount.invocations haccount
      have houtcomes : outcomes w'.log id = outcomes w.log id :=
        congrArg TaskAccount.outcomes haccount
      rw [hinvocations, houtcomes]
      exact hlog w.log (List.prefix_refl _) id
  rcases h.log with heq | heq | ⟨v, heq⟩
  · rwa [heq]
  · rw [heq] at hall ⊢
    exact hlog.append hall
  · rw [heq] at hall ⊢
    exact hlog.append hall

theorem Finished.final {id : I} {maxRetries : ℤ} (h : Finished (w.account id) maxRetries) :
    w.Final id := by
  obtain ⟨r, hr, -, -, hstatus⟩ := h.result
  exact ⟨r, hr, hstatus.imp (fun hsucceeded ↦ hsucceeded.1) fun hexhausted ↦ hexhausted.1⟩

/-- One turn of a worker keeps the accounts. -/
theorem Progress.accounted (h : Progress w act false x w' ys)
    (hproper : act.Proper)
    (hsound : Sound w (x :: rest)) (hacc : Accounted w (x :: rest)) :
    Accounted w' (ys ++ rest) := by
  have hother : ∀ y ∈ rest, y.id ≠ x.id := by
    intro y hy heq
    apply (List.nodup_cons.mp hsound.nodup).1
    exact List.mem_map.mpr ⟨y, hy, heq⟩
  have hrest : ∀ y ∈ rest, Ongoing (w'.account y.id) y := by
    intro y hy
    rw [h.account_elsewhere (hother y hy)]
    exact hacc.ongoing y (List.mem_cons_of_mem x hy)
  have hnext := h.next hproper (hacc.ongoing x List.mem_cons_self)
  constructor
  · intro y hy
    rcases List.mem_append.mp hy with hy | hy
    · rcases hnext with ⟨y', rfl, -, hy'⟩ | ⟨rfl, -⟩
      · rwa [List.mem_singleton.mp hy]
      · cases hy
    · exact hrest y hy
  · intro p hp
    rcases hacc.submitted p (h.submitted hp) with ⟨y, hy, hpayload⟩ | hfinished
    · rcases List.mem_cons.mp hy with rfl | hy
      · rcases hnext with ⟨y', rfl, hy', -⟩ | ⟨rfl, hfinished⟩
        · refine .inl ⟨y', List.mem_cons_self, ?_⟩
          rw [hy', hpayload]
        · right
          have hid : p.taskId = y.id := by
            show p.taskId = y.payload.taskId
            rw [hpayload]
          have hretries : p.maxRetries = y.payload.maxRetries := by rw [hpayload]
          rwa [hid, hretries]
      · exact .inl ⟨y, List.mem_append_right ys hy, hpayload⟩
    · right
      rw [h.account_elsewhere (hsound.ne_of_final hfinished.final List.mem_cons_self)]
      exact hfinished
  · intro id hid
    by_cases heq : id = x.id
    · subst heq
      exfalso
      rcases hnext with ⟨y, rfl, hpayload, hy⟩ | ⟨rfl, hfinished⟩
      · obtain ⟨r, hr, -⟩ := hy.result
        have hyid : y.id = x.id := h.id_eq List.mem_cons_self
        rw [hyid] at hr
        cases hr.symm.trans hid
      · obtain ⟨r, hr, -⟩ := hfinished.result
        cases hr.symm.trans hid
    · rw [h.account_elsewhere heq]
      apply hacc.unknown
      rwa [← h.elsewhere heq]
  · apply h.sequential hacc.sequential
    rcases hnext with ⟨y, rfl, hpayload, hy⟩ | ⟨rfl, hfinished⟩
    · have hyid : y.id = x.id := h.id_eq List.mem_cons_self
      rw [hyid] at hy
      exact hy.sequential
    · rw [hfinished.begun]
      omega

end Turns

section Runs

open Transition

variable {I F O V : Type} [DecidableEq I] {w w' : TaskWorld I F O V} {p : Payload I F O}
  {l l' : List (Stage I F O)} {a a' : TaskSystem I F O V (Phase I F O)}
  {act : TaskAction I F O V} {n : ℕ}

theorem Accounted.perm (h : Accounted w l) (hworld : w'.SameBooks w) (hperm : l'.Perm l) :
    Accounted w' l' := by
  have haccount : ∀ id, w'.account id = w.account id := by
    intro id
    unfold TaskWorld.account
    rw [hworld.results, hworld.log]
  constructor
  · intro x hx
    rw [haccount]
    exact h.ongoing x (hperm.mem_iff.mp hx)
  · intro p hp
    rw [haccount]
    rw [hworld.log] at hp
    apply (h.submitted p hp).imp_left
    rintro ⟨x, hx, hpayload⟩
    exact ⟨x, hperm.mem_iff.mpr hx, hpayload⟩
  · intro id hid
    rw [haccount]
    rw [hworld.results] at hid
    exact h.unknown id hid
  · rw [hworld.log]
    exact h.sequential

theorem accepted_account_else {id : I} (hid : id ≠ p.taskId) :
    (w.accepted p).account id = w.account id := by
  have hlog : (w.accepted p).log = w.log ++ [.submitted p] := rfl
  unfold TaskWorld.account
  rw [accepted_else p hid, hlog]
  simp [invocations, outcomes, TaskEvent.startOf, TaskEvent.outcomeOf]

theorem accepted_account_self (h : w.account p.taskId = ⟨none, 0, []⟩) :
    (w.accepted p).account p.taskId = ⟨some .new, 0, []⟩ := by
  have hlog : (w.accepted p).log = w.log ++ [.submitted p] := rfl
  obtain ⟨-, hinvocations, houtcomes⟩ := TaskAccount.mk.inj h
  unfold TaskWorld.account
  rw [accepted_self, hlog, invocations_append, outcomes_append, hinvocations, houtcomes]
  simp [invocations, outcomes, TaskEvent.startOf, TaskEvent.outcomeOf]

omit [DecidableEq I] in
theorem ongoing_new (hattempts : p.attempts = 0) :
    Ongoing (⟨some .new, 0, []⟩ : TaskAccount V) (.waiting p) := by
  constructor
  · exact hattempts.symm
  · exact hattempts.symm
  · exact nofun
  · show ((p.attempts : ℕ) : ℤ) ≤ max 0 p.maxRetries
    omega
  · exact ⟨.new, rfl, (if_pos hattempts).symm, rfl, nofun⟩

theorem Accounted.accepted (h : Accounted w l) (hsound : Sound w l) (hattempts : p.attempts = 0)
    (hnew : w.results p.taskId = none) : Accounted (w.accepted p) (.waiting p :: l) := by
  have hself := accepted_account_self (h.unknown _ hnew)
  have hother : ∀ x ∈ l, x.id ≠ p.taskId := by
    intro x hx heq
    obtain ⟨r, hr, -⟩ := hsound.known x hx
    rw [heq, hnew] at hr
    cases hr
  constructor
  · intro x hx
    rcases List.mem_cons.mp hx with rfl | hx
    · show Ongoing ((w.accepted p).account p.taskId) (.waiting p)
      rw [hself]
      exact ongoing_new hattempts
    · rw [accepted_account_else (hother x hx)]
      exact h.ongoing x hx
  · intro q hq
    rcases List.mem_append.mp hq with hq | hq
    · rcases h.submitted q hq with ⟨x, hx, hpayload⟩ | hfinished
      · exact .inl ⟨x, List.mem_cons_of_mem _ hx, hpayload⟩
      · right
        rw [accepted_account_else]
        · exact hfinished
        · intro heq
          obtain ⟨r, hr, -⟩ := hfinished.result
          rw [heq] at hr
          cases hr.symm.trans hnew
    · cases List.mem_singleton.mp hq
      exact .inl ⟨.waiting p, List.mem_cons_self, rfl⟩
  · intro id hid
    have hne : id ≠ p.taskId := by
      rintro rfl
      cases hid.symm.trans (accepted_self p)
    rw [accepted_account_else hne]
    rw [accepted_else p hne] at hid
    exact h.unknown id hid
  · have hlog : (w.accepted p).log = w.log ++ [.submitted p] := rfl
    rw [hlog]
    apply h.sequential.append
    intro id
    have hinvocations : invocations [(.submitted p : TaskEvent I F O V)] id = 0 := rfl
    have houtcomes : outcomes [(.submitted p : TaskEvent I F O V)] id = [] := rfl
    rw [invocations_append, outcomes_append, hinvocations, houtcomes, List.append_nil, Nat.add_zero]
    exact h.sequential w.log (List.prefix_refl _) id

theorem Moves.accounted (h : Moves a a' act)
    (hproper : act.Proper)
    (hflags : ∀ t ∈ a.tasks, t.cancelRequested = false) (hsound : Sound a.world a.stages)
    (hacc : Accounted a.world a.stages) : Accounted a'.world a'.stages := by
  cases h with
  | quiet hworld hstages => exact hacc.perm hworld hstages
  | submit p hnew hworld hstages =>
      rw [hworld]
      exact (hacc.accepted hsound hnew.1 hnew.2).perm (sameBooks_refl _) hstages
  | work flag w x ys rest hflag hact hworld hbefore h hafter =>
      cases flag with
      | true =>
          obtain ⟨t, ht, htrue⟩ := hflag rfl
          cases (hflags t ht).symm.trans htrue
      | false =>
          have hmoved := h.accounted hproper (hsound.perm hworld hbefore.symm)
            (hacc.perm hworld hbefore.symm)
          exact hmoved.perm (sameBooks_refl _) hafter

/-- The account of a finished task is closed. -/
theorem Moves.final_account (h : Moves a a' act) (hsound : Sound a.world a.stages) {id : I}
    (hfinal : a.world.Final id) : a'.world.account id = a.world.account id := by
  cases h with
  | quiet hworld hstages =>
      unfold TaskWorld.account
      rw [hworld.results, hworld.log]
  | submit p hnew hworld hstages =>
      rw [hworld]
      apply accepted_account_else
      rintro rfl
      obtain ⟨r, hr, -⟩ := hfinal
      cases hr.symm.trans hnew.2
  | work flag w x ys rest hflag hact hworld hbefore h hafter =>
      have hne : id ≠ x.id :=
        hsound.ne_of_final hfinal (hbefore.mem_iff.mpr List.mem_cons_self)
      rw [h.account_elsewhere hne]
      unfold TaskWorld.account
      rw [hworld.results, hworld.log]

/-- What is known of an abstract backend before it cancels workers. -/
structure Regular (a : TaskSystem I F O V (Phase I F O)) : Prop where
  sound : Sound a.world a.stages
  unflagged : Unflagged a
  accounted : Accounted a.world a.stages

theorem regular_initial : Regular (TaskSystem.initial : TaskSystem I F O V (Phase I F O)) := by
  refine ⟨sound_initial, fun _ ↦ nofun, nofun, nofun, fun _ _ ↦ rfl, ?_⟩
  intro l hl id
  obtain rfl : l = [] := List.prefix_nil.mp hl
  exact ⟨le_refl 0, Nat.zero_le 1⟩

/-- The steps before `stop` cancels workers, of tasks that end properly. -/
def OrderlyPhases (a : TaskSystem I F O V (Phase I F O)) (act : TaskAction I F O V) : Prop :=
  a.cancelling = false ∧ act.Proper

theorem Regular.step (h : Regular a) (hok : OrderlyPhases a act)
    (hstep : a.phaseStep n act = some a') : Regular a' := by
  have hmoves := phaseStep_moves hstep
  refine ⟨hmoves.sound h.sound, unflagged_step h.unflagged hstep, ?_⟩
  exact hmoves.accounted hok.2 (h.unflagged hok.1) h.sound h.accounted

/-- A final account stays closed in all runs. -/
theorem run_final_account {ok : TaskSystem I F O V (Phase I F O) → TaskAction I F O V → Prop}
    (hsound : Sound a.world a.stages) {id : I} (hfinal : a.world.Final id)
    (hrun : Reaches (fun a ↦ a.phaseStep n) ok a a') :
    a'.world.account id = a.world.account id := by
  have hkept : Sound a'.world a'.stages ∧ a'.world.account id = a.world.account id := by
    refine hrun.invariant (I := fun b ↦ Sound b.world b.stages ∧
      b.world.account id = a.world.account id) ⟨hsound, rfl⟩ ?_
    rintro b act b' ⟨hb, haccount⟩ - hstep
    have hresult : b.world.results id = a.world.results id :=
      congrArg TaskAccount.result haccount
    have hfinal' : b.world.Final id := by
      unfold TaskWorld.Final
      rwa [hresult]
    have hmoves := phaseStep_moves hstep
    exact ⟨hmoves.sound hb, (hmoves.final_account hb hfinal').trans haccount⟩
  exact hkept.2

end Runs

end DjangoNova
