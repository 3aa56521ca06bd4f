import DjangoNova.Tasks.Stages

/-!
# The books of the backend

In every reachable state each unfinished task has one payload, its result
is known and not final, and the queue counts it. A final result is never
changed.
-/

namespace DjangoNova

section Results

variable {I F O V : Type} [DecidableEq I] {w : TaskWorld I F O V} {p : Payload I F O}
  {r : TaskResult V} {id : I}

def TaskStatus.Final (s : TaskStatus) : Prop := s = .success ∨ s = .failed

def TaskWorld.Final (w : TaskWorld I F O V) (id : I) : Prop :=
  ∃ r, w.results id = some r ∧ r.status.Final

namespace TaskWorld

theorem modify_self (h : w.results id = some r) (u : ResultUpdate V) :
    (w.modify id u).results id = some (u.apply w.now r) := by
  simp [modify, h]

theorem modify_else {id' : I} (h : id' ≠ id) (u : ResultUpdate V) :
    (w.modify id u).results id' = w.results id' := Function.update_of_ne h _ _

omit [DecidableEq I] in
theorem status_eq (h : w.results id = some r) : w.status id = r.status := by
  simp [status, h]

theorem launched_self (h : w.results p.taskId = some r) :
    (w.launched p).results p.taskId =
      some { r with status := .running, startedAt := some (r.startedAt.getD w.now) } :=
  modify_self (modify_self h (.status .running)) .started

theorem launched_else (h : id ≠ p.taskId) : (w.launched p).results id = w.results id :=
  (modify_else h .started).trans (modify_else h (.status .running))

theorem concluded_self (h : w.results p.taskId = some r) (hstatus : r.status ≠ .retrying) :
    (w.concluded p).results p.taskId = some { r with finishedAt := some w.now } := by
  unfold concluded
  rw [status_eq h, if_neg hstatus]
  exact modify_self h .finished

theorem concluded_retrying (h : w.results p.taskId = some r) (hstatus : r.status = .retrying) :
    (w.concluded p).results p.taskId = some r := by
  unfold concluded
  rw [status_eq h, if_pos hstatus]
  exact h

theorem concluded_else (h : id ≠ p.taskId) : (w.concluded p).results id = w.results id := by
  unfold concluded
  split
  · rfl
  · exact modify_else h .finished

theorem completed_ok (h : w.results p.taskId = some r) (v : V) :
    (w.completed p (.ok v)).1.results p.taskId =
      some { r with
        status := .success, result := some v, attempts := p.attempts + 1,
        finishedAt := some w.now } := by
  have hsucceeded : (w.succeeded p v).results p.taskId =
      some { r with status := .success, result := some v, attempts := p.attempts + 1 } :=
    modify_self (modify_self (modify_self h (.status .success)) (.result v)) (.attempts _)
  exact concluded_self hsucceeded nofun

theorem retried_self (h : w.results p.taskId = some r) :
    (w.retried p).results p.taskId =
      some { r with attempts := p.attempts + 1, status := .retrying } :=
  modify_self (modify_self h (.attempts _)) (.status .retrying)

/-- The outcome of an attempt that leads to another one. -/
theorem completed_retry (h : w.results p.taskId = some r)
    (hretry : (p.attempts : ℤ) < p.maxRetries) (text : Str) :
    (w.completed p (.error (.exception (some text)))).1.results p.taskId =
        some { r with
          attempts := p.attempts + 1, status := .retrying
          error := some (AsyncioBackend.attemptFailed (p.attempts + 1) text) } ∧
      (w.completed p (.error (.exception (some text)))).2 = .resting p := by
  unfold completed
  dsimp only
  rw [if_pos hretry]
  exact ⟨modify_self (retried_self h) _, rfl⟩

theorem completed_fail (h : w.results p.taskId = some r)
    (hretry : ¬(p.attempts : ℤ) < p.maxRetries) (text : Str) :
    (w.completed p (.error (.exception (some text)))).1.results p.taskId =
        some { r with
          status := .failed, error := some text, attempts := p.attempts + 1
          finishedAt := some w.now } ∧
      (w.completed p (.error (.exception (some text)))).2 = .idle := by
  unfold completed
  dsimp only
  rw [if_neg hretry]
  have hfailed := modify_self (modify_self (modify_self h (.status .failed)) (.error text))
    (.attempts (p.attempts + 1))
  exact ⟨concluded_self hfailed nofun, rfl⟩

/-- The last attempt fails with an exception that has no text. -/
theorem completed_fail_none (h : w.results p.taskId = some r)
    (hretry : ¬(p.attempts : ℤ) < p.maxRetries) :
    (w.completed p (.error (.exception none))).1.results p.taskId =
      some { r with status := .failed, finishedAt := some w.now } := by
  unfold completed
  dsimp only
  rw [if_neg hretry]
  exact concluded_self (modify_self h (.status .failed)) nofun

theorem completed_else (h : id ≠ p.taskId) (v : Except TaskExn V) :
    (w.completed p v).1.results id = w.results id := by
  rcases v with (text | _) | v
  · unfold completed
    dsimp only
    split
    · cases text <;> simp [retried, concluded_else h, modify_else h]
    · cases text <;> simp [concluded_else h, modify_else h]
  · exact concluded_else h
  · have hsucceeded : (w.succeeded p v).results id = w.results id := by
      simp [succeeded, modify_else h]
    exact (concluded_else h).trans hsucceeded

theorem concluded_unfinished : (w.concluded p).unfinished = w.unfinished - 1 := by
  unfold concluded
  split <;> rfl

/-- An attempt that ends stays on the counter, or leaves it. -/
theorem completed_unfinished (v : Except TaskExn V) :
    (w.completed p v).2.stage.toList.length + w.unfinished ≤
      (w.completed p v).1.unfinished + 1 := by
  rcases v with (text | _) | v
  · unfold completed
    dsimp only
    split
    · cases text with
      | some text => simp [retried, modify, Phase.stage, Nat.add_comm]
      | none =>
          rw [concluded_unfinished]
          simp [retried, modify, Phase.stage]
          omega
    · cases text <;> rw [concluded_unfinished] <;> simp [modify, Phase.stage] <;> omega
  · show 0 + w.unfinished ≤ (w.concluded p).unfinished + 1
    rw [concluded_unfinished]
    omega
  · show 0 + w.unfinished ≤ ((w.succeeded p v).concluded p).unfinished + 1
    rw [concluded_unfinished]
    show 0 + w.unfinished ≤ w.unfinished - 1 + 1
    omega

end TaskWorld

end Results

section Sound

variable {I F O V : Type}

/-- Each unfinished task has one payload and a result that is not final, and
the queue counts it. -/
structure Sound (w : TaskWorld I F O V) (l : List (Stage I F O)) : Prop where
  nodup : (l.map Stage.id).Nodup
  known : ∀ x ∈ l, ∃ r, w.results x.id = some r ∧ ¬r.status.Final
  counted : l.length ≤ w.unfinished

theorem Sound.perm {w w' : TaskWorld I F O V} {l l' : List (Stage I F O)} (h : Sound w l)
    (hworld : w'.SameBooks w) (hperm : l'.Perm l) : Sound w' l' := by
  constructor
  · exact (hperm.map Stage.id).nodup_iff.mpr h.nodup
  · intro x hx
    rw [hworld.results]
    exact h.known x (hperm.mem_iff.mp hx)
  · rw [hworld.unfinished, hperm.length_eq]
    exact h.counted

variable [DecidableEq I] {w w' : TaskWorld I F O V} {act : TaskAction I F O V} {flag : Bool}
  {x : Stage I F O} {ys rest : List (Stage I F O)}

/-- A turn touches the result of its own task only. -/
theorem Progress.elsewhere (h : Progress w act flag x w' ys) {id : I} (hid : id ≠ x.id) :
    w'.results id = w.results id := by
  cases h with
  | delayed p => rfl
  | launched p => exact TaskWorld.launched_else hid
  | completed i v r flag p => exact TaskWorld.completed_else hid v
  | requeued p => exact TaskWorld.concluded_else hid
  | dropped p => rfl
  | withdrawn p => exact TaskWorld.concluded_else hid

theorem stage_completed_eq {p : Payload I F O} {v : Except TaskExn V} {y : Stage I F O}
    (h : y ∈ (w.completed p v).2.stage.toList) :
    y = .resting p ∧ (p.attempts : ℤ) < p.maxRetries ∧
      ∃ text, v = .error (.exception (some text)) := by
  rcases v with (text | _) | v
  · unfold TaskWorld.completed at h
    dsimp only at h
    split at h
    next hretry =>
      cases text with
      | some text => exact ⟨List.mem_singleton.mp h, hretry, text, rfl⟩
      | none => cases h
    next =>
      cases text <;> cases h
  · cases h
  · cases h

theorem Progress.id_eq (h : Progress w act flag x w' ys) {y : Stage I F O} (hy : y ∈ ys) :
    y.id = x.id := by
  cases h with
  | delayed p => rw [List.mem_singleton.mp hy]
  | launched p =>
      rw [List.mem_singleton.mp hy]
      rfl
  | completed i v r flag p =>
      rw [(stage_completed_eq hy).1]
      rfl
  | requeued p =>
      rw [List.mem_singleton.mp hy]
      rfl
  | dropped p => cases hy
  | withdrawn p => cases hy

theorem Progress.counted (h : Progress w act flag x w' ys) :
    ys.length + w.unfinished ≤ w'.unfinished + 1 := by
  cases h with
  | delayed p => simp [Nat.add_comm]
  | launched p => simp [TaskWorld.launched, TaskWorld.modify, TaskWorld.record, Nat.add_comm]
  | completed i v r flag p => exact TaskWorld.completed_unfinished v
  | requeued p =>
      rw [TaskWorld.concluded_unfinished]
      simp [TaskWorld.put, Nat.add_comm]
  | dropped p => simp
  | withdrawn p =>
      rw [TaskWorld.concluded_unfinished]
      simp only [List.length_nil]
      omega

/-- A task that keeps its payload keeps a result that is not final. -/
theorem Progress.known (h : Progress w act flag x w' ys)
    (hx : ∃ r, w.results x.id = some r ∧ ¬r.status.Final) {y : Stage I F O} (hy : y ∈ ys) :
    ∃ r, w'.results y.id = some r ∧ ¬r.status.Final := by
  have hrunning : ¬TaskStatus.Final .running := by simp [TaskStatus.Final]
  have hretrying : ¬TaskStatus.Final .retrying := by simp [TaskStatus.Final]
  obtain ⟨r, hr, hfinal⟩ := hx
  cases h with
  | delayed p =>
      rw [List.mem_singleton.mp hy]
      exact ⟨r, hr, hfinal⟩
  | launched p =>
      rw [List.mem_singleton.mp hy]
      exact ⟨_, TaskWorld.launched_self hr, hrunning⟩
  | completed i v _ flag p =>
      obtain ⟨rfl, hretry, text, rfl⟩ := stage_completed_eq hy
      have hrecord : (w.record (.ended p.taskId (.error (.exception (some text))))).results
          p.taskId = some r := hr
      exact ⟨_, (TaskWorld.completed_retry hrecord hretry text).1, hretrying⟩
  | requeued p =>
      rw [List.mem_singleton.mp hy]
      by_cases hstatus : r.status = .retrying
      · exact ⟨r, TaskWorld.concluded_retrying hr hstatus, hfinal⟩
      · exact ⟨_, TaskWorld.concluded_self hr hstatus, hfinal⟩
  | dropped p => cases hy
  | withdrawn p => cases hy

theorem Progress.length_le (h : Progress w act flag x w' ys) : ys.length ≤ 1 := by
  cases h with
  | completed i v r flag p => cases ((w.record _).completed p v).2.stage <;> simp
  | _ => simp

theorem Progress.sound (h : Progress w act flag x w' ys) (hsound : Sound w (x :: rest)) :
    Sound w' (ys ++ rest) := by
  have hother : ∀ y ∈ rest, y.id ≠ x.id := by
    intro y hy heq
    apply (List.nodup_cons.mp hsound.nodup).1
    exact List.mem_map.mpr ⟨y, hy, heq⟩
  have hcounted := hsound.counted
  rw [List.length_cons] at hcounted
  have hnodup : (rest.map Stage.id).Nodup := (List.nodup_cons.mp hsound.nodup).2
  constructor
  · rw [List.map_append, List.nodup_append]
    refine ⟨?_, hnodup, ?_⟩
    · have hlength : (ys.map Stage.id).length ≤ 1 := by
        rw [List.length_map]
        exact h.length_le
      match ys.map Stage.id, hlength with
      | [], _ => exact List.nodup_nil
      | [i], _ => simp
    · intro i hi j hj heq
      obtain ⟨y, hy, rfl⟩ := List.mem_map.mp hi
      obtain ⟨z, hz, rfl⟩ := List.mem_map.mp hj
      exact hother z hz (heq.symm.trans (h.id_eq hy))
  · intro y hy
    rcases List.mem_append.mp hy with hy | hy
    · exact h.known (hsound.known x List.mem_cons_self) hy
    · rw [h.elsewhere (hother y hy)]
      exact hsound.known y (List.mem_cons_of_mem x hy)
  · have hcount := h.counted
    rw [List.length_append]
    omega

theorem accepted_self (p : Payload I F O) :
    (w.accepted p).results p.taskId = some .new := Function.update_self ..

theorem accepted_else (p : Payload I F O) {id : I} (hid : id ≠ p.taskId) :
    (w.accepted p).results id = w.results id := Function.update_of_ne hid ..

theorem sound_accepted {p : Payload I F O} {l : List (Stage I F O)}
    (hnew : w.results p.taskId = none) (hsound : Sound w l) :
    Sound (w.accepted p) (.waiting p :: l) := by
  have hother : ∀ x ∈ l, x.id ≠ p.taskId := by
    intro x hx heq
    obtain ⟨r, hr, -⟩ := hsound.known x hx
    rw [heq, hnew] at hr
    cases hr
  constructor
  · apply List.nodup_cons.mpr
    refine ⟨?_, hsound.nodup⟩
    intro hmem
    obtain ⟨x, hx, heq⟩ := List.mem_map.mp hmem
    exact hother x hx heq
  · intro x hx
    rcases List.mem_cons.mp hx with rfl | hx
    · refine ⟨.new, accepted_self p, ?_⟩
      simp [TaskStatus.Final, TaskResult.new]
    · rw [accepted_else p (hother x hx)]
      exact hsound.known x hx
  · exact Nat.succ_le_succ hsound.counted

variable {a a' : TaskSystem I F O V (Phase I F O)}

theorem Moves.sound (h : Moves a a' act) (hsound : Sound a.world a.stages) :
    Sound a'.world a'.stages := by
  cases h with
  | quiet hworld hstages => exact hsound.perm hworld hstages
  | submit p hnew hworld hstages =>
      rw [hworld]
      exact (sound_accepted hnew.2 hsound).perm (sameBooks_refl _) hstages
  | work flag w x ys rest hflag hact hworld hbefore h hafter =>
      have hmoved := h.sound (hsound.perm hworld hbefore.symm)
      exact hmoved.perm (sameBooks_refl _) hafter

omit [DecidableEq I] in
/-- A finished task has no payload left. -/
theorem Sound.ne_of_final {l : List (Stage I F O)} (h : Sound w l) {id : I} (hfinal : w.Final id)
    {x : Stage I F O} (hx : x ∈ l) : id ≠ x.id := by
  rintro rfl
  obtain ⟨r, hr, hstatus⟩ := hfinal
  obtain ⟨r', hr', hstatus'⟩ := h.known x hx
  cases hr.symm.trans hr'
  exact hstatus' hstatus

/-- A final result stays as it is. -/
theorem Moves.final (h : Moves a a' act) (hsound : Sound a.world a.stages) {id : I}
    (hfinal : a.world.Final id) : a'.world.results id = a.world.results id := by
  cases h with
  | quiet hworld hstages => rw [hworld.results]
  | submit p hnew hworld hstages =>
      rw [hworld]
      apply accepted_else
      rintro rfl
      obtain ⟨r, hr, -⟩ := hfinal
      cases hr.symm.trans hnew.2
  | work flag w x ys rest hflag hact hworld hbefore h hafter =>
      rw [← hworld.results]
      exact h.elsewhere (hsound.ne_of_final hfinal (hbefore.mem_iff.mpr List.mem_cons_self))

end Sound

section Flags

variable {I F O V : Type} {S : Type}

/-- Before `stop` cancels the workers, none is asked to cancel. -/
def Unflagged (s : TaskSystem I F O V S) : Prop :=
  s.cancelling = false → ∀ t ∈ s.tasks, t.cancelRequested = false

theorem Unflagged.settle {s : TaskSystem I F O V S} (h : Unflagged s) (i : ℕ)
    (w : TaskWorld I F O V) (state : S) : Unflagged (s.settle i w state) := by
  intro hcancelling t ht
  rcases List.mem_or_eq_of_mem_set ht with ht | rfl
  · exact h hcancelling t ht
  · rfl

theorem unflagged_start {s s' : TaskSystem I F O V S} (h : Unflagged s) {n : ℕ} {idle : S}
    (hstart : s.start n idle = some s') : Unflagged s' := by
  unfold TaskSystem.start at hstart
  split at hstart
  · split at hstart
    · cases hstart
      exact h
    · cases hstart
      intro hcancelling t ht
      rcases List.mem_append.mp ht with ht | ht
      · exact h hcancelling t ht
      · rw [List.eq_of_mem_replicate ht]
  · cases hstart

theorem unflagged_stop {s s' : TaskSystem I F O V S} (h : Unflagged s)
    (hstop : s.stop = some s') : Unflagged s' := by
  unfold TaskSystem.stop at hstop
  split at hstop
  · dsimp only at hstop
    split at hstop
    · cases hstop
      exact h
    · split at hstop
      · cases hstop
        exact nofun
      · cases hstop
        exact h
  · cases hstop

theorem unflagged_step [DecidableEq I] {a a' : TaskSystem I F O V (Phase I F O)} {n : ℕ}
    {act : TaskAction I F O V} (h : Unflagged a) (hstep : a.phaseStep n act = some a') :
    Unflagged a' := by
  cases act with
  | tick =>
      cases hstep
      exact h
  | submit p r =>
      simp only [TaskSystem.phaseStep] at hstep
      split at hstep
      · cases hstep
        exact h
      · cases hstep
  | take i r =>
      simp only [TaskSystem.phaseStep] at hstep
      split at hstep
      · cases hstep
        exact h.settle i _ _
      · cases hstep
  | complete i v r =>
      simp only [TaskSystem.phaseStep] at hstep
      split at hstep
      · cases hstep
        exact h.settle i _ _
      · cases hstep
  | wake i r =>
      simp only [TaskSystem.phaseStep] at hstep
      split at hstep
      · cases hstep
        exact h.settle i _ _
      · cases hstep
        exact h.settle i _ _
      · cases hstep
  | cancel i r =>
      simp only [TaskSystem.phaseStep] at hstep
      split at hstep
      · cases hstep
        exact h.settle i _ _
      · cases hstep
        exact h.settle i _ _
      · cases hstep
        exact h.settle i _ _
      · cases hstep
  | start => exact unflagged_start h hstep
  | stop => exact unflagged_stop h hstep
  | joined =>
      simp only [TaskSystem.phaseStep, TaskSystem.joined] at hstep
      split at hstep
      · cases hstep
        intro hready
        cases hready
      · cases hstep
  | stopped =>
      simp only [TaskSystem.phaseStep, TaskSystem.stopped] at hstep
      split at hstep
      · split at hstep
        · cases hstep
          exact h
        · cases hstep
      · cases hstep

end Flags

end DjangoNova
