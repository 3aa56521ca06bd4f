import DjangoNova.Tasks.Phases

/-!
# The stages of a task

A task that is not finished has one payload, which waits, runs or rests.
Every step of the abstract backend keeps the books, accepts a payload, or
moves one payload to its next stage.
-/

namespace DjangoNova

section Stages

variable {I F O V : Type}

/-- Where a payload is: in the queue or held until its delay is over, with
its function running, or held until the next attempt. -/
inductive Stage (I F O : Type) where
  | waiting (p : Payload I F O)
  | running (p : Payload I F O)
  | resting (p : Payload I F O)

namespace Stage

def payload : Stage I F O → Payload I F O
  | .waiting p | .running p | .resting p => p

def id (x : Stage I F O) : I := x.payload.taskId

end Stage

def Phase.stage : Phase I F O → Option (Stage I F O)
  | .delaying p => some (.waiting p)
  | .running p => some (.running p)
  | .resting p => some (.resting p)
  | .idle | .dead => none

def TaskSystem.stages (a : TaskSystem I F O V (Phase I F O)) : List (Stage I F O) :=
  a.world.queue.map .waiting ++ a.tasks.filterMap fun x ↦ x.state.stage

/-- The books of a backend are all but its queue and its clock. -/
structure TaskWorld.SameBooks (w w' : TaskWorld I F O V) : Prop where
  results : w.results = w'.results
  log : w.log = w'.log
  unfinished : w.unfinished = w'.unfinished

variable [DecidableEq I]

/-- What one stretch of a worker does with a payload: the world and the
stages of the payload before and after. The flag tells whether the worker
was asked to cancel. -/
inductive Progress (w : TaskWorld I F O V) : TaskAction I F O V → Bool → Stage I F O →
    TaskWorld I F O V → List (Stage I F O) → Prop
  | delayed (act : TaskAction I F O V) (p : Payload I F O) :
      Progress w act false (.waiting p) w [.waiting p]
  | launched (act : TaskAction I F O V) (p : Payload I F O) :
      Progress w act false (.waiting p) (w.launched p) [.running p]
  | completed (i : ℕ) (v : Except TaskExn V) (r : SpanReplies) (flag : Bool)
      (p : Payload I F O) :
      Progress w (.complete i v r) flag (.running p)
        ((w.record (.ended p.taskId v)).completed p v).1
        ((w.record (.ended p.taskId v)).completed p v).2.stage.toList
  | requeued (act : TaskAction I F O V) (p : Payload I F O) :
      Progress w act false (.resting p) ((w.put (AsyncioBackend.Payload.next p)).concluded p)
        [.waiting (AsyncioBackend.Payload.next p)]
  | dropped (act : TaskAction I F O V) (p : Payload I F O) :
      Progress w act true (.waiting p) w []
  | withdrawn (act : TaskAction I F O V) (p : Payload I F O) :
      Progress w act true (.resting p) (w.concluded p) []

/-- The three kinds of steps. -/
inductive Moves (a a' : TaskSystem I F O V (Phase I F O)) (act : TaskAction I F O V) : Prop
  | quiet (hworld : a'.world.SameBooks a.world) (hstages : a'.stages.Perm a.stages)
  | submit (p : Payload I F O) (hnew : p.attempts = 0 ∧ a.world.results p.taskId = none)
      (hworld : a'.world = a.world.accepted p) (hstages : a'.stages.Perm (.waiting p :: a.stages))
  | work (flag : Bool) (w : TaskWorld I F O V) (x : Stage I F O) (ys rest : List (Stage I F O))
      (hflag : flag = true → ∃ t ∈ a.tasks, t.cancelRequested = true)
      (hact : ∀ i v r, act = .complete i v r →
        ∃ p, x = .running p ∧ a.tasks[i]? = some ⟨.running p, flag⟩)
      (hworld : w.SameBooks a.world) (hbefore : a.stages.Perm (x :: rest))
      (h : Progress w act flag x a'.world ys) (hafter : a'.stages.Perm (ys ++ rest))

end Stages

section World

variable {I F O V : Type} [DecidableEq I] (w : TaskWorld I F O V) (p : Payload I F O)

namespace TaskWorld

@[simp] theorem launched_queue : (w.launched p).queue = w.queue := rfl

@[simp] theorem concluded_queue : (w.concluded p).queue = w.queue := by
  unfold concluded
  split <;> rfl

@[simp] theorem completed_queue (v : Except TaskExn V) : (w.completed p v).1.queue = w.queue := by
  rcases v with (text | _) | v
  · unfold completed
    dsimp only
    split <;> cases text <;> simp [retried, modify]
  · exact concluded_queue w p
  · exact concluded_queue (w.succeeded p v) p

end TaskWorld

end World

section Moves

variable {I F O V : Type} {a a' : TaskSystem I F O V (Phase I F O)}

/-- Cancelling the workers changes no state of a worker. -/
theorem cancelAll_states {S : Type} (s : TaskSystem I F O V S) :
    s.cancelAll.tasks.map Worker.state = s.tasks.map Worker.state := by
  apply List.ext_getElem?
  intro i
  simp only [TaskSystem.cancelAll, List.getElem?_map, List.getElem?_mapIdx, Option.map_map]
  congr 1
  funext t
  simp only [Function.comp_apply]
  split <;> rfl

theorem filterMap_stage (l : List (Worker (Phase I F O))) :
    (l.filterMap fun t ↦ t.state.stage) = (l.map Worker.state).filterMap Phase.stage := by
  rw [List.filterMap_map]
  rfl

theorem cancelAll_stages : a.cancelAll.stages = a.stages := by
  unfold TaskSystem.stages
  rw [filterMap_stage, filterMap_stage, cancelAll_states]
  rfl

theorem sameBooks_refl (w : TaskWorld I F O V) : w.SameBooks w := ⟨rfl, rfl, rfl⟩

variable [DecidableEq I]

theorem perm_set_filterMap {α β : Type} (f : α → Option β) {l : List α} {i : ℕ} {x : α}
    (h : l[i]? = some x) (y : α) :
    (l.filterMap f).Perm ((f x).toList ++ (l.eraseIdx i).filterMap f) ∧
      ((l.set i y).filterMap f).Perm ((f y).toList ++ (l.eraseIdx i).filterMap f) := by
  obtain ⟨hi, rfl⟩ := List.getElem?_eq_some_iff.mp h
  have hcons : ∀ z : α, (z :: l.eraseIdx i).filterMap f =
      (f z).toList ++ (l.eraseIdx i).filterMap f := by
    intro z
    cases hz : f z <;> simp [hz]
  constructor
  · rw [← hcons]
    exact (List.getElem_cons_eraseIdx_perm hi).symm.filterMap f
  · rw [← hcons]
    exact (List.set_perm_cons_eraseIdx hi y).filterMap f

/-- A worker that is resumed moves one payload from stage `x` to `ys`. -/
theorem moves_settle {act : TaskAction I F O V} {i : ℕ} {t : Worker (Phase I F O)}
    (hi : a.tasks[i]? = some t) {flag : Bool} (hflag : flag = true → t.cancelRequested = true)
    {w w' : TaskWorld I F O V} {x : Stage I F O} {ys : List (Stage I F O)} {phase : Phase I F O}
    (hact : ∀ i v r, act = .complete i v r →
      ∃ p, x = .running p ∧ a.tasks[i]? = some ⟨.running p, flag⟩)
    (hworld : w.SameBooks a.world) (h : Progress w act flag x w' ys)
    (hbefore : (a.world.queue.map Stage.waiting ++ t.state.stage.toList).Perm
      (x :: w.queue.map Stage.waiting))
    (hafter : (w'.queue.map Stage.waiting ++ phase.stage.toList).Perm
      (ys ++ w.queue.map Stage.waiting)) :
    Moves a (a.settle i w' phase) act := by
  obtain ⟨hold, hnew⟩ := perm_set_filterMap (fun t : Worker (Phase I F O) ↦ t.state.stage) hi
    ⟨phase, false⟩
  let others := (a.tasks.eraseIdx i).filterMap fun t ↦ t.state.stage
  have hrequested : flag = true → ∃ t ∈ a.tasks, t.cancelRequested = true :=
    fun hf ↦ ⟨t, List.mem_of_getElem? hi, hflag hf⟩
  apply Moves.work flag w x ys (w.queue.map .waiting ++ others) hrequested hact hworld _ h
  · calc
      (a.settle i w' phase).stages.Perm
          (w'.queue.map .waiting ++ (phase.stage.toList ++ others)) := hnew.append_left _
      _ = w'.queue.map .waiting ++ phase.stage.toList ++ others := (List.append_assoc ..).symm
      List.Perm _ (ys ++ w.queue.map .waiting ++ others) := hafter.append_right _
      _ = ys ++ (w.queue.map .waiting ++ others) := List.append_assoc ..
  · calc
      a.stages.Perm (a.world.queue.map .waiting ++ (t.state.stage.toList ++ others)) :=
        hold.append_left _
      _ = a.world.queue.map .waiting ++ t.state.stage.toList ++ others :=
        (List.append_assoc ..).symm
      List.Perm _ (x :: w.queue.map .waiting ++ others) := hbefore.append_right _

theorem start_moves {n : ℕ} {act : TaskAction I F O V} (h : a.start n .idle = some a') :
    Moves a a' act := by
  unfold TaskSystem.start at h
  split at h
  · split at h
    · cases h
      exact .quiet (sameBooks_refl _) (.refl _)
    · cases h
      refine .quiet (sameBooks_refl a.world) ?_
      simp [TaskSystem.stages, Phase.stage]
  · cases h

theorem stop_moves {act : TaskAction I F O V} (h : a.stop = some a') : Moves a a' act := by
  unfold TaskSystem.stop at h
  split at h
  · dsimp only at h
    split at h
    · cases h
      exact .quiet (sameBooks_refl _) (.refl _)
    · split at h
      · cases h
        exact .quiet ⟨rfl, rfl, rfl⟩ (.of_eq cancelAll_stages)
      · cases h
        exact .quiet ⟨rfl, rfl, rfl⟩ (.refl _)
  · cases h

theorem joined_moves {act : TaskAction I F O V} (h : a.joined = some a') : Moves a a' act := by
  unfold TaskSystem.joined at h
  split at h
  · cases h
    exact .quiet ⟨rfl, rfl, rfl⟩ (.of_eq cancelAll_stages)
  · cases h

theorem stopped_moves {act : TaskAction I F O V} {isDead : Phase I F O → Bool}
    (h : a.stopped isDead = some a') : Moves a a' act := by
  unfold TaskSystem.stopped at h
  split at h
  · split at h
    · cases h
      exact .quiet (sameBooks_refl _) (.refl _)
    · cases h
  · cases h

theorem take_moves {i : ℕ} {r : SpanReplies} {p : Payload I F O} {rest : List (Payload I F O)}
    (hi : a.tasks[i]? = some ⟨.idle, false⟩) (hqueue : a.world.queue = p :: rest) :
    Moves a (a.settle i ({ a.world with queue := rest }.begun p).1
      ({ a.world with queue := rest }.begun p).2) (.take i r) := by
  let w := { a.world with queue := rest }
  have hworld : w.SameBooks a.world := ⟨rfl, rfl, rfl⟩
  have hbefore : (a.world.queue.map Stage.waiting ++ Phase.idle.stage.toList).Perm
      (.waiting p :: w.queue.map Stage.waiting) := by
    rw [hqueue]
    exact .of_eq (List.append_nil _)
  unfold TaskWorld.begun
  split
  · exact moves_settle hi (fun h ↦ h) nofun hworld (.delayed _ p) hbefore
      List.perm_append_comm
  · exact moves_settle hi (fun h ↦ h) nofun hworld (.launched _ p) hbefore
      List.perm_append_comm

/-- Every step is of one of the three kinds. -/
theorem phaseStep_moves {n : ℕ} {act : TaskAction I F O V}
    (h : a.phaseStep n act = some a') : Moves a a' act := by
  have hsame := sameBooks_refl a.world
  cases act with
  | tick =>
      cases h
      exact .quiet ⟨rfl, rfl, rfl⟩ (.refl _)
  | submit p r =>
      simp only [TaskSystem.phaseStep] at h
      split at h
      next hnew =>
        cases h
        apply Moves.submit p hnew rfl
        simp only [TaskSystem.stages, TaskWorld.accepted, TaskWorld.put, TaskWorld.record,
          List.map_append, List.append_assoc]
        exact List.perm_middle
      next => cases h
  | take i r =>
      simp only [TaskSystem.phaseStep] at h
      split at h
      next hi hqueue =>
        cases h
        exact take_moves hi hqueue
      next => cases h
  | complete i v r =>
      simp only [TaskSystem.phaseStep] at h
      split at h
      next p flag hi =>
        cases h
        have hact : ∀ j u r', (.complete i v r : TaskAction I F O V) = .complete j u r' →
            ∃ q, Stage.running p = .running q ∧ a.tasks[j]? = some ⟨.running q, flag⟩ := by
          rintro _ _ _ ⟨⟩
          exact ⟨p, rfl, hi⟩
        apply moves_settle hi (fun hf ↦ hf) hact hsame (.completed i v r flag p)
          List.perm_append_comm
        rw [TaskWorld.completed_queue]
        exact List.perm_append_comm
      next => cases h
  | wake i r =>
      simp only [TaskSystem.phaseStep] at h
      split at h
      next p hi =>
        cases h
        exact moves_settle hi (fun hf ↦ hf) nofun hsame (.launched _ p) List.perm_append_comm
          List.perm_append_comm
      next p hi =>
        cases h
        refine moves_settle hi (fun hf ↦ hf) nofun hsame (.requeued _ p) List.perm_append_comm ?_
        simp only [TaskWorld.concluded_queue, TaskWorld.put, List.map_append, Phase.stage,
          Option.toList_none, List.append_nil]
        exact List.perm_append_comm
      next => cases h
  | cancel i r =>
      simp only [TaskSystem.phaseStep] at h
      split at h
      next hi =>
        cases h
        obtain ⟨hold, hnew⟩ := perm_set_filterMap
          (fun t : Worker (Phase I F O) ↦ t.state.stage) hi ⟨.dead, false⟩
        exact .quiet hsame ((hnew.trans hold.symm).append_left _)
      next p hi =>
        cases h
        refine moves_settle hi (fun _ ↦ rfl) nofun hsame (.dropped _ p) List.perm_append_comm ?_
        exact .of_eq (List.append_nil _)
      next p hi =>
        cases h
        refine moves_settle hi (fun _ ↦ rfl) nofun hsame (.withdrawn _ p) List.perm_append_comm ?_
        rw [TaskWorld.concluded_queue]
        exact .of_eq (List.append_nil _)
      next => cases h
  | start => exact start_moves h
  | stop => exact stop_moves h
  | joined => exact joined_moves h
  | stopped => exact stopped_moves h

end Moves

end DjangoNova
