import DjangoNova.Collections.OrderedDict
import DjangoNova.Concurrency.Interleaving
import DjangoNova.Text.Str

/-!
# Context bindings

The bindings of a task are a dictionary behind a context variable. A new
task starts with a copy of the variables of its creator, so that both refer
to one dictionary; since no function changes a dictionary in place, each
task nevertheless has bindings of its own, and `new_context` blocks nest.
structlog is a parameter, whose context variables have states of type `C`.
-/

namespace DjangoNova

variable {K V C : Type}

abbrev Bindings (V : Type) := OrderedDict Str V

/-- `structlog.contextvars` -/
structure Structlog (V C : Type) where
  /-- It can be imported. -/
  available : Bool
  /-- No variable has been set. -/
  fresh : C
  clearContextvars : C → C
  bindContextvars : Bindings V → C → C
  /-- What is merged into an event. -/
  merged : C → Str → Option V

namespace Structlog

/-- An event has what was bound since the variables were last cleared. The
values are other ones than `Ellipsis`, which stands for a cleared variable. -/
structure Documented (S : Structlog V C) : Prop where
  fresh : S.merged S.fresh = fun _ ↦ none
  clear : ∀ s, S.merged (S.clearContextvars s) = fun _ ↦ none
  bind : ∀ ctx s,
    S.merged (S.bindContextvars ctx s) = fun key ↦ (ctx.lookup key).or (S.merged s key)

variable (S : Structlog V C)

/-- `_sync_structlog_context` -/
def sync (s : C) (ctx : Bindings V) : C :=
  if S.available then
    if ctx.items = [] then S.clearContextvars s
    else S.bindContextvars ctx (S.clearContextvars s)
  else s

/-- The bindings as an event shows them; nothing without structlog. -/
def mirror (ctx : Bindings V) : Str → Option V :=
  if S.available then fun key ↦ ctx.lookup key else fun _ ↦ none

variable {S} {s : C}

/-- After a synchronization an event shows the bindings. -/
theorem Documented.sync (hS : S.Documented) {d : Bindings V} (hs : S.merged s = S.mirror d)
    (ctx : Bindings V) : S.merged (S.sync s ctx) = S.mirror ctx := by
  unfold Structlog.sync mirror at *
  split
  · split
    · rename_i hempty
      rw [hS.clear]
      funext key
      simp [OrderedDict.lookup, hempty]
    · rw [hS.bind]
      funext key
      rw [hS.clear, Option.or_none]
  · rename_i havailable
    rw [hs, if_neg havailable]

end Structlog

/-- The calls between which a task can be suspended, without the blocks. -/
inductive ContextCall (K V : Type) where
  | bind (kwargs : Bindings V)
  | unbind (keys : List Str)
  | clear
  | get (key : Str) (fallback : V)
  | getAll
  /-- What structlog merges into an event. -/
  | logged
  /-- A change to a dictionary that `get_all` has returned. -/
  | mutate (index : ℕ) (d : Bindings V)
  | createTask (child : K)

inductive ContextAction (K V : Type) where
  | call (c : ContextCall K V)
  | enter (kwargs : Bindings V)
  | exit

inductive ContextRecord (V : Type) where
  | got (value : V)
  | all (d : Bindings V)
  | logged (shown : Str → Option V)

/-- The context of a task. -/
structure TaskContext (C : Type) where
  /-- `_nova_context` -/
  current : Option ℕ
  /-- The tokens of the open `new_context` blocks. -/
  tokens : List (Option ℕ)
  structlog : C

structure ContextWorld (K V C : Type) where
  heap : List (Bindings V)
  tasks : K → TaskContext C
  /-- The dictionaries that `get_all` has returned. -/
  returned : List ℕ

namespace ContextWorld

variable [DecidableEq K] (S : Structlog V C)

def initial : ContextWorld K V C := ⟨[], fun _ ↦ ⟨none, [], S.fresh⟩, []⟩

/-- `_get_ctx` -/
def getCtx (w : ContextWorld K V C) (a : Option ℕ) : Bindings V :=
  (a.bind (w.heap[·]?)).getD .empty

def setTask (w : ContextWorld K V C) (k : K) (t : TaskContext C) : ContextWorld K V C :=
  { w with tasks := Function.update w.tasks k t }

/-- `_nova_context.set` with a new dictionary. -/
def setCtx (w : ContextWorld K V C) (k : K) (tokens : List (Option ℕ)) (ctx : Bindings V) :
    ContextWorld K V C :=
  { w with heap := w.heap ++ [ctx] }.setTask k
    ⟨some w.heap.length, tokens, S.sync (w.tasks k).structlog ctx⟩

def act (w : ContextWorld K V C) (k : K) :
    ContextAction K V → ContextWorld K V C × List (ContextRecord V)
  | .call (.bind kwargs) =>
      (w.setCtx S k (w.tasks k).tokens ((w.getCtx (w.tasks k).current).update kwargs), [])
  | .call (.unbind keys) =>
      (w.setCtx S k (w.tasks k).tokens
        (keys.foldl OrderedDict.erase (w.getCtx (w.tasks k).current)), [])
  | .call .clear =>
      (w.setTask k ⟨none, (w.tasks k).tokens,
        S.sync (w.tasks k).structlog .empty⟩, [])
  | .call (.get key fallback) =>
      (w, [.got (((w.getCtx (w.tasks k).current).lookup key).getD fallback)])
  | .call .getAll =>
      ({ w with
        heap := w.heap ++ [w.getCtx (w.tasks k).current]
        returned := w.returned ++ [w.heap.length] }, [.all (w.getCtx (w.tasks k).current)])
  | .call .logged => (w, [.logged (S.merged (w.tasks k).structlog)])
  | .call (.mutate index d) =>
      match w.returned[index]? with
      | some a => ({ w with heap := w.heap.set a d }, [])
      | none => (w, [])
  | .call (.createTask child) =>
      (w.setTask child ⟨(w.tasks k).current, [], (w.tasks k).structlog⟩, [])
  | .enter kwargs =>
      (w.setCtx S k ((w.tasks k).current :: (w.tasks k).tokens) kwargs, [])
  | .exit =>
      match (w.tasks k).tokens with
      | [] => (w, [])
      | old :: rest =>
          (w.setTask k
            ⟨old, rest, S.sync (w.tasks k).structlog (w.getCtx old)⟩, [])

/-- Some actions of all tasks, with the records in their order. -/
def run (w : ContextWorld K V C) :
    List (K × ContextAction K V) → ContextWorld K V C × List (K × ContextRecord V)
  | [] => (w, [])
  | (k, a) :: rest =>
      let (w, records) := w.act S k a
      let (w, later) := run w rest
      (w, records.map (Prod.mk k) ++ later)

end ContextWorld

/-- The bindings of a task, apart from all others. -/
structure LocalContext (V C : Type) where
  bindings : Bindings V
  outer : List (Bindings V)
  structlog : C

/-- The bindings after a call. -/
def ContextCall.after : ContextCall K V → Bindings V → Bindings V
  | .bind kwargs, ctx => ctx.update kwargs
  | .unbind keys, ctx => keys.foldl OrderedDict.erase ctx
  | .clear, _ => .empty
  | _, ctx => ctx

def ContextCall.changes : ContextCall K V → Bool
  | .bind _ | .unbind _ | .clear => true
  | _ => false

/-- What a call shows. -/
def ContextCall.shows (shown : Str → Option V) : ContextCall K V → Bindings V →
    List (ContextRecord V)
  | .get key fallback, ctx => [.got ((ctx.lookup key).getD fallback)]
  | .getAll, ctx => [.all ctx]
  | .logged, _ => [.logged shown]
  | _, _ => []

namespace LocalContext

def step (S : Structlog V C) (c : LocalContext V C) :
    ContextAction K V → LocalContext V C × List (ContextRecord V)
  | .call call =>
      ({ c with
        bindings := call.after c.bindings
        structlog := if call.changes then S.sync c.structlog
          (call.after c.bindings) else c.structlog }, call.shows (S.merged c.structlog) c.bindings)
  | .enter kwargs =>
      (⟨kwargs, c.bindings :: c.outer, S.sync c.structlog kwargs⟩, [])
  | .exit =>
      match c.outer with
      | [] => (c, [])
      | old :: rest => (⟨old, rest, S.sync c.structlog old⟩, [])

/-- A new task. -/
def fork (c : LocalContext V C) : LocalContext V C := ⟨c.bindings, [], c.structlog⟩

end LocalContext

namespace ContextWorld

/-- The bindings of a task by their values. -/
def localContext (w : ContextWorld K V C) (k : K) : LocalContext V C :=
  ⟨w.getCtx (w.tasks k).current, (w.tasks k).tokens.map w.getCtx, (w.tasks k).structlog⟩

/-- No caller has a dictionary that a variable or a token refers to. -/
structure Sound (w : ContextWorld K V C) : Prop where
  returned : ∀ a ∈ w.returned, a < w.heap.length
  own : ∀ k a, (some a = (w.tasks k).current ∨ some a ∈ (w.tasks k).tokens) →
    a < w.heap.length ∧ a ∉ w.returned

variable [DecidableEq K] {S : Structlog V C} {w : ContextWorld K V C} {k j : K}

omit [DecidableEq K] in
theorem sound_initial : (initial S : ContextWorld K V C).Sound :=
  ⟨by simp [initial], by simp [initial]⟩

theorem tasks_setTask {t : TaskContext C} :
    (w.setTask k t).tasks j = if j = k then t else w.tasks j :=
  Function.update_apply ..

theorem localContext_setTask {t : TaskContext C} : (w.setTask k t).localContext j =
    if j = k then ⟨w.getCtx t.current, t.tokens.map w.getCtx, t.structlog⟩
    else w.localContext j := by
  rw [localContext, tasks_setTask]
  split <;> rfl

/-- A task with dictionaries that callers do not have. -/
theorem Sound.setTask {t : TaskContext C} (h : w.Sound)
    (ht : ∀ a, (some a = t.current ∨ some a ∈ t.tokens) → a < w.heap.length ∧ a ∉ w.returned) :
    (w.setTask k t).Sound := by
  refine ⟨h.returned, fun j a ha ↦ ?_⟩
  rw [tasks_setTask] at ha
  split at ha
  · exact ht a ha
  · exact h.own j a ha

section Heaps

omit [DecidableEq K]

theorem getCtx_congr {w' : ContextWorld K V C} {x : Option ℕ}
    (h : ∀ a, some a = x → w'.heap[a]? = w.heap[a]?) : w'.getCtx x = w.getCtx x := by
  cases x with
  | none => rfl
  | some a => simp [getCtx, h a rfl]

/-- The bindings stay while the dictionaries of the variables stay. -/
theorem localContext_congr {w' : ContextWorld K V C} (htasks : w'.tasks j = w.tasks j)
    (hheap : ∀ a, (some a = (w.tasks j).current ∨ some a ∈ (w.tasks j).tokens) →
      w'.heap[a]? = w.heap[a]?) : w'.localContext j = w.localContext j := by
  rw [localContext, localContext, htasks]
  congr 1
  · exact getCtx_congr fun a ha ↦ hheap a (.inl ha)
  · exact List.map_congr_left fun x hx ↦ getCtx_congr fun a ha ↦ hheap a (.inr (ha ▸ hx))

theorem Sound.append (h : w.Sound) (d : Bindings V) :
    Sound { w with heap := w.heap ++ [d] } := by
  refine ⟨fun a ha ↦ ?_, fun j a ha ↦ ?_⟩
  · simpa using Nat.lt_succ_of_lt (h.returned a ha)
  · obtain ⟨hlt, hown⟩ := h.own j a ha
    exact ⟨by simpa using Nat.lt_succ_of_lt hlt, hown⟩

theorem Sound.localContext_append (h : w.Sound) (d : Bindings V) :
    localContext { w with heap := w.heap ++ [d] } j = w.localContext j :=
  localContext_congr rfl fun a ha ↦ List.getElem?_append_left (h.own j a ha).1

theorem Sound.getAll (h : w.Sound) (d : Bindings V) :
    Sound { w with heap := w.heap ++ [d], returned := w.returned ++ [w.heap.length] } := by
  obtain ⟨hreturned, hown⟩ := h.append d
  refine ⟨fun a ha ↦ ?_, fun j a ha ↦ ⟨(hown j a ha).1, fun hmem ↦ ?_⟩⟩
  · rcases List.mem_append.mp ha with ha | ha
    · exact hreturned a ha
    · simp [List.mem_singleton.mp ha]
  · rcases List.mem_append.mp hmem with hmem | hmem
    · exact (hown j a ha).2 hmem
    · have hlt := (h.own j a ha).1
      rw [List.mem_singleton.mp hmem] at hlt
      exact absurd hlt (Nat.lt_irrefl _)

theorem Sound.mutate {a : ℕ} (h : w.Sound) (d : Bindings V) :
    Sound { w with heap := w.heap.set a d } := by
  refine ⟨fun b hb ↦ ?_, fun j b hb ↦ ?_⟩
  · simpa using h.returned b hb
  · simpa using h.own j b hb

theorem Sound.localContext_mutate {a : ℕ} (h : w.Sound) (ha : a ∈ w.returned) (d : Bindings V) :
    localContext { w with heap := w.heap.set a d } j = w.localContext j := by
  refine localContext_congr rfl fun b hb ↦ List.getElem?_set_ne ?_
  rintro rfl
  exact (h.own j a hb).2 ha

end Heaps

/-- A task gets a dictionary of its own. -/
theorem Sound.setCtx {tokens : List (Option ℕ)} (h : w.Sound) (ctx : Bindings V)
    (htokens : ∀ x ∈ tokens, x = (w.tasks k).current ∨ x ∈ (w.tasks k).tokens) :
    (w.setCtx S k tokens ctx).Sound ∧
      ∀ j, (w.setCtx S k tokens ctx).localContext j =
        if j = k then ⟨ctx, tokens.map w.getCtx,
          S.sync (w.tasks k).structlog ctx⟩
        else w.localContext j := by
  have hown : ∀ a, some a ∈ tokens → a < w.heap.length ∧ a ∉ w.returned := by
    intro a ha
    rcases htokens _ ha with heq | hmem
    · exact h.own k a (.inl heq)
    · exact h.own k a (.inr hmem)
  constructor
  · refine (h.append ctx).setTask fun a ha ↦ ?_
    rcases ha with ha | ha
    · cases ha
      exact ⟨by simp, fun hmem ↦ (h.returned _ hmem).false⟩
    · obtain ⟨hlt, hnew⟩ := hown a ha
      exact ⟨by simpa using Nat.lt_succ_of_lt hlt, hnew⟩
  · intro j
    rw [ContextWorld.setCtx, localContext_setTask, h.localContext_append]
    congr 2
    · simp [getCtx]
    · refine List.map_congr_left fun x hx ↦ getCtx_congr fun a ha ↦ ?_
      exact List.getElem?_append_left (hown a (ha ▸ hx)).1

theorem eq_ite_self : w.localContext j =
    if j = k then w.localContext k else w.localContext j := by
  split
  · rename_i hj
    rw [hj]
  · rfl

/-- What an action does to the task itself, and to all others. -/
theorem act_spec (S : Structlog V C) (h : w.Sound) (k : K) (a : ContextAction K V) :
    (w.act S k a).1.Sound ∧
      (w.act S k a).2 = ((w.localContext k).step S a).2 ∧
      (∀ j, a = .call (.createTask j) →
        (w.act S k a).1.localContext j = (w.localContext k).fork) ∧
      ∀ j, a ≠ .call (.createTask j) → (w.act S k a).1.localContext j =
        if j = k then ((w.localContext k).step S a).1 else w.localContext j := by
  cases a with
  | call c =>
      cases c with
      | bind kwargs | unbind keys =>
          obtain ⟨hsound, hlocal⟩ := h.setCtx _ fun x hx ↦ .inr hx
          exact ⟨hsound, rfl, fun j hj ↦ (by cases hj), fun j _ ↦ hlocal j⟩
      | clear =>
          refine ⟨h.setTask fun a ha ↦ ?_, rfl, fun j hj ↦ (by cases hj), fun j _ ↦ ?_⟩
          · exact h.own k a (.inr (ha.resolve_left fun hnone ↦ by cases hnone))
          · exact localContext_setTask
      | get key fallback => exact ⟨h, rfl, fun j hj ↦ (by cases hj), fun j _ ↦ eq_ite_self⟩
      | getAll =>
          refine ⟨h.getAll _, rfl, fun j hj ↦ (by cases hj), fun j _ ↦ ?_⟩
          exact (h.localContext_append _).trans eq_ite_self
      | logged => exact ⟨h, rfl, fun j hj ↦ (by cases hj), fun j _ ↦ eq_ite_self⟩
      | mutate index d =>
          rw [act]
          split
          · rename_i a ha
            refine ⟨h.mutate d, rfl, fun j hj ↦ (by cases hj), fun j _ ↦ ?_⟩
            exact (h.localContext_mutate (List.mem_of_getElem? ha) d).trans eq_ite_self
          · exact ⟨h, rfl, fun j hj ↦ (by cases hj), fun j _ ↦ eq_ite_self⟩
      | createTask child =>
          refine ⟨h.setTask fun a ha ↦ ?_, rfl, fun j hj ↦ ?_, fun j hj ↦ ?_⟩
          · exact h.own k a (.inl (ha.resolve_right List.not_mem_nil))
          · cases hj
            rw [act, localContext_setTask, if_pos rfl]
            rfl
          · have hne : j ≠ child := fun heq ↦ hj (heq ▸ rfl)
            rw [act, localContext_setTask, if_neg hne]
            exact eq_ite_self
  | enter kwargs =>
      obtain ⟨hsound, hlocal⟩ := h.setCtx kwargs fun x hx ↦ List.mem_cons.mp hx
      exact ⟨hsound, rfl, fun j hj ↦ (by cases hj), fun j _ ↦ hlocal j⟩
  | exit =>
      have houter : (w.localContext k).outer = (w.tasks k).tokens.map w.getCtx := rfl
      rw [act, LocalContext.step, houter]
      cases htokens : (w.tasks k).tokens with
      | nil => exact ⟨h, rfl, fun j hj ↦ (by cases hj), fun j _ ↦ eq_ite_self⟩
      | cons old rest =>
          refine ⟨h.setTask fun a ha ↦ h.own k a (.inr ?_), rfl, fun j hj ↦ (by cases hj),
            fun j _ ↦ localContext_setTask⟩
          rw [htokens]
          exact List.mem_cons.mpr ha

/-- A task runs as if it were alone. -/
theorem run_task (S : Structlog V C) (h : w.Sound) {xs : List (K × ContextAction K V)}
    (hk : ∀ j, (j, .call (.createTask k)) ∉ xs) :
    (w.run S xs).1.Sound ∧
      ((w.run S xs).1.localContext k, project k (w.run S xs).2) =
        runOne (LocalContext.step S) (w.localContext k) (project k xs) := by
  induction xs generalizing w with
  | nil => exact ⟨h, rfl⟩
  | cons x rest ih =>
      obtain ⟨j, a⟩ := x
      obtain ⟨hsound, hrecords, -, hlocal⟩ := act_spec S h j a
      have hne : a ≠ .call (.createTask k) := fun heq ↦ hk j (heq ▸ List.mem_cons_self)
      obtain ⟨hrest, heq⟩ := ih hsound fun j' hj' ↦ hk j' (List.mem_cons_of_mem _ hj')
      refine ⟨hrest, ?_⟩
      rw [hlocal k hne] at heq
      simp only [run, project_append, project_tagged]
      by_cases hj : j = k
      · subst hj
        rw [if_pos rfl] at heq
        simp only [project, List.filterMap_cons, reduceIte] at heq ⊢
        simp only [runOne, ← heq, hrecords]
      · rw [if_neg (Ne.symm hj)] at heq
        simp only [project, List.filterMap_cons, if_neg hj, List.nil_append] at heq ⊢
        exact heq

end ContextWorld

/-- The statements of a task. -/
inductive TaskBody (K V : Type) where
  | done
  | raised
  | call (c : ContextCall K V) (rest : TaskBody K V)
  /-- `with new_context(...)` -/
  | newContext (kwargs : Bindings V) (body rest : TaskBody K V)
  /-- `try`, with a handler for whatever the body raises. -/
  | attempt (body rest : TaskBody K V)

namespace TaskBody

def completes : TaskBody K V → Bool
  | .done => true
  | .raised => false
  | .call _ rest => rest.completes
  | .newContext _ body rest => body.completes && rest.completes
  | .attempt _ rest => rest.completes

def events : TaskBody K V → List (ContextAction K V)
  | .done | .raised => []
  | .call c rest => .call c :: rest.events
  | .newContext kwargs body rest =>
      .enter kwargs :: body.events ++ .exit :: (if body.completes then rest.events else [])
  | .attempt body rest => body.events ++ rest.events

/-- The bindings at the end: those of a block end with it. -/
def leaves : TaskBody K V → Bindings V → Bindings V
  | .done, ctx | .raised, ctx => ctx
  | .call c rest, ctx => rest.leaves (c.after ctx)
  | .newContext _ body rest, ctx => if body.completes then rest.leaves ctx else ctx
  | .attempt body rest, ctx => rest.leaves (body.leaves ctx)

/-- What the task sees, from the bindings around each statement. -/
def sees (shown : Bindings V → Str → Option V) :
    TaskBody K V → Bindings V → List (ContextRecord V)
  | .done, _ | .raised, _ => []
  | .call c rest, ctx => c.shows (shown ctx) ctx ++ rest.sees shown (c.after ctx)
  | .newContext kwargs body rest, ctx =>
      body.sees shown kwargs ++ if body.completes then rest.sees shown ctx else []
  | .attempt body rest, ctx => body.sees shown ctx ++ rest.sees shown (body.leaves ctx)

end TaskBody

section Bodies

variable {S : Structlog V C} {c : LocalContext V C}

/-- An event shows the bindings. -/
def LocalContext.Synced (S : Structlog V C) (c : LocalContext V C) : Prop :=
  S.merged c.structlog = S.mirror c.bindings

variable (hS : S.Documented)

include hS

theorem LocalContext.Synced.call (hsync : c.Synced S) (call : ContextCall K V) :
    ∃ s, c.step S (.call call) =
        (⟨call.after c.bindings, c.outer, s⟩, call.shows (S.mirror c.bindings) c.bindings) ∧
      S.merged s = S.mirror (call.after c.bindings) := by
  have hmerged : S.merged c.structlog = S.mirror c.bindings := hsync
  refine ⟨_, by rw [LocalContext.step, hmerged], ?_⟩
  cases call with
  | bind kwargs | unbind keys | clear => exact hS.sync hsync _
  | _ => exact hsync

/-- A task sees the bindings around its statements, and leaves what it opened. -/
theorem runOne_events (p : TaskBody K V) (hsync : c.Synced S) :
    ∃ s, runOne (LocalContext.step S) c p.events =
        (⟨p.leaves c.bindings, c.outer, s⟩, p.sees S.mirror c.bindings) ∧
      S.merged s = S.mirror (p.leaves c.bindings) := by
  induction p generalizing c with
  | done | raised => exact ⟨c.structlog, rfl, hsync⟩
  | call call rest ih =>
      obtain ⟨s, hcall, hs⟩ := hsync.call hS call
      obtain ⟨s', hrest, hs'⟩ := ih (c := ⟨call.after c.bindings, c.outer, s⟩) hs
      refine ⟨s', ?_, hs'⟩
      simp only [TaskBody.events, runOne, hcall, hrest, TaskBody.leaves, TaskBody.sees]
  | newContext kwargs body rest ihbody ihrest =>
      obtain ⟨s, hbody, hs⟩ := ihbody
        (c := ⟨kwargs, c.bindings :: c.outer, S.sync c.structlog kwargs⟩) (hS.sync hsync kwargs)
      have henter : LocalContext.step S c (.enter kwargs : ContextAction K V) =
          (⟨kwargs, c.bindings :: c.outer, S.sync c.structlog kwargs⟩, []) := rfl
      have hexit : LocalContext.step S ⟨body.leaves kwargs, c.bindings :: c.outer, s⟩
          (.exit : ContextAction K V) = (⟨c.bindings, c.outer, S.sync s c.bindings⟩, []) := rfl
      have hback : S.merged (S.sync s c.bindings) = S.mirror c.bindings :=
        hS.sync hs c.bindings
      cases hends : body.completes with
      | true =>
          obtain ⟨s', hrest, hs'⟩ := ihrest
            (c := ⟨c.bindings, c.outer, S.sync s c.bindings⟩) hback
          refine ⟨s', ?_, by simpa only [TaskBody.leaves, hends, if_true] using hs'⟩
          simp only [TaskBody.events, List.cons_append, runOne, henter, runOne_append, hbody, hexit,
            hends, hrest, List.nil_append, TaskBody.leaves, TaskBody.sees, if_true]
      | false =>
          refine ⟨S.sync s c.bindings, ?_, by simpa [TaskBody.leaves, hends] using hback⟩
          simp [TaskBody.events, runOne, henter, runOne_append, hbody, hexit, hends,
            TaskBody.leaves, TaskBody.sees]
  | attempt body rest ihbody ihrest =>
      obtain ⟨s, hbody, hs⟩ := ihbody hsync
      obtain ⟨s', hrest, hs'⟩ := ihrest (c := ⟨body.leaves c.bindings, c.outer, s⟩) hs
      refine ⟨s', ?_, hs'⟩
      simp only [TaskBody.events, runOne_append, hbody, hrest, TaskBody.leaves, TaskBody.sees]

/-- A step keeps structlog in line with the bindings. -/
theorem LocalContext.Synced.step (hsync : c.Synced S) (a : ContextAction K V) :
    (c.step S a).1.Synced S := by
  cases a with
  | call call =>
      obtain ⟨s, hcall, hs⟩ := hsync.call hS call
      rw [hcall]
      exact hs
  | enter kwargs => exact hS.sync hsync kwargs
  | exit =>
      rw [LocalContext.step]
      split
      · exact hsync
      · exact hS.sync hsync _

end Bodies

namespace ContextWorld

variable [DecidableEq K] {S : Structlog V C} {w : ContextWorld K V C} {k parent : K}

/-- In every run, structlog has the bindings of every task. -/
theorem run_synced (hS : S.Documented) (h : w.Sound)
    (hsync : ∀ k, (w.localContext k).Synced S) (xs : List (K × ContextAction K V)) :
    (w.run S xs).1.Sound ∧ ∀ k, ((w.run S xs).1.localContext k).Synced S := by
  induction xs generalizing w with
  | nil => exact ⟨h, hsync⟩
  | cons x rest ih =>
      obtain ⟨j, a⟩ := x
      obtain ⟨hsound, -, hfork, hlocal⟩ := act_spec S h j a
      have hnext : ∀ k, ((w.act S j a).1.localContext k).Synced S := by
        intro k
        by_cases hk : a = .call (.createTask k)
        · rw [hfork k hk]
          exact hsync j
        · rw [hlocal k hk]
          split
          · exact (hsync j).step hS a
          · exact hsync k
      exact ih hsound hnext

/-- Whatever all other tasks do, and its creator afterwards, a task sees the
bindings of its creator at its creation, changed by its own statements with
the blocks around them; structlog shows the same. -/
theorem task_bindings (hS : S.Documented) {before after : List (K × ContextAction K V)}
    {p : TaskBody K V} (hw : w = ((initial S).run S before).1)
    (hnew : ∀ j, (j, .call (.createTask k)) ∉ after) (hevents : project k after = p.events) :
    project k ((w.act S parent (.call (.createTask k))).1.run S after).2 =
        p.sees S.mirror (w.localContext parent).bindings ∧
      (((w.act S parent (.call (.createTask k))).1.run S after).1.localContext
        k).bindings = p.leaves (w.localContext parent).bindings := by
  have hinitial : ∀ k, ((initial S : ContextWorld K V C).localContext k).Synced S := by
    intro k
    refine hS.fresh.trans ?_
    unfold Structlog.mirror
    split <;> rfl
  obtain ⟨hsound, hsync⟩ := run_synced hS sound_initial hinitial before
  rw [← hw] at hsound hsync
  obtain ⟨hsound', -, hfork, -⟩ := act_spec S hsound parent (.call (.createTask k))
  obtain ⟨-, hrun⟩ := run_task S hsound' hnew
  have hforked : ((w.localContext parent).fork).Synced S := hsync parent
  obtain ⟨s, hown, -⟩ := runOne_events hS p hforked
  rw [hfork k rfl, hevents, hown] at hrun
  obtain ⟨hfinal, hrecords⟩ := Prod.mk.inj hrun
  exact ⟨hrecords, congrArg LocalContext.bindings hfinal⟩

end ContextWorld

section Sample

/-! A request creates a task and clears its own bindings before the task runs. -/

open ContextWorld

/-- The variables by their values. -/
def plainStructlog : Structlog ℕ (Str → Option ℕ) :=
  ⟨true, fun _ ↦ none, fun _ _ ↦ none, fun ctx s key ↦ (ctx.lookup key).or (s key), id⟩

theorem plainStructlog_documented : plainStructlog.Documented :=
  ⟨rfl, fun _ ↦ rfl, fun _ _ ↦ rfl⟩

def userBinding (n : ℕ) : Bindings ℕ := ⟨[(['u'], n)], by simp⟩

def requestActions : List (Bool × ContextAction Bool ℕ) :=
  [(true, .call (.bind (userBinding 1)))]

def workerBody : TaskBody Bool ℕ :=
  .newContext (userBinding 2) (.call (.get ['u'] 0) .done)
    (.call .logged (.call (.get ['u'] 0) .done))

def workerActions : List (Bool × ContextAction Bool ℕ) :=
  [(true, .call .clear), (false, .enter (userBinding 2)), (true, .call (.get ['u'] 0)),
    (false, .call (.get ['u'] 0)), (false, .exit), (false, .call .logged), (true, .call .logged),
    (false, .call (.get ['u'] 0))]

theorem task_bindings_sample :
    project false (((((initial plainStructlog).run plainStructlog requestActions).1.act
      plainStructlog true (.call (.createTask false))).1.run plainStructlog workerActions).2) =
        [.got 2, .logged fun key ↦ (userBinding 1).lookup key, .got 1] := by
  have hnew : ∀ j, (j, .call (.createTask false)) ∉ workerActions := by simp [workerActions]
  have hevents : project false workerActions = workerBody.events := rfl
  exact (task_bindings plainStructlog_documented rfl hnew hevents).1

end Sample

end DjangoNova
