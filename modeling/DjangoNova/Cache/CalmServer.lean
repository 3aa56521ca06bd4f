import DjangoNova.Cache.Rules
import DjangoNova.Concurrency.Sequential

/-!
# Calls in turn around a calm server

When nothing fails and the calls do not overlap, the lock and the clock do
not matter, and the server is a table of rows and a table of tokens. The
calm server is that reduction, and the world of the cache methods simulates
into it.
-/

namespace DjangoNova

open Program

/-- The process states, the results, the tokens, and the tokens ever drawn. -/
structure CalmServer (P D : Type) where
  states : P → CacheState
  entries : Str → Option (Rows D)
  tokens : Scope → Option Str
  used : Set Str

namespace CacheChoice

variable {Sql D : Type}

/-- A choice without a fault, for a caller that is inside a transaction or not. -/
def calm (inside : Bool) : CacheEffect Sql (Rows D) → CacheChoice D → Bool
  | .transactional _, .flag b => b == inside
  | _, .fail _ _ | _, .refuse _ => false
  | _, _ => true

end CacheChoice

namespace CalmServer

variable {T P Sql D : Type}

def initial : CalmServer P D := ⟨fun _ ↦ CacheState.initial, fun _ ↦ none, fun _ ↦ none, ∅⟩

def putEntry (c : CalmServer P D) (key : Str) (v : Rows D) : CalmServer P D :=
  { c with entries := Function.update c.entries key (some v) }

def dropEntry (c : CalmServer P D) (key : Str) : CalmServer P D :=
  { c with entries := Function.update c.entries key none }

def putToken (c : CalmServer P D) (scope : Scope) (token : Str) : CalmServer P D :=
  { c with tokens := Function.update c.tokens scope (some token) }

def draw (c : CalmServer P D) (token : Str) : CalmServer P D :=
  { c with used := insert token c.used }

def wipe (c : CalmServer P D) : CalmServer P D :=
  { c with entries := fun _ ↦ none, tokens := fun _ ↦ none }

/-- What the calm server keeps of the world. -/
structure Reduces (w : CacheWorld T P Sql D) (c : CalmServer P D) : Prop where
  states : w.states = c.states
  entries : w.entries = fun key ↦ (c.entries key).map .rows
  tokens : w.tokens = fun scope ↦ (c.tokens scope).map (.bytes ∘ encodeAscii)
  used : ∀ s, w.reserved s = none ↔ s ∉ c.used

theorem reduces_initial : Reduces (CacheWorld.initial : CacheWorld T P Sql D) initial where
  states := rfl
  entries := rfl
  tokens := rfl
  used _ := by simp [CacheWorld.initial, initial]

section Reduces

variable {w : CacheWorld T P Sql D} {c : CalmServer P D}

theorem Reduces.record (h : Reduces w c) (t : T) (e : CacheEffect Sql (Rows D))
    (r : Except CacheError e.Reply) : Reduces (w.record t e r) c := ⟨h.1, h.2, h.3, h.4⟩

theorem Reduces.putEntry (h : Reduces w c) (key : Str) (v : Rows D) :
    Reduces (w.putEntry key v) (c.putEntry key v) := by
  refine ⟨h.1, ?_, h.3, h.4⟩
  funext k
  simp only [CacheWorld.putEntry, CalmServer.putEntry, Function.update_apply, h.entries]
  split <;> rfl

theorem Reduces.dropEntry (h : Reduces w c) (key : Str) :
    Reduces (w.evictEntry key) (c.dropEntry key) := by
  refine ⟨h.1, ?_, h.3, h.4⟩
  funext k
  simp only [CacheWorld.evictEntry, CalmServer.dropEntry, Function.update_apply, h.entries]
  split <;> rfl

theorem Reduces.putToken (h : Reduces w c) (scope : Scope) (token : Str) :
    Reduces (w.install scope token) (c.putToken scope token) := by
  refine ⟨h.1, h.2, ?_, h.4⟩
  funext s
  simp only [CacheWorld.install, CalmServer.putToken, Function.update_apply, h.tokens]
  split <;> rfl

theorem Reduces.draw (h : Reduces w c) (t : T) (token : Str) :
    Reduces { w with reserved := Function.update w.reserved token (some t) } (c.draw token) := by
  refine ⟨h.1, h.2, h.3, fun s ↦ ?_⟩
  by_cases hs : s = token
  · subst hs
    simp [CalmServer.draw]
  · simp [CalmServer.draw, hs, h.used]

theorem Reduces.isSome_tokens (h : Reduces w c) (scope : Scope) :
    (w.tokens scope).isSome = (c.tokens scope).isSome := by
  rw [h.tokens, Option.isSome_map]

end Reduces

variable [DecidableEq P]

def setState (c : CalmServer P D) (p : P) (s : CacheState) : CalmServer P D :=
  { c with states := Function.update c.states p s }

/-- The value and the server that an effect of process `p` can lead to. -/
def Serves (p : P) (inside : Bool) (c : CalmServer P D) :
    (e : CacheEffect Sql (Rows D)) → e.Reply → CalmServer P D → Prop
  | .acquire, _, c' | .release, _, c' | .generationWriter, _, c' => c' = c
  | .readState, s, c' => s = c.states p ∧ c' = c
  | .update u, _, c' => c' = c.setState p (u.apply (c.states p))
  | .transactional _, b, c' => b = inside ∧ c' = c
  | .sql _, _, c' | .span _, _, c' => c' = c
  | .copyRows v, copy, c' => copy = v ∧ c' = c
  | .backendGet key, stored, c' => stored = (c.entries key).map .rows ∧ c' = c
  | .backendSet key v, _, c' => c' = c.putEntry key v
  | .backendDelete key, found, c' => found = (c.entries key).isSome ∧ c' = c.dropEntry key
  | .backendClear, _, c' => c' = c.wipe
  | .newGeneration, token, c' => IsGeneration token ∧ token ∉ c.used ∧ c' = c.draw token
  | .tokenGet scope, raw, c' =>
      raw = (c.tokens scope).map (.bytes ∘ encodeAscii) ∧ c' = c
  | .tokenWrite scope token onlyIfAbsent, written, c' =>
      if onlyIfAbsent && (c.tokens scope).isSome then written = false ∧ c' = c
      else written = true ∧ c' = c.putToken scope token
  | .keyOrder keys, order, c' => order.Nodup ∧ order.toFinset = keys ∧ c' = c

def acts (p : P) (inside : Bool) :
    EffectRelation (CacheEffect Sql (Rows D)) CacheEffect.Reply CacheError (CalmServer P D) :=
  fun e c r c' ↦ ∃ a, r = .ok a ∧ Serves p inside c e a c'

section Simulation

open CacheWorld

variable {w w' : CacheWorld T P Sql D} {c : CalmServer P D}

theorem Reduces.setLock (h : Reduces w c) (p : P) (l : Option (T × ℕ)) :
    Reduces (w.setLock p l) c := ⟨h.1, h.2, h.3, h.4⟩

theorem Reduces.applyUpdate (h : Reduces w c) (p : P) (u : Update) :
    Reduces (w.applyUpdate p u) (c.setState p (u.apply (c.states p))) := by
  have hstates : (w.setState p (u.apply (w.states p))).states =
      (c.setState p (u.apply (c.states p))).states := by
    simp only [CacheWorld.setState, CalmServer.setState, h.states]
  cases u <;> exact ⟨hstates, h.2, h.3, h.4⟩

variable [DecidableEq T] {proc : T → P} {t : T} {inside : Bool}

/-- One calm effect of a thread is one of the calm server. -/
theorem acts_of_machine {e : CacheEffect Sql (Rows D)} {r : Except CacheError e.Reply}
    (hS : Reduces w c) (h : (machine proc).acts (CacheChoice.calm inside) t e w r w') :
    ∃ c', acts (proc t) inside e c r c' ∧ Reduces w' c' := by
  obtain ⟨ch, hcalm, hperform⟩ := h
  obtain ⟨⟨r', w₁⟩, hact, heq⟩ := Option.map_eq_some_iff.mp hperform
  obtain ⟨rfl, rfl⟩ := Prod.mk.inj heq
  suffices hsim : ∃ c', acts (proc t) inside e c r' c' ∧ Reduces w₁ c' by
    obtain ⟨c', hacts, hred⟩ := hsim
    exact ⟨c', hacts, hred.record t e r'⟩
  have hquiet : e.Quiet → acts (proc t) inside e c r' c →
      ∃ c', acts (proc t) inside e c r' c' ∧ Reduces w₁ c' := by
    intro hq hacts
    obtain rfl := act_quiet hq hact
    exact ⟨c, hacts, hS⟩
  cases e with
  | acquire =>
      cases ch <;> simp only [act, reduceCtorEq] at hact
      split at hact
      · obtain ⟨rfl, rfl⟩ := Prod.mk.inj (Option.some.inj hact)
        exact ⟨c, ⟨(), rfl, rfl⟩, hS.setLock _ _⟩
      · obtain ⟨-, hact⟩ := Option.ite_none_right_eq_some.mp hact
        obtain ⟨rfl, rfl⟩ := Prod.mk.inj (Option.some.inj hact)
        exact ⟨c, ⟨(), rfl, rfl⟩, hS.setLock _ _⟩
  | release =>
      cases ch <;> simp only [act, reduceCtorEq] at hact
      split at hact
      · obtain ⟨-, hact⟩ := Option.ite_none_right_eq_some.mp hact
        obtain ⟨rfl, rfl⟩ := Prod.mk.inj (Option.some.inj hact)
        exact ⟨c, ⟨(), rfl, rfl⟩, hS.setLock _ _⟩
      · cases hact
  | readState =>
      obtain rfl := act_readState hact
      exact hquiet trivial ⟨_, rfl, by rw [hS.states], rfl⟩
  | update u =>
      obtain ⟨rfl, rfl⟩ := act_update hact
      exact ⟨_, ⟨(), rfl, rfl⟩, hS.applyUpdate _ _⟩
  | transactional q =>
      cases ch with
      | flag b =>
          obtain ⟨rfl, -⟩ := Prod.mk.inj (Option.some.inj hact)
          exact hquiet trivial ⟨b, rfl, beq_iff_eq.mp hcalm, rfl⟩
      | fail x applied => cases hcalm
      | _ => cases hact
  | sql q =>
      rcases act_sql hact with ⟨x, rfl⟩ | ⟨content, rfl⟩
      · cases ch <;> cases hact; cases hcalm
      · exact hquiet trivial ⟨_, rfl, rfl⟩
  | copyRows v =>
      rcases act_copyRows hact with ⟨x, rfl⟩ | rfl
      · cases ch <;> cases hact; cases hcalm
      · exact hquiet trivial ⟨v, rfl, rfl, rfl⟩
  | backendGet key =>
      rcases act_backendGet hact with ⟨x, rfl⟩ | rfl
      · cases ch with
        | fail x applied => cases hcalm
        | _ => simp [act] at hact
      · exact hquiet trivial ⟨_, rfl, by rw [hS.entries], rfl⟩
  | backendSet key v =>
      rcases act_backendSet hact with ⟨rfl, rfl⟩ | ⟨x, applied, rfl, -, -⟩
      · exact ⟨_, ⟨(), rfl, rfl⟩, hS.putEntry key v⟩
      · cases hcalm
  | backendDelete key =>
      cases ch with
      | ok =>
          obtain ⟨rfl, rfl⟩ := Prod.mk.inj (Option.some.inj hact)
          exact ⟨_, ⟨_, rfl, by rw [hS.entries, Option.isSome_map], rfl⟩, hS.dropEntry key⟩
      | fail x applied => cases hcalm
      | _ => cases hact
  | backendClear =>
      cases ch with
      | ok =>
          obtain ⟨rfl, rfl⟩ := Prod.mk.inj (Option.some.inj hact)
          exact ⟨_, ⟨(), rfl, rfl⟩, hS.1, rfl, rfl, hS.4⟩
      | fail x applied => cases hcalm
      | _ => cases hact
  | generationWriter =>
      cases ch with
      | ok =>
          obtain ⟨rfl, -⟩ := Prod.mk.inj (Option.some.inj hact)
          exact hquiet trivial ⟨(), rfl, rfl⟩
      | fail x applied => cases hcalm
      | _ => cases hact
  | newGeneration =>
      obtain ⟨s, rfl, hs, hnew, rfl⟩ := act_newGeneration hact
      exact ⟨_, ⟨s, rfl, hs, (hS.used s).mp hnew, rfl⟩, hS.draw t s⟩
  | tokenGet scope =>
      rcases act_tokenGet hact with ⟨x, rfl⟩ | rfl
      · cases ch with
        | fail x applied => cases hcalm
        | _ => simp [act] at hact
      · exact hquiet trivial ⟨_, rfl, by rw [hS.tokens], rfl⟩
  | tokenWrite scope token onlyIfAbsent =>
      cases ch with
      | ok =>
          obtain ⟨rfl, rfl⟩ := Prod.mk.inj (Option.some.inj hact)
          rw [hS.isSome_tokens, writeToken, hS.isSome_tokens]
          cases hb : onlyIfAbsent && (c.tokens scope).isSome with
          | true => exact ⟨c, ⟨false, rfl, by simp [Serves, hb]⟩, hS⟩
          | false =>
              exact ⟨_, ⟨true, rfl, by simp [Serves, hb]⟩, hS.putToken scope token⟩
      | fail x applied => cases hcalm
      | refuse applied => cases hcalm
      | _ => simp [act] at hact
  | keyOrder keys =>
      cases ch with
      | order l =>
          obtain ⟨⟨hnodup, hset⟩, hact⟩ := Option.ite_none_right_eq_some.mp hact
          obtain ⟨rfl, -⟩ := Prod.mk.inj (Option.some.inj hact)
          exact hquiet trivial ⟨l, rfl, hnodup, hset, rfl⟩
      | _ => cases hact
  | span s =>
      cases ch with
      | flag b =>
          obtain ⟨rfl, -⟩ := Prod.mk.inj (Option.some.inj hact)
          exact hquiet trivial ⟨b, rfl, rfl⟩
      | fail x applied => cases hcalm
      | _ => cases hact

end Simulation

end CalmServer

end DjangoNova
