import DjangoNova.Interchange.Memcached
import DjangoNova.Interchange.Memory
import DjangoNova.Interchange.RedisLedger

/-!
# Interchangeable backends

The same calls, at the same times, on fresh memory, Redis and Memcached
backends. Each backend answers with the ledger, but for the records that
its reads and deletions find. The memory backend goes by the time to live.
The Redis backend goes by the milliseconds that it sends to its server,
which a float product has cut down. The Memcached backend reads by the time
to live and deletes what its server still holds.

Times to live are the rational values of floats, and their sums with times
of the clock are exact.
-/

namespace DjangoNova

variable {B : Type}

/-- Calls that the three backends share: the times do not decrease, the values
survive both serializers and the memory backend has room for all keys. -/
structure SharedRun (memory : MemoryCacheBackend) (redis : RedisCacheBackend PyObject)
    (memcached : MemcachedCacheBackend B) (calls : TimedCalls) : Prop where
  ordered : (calls.map Prod.fst).Pairwise (· ≤ ·)
  times : ∀ x ∈ calls, 0 ≤ x.1
  survive : ∀ x ∈ calls, ∀ v ∈ x.2.values, redis.Survives v ∧ memcached.Survives v
  room : (calls.flatMap fun x ↦ x.2.keys).toFinset.card ≤ memory.maxsize
  named : redis.keyPrefix ≠ []

/-- All answers of the backends agree. -/
def Interchangeable (memory : MemoryCacheBackend) (redis : RedisCacheBackend PyObject)
    (memcached : MemcachedCacheBackend B) (calls : TimedCalls) : Prop :=
  (∀ answers, redis.Answers calls ⟨0, fun _ ↦ none⟩ answers ↔
      answers = memory.answers calls ⟨.empty, 0⟩) ∧
    memcached.answers calls MemcachedCacheBackend.clear = memory.answers calls ⟨.empty, 0⟩

section Shared

variable {memory : MemoryCacheBackend} {redis : RedisCacheBackend PyObject}
  {memcached : MemcachedCacheBackend B} {calls : TimedCalls}

theorem SharedRun.memory_answers (h : SharedRun memory redis memcached calls) :
    memory.answers calls ⟨.empty, 0⟩ = calls.answers .current .empty :=
  MemoryCacheBackend.answers_eq (MemoryCacheBackend.keeps_empty 0) (fun _ _ hr ↦ by cases hr) h.room
    (fun x hx _ hkey ↦ List.mem_toFinset.mpr (List.mem_flatMap.mpr ⟨x, hx, hkey⟩)) h.ordered h.times

theorem SharedRun.redis_answers (h : SharedRun memory redis memcached calls)
    (hfits : ∀ x ∈ calls, RedisCacheBackend.Fits x.2) (answers : List ContractAnswer) :
    redis.Answers calls ⟨0, fun _ ↦ none⟩ answers ↔
      answers = calls.answers RedisCacheBackend.finding .empty := by
  have hkeeps : redis.Keeps 0 ⟨0, fun _ ↦ none⟩ .empty := ⟨(mul_zero _).symm, fun _ ↦ .none⟩
  have hvalues : ∀ x ∈ calls, ∀ v ∈ x.2.values, redis.Survives v :=
    fun x hx v hv ↦ (h.survive x hx v hv).1
  have hall : ∀ answers, redis.Answers calls ⟨0, fun _ ↦ none⟩ answers →
      answers = calls.answers RedisCacheBackend.finding .empty := fun _ ↦
    RedisCacheBackend.answers_eq hkeeps h.named hvalues hfits h.ordered h.times
  refine ⟨hall answers, ?_⟩
  rintro rfl
  obtain ⟨answers, hanswers⟩ := RedisCacheBackend.exists_answers hkeeps h.named
    (fun _ _ hr ↦ by cases hr)
    (fun x hx _ hkey ↦ List.mem_toFinset.mpr (List.mem_flatMap.mpr ⟨x, hx, hkey⟩))
    hvalues hfits h.ordered h.times
  exact hall answers hanswers ▸ hanswers

theorem SharedRun.memcached_answers (h : SharedRun memory redis memcached calls) :
    memcached.answers calls MemcachedCacheBackend.clear =
      calls.answers MemcachedCacheBackend.finding .empty :=
  MemcachedCacheBackend.answers_eq MemcachedCacheBackend.keeps_empty h.times
    fun x hx v hv ↦ (h.survive x hx v hv).2

end Shared

section Sample

/-- A serializer of `None` alone. -/
def plainRedis : RedisCacheBackend PyObject where
  keyPrefix := ['p']
  dumps
    | .none => .ok ['N']
    | _ => .error .other
  loads _ := .ok .none

/-- A value for half a second, and its deletion at some time. -/
def briefCalls (t : ℚ) : TimedCalls := [(0, .set ['k'] .none (1 / 2)), (t, .delete ['k'])]

def briefRecord : LedgerRecord := ⟨.none, 0, 1 / 2, by norm_num⟩

theorem sharedRun_brief {t : ℚ} (ht : 0 ≤ t) :
    SharedRun ⟨2, 60⟩ plainRedis plainMemcached (briefCalls t) where
  ordered := by simpa [briefCalls] using ht
  times := by simpa [briefCalls] using ht
  survive := by
    intro x hx v hv
    rcases List.mem_pair.mp hx with rfl | rfl
    · obtain rfl := List.mem_singleton.mp hv
      exact ⟨⟨['N'], rfl, rfl⟩, fun d ↦ ⟨_, rfl, rfl⟩⟩
    · cases hv
  room := by
    show (['k'] :: [['k']] : List Str).toFinset.card ≤ 2
    decide
  named := by simp [plainRedis]

theorem brief_record :
    (ContractCall.set ['k'] .none (1 / 2)).record 0 .empty ['k'] = some briefRecord :=
  Ledger.write_of_pos (by norm_num)

theorem brief_answers (F : Finding) (t : ℚ) :
    (briefCalls t).answers F .empty = [.done, .deleted (F.delete t briefRecord)] := by
  show [ContractAnswer.done, ContractAnswer.deleted
    (((ContractCall.set ['k'] .none (1 / 2)).record 0 .empty ['k']).any (F.delete t))] = _
  rw [brief_record]
  rfl

theorem sentMs_brief : Binary64.nearest (1 / 2 * 1000) = some 500 := by decide +kernel

end Sample

end DjangoNova
