import DjangoNova.Interchange.Ledger
import DjangoNova.Memory.CacheBackend

/-!
# The memory backend keeps the ledger

A bounded map that is never asked for more keys than it has room for
forgets no key, so its entries are the records of the ledger.
-/

namespace DjangoNova

/-- The call as one of the memory backend. -/
def ContractCall.memory : ContractCall → MemoryCall PyObject
  | .get key default => .get key (some default)
  | .set key value ttl => .set key value (some ttl)
  | .delete key => .delete key
  | .clear => .clear
  | .getMany keys => .getMany keys
  | .setMany values ttl => .setMany values (some ttl)
  | .deleteMany keys => .deleteMany keys

def MemoryReply.answer : MemoryReply PyObject → ContractAnswer
  | .value v => .value (v.getD .none)
  | .values d => .values (d.items.map fun x ↦ (x.1, x.2.getD .none))
  | .deleted found => .deleted found
  | .count n => .count n
  | .none => .done

/-- The answers of the backend, each call at its own time. -/
def MemoryCacheBackend.answers (b : MemoryCacheBackend) :
    TimedCalls → MemoryCacheBackend.World PyObject → List ContractAnswer
  | [], _ => []
  | (now, call) :: rest, w =>
      let (reply, w) := b.perform (fun _ ↦ now) call.memory w
      reply.answer :: answers b rest w

/-- The map has the records of the ledger. -/
def Ledger.RecordedIn (l : Ledger) (m : LruMap Str PyObject ℚ) : Prop :=
  ∀ key, m.entry key = (l key).map fun r ↦ (r.value, some r.deadline)

section Maps

variable {l : Ledger} {m m' : LruMap Str PyObject ℚ} {now ttl : ℚ} {key : Str} {value : PyObject}
  {reply : LruReply PyObject} {maxsize n : ℕ} {room : Finset Str}

theorem Ledger.RecordedIn.live (h : l.RecordedIn m) (key : Str) :
    m.live now key = l.value (LedgerRecord.current now) key := by
  unfold LruMap.live Ledger.value
  rw [h key]
  cases l key with
  | none => rfl
  | some r => by_cases hr : now < r.deadline <;> simp [Option.filter_some, LedgerRecord.current, hr]

theorem Ledger.RecordedIn.erase (h : l.RecordedIn m) (key : Str) :
    (l.forget [key]).RecordedIn (m.erase key) := by
  intro key'
  by_cases hkey : key' = key
  · subst hkey
    simp [Ledger.forget]
  · rw [LruMap.entry_erase hkey, h key']
    simp [Ledger.forget, hkey]

theorem Ledger.RecordedIn.get (h : l.RecordedIn m)
    (hstep : LruMap.Step maxsize now m (.get key) reply m') :
    reply = .value (l.value (LedgerRecord.current now) key) ∧ l.RecordedIn m' := by
  cases hstep with
  | hit hlive => exact ⟨by rw [← h.live key, hlive], h⟩
  | miss hlive => exact ⟨by rw [← h.live key, hlive], h⟩

theorem Ledger.RecordedIn.delete (h : l.RecordedIn m)
    (hstep : LruMap.Step maxsize now m (.delete key) reply m') :
    reply = .deleted ((l key).any (LedgerRecord.current now)) ∧ (l.forget [key]).RecordedIn m' := by
  cases hstep
  refine ⟨?_, h.erase key⟩
  rw [h.live key, Ledger.value]
  cases l key with
  | none => rfl
  | some r => cases hr : r.current now <;> simp [Option.filter_some, hr]

/-- With room for all keys nothing is evicted. -/
theorem Ledger.RecordedIn.set (h : l.RecordedIn m) (hl : l.Within room)
    (hroom : room.card ≤ maxsize)
    (hkey : key ∈ room)
    (hstep : LruMap.Step maxsize now m (.set key value (some ttl)) reply m') :
    (l.write now ttl (key, value)).RecordedIn m' := by
  have hothers : m.others now key ⊆ (room.erase key : Finset Str) := by
    rintro j ⟨hne, hlive⟩
    have hlive' : (l.value (LedgerRecord.current now) j).isSome := by rwa [← h.live j]
    obtain ⟨v, hv⟩ := Option.isSome_iff_exists.mp hlive'
    obtain ⟨r, hr, -⟩ := Option.map_eq_some_iff.mp hv
    exact Finset.mem_erase.mpr ⟨hne, hl j r (Option.filter_eq_some_iff.mp hr).1⟩
  have hcard : (m.others now key).encard < maxsize := by
    refine (Set.encard_le_encard hothers).trans_lt ?_
    rw [Set.encard_coe_eq_coe_finsetCard]
    exact_mod_cast (Finset.card_erase_lt_of_mem hkey).trans_le hroom
  cases hstep with
  | refuse hnonpos =>
      rw [Ledger.write_of_nonpos hnonpos]
      exact h.erase key
  | store hpos _ =>
      intro key'
      by_cases hkey' : key' = key
      · subst hkey'
        rw [LruMap.entry_put_self, Ledger.write_of_pos (hpos ttl rfl)]
        rfl
      · rw [LruMap.entry_put _ _ hkey', Ledger.write_ne hkey', h key']
  | evict _ hfull _ _ => exact absurd hfull hcard.ne

/-- Operations at one instant. -/
abbrev OpsAt (maxsize : ℕ) (now : ℚ) : ℕ → LruMap Str PyObject ℚ → List (LruOp Str PyObject ℚ) →
    List (LruReply PyObject) → LruMap Str PyObject ℚ → Prop :=
  LruMap.Steps maxsize fun _ ↦ now

theorem Ledger.RecordedIn.getMany {keys : List Str} {values : List (Option PyObject)}
    (h : l.RecordedIn m) (hsteps : OpsAt maxsize now n m (keys.map .get) (values.map .value) m') :
    keys.zip values = keys.map (fun key ↦ (key, l.value (LedgerRecord.current now) key)) ∧
      l.RecordedIn m' := by
  induction keys generalizing values n m with
  | nil =>
      generalize values.map LruReply.value = replies at hsteps
      cases hsteps
      exact ⟨rfl, h⟩
  | cons key rest ih =>
      cases values with
      | nil => cases hsteps
      | cons v values =>
          cases hsteps with
          | cons hstep hsteps =>
              obtain ⟨hvalue, h'⟩ := h.get hstep
              obtain ⟨hvalues, h''⟩ := ih h' hsteps
              rw [List.zip_cons_cons, hvalues, LruReply.value.inj hvalue]
              exact ⟨rfl, h''⟩

theorem Ledger.RecordedIn.deleteMany {keys : List Str} {flags : List Bool} (h : l.RecordedIn m)
    (hsteps : OpsAt maxsize now n m (keys.map .delete) (flags.map .deleted) m') :
    flags.count true = (l.found (LedgerRecord.current now) keys).card ∧
      (l.forget keys).RecordedIn m' := by
  induction keys generalizing l flags n m with
  | nil =>
      cases flags with
      | cons flag flags => cases hsteps
      | nil =>
          cases hsteps
          exact ⟨rfl, Ledger.forget_nil.symm ▸ h⟩
  | cons key rest ih =>
      cases flags with
      | nil => cases hsteps
      | cons flag flags =>
          cases hsteps with
          | cons hstep hsteps =>
              obtain ⟨hflag, h'⟩ := h.delete hstep
              obtain ⟨hflags, h''⟩ := ih h' hsteps
              rw [Ledger.forget_cons] at h''
              rw [List.count_cons, hflags, LruReply.deleted.inj hflag, Ledger.card_found_cons,
                Nat.add_comm]
              exact ⟨by simp, h''⟩

theorem Ledger.RecordedIn.setMany {items : List (Str × PyObject)}
    {replies : List (LruReply PyObject)}
    (h : l.RecordedIn m) (hl : l.Within room) (hroom : room.card ≤ maxsize)
    (hitems : ∀ x ∈ items, x.1 ∈ room)
    (hsteps : OpsAt maxsize now n m (items.map fun x ↦ .set x.1 x.2 (some ttl)) replies m') :
    (items.foldl (fun l x ↦ l.write now ttl x) l).RecordedIn m' := by
  induction items generalizing l replies n m with
  | nil =>
      cases hsteps
      exact h
  | cons x rest ih =>
      cases hsteps with
      | cons hstep hsteps =>
          have hx := hitems x List.mem_cons_self
          exact ih (h.set hl hroom hx hstep) (hl.write hx)
            (fun y hy ↦ hitems y (List.mem_cons_of_mem _ hy)) hsteps

end Maps

namespace MemoryCacheBackend

variable {b : MemoryCacheBackend} {w : World PyObject} {m : LruMap Str PyObject ℚ} {l : Ledger}
  {now t : ℚ} {room : Finset Str}

/-- The backend keeps a ledger, from the time of its last operation on. -/
def Keeps (b : MemoryCacheBackend) (now : ℚ) (w : World PyObject) (l : Ledger) : Prop :=
  ∃ m, b.Tracks (fun _ ↦ now) w m ∧ l.RecordedIn m

theorem Keeps.mono (h : b.Keeps now w l) (hle : now ≤ t) : b.Keeps t w l := by
  obtain ⟨m, ⟨hlength, hsim⟩, hl⟩ := h
  refine ⟨m, ⟨hlength, fun later hlater ↦ ?_⟩, hl⟩
  exact hsim later fun n hn ↦ hle.trans (hlater n hn)

/-- A call on the map: the answer of the ledger when current records are found. -/
theorem lruCall_answer {call : ContractCall} {reply : MemoryReply PyObject} {n : ℕ}
    {m' : LruMap Str PyObject ℚ} (hm : l.RecordedIn m) (hl : l.Within room)
    (hroom : room.card ≤ b.maxsize) (hkeys : ∀ key ∈ call.keys, key ∈ room)
    (hcall : b.LruCall (fun _ ↦ now) n m call.memory reply m') :
    reply.answer = call.answer now l .current ∧
      (call.record now l).RecordedIn m' := by
  obtain ⟨replies, hsteps, hanswers⟩ := hcall
  cases call with
  | get key default =>
      cases hanswers with
      | get _ _ v =>
          cases hsteps with
          | cons hstep hrest =>
              cases hrest
              obtain ⟨hvalue, h'⟩ := hm.get hstep
              rw [LruReply.value.inj hvalue]
              refine ⟨?_, h'⟩
              cases hfound : l.value (LedgerRecord.current now) key <;>
                simp [MemoryReply.answer, ContractCall.answer, Finding.current, hfound]
  | set key value ttl =>
      cases hanswers
      cases hsteps with
      | cons hstep hrest =>
          cases hrest
          exact ⟨rfl, hm.set hl hroom (hkeys key (List.mem_singleton_self key)) hstep⟩
  | delete key =>
      cases hanswers with
      | delete _ found =>
          cases hsteps with
          | cons hstep hrest =>
              cases hrest
              obtain ⟨hfound, h'⟩ := hm.delete hstep
              rw [LruReply.deleted.inj hfound]
              exact ⟨rfl, h'⟩
  | clear =>
      cases hanswers
      cases hsteps with
      | cons hstep hrest =>
          cases hrest
          cases hstep
          exact ⟨rfl, fun _ ↦ rfl⟩
  | getMany keys =>
      cases hanswers with
      | getMany _ values =>
          obtain ⟨hvalues, h'⟩ := hm.getMany hsteps
          exact ⟨by rw [hvalues]; rfl, h'⟩
  | setMany values ttl =>
      cases hanswers
      refine ⟨rfl, hm.setMany hl hroom (fun x hx ↦ hkeys x.1 (List.mem_map_of_mem hx)) hsteps⟩
  | deleteMany keys =>
      cases hanswers with
      | deleteMany _ flags =>
          obtain ⟨hcount, h'⟩ := hm.deleteMany hsteps
          exact ⟨by rw [hcount]; rfl, h'⟩

/-- A call stores a key only if it names one. -/
theorem exists_key_of_stores {call : ContractCall} (h : call.memory.Stores) :
    ∃ key, key ∈ call.keys := by
  cases call with
  | set key value ttl => exact ⟨key, List.mem_singleton_self key⟩
  | setMany values ttl =>
      obtain ⟨x, hx⟩ := List.exists_mem_of_ne_nil _ h
      exact ⟨x.1, List.mem_map_of_mem hx⟩
  | _ => exact h.elim

theorem Keeps.call (h : b.Keeps now w l) (hl : l.Within room) (hroom : room.card ≤ b.maxsize)
    {call : ContractCall} (hkeys : ∀ key ∈ call.keys, key ∈ room) :
    (b.perform (fun _ ↦ now) call.memory w).1.answer =
      call.answer now l .current ∧
      b.Keeps now (b.perform (fun _ ↦ now) call.memory w).2 (call.record now l) := by
  obtain ⟨m, htracks, hm⟩ := h
  have hmaxsize : call.memory.Stores → 1 ≤ b.maxsize := by
    intro hstores
    obtain ⟨key, hkey⟩ := exists_key_of_stores hstores
    exact (Finset.card_pos.mpr ⟨key, hkeys key hkey⟩).trans_le hroom
  obtain ⟨m', hcall, htracks'⟩ := perform_refines hmaxsize monotone_const htracks
  obtain ⟨hanswer, hm'⟩ := lruCall_answer hm hl hroom hkeys hcall
  exact ⟨hanswer, m', htracks', hm'⟩

/-- The answers of the backend are those of the ledger. -/
theorem answers_eq {calls : TimedCalls} (h : b.Keeps now w l) (hl : l.Within room)
    (hroom : room.card ≤ b.maxsize) (hkeys : ∀ x ∈ calls, ∀ key ∈ x.2.keys, key ∈ room)
    (hordered : (calls.map Prod.fst).Pairwise (· ≤ ·)) (hnow : ∀ x ∈ calls, now ≤ x.1) :
    b.answers calls w = calls.answers .current l := by
  induction calls generalizing now w l with
  | nil => rfl
  | cons x rest ih =>
      obtain ⟨t, call⟩ := x
      obtain ⟨hfirst, hrest⟩ := List.pairwise_cons.mp hordered
      have hcall := hkeys _ List.mem_cons_self
      obtain ⟨hanswer, h'⟩ := (h.mono (hnow _ List.mem_cons_self)).call hl hroom hcall
      have htail := ih h' (hl.record hcall) (fun y hy ↦ hkeys y (List.mem_cons_of_mem _ hy)) hrest
        fun y hy ↦ hfirst y.1 (List.mem_map_of_mem hy)
      exact List.cons_eq_cons.mpr ⟨hanswer, htail⟩

/-- A fresh backend keeps the empty ledger. -/
theorem keeps_empty (now : ℚ) : b.Keeps now ⟨.empty, 0⟩ .empty :=
  ⟨.empty, ⟨Nat.zero_le _, fun _ _ ↦ .empty⟩, fun _ ↦ rfl⟩

end MemoryCacheBackend

end DjangoNova
