import Mathlib.Data.List.Perm.Subperm
import DjangoNova.Collections.ObjectGraph

/-!
# Pickling object graphs

A pickler walks a graph depth first and writes each cell once: a cell is
created and numbered before its items, so that cycles close, and later
references to it are written as its number. Labels are written through a
registry that grows on the way, and read with the registry at the end.
What is read is a copy of the graph at new addresses.
-/

namespace DjangoNova

open ObjectGraph

variable {σ L R E : Type}

/-- How labels are written, and read with any later registry. -/
structure LabelCodec (σ L R E : Type) where
  write : σ → L → Except E (σ × R)
  read : σ → R → Option L
  read_write : ∀ {s l s' r}, write s l = .ok (s', r) → read s' r = some l
  read_stable : ∀ {s l s' r}, write s l = .ok (s', r) →
    ∀ r' l', read s r' = some l' → read s' r' = some l'

inductive PickleOp (R : Type) where
  | atom (r : R)
  | new (r : R)
  | get (index : ℕ)
  | build (count : ℕ)

inductive PickleError (E : Type) where
  | recursion
  | dangling
  | label (e : E)

structure PicklerState (σ : Type) where
  /-- The addresses of the cells, by their numbers. -/
  memo : List ℕ
  registry : σ

structure Unpickler (L : Type) where
  stack : List (Item L)
  memo : List ℕ
  heap : List (Cell L)

namespace GraphPickle

/-- A part of a pickle, and the state after it. -/
abbrev Written (σ R E : Type) := Except (PickleError E) (List (PickleOp R) × PicklerState σ)

def saveItems (save : PicklerState σ → Item L → Written σ R E) :
    PicklerState σ → List (Item L) → Written σ R E
  | st, [] => .ok ([], st)
  | st, i :: rest =>
      match save st i with
      | .error e => .error e
      | .ok (ops, st') =>
          match saveItems save st' rest with
          | .error e => .error e
          | .ok (ops', st'') => .ok (ops ++ ops', st'')

/-- Writes an item; the first argument bounds the depth. -/
def save (d : LabelCodec σ L R E) (g : List (Cell L)) :
    ℕ → PicklerState σ → Item L → Written σ R E
  | _, st, .atom l =>
      match d.write st.registry l with
      | .error e => .error (.label e)
      | .ok (registry, r) => .ok ([.atom r], { st with registry := registry })
  | 0, _, .ref _ => .error .recursion
  | fuel + 1, st, .ref x =>
      if x ∈ st.memo then .ok ([.get (st.memo.idxOf x)], st)
      else
        match g[x]? with
        | none => .error .dangling
        | some c =>
            match d.write st.registry c.label with
            | .error e => .error (.label e)
            | .ok (registry, r) =>
                match saveItems (save d g fuel) ⟨st.memo ++ [x], registry⟩ c.items with
                | .error e => .error e
                | .ok (ops, st') => .ok (.new r :: ops ++ [.build c.items.length], st')

def step (read : R → Option L) (u : Unpickler L) : PickleOp R → Option (Unpickler L)
  | .atom r => (read r).map fun l ↦ { u with stack := .atom l :: u.stack }
  | .new r => (read r).map fun l ↦
      ⟨.ref u.heap.length :: u.stack, u.memo ++ [u.heap.length], u.heap ++ [⟨l, []⟩]⟩
  | .get index => (u.memo[index]?).map fun x ↦ { u with stack := .ref x :: u.stack }
  | .build count =>
      match u.stack.drop count with
      | .ref x :: rest => (u.heap[x]?).map fun c ↦
          { u with
            stack := .ref x :: rest
            heap := u.heap.set x ⟨c.label, (u.stack.take count).reverse⟩ }
      | _ => none

def load (read : R → Option L) (u : Unpickler L) (ops : List (PickleOp R)) :
    Option (Unpickler L) :=
  ops.foldlM (step read) u

/-- The address of the copy of a cell, for copies that begin at `n`. -/
def place (n : ℕ) (memo : List ℕ) (x : ℕ) : ℕ := n + memo.idxOf x

theorem place_eq {n x : ℕ} {memo memo' : List ℕ} (hgrow : memo <+: memo') (hx : x ∈ memo) :
    place n memo' x = place n memo x := by
  obtain ⟨t, rfl⟩ := hgrow
  rw [place, place, List.idxOf_append_of_mem hx]

theorem map_place_eq {n : ℕ} {memo memo' : List ℕ} (hgrow : memo <+: memo') {i : Item L}
    (hi : ∀ y, i = .ref y → y ∈ memo) : i.map (place n memo') = i.map (place n memo) := by
  cases i with
  | atom l => rfl
  | ref y => exact congrArg Item.ref (place_eq hgrow (hi y rfl))

/-- The heap after a part of a pickle has been read: the cells numbered from
`start` on are copies, and the cells before them are as they were. -/
structure Restores (g : List (Cell L)) (n start : ℕ) (memo : List ℕ)
    (heap heap' : List (Cell L)) : Prop where
  length : heap'.length = n + memo.length
  old : ∀ x < n + start, heap'[x]? = heap[x]?
  cell : ∀ j x, start ≤ j → memo[j]? = some x → ∃ c : Cell L, g[x]? = some c ∧
    heap'[n + j]? = some (c.map (place n memo)) ∧ ∀ y, .ref y ∈ c.items → y ∈ memo

theorem Restores.refl {g : List (Cell L)} {n : ℕ} {memo : List ℕ} {heap : List (Cell L)}
    (hheap : heap.length = n + memo.length) : Restores g n memo.length memo heap heap := by
  refine ⟨hheap, fun x _ ↦ rfl, fun j x hj hx ↦ ?_⟩
  obtain ⟨hlt, -⟩ := List.getElem?_eq_some_iff.mp hx
  omega

theorem Restores.trans {g : List (Cell L)} {n start : ℕ} {memo memo' : List ℕ}
    {heap heap' heap'' : List (Cell L)} (h : Restores g n start memo heap heap')
    (h' : Restores g n memo.length memo' heap' heap'') (hstart : start ≤ memo.length)
    (hgrow : memo <+: memo') : Restores g n start memo' heap heap'' := by
  refine ⟨h'.length, fun x hx ↦ ?_, fun j x hj hx ↦ ?_⟩
  · rw [h'.old x (by omega), h.old x hx]
  · by_cases hlt : j < memo.length
    · have hmem : memo[j]? = some x := by
        obtain ⟨t, rfl⟩ := hgrow
        rwa [List.getElem?_append_left hlt] at hx
      obtain ⟨c, hc, hcopy, hitems⟩ := h.cell j x hj hmem
      refine ⟨c, hc, ?_, fun y hy ↦ hgrow.subset (hitems y hy)⟩
      rw [h'.old _ (by omega), hcopy]
      have hmap : c.items.map (Item.map (place n memo')) =
          c.items.map (Item.map (place n memo)) :=
        List.map_congr_left fun i hi ↦ map_place_eq hgrow fun y hy ↦ hitems y (hy ▸ hi)
      simp [Cell.map, hmap]
    · exact h'.cell j x (by omega) hx

/-- A part of a pickle that has written these items. -/
structure Saved (d : LabelCodec σ L R E) (g : List (Cell L)) (st : PicklerState σ)
    (items : List (Item L)) (ops : List (PickleOp R)) (st' : PicklerState σ) : Prop where
  memo : st.memo <+: st'.memo
  nodup : st'.memo.Nodup
  refs : ∀ y, .ref y ∈ items → y ∈ st'.memo
  reached : ∀ x ∈ st'.memo, x ∈ st.memo ∨ ∃ r, .ref r ∈ items ∧ Reaches g r x
  stable : ∀ r l, d.read st.registry r = some l → d.read st'.registry r = some l
  written : ∀ l, (.atom l ∈ items ∨ ∃ x ∈ st'.memo, x ∉ st.memo ∧ Carries g x l) →
    ∃ r, d.read st'.registry r = some l
  loads : ∀ (read : R → Option L) (n : ℕ) (u : Unpickler L),
    (∀ r l, d.read st'.registry r = some l → read r = some l) →
    u.memo = List.range' n st.memo.length → u.heap.length = n + st.memo.length →
    ∃ heap, load read u ops =
        some ⟨(items.map (Item.map (place n st'.memo))).reverse ++ u.stack,
          List.range' n st'.memo.length, heap⟩ ∧
      Restores g n st.memo.length st'.memo u.heap heap

variable {d : LabelCodec σ L R E} {g : List (Cell L)} {st st' st'' : PicklerState σ}
  {ops ops' : List (PickleOp R)}

theorem load_append (read : R → Option L) (u : Unpickler L) :
    load read u (ops ++ ops') = (load read u ops).bind fun u' ↦ load read u' ops' :=
  List.foldlM_append

theorem Saved.nil (hnodup : st.memo.Nodup) : Saved d g st [] [] st := by
  refine ⟨List.prefix_refl _, hnodup, by simp, fun x hx ↦ .inl hx, fun _ _ h ↦ h, ?_, ?_⟩
  · rintro l (hl | ⟨x, hx, hnew, -⟩)
    · cases hl
    · exact absurd hx hnew
  · intro read n u _ hmemo hheap
    refine ⟨u.heap, ?_, .refl hheap⟩
    rw [← hmemo]
    rfl

theorem Saved.cons {i : Item L} {rest : List (Item L)} (h : Saved d g st [i] ops st')
    (h' : Saved d g st' rest ops' st'') : Saved d g st (i :: rest) (ops ++ ops') st'' := by
  refine ⟨h.memo.trans h'.memo, h'.nodup, ?_, ?_, fun r l hr ↦ h'.stable r l (h.stable r l hr),
    ?_, ?_⟩
  · intro y hy
    rcases List.mem_cons.mp hy with rfl | hy
    · exact h'.memo.subset (h.refs y List.mem_cons_self)
    · exact h'.refs y hy
  · intro x hx
    rcases h'.reached x hx with hold | ⟨r, hr, hreach⟩
    · rcases h.reached x hold with hold | ⟨r, hr, hreach⟩
      · exact .inl hold
      · exact .inr ⟨r, by simpa using .inl (List.mem_singleton.mp hr), hreach⟩
    · exact .inr ⟨r, List.mem_cons_of_mem _ hr, hreach⟩
  · intro l hl
    have hold : (Item.atom l = i ∨ ∃ x ∈ st'.memo, x ∉ st.memo ∧ Carries g x l) →
        ∃ r, d.read st''.registry r = some l := by
      intro hfirst
      obtain ⟨r, hr⟩ := h.written l (hfirst.imp_left List.mem_singleton.mpr)
      exact ⟨r, h'.stable r l hr⟩
    rcases hl with hl | ⟨x, hx, hnew, hcarries⟩
    · rcases List.mem_cons.mp hl with hl | hl
      · exact hold (.inl hl)
      · exact h'.written l (.inl hl)
    · by_cases hmem : x ∈ st'.memo
      · exact hold (.inr ⟨x, hmem, hnew, hcarries⟩)
      · exact h'.written l (.inr ⟨x, hx, hmem, hcarries⟩)
  · intro read n u hread hmemo hheap
    obtain ⟨heap, hload, hrestores⟩ := h.loads read n u
      (fun r l hr ↦ hread r l (h'.stable r l hr)) hmemo hheap
    obtain ⟨heap', hload', hrestores'⟩ := h'.loads read n
      ⟨_ ++ u.stack, _, heap⟩ hread rfl hrestores.length
    refine ⟨heap', ?_, hrestores.trans hrestores' h.memo.length_le h'.memo⟩
    have hitem : i.map (place n st''.memo) = i.map (place n st'.memo) :=
      map_place_eq h'.memo fun y hy ↦ h.refs y (hy ▸ List.mem_cons_self)
    rw [load_append, hload, Option.bind_some, hload']
    simp [hitem]

theorem Saved.atom {l : L} {registry : σ} {r : R} (hnodup : st.memo.Nodup)
    (hwrite : d.write st.registry l = .ok (registry, r)) :
    Saved d g st [.atom l] [.atom r] { st with registry := registry } := by
  refine ⟨List.prefix_refl _, hnodup, by simp, fun x hx ↦ .inl hx, d.read_stable hwrite, ?_, ?_⟩
  · rintro l' (hl | ⟨x, hx, hnew, -⟩)
    · obtain rfl : l' = l := by simpa using hl
      exact ⟨r, d.read_write hwrite⟩
    · exact absurd hx hnew
  · intro read n u hread hmemo hheap
    refine ⟨u.heap, ?_, .refl hheap⟩
    have hl : read r = some l := hread r l (d.read_write hwrite)
    simp [load, step, hl, ← hmemo, Item.map]

theorem Saved.seen {x : ℕ} (hnodup : st.memo.Nodup) (hx : x ∈ st.memo) :
    Saved d g st [.ref x] [.get (st.memo.idxOf x)] st := by
  refine ⟨List.prefix_refl _, hnodup, by simpa using hx, fun x hx ↦ .inl hx, fun _ _ h ↦ h, ?_, ?_⟩
  · rintro l (hl | ⟨y, hy, hnew, -⟩)
    · simp at hl
    · exact absurd hy hnew
  · intro read n u _ hmemo hheap
    refine ⟨u.heap, ?_, .refl hheap⟩
    have hlt : st.memo.idxOf x < st.memo.length := List.idxOf_lt_length_of_mem hx
    simp [load, step, hmemo, hlt, Item.map, place]

theorem nodup_concat {x : ℕ} {memo : List ℕ} (hnodup : memo.Nodup) (hx : x ∉ memo) :
    (memo ++ [x]).Nodup := by
  rw [List.nodup_append]
  refine ⟨hnodup, by simp, fun a ha b hb heq ↦ hx ?_⟩
  rw [← List.mem_singleton.mp hb, ← heq]
  exact ha

/-- The last step of a cell takes its items from the stack. -/
theorem step_build (read : R → Option L) (items rest : List (Item L)) (memo : List ℕ) {c : Cell L}
    {x : ℕ} {heap : List (Cell L)} (hx : heap[x]? = some c) :
    step read ⟨items.reverse ++ .ref x :: rest, memo, heap⟩ (.build items.length) =
      some ⟨.ref x :: rest, memo, heap.set x ⟨c.label, items⟩⟩ := by
  have hdrop : (items.reverse ++ .ref x :: rest).drop items.length = .ref x :: rest :=
    List.drop_left' (List.length_reverse ..)
  have htake : (items.reverse ++ .ref x :: rest).take items.length = items.reverse :=
    List.take_left' (List.length_reverse ..)
  simp [step, hdrop, htake, hx]

/-- The items of a new cell are set when they have been restored. -/
theorem Restores.build {n : ℕ} {x : ℕ} {c : Cell L} {memo memo' : List ℕ}
    {heap heap' : List (Cell L)} {blank : Cell L} (hc : g[x]? = some c)
    (hheap : heap.length = n + memo.length) (hgrow : memo ++ [x] <+: memo')
    (hitems : ∀ y, .ref y ∈ c.items → y ∈ memo')
    (h : Restores g n (memo ++ [x]).length memo' (heap ++ [blank]) heap') :
    Restores g n memo.length memo' heap
      (heap'.set heap.length ⟨c.label, c.items.map (Item.map (place n memo'))⟩) := by
  have hlong : memo.length + 1 ≤ memo'.length := by simpa using hgrow.length_le
  rw [List.length_append, List.length_singleton] at h
  refine ⟨by rw [List.length_set, h.length], fun y hy ↦ ?_, fun j y hj hy ↦ ?_⟩
  · rw [List.getElem?_set_ne (by omega), h.old y (by omega), List.getElem?_append_left (by omega)]
  · rcases Nat.eq_or_lt_of_le hj with rfl | hlt
    · obtain rfl : x = y := by
        obtain ⟨t, rfl⟩ := hgrow
        simpa using hy
      refine ⟨c, hc, ?_, hitems⟩
      rw [← hheap, List.getElem?_set_self (by rw [h.length]; omega)]
      rfl
    · obtain ⟨c', hc', hcopy, hrefs⟩ := h.cell j y hlt hy
      exact ⟨c', hc', by rw [List.getElem?_set_ne (by omega), hcopy], hrefs⟩

/-- A cell with its items. -/
theorem Saved.fresh {x : ℕ} {c : Cell L} {registry : σ} {r : R} (hx : x ∉ st.memo)
    (hc : g[x]? = some c)
    (hwrite : d.write st.registry c.label = .ok (registry, r))
    (h : Saved d g ⟨st.memo ++ [x], registry⟩ c.items ops st') :
    Saved d g st [.ref x] (.new r :: ops ++ [.build c.items.length]) st' := by
  have hgrow : st.memo <+: st'.memo := (List.prefix_append _ _).trans h.memo
  have hmem : x ∈ st'.memo := h.memo.subset (by simp)
  refine ⟨hgrow, h.nodup, by simpa using hmem, ?_,
    fun r' l' hr ↦ h.stable r' l' (d.read_stable hwrite r' l' hr), ?_, ?_⟩
  · intro y hy
    rcases h.reached y hy with hold | ⟨z, hz, hreach⟩
    · rcases List.mem_append.mp hold with hold | hnew
      · exact .inl hold
      · exact .inr ⟨x, List.mem_cons_self, by rw [List.mem_singleton.mp hnew]; exact .refl⟩
    · exact .inr ⟨x, List.mem_cons_self, hreach.head ⟨c, hc, hz⟩⟩
  · rintro l (hl | ⟨y, hy, hnew, hcarries⟩)
    · simp at hl
    · by_cases hxy : y = x
      · obtain ⟨c', hc', hl⟩ := hcarries
        obtain rfl : c = c' := Option.some.inj (hc.symm.trans (hxy ▸ hc'))
        rcases hl with rfl | hl
        · exact ⟨r, h.stable r _ (d.read_write hwrite)⟩
        · exact h.written l (.inl hl)
      · exact h.written l (.inr ⟨y, hy, by simp [hnew, hxy], hcarries⟩)
  · intro read n u hread hmemo hheap
    have hl : read r = some c.label := hread r c.label (h.stable r _ (d.read_write hwrite))
    obtain ⟨heap, hload, hrestores⟩ := h.loads read n
      ⟨.ref u.heap.length :: u.stack, u.memo ++ [u.heap.length], u.heap ++ [⟨c.label, []⟩]⟩ hread
      (by simp [hmemo, hheap, List.range'_concat]) (by simp [hheap]; omega)
    have hnew : heap[u.heap.length]? = some ⟨c.label, []⟩ := by
      rw [hrestores.old _ (by simp [hheap])]
      simp
    have hplace : Item.map (place n st'.memo) (.ref x : Item L) = .ref u.heap.length := by
      have hlast : place n st'.memo x = place n (st.memo ++ [x]) x := place_eq h.memo (by simp)
      rw [Item.map, hlast, place, List.idxOf_append_of_notMem hx, hheap]
      simp
    have hstep := step_build read (c.items.map (Item.map (place n st'.memo))) u.stack
      (List.range' n st'.memo.length) hnew
    rw [List.length_map] at hstep
    refine ⟨_, ?_, hrestores.build hc hheap h.memo h.refs⟩
    have hfirst : load read u [.new r] = some
        ⟨.ref u.heap.length :: u.stack, u.memo ++ [u.heap.length], u.heap ++ [⟨c.label, []⟩]⟩ := by
      simp [load, step, hl]
    have hlast : load read ⟨(c.items.map (Item.map (place n st'.memo))).reverse ++
        .ref u.heap.length :: u.stack, List.range' n st'.memo.length, heap⟩
          [.build c.items.length] = some ⟨.ref u.heap.length :: u.stack,
            List.range' n st'.memo.length,
            heap.set u.heap.length ⟨c.label, c.items.map (Item.map (place n st'.memo))⟩⟩ := by
      simp [load, hstep]
    rw [← List.singleton_append, load_append, load_append, hfirst, Option.bind_some, hload,
      Option.bind_some, hlast]
    simp [hplace]

theorem saveItems_saved {f : PicklerState σ → Item L → Written σ R E} {items : List (Item L)}
    (hf : ∀ st i ops st', st.memo.Nodup → f st i = .ok (ops, st') → Saved d g st [i] ops st')
    (hnodup : st.memo.Nodup) (h : saveItems f st items = .ok (ops, st')) :
    Saved d g st items ops st' := by
  induction items generalizing st ops with
  | nil =>
      simp only [saveItems, Except.ok.injEq, Prod.mk.injEq] at h
      obtain ⟨rfl, rfl⟩ := h
      exact .nil hnodup
  | cons i rest ih =>
      rw [saveItems] at h
      split at h
      · cases h
      · rename_i ops₁ st₁ hfirst
        split at h
        · cases h
        · rename_i ops₂ st₂ hrest
          cases h
          have hsaved := hf st i _ _ hnodup hfirst
          exact hsaved.cons (ih hsaved.nodup hrest)

theorem saved_atom {fuel : ℕ} {l : L} (hnodup : st.memo.Nodup)
    (h : save d g fuel st (.atom l) = .ok (ops, st')) : Saved d g st [.atom l] ops st' := by
  have hsave : save d g fuel st (.atom l) = save d g 0 st (.atom l) := by cases fuel <;> rfl
  rw [hsave, save] at h
  split at h
  · cases h
  · rename_i registry r hwrite
    cases h
    exact .atom hnodup hwrite

theorem save_saved {fuel : ℕ} {i : Item L} (hnodup : st.memo.Nodup)
    (h : save d g fuel st i = .ok (ops, st')) : Saved d g st [i] ops st' := by
  induction fuel generalizing st i ops st' with
  | zero =>
      cases i with
      | atom l => exact saved_atom hnodup h
      | ref x => cases h
  | succ fuel ih =>
      cases i with
      | atom l => exact saved_atom hnodup h
      | ref x =>
          rw [save] at h
          split at h
          · rename_i hx
            cases h
            exact .seen hnodup hx
          · rename_i hx
            split at h
            · cases h
            · rename_i c hc
              split at h
              · cases h
              · rename_i registry r hwrite
                split at h
                · cases h
                · rename_i ops₁ st₁ hitems
                  cases h
                  have hnodup' : (st.memo ++ [x]).Nodup := nodup_concat hnodup hx
                  exact .fresh hx hc hwrite
                    (saveItems_saved (fun _ _ _ _ hn hs ↦ ih hn hs) hnodup' hitems)

/-- What has been written with a registry of the kind `P`, or the label that
could not be written with one. -/
def Outcome (d : LabelCodec σ L R E) (P : σ → Prop) (A : L → Prop) : Written σ R E → Prop
  | .ok (_, st) => P st.registry
  | .error e => ∃ s l e', P s ∧ A l ∧ d.write s l = .error e' ∧ e = .label e'

section Outcomes

variable {P : σ → Prop} {A : L → Prop}
  (hwrite : ∀ s l s' r, P s → A l → d.write s l = .ok (s', r) → P s')

theorem saveItems_outcome {f : PicklerState σ → Item L → Written σ R E} {items : List (Item L)}
    (Ready : PicklerState σ → Prop) (hready : Ready st) (hP : P st.registry)
    (hf : ∀ st i, i ∈ items → Ready st → P st.registry → Outcome d P A (f st i) ∧
      ∀ ops st', f st i = .ok (ops, st') → Ready st') :
    Outcome d P A (saveItems f st items) := by
  induction items generalizing st with
  | nil => exact hP
  | cons i rest ih =>
      obtain ⟨hout, hnext⟩ := hf st i List.mem_cons_self hready hP
      rw [saveItems]
      split
      · rename_i e hfirst
        rwa [hfirst] at hout
      · rename_i ops st' hfirst
        rw [hfirst] at hout
        have hrest := ih (hnext ops st' hfirst) hout
          fun st i hi ↦ hf st i (List.mem_cons_of_mem _ hi)
        split
        · rename_i e hlast
          rwa [hlast] at hrest
        · rename_i ops' st'' hlast
          rwa [hlast] at hrest

omit hwrite in
theorem length_memo_le {memo : List ℕ} {n : ℕ} (hnodup : memo.Nodup)
    (hmemo : ∀ x ∈ memo, x < n) : memo.length ≤ n := by
  have hsub : memo ⊆ List.range n := fun x hx ↦ List.mem_range.mpr (hmemo x hx)
  simpa using (List.subperm_of_subset hnodup hsub).length_le

include hwrite in
theorem outcome_atom {fuel : ℕ} {l : L} (hA : A l) (hP : P st.registry) :
    Outcome d P A (save d g fuel st (.atom l)) := by
  have hsave : save d g fuel st (.atom l) = save d g 0 st (.atom l) := by cases fuel <;> rfl
  rw [hsave, save]
  split
  · rename_i e he
    exact ⟨_, l, e, hP, hA, he, rfl⟩
  · rename_i registry r hok
    exact hwrite _ _ _ _ hP hA hok

include hwrite in
/-- With a depth for every cell of a closed heap, only a label can fail. -/
theorem save_outcome {fuel : ℕ} {i : Item L} (hclosed : Closed g) (hnodup : st.memo.Nodup)
    (hmemo : ∀ x ∈ st.memo, x < g.length) (hi : ∀ x, i = .ref x → x < g.length)
    (hA : ∀ l, (i = .atom l ∨ ∃ r, i = .ref r ∧ Labelled g r l) → A l)
    (hP : P st.registry) (hfuel : g.length < fuel + st.memo.length) :
    Outcome d P A (save d g fuel st i) := by
  induction fuel generalizing st i with
  | zero =>
      cases i with
      | atom l => exact outcome_atom hwrite (hA l (.inl rfl)) hP
      | ref x =>
          have hle := length_memo_le hnodup hmemo
          omega
  | succ fuel ih =>
      cases i with
      | atom l => exact outcome_atom hwrite (hA l (.inl rfl)) hP
      | ref x =>
          rw [save]
          split
          · exact hP
          · rename_i hx
            have hlt := hi x rfl
            obtain ⟨c, hc⟩ : ∃ c, g[x]? = some c := ⟨_, List.getElem?_eq_getElem hlt⟩
            have hlabel : A c.label := hA _ (.inr ⟨x, rfl, x, .refl, c, hc, .inl rfl⟩)
            split
            · rename_i hnone
              rw [hc] at hnone
              cases hnone
            · rename_i c' hc'
              obtain rfl : c = c' := Option.some.inj (hc.symm.trans hc')
              split
              · rename_i e he
                exact ⟨_, _, e, hP, hlabel, he, rfl⟩
              · rename_i registry r hok
                have hout : Outcome d P A
                    (saveItems (save d g fuel) ⟨st.memo ++ [x], registry⟩ c.items) := by
                  refine saveItems_outcome (fun st ↦ st.memo.Nodup ∧
                    (∀ x ∈ st.memo, x < g.length) ∧ g.length < fuel + st.memo.length) ?_
                    (hwrite _ _ _ _ hP hlabel hok) ?_
                  · refine ⟨nodup_concat hnodup hx, ?_, by simp; omega⟩
                    intro y hy
                    rcases List.mem_append.mp hy with hy | hy
                    · exact hmemo y hy
                    · exact List.mem_singleton.mp hy ▸ hlt
                  · rintro st₁ j hj ⟨hn, hm, hf⟩ hP₁
                    have hbound : ∀ y, j = .ref y → y < g.length :=
                      fun y hy ↦ hclosed x c hc y (hy ▸ hj)
                    refine ⟨ih hn hm hbound ?_ hP₁ hf, fun ops st' hsave ↦ ?_⟩
                    · rintro l (rfl | ⟨y, rfl, z, hreach, hcarries⟩)
                      · exact hA l (.inr ⟨x, rfl, x, .refl, c, hc, .inr hj⟩)
                      · exact hA l (.inr ⟨x, rfl, z, hreach.head ⟨c, hc, hj⟩, hcarries⟩)
                    · have hsaved := save_saved hn hsave
                      refine ⟨hsaved.nodup, fun y hy ↦ ?_, ?_⟩
                      · rcases hsaved.reached y hy with hold | ⟨z, hz, hreach⟩
                        · exact hm y hold
                        · exact hreach.lt hclosed (hbound z (List.mem_singleton.mp hz).symm)
                      · have hle := hsaved.memo.length_le
                        omega
                split
                · rename_i e herr
                  rwa [herr] at hout
                · rename_i ops st' hitems
                  rwa [hitems] at hout

end Outcomes

section RoundTrip

variable {limit root : ℕ} {registry : σ}

/-- A pickle holds everything that its root reaches. -/
theorem mem_memo {x : ℕ} (h : save d g limit ⟨[], registry⟩ (.ref root) = .ok (ops, st'))
    (hx : Reaches g root x) : x ∈ st'.memo := by
  have hsaved := save_saved List.nodup_nil h
  obtain ⟨heap', -, hrestores⟩ := hsaved.loads (d.read st'.registry) 0 ⟨[], [], []⟩
    (fun _ _ hr ↦ hr) rfl rfl
  induction hx with
  | refl => exact hsaved.refs root List.mem_cons_self
  | tail _ hedge ih =>
      obtain ⟨c, hc, hy⟩ := hedge
      obtain ⟨j, hj⟩ := List.getElem?_of_mem ih
      obtain ⟨c', hc', -, hitems⟩ := hrestores.cell j _ (Nat.zero_le _) hj
      obtain rfl := Option.some.inj (hc.symm.trans hc')
      exact hitems _ hy

/-- Every label of the graph can be read with the registry at the end. -/
theorem labelled_read {l : L} (h : save d g limit ⟨[], registry⟩ (.ref root) = .ok (ops, st'))
    (hl : Labelled g root l) : ∃ r, d.read st'.registry r = some l := by
  obtain ⟨x, hx, hcarries⟩ := hl
  have hsaved := save_saved List.nodup_nil h
  exact hsaved.written l (.inr ⟨x, mem_memo h hx, List.not_mem_nil, hcarries⟩)

/-- Reading a pickle makes a copy of the graph at new addresses. -/
theorem load_save (heap : List (Cell L))
    (h : save d g limit ⟨[], registry⟩ (.ref root) = .ok (ops, st')) :
    ∃ heap', load (d.read st'.registry) ⟨[], [], heap⟩ ops =
        some ⟨[.ref (place heap.length st'.memo root)],
          List.range' heap.length st'.memo.length, heap'⟩ ∧
      Copies g root heap' (place heap.length st'.memo) ∧
      Extends heap heap' ∧ (Closed heap → Closed heap') := by
  have hsaved := save_saved List.nodup_nil h
  obtain ⟨heap', hload, hrestores⟩ := hsaved.loads (d.read st'.registry) heap.length
    ⟨[], [], heap⟩ (fun _ _ hr ↦ hr) rfl rfl
  refine ⟨heap', hload, ⟨fun x hx ↦ ?_, fun x y hx hy heq ↦ ?_⟩, hrestores.old, ?_⟩
  · have hidx : st'.memo[st'.memo.idxOf x]? = some x := by
      rw [List.getElem?_eq_getElem (List.idxOf_lt_length_of_mem (mem_memo h hx))]
      exact congrArg some (List.getElem_idxOf _)
    obtain ⟨c, hc, hcopy, -⟩ := hrestores.cell _ x (Nat.zero_le _) hidx
    exact ⟨c, hc, hcopy⟩
  · exact (List.idxOf_inj (mem_memo h hx)).mp (Nat.add_left_cancel heq)
  · intro hclosed x c hc y hy
    rw [hrestores.length]
    by_cases hlt : x < heap.length
    · rw [hrestores.old x hlt] at hc
      have hold := hclosed x c hc y hy
      omega
    · obtain ⟨hlen, -⟩ := List.getElem?_eq_some_iff.mp hc
      rw [hrestores.length] at hlen
      have hj : x - heap.length < st'.memo.length := by omega
      obtain ⟨c', -, hcopy, hitems⟩ := hrestores.cell (x - heap.length) _ (Nat.zero_le _)
        (List.getElem?_eq_getElem hj)
      rw [Nat.add_sub_cancel' (Nat.le_of_not_lt hlt), hc] at hcopy
      obtain rfl := Option.some.inj hcopy
      obtain ⟨i, hi, hmap⟩ := List.mem_map.mp hy
      cases i with
      | atom l => cases hmap
      | ref z =>
          have hz := List.idxOf_lt_length_of_mem (hitems z hi)
          injection hmap with hmap
          rw [← hmap, place]
          omega

end RoundTrip

end GraphPickle

end DjangoNova
