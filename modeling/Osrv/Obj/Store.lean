import Osrv.Lib.Bytes
import Osrv.Lib.Heap

/-!
# The object store

The functions of `obj.c` over a heap of entries. `obj_root` leads to the entries
in the store, the most recent one first, and `obj_gc_pool` to those that have
been removed and not yet freed. Each function runs in one critical section of
`obj_mutex`, so each is one step of the state.

Every read and write through a pointer fails on a freed cell, and every loop has
as many rounds as the heap has cells, so `none` stands for a memory error or a
loop that does not end. `Rep` is the representation invariant: from a state that
satisfies it every function returns a value and keeps it.

`obj_add` ends with a call of `deps_complete`, which touches nothing of this
file; the call is part of the model of `deps.c`.
-/

namespace Osrv
namespace Obj

open Bytes Heap

/-! ### The entries -/

/-- `obj_entry_t`, without the link: the data pointer and its length, the R object
if there is one, and the key. -/
structure Entry (D R : Type*) where
  len : ℕ
  obj : D
  sWhat : Option R
  key : CString

/-- A call by which R learns that an object is referred to or no longer is. -/
inductive RCall (R : Type*)
  | R_PreserveObject (x : R)
  | R_ReleaseObject (x : R)

/-- The state of `obj.c`, with the calls into R so far. -/
structure Store (D R : Type*) where
  heap : Heap (Entry D R)
  obj_root : Ptr
  obj_gc_pool : Ptr
  rcalls : List (RCall R)

variable {D R : Type*}

/-- The store at the start of the process. -/
def Store.init : Store D R := ⟨.empty, none, none, []⟩

/-! ### The functions -/

/-- Adds an entry in front of all others. -/
def obj_add (key : CString) (sWhat : Option R) (data : D) (len : ℕ) (s : Store D R) :
    Store D R :=
  let (e, heap) := s.heap.alloc ⟨⟨len, data, sWhat, key⟩, s.obj_root⟩
  { s with
    heap := heap
    obj_root := some e
    rcalls := s.rcalls ++ (sWhat.map .R_PreserveObject).toList }

/-- The loop of `obj_gc`. -/
def gcLoop : ℕ → Store D R → Option (Store D R)
  | 0, _ => none
  | n + 1, s =>
    match s.obj_gc_pool with
    | none => some s
    | some c => do
      let cell ← s.heap.load c
      let heap ← s.heap.free c
      gcLoop n { s with
        heap := heap
        obj_gc_pool := cell.next
        rcalls := s.rcalls ++ (cell.val.sWhat.map .R_ReleaseObject).toList }

/-- Frees the entries that have been removed. -/
def obj_gc (s : Store D R) : Option (Store D R) := gcLoop (s.heap.top + 1) s

/-- Makes what leads to an entry, `prev` or the root, lead to `next`. -/
def unlink (prev next : Ptr) (s : Store D R) : Option (Store D R) :=
  match prev with
  | some p => do
    let heap ← s.heap.setNext p next
    pure { s with heap := heap }
  | none => some { s with obj_root := next }

/-- Takes the entry `e` out of the store and puts it in front of the pool. -/
def moveToPool (e : Addr) (prev next : Ptr) (s : Store D R) : Option (Store D R) := do
  let s ← unlink prev next s
  let heap ← s.heap.setNext e s.obj_gc_pool
  pure { s with heap := heap, obj_gc_pool := some e }

/-- The loop of `obj_get_`. -/
def getLoop (key : CString) (rm : Bool) : ℕ → Ptr → Ptr → Store D R → Option (Ptr × Store D R)
  | 0, _, _, _ => none
  | n + 1, e, prev, s =>
    match e with
    | none => some (none, s)
    | some a => do
      let cell ← s.heap.load a
      if cell.val.key = key then
        if rm then
          let s ← moveToPool a prev cell.next s
          pure (some a, s)
        else pure (some a, s)
      else getLoop key rm n cell.next (some a) s

/-- The most recent entry of a key, or null. With `rm` it is also taken out of the
store. -/
def obj_get (key : CString) (rm : Bool) (s : Store D R) : Option (Ptr × Store D R) :=
  getLoop key rm (s.heap.top + 1) s.obj_root none s

/-! ### The representation invariant -/

/-- The addresses and contents of a list of entries. -/
abbrev Entries (D R : Type*) : Type _ := List (Addr × Entry D R)

/-- Whether an entry has the given key. -/
def hasKey (key : CString) (x : Addr × Entry D R) : Bool := x.2.key = key

/-- **The representation invariant.** `xs` are the entries in the store and `ys`
those in the pool. -/
structure Rep (s : Store D R) (xs ys : Entries D R) : Prop where
  /-- `obj_root` leads through the store. -/
  root : Seg s.heap s.obj_root xs none
  /-- `obj_gc_pool` leads through the pool. -/
  pool : Seg s.heap s.obj_gc_pool ys none
  /-- The two share no cell. -/
  nodup : (addrs (xs ++ ys)).Nodup
  /-- Every allocated cell is in one of them. -/
  all : ∀ a, s.heap.cells a ≠ none → a ∈ addrs (xs ++ ys)

theorem Rep.init : Rep (Store.init : Store D R) [] [] :=
  ⟨rfl, rfl, List.nodup_nil, fun _ h => absurd rfl h⟩

section Spec

variable {s : Store D R} {xs ys : Entries D R}

theorem Rep.nodup_store (h : Rep s xs ys) : (addrs xs).Nodup := by
  have hnd := h.nodup
  rw [addrs, List.map_append, List.nodup_append] at hnd
  exact hnd.1

theorem Rep.nodup_pool (h : Rep s xs ys) : (addrs ys).Nodup := by
  have hnd := h.nodup
  rw [addrs, List.map_append, List.nodup_append] at hnd
  exact hnd.2.1

theorem Rep.disjoint (h : Rep s xs ys) {a : Addr} (hx : a ∈ addrs xs) : a ∉ addrs ys := by
  have hnd := h.nodup
  rw [addrs, List.map_append, List.nodup_append] at hnd
  intro hy
  exact hnd.2.2 a hx a hy rfl

/-- The allocated cells are those of the store and the pool. -/
theorem Rep.cells_ne_none_iff (h : Rep s xs ys) {a : Addr} :
    s.heap.cells a ≠ none ↔ a ∈ addrs xs ∨ a ∈ addrs ys := by
  constructor
  · intro ha
    have hmem := h.all a ha
    rwa [addrs, List.map_append, List.mem_append] at hmem
  · rintro (hx | hy)
    · exact h.root.cells_ne_none hx
    · exact h.pool.cells_ne_none hy

/-- **Adding** puts a new cell in front of the store. -/
theorem Rep.obj_add (h : Rep s xs ys) (key : CString) (sWhat : Option R) (data : D) (len : ℕ) :
    Rep (obj_add key sWhat data len s) ((s.heap.top, ⟨len, data, sWhat, key⟩) :: xs) ys where
  root := ⟨rfl, s.obj_root, load_alloc_self .., h.root.alloc _⟩
  pool := h.pool.alloc _
  nodup := by
    rw [List.cons_append, addrs, List.map_cons, List.nodup_cons]
    refine ⟨fun hmem => ?_, h.nodup⟩
    rw [List.map_append, List.mem_append] at hmem
    rcases hmem with hx | hy
    · exact absurd (h.root.lt_top hx) (lt_irrefl _)
    · exact absurd (h.pool.lt_top hy) (lt_irrefl _)
  all a ha := by
    rcases eq_or_ne a s.heap.top with rfl | hne
    · exact List.mem_cons_self ..
    · refine List.mem_cons_of_mem _ (h.all a ?_)
      rwa [← cells_alloc _ hne]

/-- **Collecting** frees exactly the pool. -/
theorem gcLoop_eq {n : ℕ} (h : Rep s xs ys) (hn : ys.length < n) :
    ∃ s', gcLoop n s = some s' ∧ Rep s' xs [] ∧ s'.heap.top = s.heap.top := by
  induction ys generalizing n s with
  -- the pool is empty
  | nil =>
    obtain ⟨n, rfl⟩ : ∃ k, n = k + 1 := ⟨n - 1, by omega⟩
    have hpool : s.obj_gc_pool = none := h.pool
    exact ⟨s, by simp only [gcLoop, hpool], h, rfl⟩
  -- the first entry is freed, and the pool is the rest
  | cons y ys ih =>
    obtain ⟨n, rfl⟩ : ∃ k, n = k + 1 := ⟨n - 1, by omega⟩
    obtain ⟨hpool, next, hc, hrest⟩ := h.pool
    obtain ⟨heap, hfree, hcells, htop⟩ := free_eq hc
    -- it is in neither of the lists
    have hnot : y.1 ∉ addrs (xs ++ ys) := by
      have hnd := h.nodup
      rw [addrs, List.map_append, List.map_cons, List.nodup_middle, List.nodup_cons] at hnd
      rw [addrs, List.map_append]
      exact hnd.1
    have hx : y.1 ∉ addrs xs := fun hmem => hnot (by simp [hmem])
    have hy : y.1 ∉ addrs ys := fun hmem => hnot (by simp [hmem])
    let s₁ : Store D R := { s with
      heap := heap
      obj_gc_pool := next
      rcalls := s.rcalls ++ (y.2.sWhat.map .R_ReleaseObject).toList }
    have h₁ : Rep s₁ xs ys := by
      refine ⟨h.root.update hcells hx, hrest.update hcells hy, ?_, fun a ha => ?_⟩
      · have hnd := h.nodup
        rw [addrs, List.map_append, List.map_cons, List.nodup_middle, List.nodup_cons] at hnd
        rw [addrs, List.map_append]
        exact hnd.2
      · have hne : a ≠ y.1 := by
          rintro rfl
          exact ha (by simp [s₁, hcells])
        have hold : s.heap.cells a ≠ none := by
          rwa [← cells_update hcells hne]
        have hmem := h.all a hold
        simp only [addrs, List.map_append, List.map_cons, List.mem_append, List.mem_cons] at hmem ⊢
        tauto
    obtain ⟨s', hrun, hrep, htop'⟩ := ih h₁ (by simpa using hn)
    refine ⟨s', ?_, hrep, htop'.trans htop⟩
    simp only [gcLoop, hpool]
    rw [load, hc]
    change ((s.heap.free y.1).bind _) = _
    rw [hfree]
    exact hrun

theorem Rep.obj_gc (h : Rep s xs ys) :
    ∃ s', obj_gc s = some s' ∧ Rep s' xs [] ∧ s'.heap.top = s.heap.top :=
  gcLoop_eq h (Nat.lt_succ_of_le (h.pool.length_le h.nodup_pool))

/-! ### Looking up and removing -/

theorem getLoop_find {key : CString} {n : ℕ} {e prev : Ptr} (hseg : Seg s.heap e xs none)
    (hn : xs.length < n) :
    getLoop key false n e prev s = some ((xs.find? (hasKey key)).map Prod.fst, s) := by
  induction xs generalizing n e prev with
  | nil =>
    obtain ⟨n, rfl⟩ : ∃ k, n = k + 1 := ⟨n - 1, by omega⟩
    obtain rfl : e = none := hseg
    rfl
  | cons x xs ih =>
    obtain ⟨n, rfl⟩ : ∃ k, n = k + 1 := ⟨n - 1, by omega⟩
    obtain ⟨rfl, next, hc, hrest⟩ := hseg
    have hload : s.heap.load x.1 = some ⟨x.2, next⟩ := hc
    by_cases hkey : x.2.key = key
    · simp [getLoop, hload, hkey, hasKey]
    · rw [List.find?_cons_of_neg (by simpa [hasKey] using hkey)]
      simpa [getLoop, hload, hkey] using ih hrest (by simpa using hn)

/-- **Looking up** returns the first entry with the key and changes nothing. -/
theorem Rep.obj_get_find (h : Rep s xs ys) (key : CString) :
    obj_get key false s = some ((xs.find? (hasKey key)).map Prod.fst, s) :=
  getLoop_find h.root (Nat.lt_succ_of_le (h.root.length_le h.nodup_store))

/-- The pointer to the last of a list of entries, as `prev` holds it. -/
def lastPtr (xs : Entries D R) : Ptr := xs.getLast?.map Prod.fst

@[simp] theorem lastPtr_nil : lastPtr ([] : Entries D R) = none := rfl

@[simp] theorem lastPtr_snoc (xs : Entries D R) (x : Addr × Entry D R) :
    lastPtr (xs ++ [x]) = some x.1 := by
  simp [lastPtr]

/-- Unlinking leaves the entry itself and the pool as they are. -/
theorem Rep.unlink {pre post : Entries D R} {x : Addr × Entry D R} {next : Ptr}
    (h : Rep s (pre ++ x :: post) ys) (hx : s.heap.cells x.1 = some ⟨x.2, next⟩) :
    ∃ s₁, unlink (lastPtr pre) next s = some s₁ ∧
      Seg s₁.heap s₁.obj_root (pre ++ post) none ∧ Seg s₁.heap s₁.obj_gc_pool ys none ∧
      s₁.heap.cells x.1 = some ⟨x.2, next⟩ ∧
      (∀ a, s₁.heap.cells a ≠ none → s.heap.cells a ≠ none) ∧ s₁.heap.top = s.heap.top := by
  rcases List.eq_nil_or_concat pre with rfl | ⟨pre, w, rfl⟩
  · -- the first entry: the root moves on
    obtain ⟨-, next', hc, hrest⟩ := h.root
    obtain rfl : next' = next := by simpa using hc.symm.trans hx
    exact ⟨{ s with obj_root := next' }, rfl, hrest, h.pool, hx, fun _ ha => ha, rfl⟩
  · -- a later one: its predecessor is relinked
    rw [List.concat_eq_append] at h ⊢
    have hseg := h.root
    have hnd := h.nodup_store
    obtain ⟨r, hw⟩ := hseg.cells_of_mem (x := w) (by simp)
    obtain ⟨heap, hset, hcells, htop⟩ := setNext_eq hw next
    have hwmem : w.1 ∈ addrs (pre ++ [w] ++ x :: post) := by simp
    have hwx : x.1 ≠ w.1 := by
      rw [addrs, List.map_append, List.nodup_append] at hnd
      exact fun heq => hnd.2.2 w.1 (by simp) x.1 (by simp) heq.symm
    refine ⟨{ s with heap := heap }, ?_, hseg.unlink hnd hx hcells,
      h.pool.update hcells (h.disjoint hwmem), ?_, ?_, htop⟩
    · rw [lastPtr_snoc]
      simp only [Obj.unlink, hset]
      rfl
    · rw [cells_update hcells hwx, hx]
    · intro a ha
      rcases eq_or_ne a w.1 with rfl | hne
      · simp [hw]
      · rwa [← cells_update hcells hne]

/-- Moving an entry to the pool. -/
theorem Rep.moveToPool {pre post : Entries D R} {x : Addr × Entry D R} {next : Ptr}
    (h : Rep s (pre ++ x :: post) ys) (hx : s.heap.cells x.1 = some ⟨x.2, next⟩) :
    ∃ s', moveToPool x.1 (lastPtr pre) next s = some s' ∧ Rep s' (pre ++ post) (x :: ys) ∧
      s'.heap.top = s.heap.top := by
  obtain ⟨s₁, hunlink, hroot, hpool, hx₁, hall, htop₁⟩ := h.unlink hx
  obtain ⟨heap, hset, hcells, htop⟩ := setNext_eq hx₁ s₁.obj_gc_pool
  -- the cells are the same ones in another order
  have hperm : (pre ++ x :: post ++ ys).Perm (pre ++ post ++ x :: ys) := by
    rw [List.append_assoc, List.append_assoc]
    refine List.Perm.append_left pre ?_
    rw [List.cons_append]
    exact List.perm_middle.symm
  have hnd : (addrs (pre ++ post ++ x :: ys)).Nodup := (hperm.map Prod.fst).nodup h.nodup
  have hnot : x.1 ∉ addrs (pre ++ post ++ ys) := by
    rw [addrs, List.map_append, List.map_cons, List.nodup_middle, List.nodup_cons] at hnd
    rw [addrs, List.map_append]
    exact hnd.1
  have hstore : x.1 ∉ addrs (pre ++ post) := fun hmem => hnot (by
    rw [addrs, List.map_append]
    exact List.mem_append_left _ hmem)
  have hys : x.1 ∉ addrs ys := fun hmem => hnot (by
    rw [addrs, List.map_append]
    exact List.mem_append_right _ hmem)
  refine ⟨{ s₁ with heap := heap, obj_gc_pool := some x.1 }, ?_, ⟨hroot.update hcells hstore,
    ⟨rfl, s₁.obj_gc_pool, ?_, hpool.update hcells hys⟩, hnd, fun a ha => ?_⟩, htop.trans htop₁⟩
  · simp only [Obj.moveToPool, hunlink, Option.bind_eq_bind, Option.bind_some, hset]
    rfl
  · change heap.cells x.1 = _
    rw [hcells, Function.update_self]
  · refine (hperm.map Prod.fst).mem_iff.mp (h.all a (hall a ?_))
    rcases eq_or_ne a x.1 with rfl | hne
    · simp [hx₁]
    · rwa [← cells_update hcells hne]

/-- The loop with removal, from behind entries without the key. -/
theorem Rep.getLoop_remove {key : CString} {n : ℕ} {e : Ptr} {pre rest : Entries D R}
    (h : Rep s (pre ++ rest) ys) (hseg : Seg s.heap e rest none) (hn : rest.length < n) :
    ∃ s', getLoop key true n e (lastPtr pre) s
        = some ((rest.find? (hasKey key)).map Prod.fst, s') ∧
      Rep s' (pre ++ rest.eraseP (hasKey key)) ((rest.find? (hasKey key)).toList ++ ys) ∧
      s'.heap.top = s.heap.top := by
  induction rest generalizing n e pre with
  | nil =>
    obtain ⟨n, rfl⟩ : ∃ k, n = k + 1 := ⟨n - 1, by omega⟩
    obtain rfl : e = none := hseg
    exact ⟨s, rfl, h, rfl⟩
  | cons x rest ih =>
    obtain ⟨n, rfl⟩ : ∃ k, n = k + 1 := ⟨n - 1, by omega⟩
    obtain ⟨rfl, next, hc, hrest⟩ := hseg
    have hload : s.heap.load x.1 = some ⟨x.2, next⟩ := hc
    by_cases hkey : x.2.key = key
    · obtain ⟨s', hmove, hrep, htop⟩ := h.moveToPool hc
      have hk : hasKey key x = true := by simpa [hasKey] using hkey
      refine ⟨s', ?_, ?_, htop⟩
      · simp [getLoop, hload, hkey, hk, hmove]
      · simpa [hk] using hrep
    · have hk : hasKey key x = false := by simpa [hasKey] using hkey
      have hpre : Rep s (pre ++ [x] ++ rest) ys := by
        rwa [List.append_assoc]
      obtain ⟨s', hrun, hrep, htop⟩ := ih hpre hrest (by simpa using hn)
      refine ⟨s', ?_, ?_, htop⟩
      · rw [lastPtr_snoc] at hrun
        simpa [getLoop, hload, hkey, hk] using hrun
      · simpa [hk] using hrep

/-- **Removing** takes the first entry with the key out of the store and puts it in
front of the pool. -/
theorem Rep.obj_get_remove (h : Rep s xs ys) (key : CString) :
    ∃ s', obj_get key true s = some ((xs.find? (hasKey key)).map Prod.fst, s') ∧
      Rep s' (xs.eraseP (hasKey key)) ((xs.find? (hasKey key)).toList ++ ys) ∧
      s'.heap.top = s.heap.top := by
  have hpre : Rep s ([] ++ xs) ys := h
  exact hpre.getLoop_remove h.root (Nat.lt_succ_of_le (h.root.length_le h.nodup_store))

end Spec

end Obj
end Osrv
