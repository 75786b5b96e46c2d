import Osrv.Obj.Cells
import Osrv.Obj.Refine

/-!
# Removing an entry

`obj_get` with `rm` takes an entry out of a singly linked list and uses the link of the
entry itself to put it in front of the garbage pool. `Moved` says what that comes to: the
first entry with the key, if there is one, goes from the store to the pool, and the others
stay in their order.

`Holding` is the state after a history. It accounts for every entry: each call of `obj_add`
has made the entry at the next address, and those that have not been freed are in the store
or in the pool, once. Since the entries with other keys are where they were, lookups of them
are not disturbed (`remove_disturbs_nothing`).
-/

namespace Osrv
namespace Obj

open Bytes Heap

variable {D R : Type*}

/-! ### The entries of a history -/

/-- The entry that a call makes. -/
def Op.entry : Op D R → List (Entry D R)
  | .add key sWhat data len => [⟨len, data, sWhat, key⟩]
  | _ => []

/-- All entries ever added, in the order in which they were. -/
def everAdded (ops : List (Op D R)) : List (Entry D R) := ops.flatMap Op.entry

theorem everAdded_snoc (ops : List (Op D R)) (op : Op D R) :
    everAdded (ops ++ [op]) = everAdded ops ++ op.entry := by
  simp [everAdded]

/-- **The state after a history**: `xs` are the entries in the store, and `ys` those in the
pool. -/
structure Holding (ops : List (Op D R)) (s : Store D R) (xs ys : Entries D R) : Prop
    extends Rep s xs ys where
  /-- Every call of `obj_add` has used one address. -/
  top : s.heap.top = (everAdded ops).length
  /-- The entry at an address is the one that was added there. -/
  contents : ∀ x ∈ xs ++ ys, (everAdded ops)[x.1]? = some x.2

theorem Holding.init : Holding [] (Store.init : Store D R) [] [] where
  toRep := Rep.init
  top := rfl
  contents x hx := by cases hx

section Holding

variable {ops : List (Op D R)} {s : Store D R} {xs ys : Entries D R}

/-- **What has been added and not been freed** is in the store or in the pool, once. -/
theorem Holding.once (h : Holding ops s xs ys) (a : Addr) :
    s.heap.cells a ≠ none ↔ (addrs (xs ++ ys)).count a = 1 := by
  rw [h.cells_ne_none_iff, ← List.mem_append, ← List.map_append]
  constructor
  · intro hmem
    exact List.count_eq_one_of_mem h.nodup hmem
  · intro hcount
    apply List.count_pos_iff.mp
    rw [hcount]
    exact Nat.one_pos

/-- Entries that are moved about or freed. -/
theorem Holding.of_rep (h : Holding ops s xs ys) {op : Op D R} (hop : op.entry = [])
    {s' : Store D R} {xs' ys' : Entries D R} (hrep : Rep s' xs' ys')
    (htop : s'.heap.top = s.heap.top) (hsub : xs' ++ ys' ⊆ xs ++ ys) :
    Holding (ops ++ [op]) s' xs' ys' where
  toRep := hrep
  top := by rw [everAdded_snoc, hop, List.append_nil, htop, h.top]
  contents x hx := by
    rw [everAdded_snoc, hop, List.append_nil]
    exact h.contents x (hsub hx)

theorem Holding.obj_add (h : Holding ops s xs ys) (key : CString) (sWhat : Option R) (data : D)
    (len : ℕ) :
    Holding (ops ++ [.add key sWhat data len]) (obj_add key sWhat data len s)
      ((s.heap.top, ⟨len, data, sWhat, key⟩) :: xs) ys where
  toRep := h.toRep.obj_add key sWhat data len
  top := by
    rw [everAdded_snoc, List.length_append, ← h.top]
    rfl
  contents x hx := by
    rw [everAdded_snoc, h.top] at *
    obtain rfl | hx := List.mem_cons.mp hx
    · -- the new entry is the last one that was added
      exact List.getElem?_concat_length
    · have hold := h.contents x hx
      have hlt : x.1 < (everAdded ops).length := (List.getElem?_eq_some_iff.mp hold).1
      rw [List.getElem?_append_left hlt, hold]

/-- The entries of a list without the first one that has a key, and that one in front. -/
theorem find_append_eraseP_subset (key : CString) (xs ys : Entries D R) :
    xs.eraseP (hasKey key) ++ ((xs.find? (hasKey key)).toList ++ ys) ⊆ xs ++ ys := by
  intro x hx
  have hperm := (find_append_eraseP_perm (hasKey key) xs).append_right ys
  refine hperm.subset ?_
  rw [List.append_assoc]
  exact (List.perm_append_comm_assoc ..).subset hx

theorem Holding.remove (h : Holding ops s xs ys) (key : CString) :
    ∃ s', obj_get key true s = some ((xs.find? (hasKey key)).map Prod.fst, s') ∧
      Holding (ops ++ [.get key true]) s' (xs.eraseP (hasKey key))
        ((xs.find? (hasKey key)).toList ++ ys) := by
  obtain ⟨s', hget, hrep, htop⟩ := h.obj_get_remove key
  exact ⟨s', hget, h.of_rep rfl hrep htop (find_append_eraseP_subset key xs ys)⟩

end Holding

/-- **Every history** leads to such a state. -/
theorem run_holding (ops : List (Op D R)) :
    ∃ s, run ops = some s ∧ ∃ xs ys, Holding ops s xs ys := by
  refine Run.total (P := fun ops s => ∃ xs ys, Holding ops s xs ys) ⟨[], [], Holding.init⟩ ?_ ops
  rintro ops s op ⟨xs, ys, h⟩
  cases op with
  | add key sWhat data len => exact ⟨_, rfl, _, ys, h.obj_add key sWhat data len⟩
  | get key rm =>
    cases rm with
    -- a lookup leaves the lists as they are
    | false =>
      refine ⟨s, ?_, xs, ys, h.of_rep rfl h.toRep rfl fun x hx => hx⟩
      rw [step, h.obj_get_find]
      rfl
    -- a removal moves an entry to the pool
    | true =>
      obtain ⟨s', hget, h'⟩ := h.remove key
      refine ⟨s', ?_, _, _, h'⟩
      rw [step, hget]
      rfl
  -- the pool is emptied
  | gc =>
    obtain ⟨s', hgc, hrep, htop⟩ := h.toRep.obj_gc
    refine ⟨s', hgc, xs, [], h.of_rep rfl hrep htop ?_⟩
    rw [List.append_nil]
    exact List.subset_append_left xs ys

/-! ### What a removal does -/

/-- **One entry moves**, or none. `e` is the pointer returned. -/
inductive Moved (key : CString) (xs ys : Entries D R) : Ptr → Entries D R → Entries D R → Prop
  | absent (hkey : ∀ x ∈ xs, x.2.key ≠ key) : Moved key xs ys none xs ys
  | moved {pre post : Entries D R} {x : Addr × Entry D R} (hxs : xs = pre ++ x :: post)
      (hpre : ∀ y ∈ pre, y.2.key ≠ key) (hx : x.2.key = key) :
      Moved key xs ys (some x.1) (pre ++ post) (x :: ys)

/-- The first entry with the key is taken out, wherever it stands. -/
theorem moved_find (key : CString) (xs ys : Entries D R) :
    Moved key xs ys ((xs.find? (hasKey key)).map Prod.fst) (xs.eraseP (hasKey key))
      ((xs.find? (hasKey key)).toList ++ ys) := by
  cases hfind : xs.find? (hasKey key) with
  | none =>
    have hnone : ∀ x ∈ xs, ¬ hasKey key x = true := List.find?_eq_none.mp hfind
    rw [List.eraseP_of_forall_not hnone]
    exact .absent fun x hx hkey => hnone x hx (decide_eq_true hkey)
  | some x =>
    obtain ⟨hx, pre, post, rfl, hpre⟩ := List.find?_eq_some_iff_append.mp hfind
    have hpre : ∀ y ∈ pre, ¬ hasKey key y = true := fun y hy => by simpa using hpre y hy
    rw [List.eraseP_append_right _ hpre, List.eraseP_cons_of_pos hx]
    exact .moved rfl (fun y hy hkey => hpre y hy (decide_eq_true hkey)) (of_decide_eq_true hx)

/-- A lookup of another key finds what it found before. -/
theorem find_eraseP_of_ne {key k : CString} (hne : k ≠ key) (xs : Entries D R) :
    (xs.eraseP (hasKey key)).find? (hasKey k) = xs.find? (hasKey k) := by
  induction xs with
  | nil => rfl
  | cons x xs ih =>
    by_cases hx : x.2.key = key
    · have hp : hasKey key x = true := decide_eq_true hx
      have hk : ¬ hasKey k x = true := fun hk => hne ((of_decide_eq_true hk).symm.trans hx)
      rw [List.eraseP_cons_of_pos hp, List.find?_cons_of_neg hk]
    · have hp : ¬ hasKey key x = true := fun h => hx (of_decide_eq_true h)
      rw [List.eraseP_cons_of_neg hp, List.find?_cons, List.find?_cons, ih]

/-- **Removing one key does not disturb the others.** After every history, removing a key
moves the first entry with that key, if there is one, from the store to the pool. The other
entries of the store keep their order, no entry changes, and a lookup of another key returns
the same pointer as before. Store and pool are lists that end and share no entry, and
together they have every entry that was ever added and has not been freed exactly once. -/
theorem remove_disturbs_nothing (ops : List (Op D R)) (key : CString) :
    ∃ s xs ys e s' xs' ys', run ops = some s ∧ Holding ops s xs ys ∧
      obj_get key true s = some (e, s') ∧ Holding (ops ++ [.get key true]) s' xs' ys' ∧
      Moved key xs ys e xs' ys' ∧ s'.entryAt = s.entryAt ∧
      (∀ k, k ≠ key → (obj_get k false s').map Prod.fst = (obj_get k false s).map Prod.fst) ∧
      ∀ a < (everAdded ops).length,
        s'.heap.cells a ≠ none ↔ (addrs (xs' ++ ys')).count a = 1 := by
  obtain ⟨s, hrun, xs, ys, h⟩ := run_holding ops
  obtain ⟨s', hget, h'⟩ := h.remove key
  refine ⟨s, xs, ys, _, s', _, _, hrun, h, hget, h', moved_find key xs ys,
    h.entryAt_remove h'.toRep, ?_, fun a _ => h'.once a⟩
  intro k hne
  calc (obj_get k false s').map Prod.fst
      = some (((xs.eraseP (hasKey key)).find? (hasKey k)).map Prod.fst) := by
        rw [h'.obj_get_find]
        rfl
    _ = some ((xs.find? (hasKey k)).map Prod.fst) := by rw [find_eraseP_of_ne hne]
    _ = (obj_get k false s).map Prod.fst := by
        rw [h.obj_get_find]
        rfl

end Obj
end Osrv
