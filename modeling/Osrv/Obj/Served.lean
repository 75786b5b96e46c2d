import Osrv.Obj.Store
import Osrv.Lib.Run

/-!
# Entries that are being sent

A worker that serves a `GET` looks the entry up under `obj_mutex` and sends it
after the lock is released. Meanwhile other clients may remove the entry, which
puts it into the pool, and R may call `obj_gc`, which frees the pool. `obj.h`
says so: the result of `obj_get` is only valid until the next `obj_gc`.

The system below has any number of workers. `served_entries_allocated_iff` says
along which runs every entry a worker holds stays allocated: those in which no
worker holds a removed entry when `obj_gc` is called.
-/

namespace Osrv
namespace Obj

open Bytes Heap

variable {W D R : Type}

/-! ### The system -/

/-- The store, the entry each worker is sending, and the entries that
`obj_get(·, 1)` has returned so far. -/
structure Serving (W D R : Type) where
  store : Store D R
  held : W → Ptr
  removed : List Addr

/-- The steps: critical sections of `obj_mutex`, and the end of a reply. -/
inductive Act (W D R : Type)
  /-- A worker looks up the entry it is going to send. -/
  | get (w : W) (key : CString)
  /-- A worker has read and sent its entry. -/
  | sent (w : W)
  /-- Any client removes an entry. -/
  | remove (key : CString)
  | add (key : CString) (sWhat : Option R) (data : D) (len : ℕ)
  /-- `o.clean`. -/
  | gc

/-- Performs a step. A worker that is still sending starts no other reply, and an
entry that is to be sent must be readable. -/
def serve [DecidableEq W] (s : Serving W D R) : Act W D R → Option (Serving W D R)
  | .get w key =>
    if s.held w = none then do
      let (e, store) ← obj_get key false s.store
      pure { s with store := store, held := Function.update s.held w e }
    else none
  | .sent w => do
    let e ← s.held w
    let _ ← s.store.heap.load e
    pure { s with held := Function.update s.held w none }
  | .remove key => do
    let (e, store) ← obj_get key true s.store
    pure { s with store := store, removed := e.toList ++ s.removed }
  | .add key sWhat data len =>
    some { s with store := obj_add key sWhat data len s.store }
  | .gc => do
    let store ← obj_gc s.store
    pure { s with store := store }

/-- The system at the start of the process. -/
def Serving.init : Serving W D R := ⟨.init, fun _ => none, []⟩

/-- The system after a list of steps. -/
def serving [DecidableEq W] (acts : List (Act W D R)) : Option (Serving W D R) :=
  Run.run serve .init acts

/-- No entry that a worker holds has been freed. -/
def Serving.NoneFreed (s : Serving W D R) : Prop :=
  ∀ w a, s.held w = some a → s.store.heap.cells a ≠ none

/-- Some worker holds an entry that has been removed. -/
def Serving.HoldsRemoved (s : Serving W D R) : Prop :=
  ∃ w a, s.held w = some a ∧ a ∈ s.removed

/-! ### The invariant -/

/-- **The invariant of the system**, whatever the order of the steps: an allocated
entry is in the pool exactly if it has been removed, and otherwise in the store. -/
structure ServingInv (s : Serving W D R) (xs ys : Entries D R) : Prop where
  /-- The heap represents the store and the pool. -/
  rep : Rep s.store xs ys
  /-- What is in the pool has been removed. -/
  pool : ∀ a ∈ addrs ys, a ∈ s.removed
  /-- What is in the store has not. -/
  store : ∀ a ∈ addrs xs, a ∉ s.removed
  /-- Only entries that have existed are removed. -/
  old : ∀ a ∈ s.removed, a < s.store.heap.top

theorem ServingInv.init : ServingInv (Serving.init : Serving W D R) [] [] :=
  ⟨Rep.init, by simp, by simp, by simp [Serving.init]⟩

theorem mem_addrs_eraseP (key : CString) {xs : Entries D R} {a : Addr} (ha : a ∈ addrs xs) :
    a ∈ addrs (xs.eraseP (hasKey key)) ∨ a ∈ addrs (xs.find? (hasKey key)).toList := by
  induction xs with
  | nil => cases ha
  | cons x xs ih =>
    by_cases hk : hasKey key x = true
    · rcases List.mem_cons.mp ha with rfl | ha
      · exact .inr (by simp [hk])
      · exact .inl (by simpa [hk] using ha)
    · rw [List.find?_cons_of_neg hk, List.eraseP_cons_of_neg hk]
      rcases List.mem_cons.mp ha with rfl | ha
      · exact .inl (List.mem_cons_self ..)
      · exact (ih ha).imp (List.mem_cons_of_mem _) id

variable [DecidableEq W] {s s' : Serving W D R} {xs ys : Entries D R} {act : Act W D R}

/-- **What a step does**, action by action. -/
theorem serve_cases (h : Rep s.store xs ys) (hs : serve s act = some s') :
    match act with
    | .get w key => s.held w = none ∧
        s' = { s with held := Function.update s.held w ((xs.find? (hasKey key)).map Prod.fst) }
    | .sent w => s' = { s with held := Function.update s.held w none }
    | .remove key => ∃ store : Store D R,
        Rep store (xs.eraseP (hasKey key)) ((xs.find? (hasKey key)).toList ++ ys) ∧
        store.heap.top = s.store.heap.top ∧
        s' = { s with
          store := store
          removed := addrs (xs.find? (hasKey key)).toList ++ s.removed }
    | .add key sWhat data len =>
        s' = { s with store := obj_add key sWhat data len s.store }
    | .gc => ∃ store : Store D R, Rep store xs [] ∧ store.heap.top = s.store.heap.top ∧
        s' = { s with store := store } := by
  cases act with
  | get w key =>
    simp only [serve, h.obj_get_find] at hs
    split at hs
    · next hidle => exact ⟨hidle, (Option.some.inj hs).symm⟩
    · cases hs
  | sent w =>
    simp only [serve, Option.bind_eq_bind, Option.bind_eq_some_iff] at hs
    obtain ⟨e, -, c, -, hs⟩ := hs
    exact (Option.some.inj hs).symm
  | remove key =>
    obtain ⟨store, hget, hrep, htop⟩ := h.obj_get_remove key
    simp only [serve, hget] at hs
    refine ⟨store, hrep, htop, (Option.some.inj hs).symm.trans ?_⟩
    cases xs.find? (hasKey key) <;> rfl
  | add key sWhat data len => exact (Option.some.inj hs).symm
  | gc =>
    obtain ⟨store, hgc, hrep, htop⟩ := h.obj_gc
    simp only [serve, hgc] at hs
    exact ⟨store, hrep, htop, (Option.some.inj hs).symm⟩

/-- **One step** keeps the invariant. -/
theorem ServingInv.step (h : ServingInv s xs ys) (hs : serve s act = some s') :
    ∃ xs' ys', ServingInv s' xs' ys' := by
  have hcases := serve_cases h.rep hs
  cases act with
  -- the lookups and answers of the workers leave the store as it is
  | get w key =>
    obtain ⟨-, rfl⟩ := hcases
    exact ⟨xs, ys, h.rep, h.pool, h.store, h.old⟩
  | sent w =>
    obtain rfl : s' = _ := hcases
    exact ⟨xs, ys, h.rep, h.pool, h.store, h.old⟩
  -- a removal moves an entry to the pool
  | remove key =>
    obtain ⟨store, hrep, htop, rfl⟩ := hcases
    have hsub : ∀ a ∈ addrs (xs.eraseP (hasKey key)), a ∈ addrs xs := fun a ha =>
      (List.eraseP_sublist.map Prod.fst).subset ha
    refine ⟨_, _, hrep, ?_, ?_, ?_⟩
    · intro a ha
      rw [addrs, List.map_append, List.mem_append] at ha
      exact List.mem_append.mpr (ha.imp id (h.pool a))
    · -- the removed entry is in the pool now, and the rest of the store is as before
      intro a ha hrem
      rcases List.mem_append.mp hrem with hnew | hold
      · refine hrep.disjoint ha ?_
        rw [addrs, List.map_append, List.mem_append]
        exact .inl hnew
      · exact h.store a (hsub a ha) hold
    · intro a ha
      change a < store.heap.top
      rw [htop]
      rcases List.mem_append.mp ha with hnew | hold
      · obtain ⟨x, hx, rfl⟩ := List.mem_map.mp hnew
        have hx' : xs.find? (hasKey key) = some x := Option.mem_toList.mp hx
        exact h.rep.root.lt_top (List.mem_map_of_mem (List.mem_of_find?_eq_some hx'))
      · exact h.old a hold
  | add key sWhat data len =>
    obtain rfl : s' = _ := hcases
    refine ⟨_, ys, h.rep.obj_add key sWhat data len, h.pool, ?_, fun a ha =>
      Nat.lt_succ_of_lt (h.old a ha)⟩
    intro a ha hrem
    rcases List.mem_cons.mp ha with rfl | ha
    · exact absurd (h.old _ hrem) (lt_irrefl _)
    · exact h.store a ha hrem
  | gc =>
    obtain ⟨store, hrep, htop, rfl⟩ := hcases
    refine ⟨xs, [], hrep, by simp, h.store, fun a ha => ?_⟩
    change a < store.heap.top
    rw [htop]
    exact h.old a ha

/-- **Every reachable state** satisfies the invariant. -/
theorem serving_inv {acts : List (Act W D R)} (h : serving acts = some s) :
    ∃ xs ys, ServingInv s xs ys :=
  Run.induction (P := fun _ s => ∃ xs ys, ServingInv s xs ys) ⟨[], [], ServingInv.init⟩
    (fun _ _ _ _ ⟨_, _, hinv⟩ hs => hinv.step hs) h

/-! ### Entries that stay allocated -/

/-- A step keeps what the workers hold allocated, unless it is `obj_gc` and one of
them holds a removed entry. -/
theorem ServingInv.noneFreed (h : ServingInv s xs ys) (hs : serve s act = some s')
    (hfree : s.NoneFreed) (hgc : act = .gc → ¬ s.HoldsRemoved) : s'.NoneFreed := by
  have hcases := serve_cases h.rep hs
  cases act with
  | get w key =>
    obtain ⟨-, rfl⟩ := hcases
    intro v a ha
    rcases eq_or_ne v w with rfl | hne
    · -- the entry just found is in the store
      have hfound : (xs.find? (hasKey key)).map Prod.fst = some a := by
        simpa using ha
      obtain ⟨x, hx, rfl⟩ := Option.map_eq_some_iff.mp hfound
      exact h.rep.root.cells_ne_none (List.mem_map_of_mem (List.mem_of_find?_eq_some hx))
    · exact hfree v a (by simpa [hne] using ha)
  -- the worker has given up what it held
  | sent w =>
    obtain rfl : s' = _ := hcases
    intro v a ha
    rcases eq_or_ne v w with rfl | hne
    · simp at ha
    · exact hfree v a (by simpa [hne] using ha)
  -- a removed entry is still allocated
  | remove key =>
    obtain ⟨store, hrep, -, rfl⟩ := hcases
    intro v a ha
    refine hrep.cells_ne_none_iff.mpr ?_
    rw [addrs, addrs, List.map_append, List.mem_append]
    rcases h.rep.cells_ne_none_iff.mp (hfree v a ha) with hx | hy
    · exact (mem_addrs_eraseP key hx).imp id .inl
    · exact .inr (.inr hy)
  | add key sWhat data len =>
    obtain rfl : s' = _ := hcases
    intro v a ha
    have hrep := h.rep.obj_add key sWhat data len
    refine hrep.cells_ne_none_iff.mpr ?_
    exact (h.rep.cells_ne_none_iff.mp (hfree v a ha)).imp (List.mem_cons_of_mem _) id
  -- a collection frees the pool, in which no worker holds anything
  | gc =>
    obtain ⟨store, hrep, -, rfl⟩ := hcases
    intro v a ha
    rcases h.rep.cells_ne_none_iff.mp (hfree v a ha) with hx | hy
    · exact hrep.root.cells_ne_none hx
    · exact absurd ⟨v, a, ha, h.pool a hy⟩ (hgc rfl)

/-- `obj_gc` frees a removed entry that some worker holds. -/
theorem ServingInv.freed_of_holdsRemoved (h : ServingInv s xs ys) (hs : serve s .gc = some s')
    (hheld : s.HoldsRemoved) : ¬ s'.NoneFreed := by
  obtain ⟨store, hrep, -, rfl⟩ := serve_cases h.rep hs
  obtain ⟨w, a, ha, hrem⟩ := hheld
  intro hfree
  -- only the store is left, and the entry is not in it
  rcases hrep.cells_ne_none_iff.mp (hfree w a ha) with hx | hy
  · exact h.store a hx hrem
  · cases hy

/-- **Entries being sent.** Along a run no entry that a worker holds is ever freed
exactly if, whenever `obj_gc` is called, no worker holds an entry that has been
removed. -/
theorem served_entries_allocated_iff (acts : List (Act W D R)) :
    (∀ p, p <+: acts → ∀ s, serving p = some s → s.NoneFreed) ↔
      ∀ p s, p ++ [.gc] <+: acts → serving p = some s → ¬ s.HoldsRemoved := by
  constructor
  · intro h p s hp hs hheld
    obtain ⟨xs, ys, hinv⟩ := serving_inv hs
    obtain ⟨store, hgc, -⟩ := hinv.rep.obj_gc
    have hstep : serve s (.gc : Act W D R) = some { s with store := store } := by
      simp [serve, hgc]
    refine hinv.freed_of_holdsRemoved hstep hheld (h _ hp _ ?_)
    exact Run.run_snoc_eq_some.mpr ⟨s, hs, hstep⟩
  · intro h p hp
    induction p using List.reverseRecOn with
    | nil =>
      intro s hs w a ha
      obtain rfl : Serving.init = s := Option.some.inj hs
      cases ha
    | append_singleton p act ih =>
      intro s hs
      obtain ⟨s₁, hs₁, hstep⟩ := Run.run_snoc_eq_some.mp hs
      obtain ⟨xs, ys, hinv⟩ := serving_inv hs₁
      have hpre : p <+: acts := (List.prefix_append p [act]).trans hp
      refine hinv.noneFreed hstep (ih hpre s₁ hs₁) ?_
      rintro rfl
      exact h p s₁ hp hs₁

/-- One worker looks an entry up, a client removes it, and R calls `o.clean`. -/
def getRemoveClean : List (Act Unit ℕ Unit) :=
  [.add CString.empty none 1 1, .get () CString.empty, .remove CString.empty, .gc]

/-- The worker is left with a freed entry. -/
theorem held_entry_freed : ¬ ∀ p, p <+: getRemoveClean → ∀ s, serving p = some s →
    s.NoneFreed := by
  intro h
  have hrun : ∃ s, serving getRemoveClean = some s ∧ s.held () = some 0 ∧
      s.store.heap.cells 0 = none := ⟨_, rfl, rfl, rfl⟩
  obtain ⟨s, hs, hheld, hcell⟩ := hrun
  exact h _ (List.prefix_refl _) s hs () 0 hheld hcell

end Obj
end Osrv
