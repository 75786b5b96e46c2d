import Osrv.Obj.Store

/-!
# Entries by address

What the functions of `obj.c` do to the entries, wherever these are. Adding makes an entry
at a new address. Removing moves one from the store to the pool, which changes links only,
and collecting takes away what is in the pool.
-/

namespace Osrv
namespace Obj

open Bytes Heap

variable {D R : Type*} {s s' : Store D R} {xs xs' ys ys' : Entries D R}

/-- The entry at an address. -/
def Store.entryAt (s : Store D R) (a : Addr) : Option (Entry D R) :=
  (s.heap.cells a).map Cell.val

/-- The entries are those in the store and those in the pool. -/
theorem Rep.entryAt_eq_some_iff (h : Rep s xs ys) {a : Addr} {e : Entry D R} :
    s.entryAt a = some e ↔ (a, e) ∈ xs ++ ys := by
  have hmem : ∀ x ∈ xs ++ ys, s.entryAt x.1 = some x.2 := by
    intro x hx
    rcases List.mem_append.mp hx with hx | hx
    · obtain ⟨next, hc⟩ := h.root.cells_of_mem hx
      rw [Store.entryAt, hc]
      rfl
    · obtain ⟨next, hc⟩ := h.pool.cells_of_mem hx
      rw [Store.entryAt, hc]
      rfl
  constructor
  · intro ha
    obtain ⟨c, hc, -⟩ := Option.map_eq_some_iff.mp ha
    obtain ⟨x, hx, rfl⟩ := List.mem_map.mp (h.all a (by simp [hc]))
    obtain rfl := Option.some.inj ((hmem x hx).symm.trans ha)
    exact hx
  · intro hx
    exact hmem (a, e) hx

/-- Moving entries about leaves them as they are. -/
theorem Rep.entryAt_eq_of_perm (h : Rep s xs ys) (h' : Rep s' xs' ys')
    (hp : (xs' ++ ys').Perm (xs ++ ys)) : s'.entryAt = s.entryAt := by
  funext a
  refine Option.ext fun e => ?_
  rw [h'.entryAt_eq_some_iff, h.entryAt_eq_some_iff]
  exact hp.mem_iff

/-- **Adding** makes one entry. -/
theorem entryAt_obj_add (key : CString) (sWhat : Option R) (data : D) (len : ℕ) (s : Store D R) :
    (obj_add key sWhat data len s).entryAt
      = Function.update s.entryAt s.heap.top (some ⟨len, data, sWhat, key⟩) := by
  funext a
  by_cases ha : a = s.heap.top
  · subst ha
    rw [Function.update_self]
    show (Function.update s.heap.cells s.heap.top _ s.heap.top).map Cell.val = _
    rw [Function.update_self]
    rfl
  · rw [Function.update_of_ne ha]
    show (Function.update s.heap.cells s.heap.top _ a).map Cell.val = _
    rw [Function.update_of_ne ha]
    rfl

/-- There is nothing at an address that has not been handed out. -/
theorem entryAt_top (s : Store D R) : s.entryAt s.heap.top = none := by
  rw [Store.entryAt, s.heap.fresh s.heap.top (le_refl _)]
  rfl

theorem find_append_eraseP_perm {α : Type*} (p : α → Bool) (l : List α) :
    ((l.find? p).toList ++ l.eraseP p).Perm l := by
  induction l with
  | nil => exact .refl _
  | cons x l ih =>
    cases hp : p x with
    | true =>
      rw [List.find?_cons_of_pos hp, List.eraseP_cons_of_pos hp]
      exact .refl _
    | false =>
      rw [List.find?_cons_of_neg (by simp [hp]), List.eraseP_cons_of_neg (by simp [hp])]
      exact List.perm_middle.trans (ih.cons x)

/-- **Removing** leaves every entry as it is. -/
theorem Rep.entryAt_remove (h : Rep s xs ys) {key : CString}
    (h' : Rep s' (xs.eraseP (hasKey key)) ((xs.find? (hasKey key)).toList ++ ys)) :
    s'.entryAt = s.entryAt := by
  refine h.entryAt_eq_of_perm h' ?_
  rw [← List.append_assoc]
  refine List.Perm.append_right ys ?_
  exact List.perm_append_comm.trans (find_append_eraseP_perm (hasKey key) xs)

/-- **Collecting** takes away the entries in the pool. -/
theorem Rep.entryAt_gc (h : Rep s xs ys) (h' : Rep s' xs []) (a : Addr) :
    s'.entryAt a = if a ∈ addrs ys then none else s.entryAt a := by
  refine Option.ext fun e => ?_
  rw [h'.entryAt_eq_some_iff, List.append_nil]
  by_cases ha : a ∈ addrs ys
  · rw [if_pos ha]
    refine ⟨fun hx => ?_, fun hx => by cases hx⟩
    exact absurd ha (h.disjoint (List.mem_map.mpr ⟨(a, e), hx, rfl⟩))
  · rw [if_neg ha, h.entryAt_eq_some_iff, List.mem_append]
    refine ⟨Or.inl, fun hx => hx.resolve_right fun hy => ?_⟩
    exact ha (List.mem_map.mpr ⟨(a, e), hy, rfl⟩)

end Obj
end Osrv
