import Mathlib.Data.List.Basic
import Mathlib.Data.List.Nodup
import Mathlib.Data.List.Range
import Mathlib.Data.Finset.Card

/-!
# Singly linked lists in a heap

A `Heap α` holds cells, each with a value and a link to the next cell. Addresses
are handed out in order and never used twice, so that a link to a freed cell
stays recognisable: reading, writing or freeing it gives `none`.

`Seg h p xs q` says that following the links from `p` leads through the cells
listed in `xs` and arrives at `q`; a list is a segment that arrives at the null
link. A segment depends only on its own cells (`Seg.congr`). What pointer code
does to lists comes down to three steps: giving the last cell of a segment
another link (`Seg.set_last`), and with it taking a cell out (`Seg.unlink`) or
putting one behind the last (`Seg.snoc`).
-/

namespace Heap

/-- The address of a cell. -/
abbrev Addr : Type := ℕ

/-- A link: an address or null. -/
abbrev Ptr : Type := Option Addr

/-- A list cell. -/
structure Cell (α : Type*) where
  val : α
  next : Ptr

end Heap

open Heap in
/-- A heap of list cells. Addresses from `top` on have not been handed out. -/
structure Heap (α : Type*) where
  cells : Addr → Option (Cell α)
  top : Addr
  fresh : ∀ a, top ≤ a → cells a = none

namespace Heap

variable {α : Type*}

/-! ### Operations -/

/-- The heap before the first allocation. -/
def empty : Heap α := ⟨fun _ => none, 0, fun _ _ => rfl⟩

/-- Reads a cell. -/
def load (h : Heap α) (a : Addr) : Option (Cell α) := h.cells a

/-- Puts `c` into a new cell. -/
def alloc (h : Heap α) (c : Cell α) : Addr × Heap α :=
  (h.top, ⟨Function.update h.cells h.top (some c), h.top + 1, fun a ha => by
    rw [Function.update_of_ne (Nat.lt_of_succ_le ha).ne', h.fresh a (Nat.le_of_succ_le ha)]⟩)

/-- Overwrites a cell that is allocated. -/
def write (h : Heap α) (a : Addr) (c : Cell α) : Option (Heap α) :=
  if ha : h.cells a ≠ none then
    some ⟨Function.update h.cells a (some c), h.top, fun b hb => by
      rw [Function.update_of_ne, h.fresh b hb]
      intro hba
      exact ha (hba ▸ h.fresh b hb)⟩
  else none

/-- Gives an allocated cell another link. -/
def setNext (h : Heap α) (a : Addr) (next : Ptr) : Option (Heap α) := do
  let c ← h.load a
  h.write a { c with next := next }

/-- Frees an allocated cell. -/
def free (h : Heap α) (a : Addr) : Option (Heap α) :=
  if h.cells a ≠ none then
    some ⟨Function.update h.cells a none, h.top, fun b hb => by
      by_cases hba : b = a
      · rw [hba, Function.update_self]
      · rw [Function.update_of_ne hba, h.fresh b hb]⟩
  else none

theorem lt_top_of_cells {h : Heap α} {a : Addr} {c : Cell α} (hc : h.cells a = some c) :
    a < h.top := by
  by_contra hlt
  rw [h.fresh a (Nat.le_of_not_lt hlt)] at hc
  cases hc

@[simp] theorem load_alloc_self (h : Heap α) (c : Cell α) : (h.alloc c).2.load h.top = some c :=
  Function.update_self ..

theorem cells_alloc {h : Heap α} (c : Cell α) {a : Addr} (ha : a ≠ h.top) :
    (h.alloc c).2.cells a = h.cells a :=
  Function.update_of_ne ha ..

theorem cells_update {h h' : Heap α} {a b : Addr} {o : Option (Cell α)}
    (hcells : h'.cells = Function.update h.cells a o) (hne : b ≠ a) :
    h'.cells b = h.cells b := by
  rw [hcells, Function.update_of_ne hne]

/-- What writing to an allocated cell does. -/
theorem write_eq {h : Heap α} {a : Addr} {c₀ : Cell α} (hc : h.cells a = some c₀) (c : Cell α) :
    ∃ h', h.write a c = some h' ∧ h'.cells = Function.update h.cells a (some c) ∧
      h'.top = h.top := by
  have hne : h.cells a ≠ none := by simp [hc]
  exact ⟨_, dif_pos hne, rfl, rfl⟩

/-- What relinking an allocated cell does. -/
theorem setNext_eq {h : Heap α} {a : Addr} {c : Cell α} (hc : h.cells a = some c) (next : Ptr) :
    ∃ h', h.setNext a next = some h' ∧
      h'.cells = Function.update h.cells a (some ⟨c.val, next⟩) ∧ h'.top = h.top := by
  obtain ⟨h', hw, hcells, htop⟩ := write_eq hc ⟨c.val, next⟩
  refine ⟨h', ?_, hcells, htop⟩
  rw [setNext, load, hc]
  exact hw

/-- A link that leads nowhere cannot be written through. -/
theorem setNext_eq_none {h : Heap α} {a : Addr} (hc : h.cells a = none) (next : Ptr) :
    h.setNext a next = none := by
  rw [setNext, load, hc]
  rfl

/-- What freeing an allocated cell does. -/
theorem free_eq {h : Heap α} {a : Addr} {c : Cell α} (hc : h.cells a = some c) :
    ∃ h', h.free a = some h' ∧ h'.cells = Function.update h.cells a none ∧ h'.top = h.top := by
  have hne : h.cells a ≠ none := by simp [hc]
  exact ⟨_, if_pos hne, rfl, rfl⟩

/-! ### List segments -/

/-- From `p`, the links lead through the cells of `xs`, given by address and
value, and then to `q`. -/
def Seg (h : Heap α) : Ptr → List (Addr × α) → Ptr → Prop
  | p, [], q => p = q
  | p, x :: xs, q => p = some x.1 ∧ ∃ next, h.cells x.1 = some ⟨x.2, next⟩ ∧ Seg h next xs q

/-- The addresses of a list of cells. -/
abbrev addrs (xs : List (Addr × α)) : List Addr := xs.map Prod.fst

namespace Seg

variable {h h' : Heap α} {p q : Ptr} {xs ys : List (Addr × α)}

@[simp] theorem nil_iff : Seg h p [] q ↔ p = q := Iff.rfl

theorem cons_iff {x : Addr × α} : Seg h p (x :: xs) q ↔
    p = some x.1 ∧ ∃ next, h.cells x.1 = some ⟨x.2, next⟩ ∧ Seg h next xs q := Iff.rfl

theorem append_iff : Seg h p (xs ++ ys) q ↔ ∃ r, Seg h p xs r ∧ Seg h r ys q := by
  induction xs generalizing p with
  | nil =>
    constructor
    · intro hseg
      exact ⟨p, rfl, hseg⟩
    · rintro ⟨r, rfl, hseg⟩
      exact hseg
  | cons x xs ih =>
    simp only [List.cons_append, cons_iff, ih]
    constructor
    · rintro ⟨hp, next, hc, r, hxs, hys⟩
      exact ⟨r, ⟨hp, next, hc, hxs⟩, hys⟩
    · rintro ⟨r, ⟨hp, next, hc, hxs⟩, hys⟩
      exact ⟨hp, next, hc, r, hxs, hys⟩

/-- **Frame rule.** A segment depends only on its own cells. -/
theorem congr (hseg : Seg h p xs q) (hcells : ∀ a ∈ addrs xs, h'.cells a = h.cells a) :
    Seg h' p xs q := by
  induction xs generalizing p with
  | nil => exact hseg
  | cons x xs ih =>
    obtain ⟨hp, next, hc, hrest⟩ := hseg
    refine ⟨hp, next, ?_, ih hrest fun a ha => hcells a (List.mem_cons_of_mem _ ha)⟩
    rw [hcells x.1 (List.mem_cons_self ..), hc]

theorem cells_of_mem (hseg : Seg h p xs q) {x : Addr × α} (hx : x ∈ xs) :
    ∃ next, h.cells x.1 = some ⟨x.2, next⟩ := by
  induction xs generalizing p with
  | nil => cases hx
  | cons y ys ih =>
    obtain ⟨-, next, hc, hrest⟩ := hseg
    rcases List.mem_cons.mp hx with rfl | hx
    · exact ⟨next, hc⟩
    · exact ih hrest hx

theorem cells_ne_none (hseg : Seg h p xs q) {a : Addr} (ha : a ∈ addrs xs) :
    h.cells a ≠ none := by
  obtain ⟨x, hx, rfl⟩ := List.mem_map.mp ha
  obtain ⟨next, hc⟩ := hseg.cells_of_mem hx
  simp [hc]

theorem lt_top (hseg : Seg h p xs q) {a : Addr} (ha : a ∈ addrs xs) : a < h.top := by
  obtain ⟨x, hx, rfl⟩ := List.mem_map.mp ha
  obtain ⟨next, hc⟩ := hseg.cells_of_mem hx
  exact lt_top_of_cells hc

/-- Only one list is led through. -/
theorem eq_of_none (hxs : Seg h p xs none) (hys : Seg h p ys none) : xs = ys := by
  induction xs generalizing p ys with
  | nil =>
    obtain rfl : p = none := hxs
    cases ys with
    | nil => rfl
    | cons y ys => cases hys.1
  | cons x xs ih =>
    obtain ⟨hp, next, hc, hrest⟩ := hxs
    cases ys with
    | nil =>
      obtain rfl : p = none := hys
      cases hp
    | cons y ys =>
      obtain ⟨hp', next', hc', hrest'⟩ := hys
      have haddr : x.1 = y.1 := Option.some.inj (hp.symm.trans hp')
      rw [← haddr, hc, Option.some.injEq, Cell.mk.injEq] at hc'
      obtain ⟨hval, rfl⟩ := hc'
      rw [ih hrest hrest', Prod.ext haddr hval]

/-- A segment without repetition is no longer than the heap. -/
theorem length_le (hseg : Seg h p xs q) (hnd : (addrs xs).Nodup) : xs.length ≤ h.top := by
  have hsub : addrs xs ⊆ List.range h.top := fun a ha => List.mem_range.mpr (hseg.lt_top ha)
  have hle := (hnd.subperm hsub).length_le
  simpa using hle

/-- A new cell changes no segment. -/
theorem alloc (hseg : Seg h p xs q) (c : Cell α) : Seg (h.alloc c).2 p xs q :=
  hseg.congr fun _ ha => cells_alloc c (Nat.ne_of_lt (hseg.lt_top ha))

/-- A change outside a segment. -/
theorem update {a : Addr} {o : Option (Cell α)} (hseg : Seg h p xs q)
    (hcells : h'.cells = Function.update h.cells a o) (ha : a ∉ addrs xs) : Seg h' p xs q :=
  hseg.congr fun _ hb => cells_update hcells fun hba => ha (hba ▸ hb)

/-- **Relinking the last cell** of a segment makes it arrive elsewhere. -/
theorem set_last {x : Addr × α} {r : Ptr} (hseg : Seg h p (xs ++ [x]) q)
    (hnd : (addrs (xs ++ [x])).Nodup)
    (hcells : h'.cells = Function.update h.cells x.1 (some ⟨x.2, r⟩)) :
    Seg h' p (xs ++ [x]) r := by
  obtain ⟨s, hxs, hx⟩ := append_iff.mp hseg
  obtain ⟨hs, -, -, -⟩ := hx
  have hnot : x.1 ∉ addrs xs := by
    rw [addrs, List.map_append, List.nodup_append] at hnd
    intro hmem
    exact hnd.2.2 _ hmem _ (by simp) rfl
  refine append_iff.mpr ⟨s, hxs.update hcells hnot, hs, r, ?_, rfl⟩
  rw [hcells, Function.update_self]

/-- **Overwriting the value** of one cell. -/
theorem set_val {x : Addr × α} {v : α} {next : Ptr} (hseg : Seg h p (xs ++ x :: ys) q)
    (hnd : (addrs (xs ++ x :: ys)).Nodup) (hx : h.cells x.1 = some ⟨x.2, next⟩)
    (hcells : h'.cells = Function.update h.cells x.1 (some ⟨v, next⟩)) :
    Seg h' p (xs ++ (x.1, v) :: ys) q := by
  obtain ⟨s, hpre, hs, next', hc, hpost⟩ := append_iff.mp hseg
  obtain rfl : next' = next := by
    rw [hx] at hc
    simpa using hc.symm
  rw [addrs, List.map_append, List.map_cons, List.nodup_middle, List.nodup_cons,
    List.mem_append] at hnd
  refine append_iff.mpr ⟨s, hpre.update hcells fun hm => hnd.1 (.inl hm), hs, next', ?_,
    hpost.update hcells fun hm => hnd.1 (.inr hm)⟩
  rw [hcells, Function.update_self]

/-- The value of a cell wherever it lies; the addresses stay. -/
theorem overwrite {a : Addr} {v v' : α} {next : Ptr} (hseg : Seg h p xs q)
    (ha : h.cells a = some ⟨v, next⟩)
    (hcells : h'.cells = Function.update h.cells a (some ⟨v', next⟩)) :
    Seg h' p (xs.map fun x => if x.1 = a then (x.1, v') else x) q := by
  induction xs generalizing p with
  | nil => exact hseg
  | cons x xs ih =>
    obtain ⟨hp, next', hc, hrest⟩ := hseg
    rw [List.map_cons]
    by_cases hx : x.1 = a
    · obtain rfl : next' = next := by
        rw [hx, ha] at hc
        exact (Cell.mk.inj (Option.some.inj hc)).2.symm
      rw [if_pos hx]
      refine ⟨hp, next', ?_, ih hrest⟩
      rw [hcells, hx, Function.update_self]
    · rw [if_neg hx]
      refine ⟨hp, next', ?_, ih hrest⟩
      rw [cells_update hcells hx, hc]

/-- **Taking out a cell** through its predecessor. -/
theorem unlink {x y : Addr × α} {next : Ptr} (hseg : Seg h p (xs ++ [x] ++ y :: ys) none)
    (hnd : (addrs (xs ++ [x] ++ y :: ys)).Nodup) (hy : h.cells y.1 = some ⟨y.2, next⟩)
    (hcells : h'.cells = Function.update h.cells x.1 (some ⟨x.2, next⟩)) :
    Seg h' p (xs ++ [x] ++ ys) none := by
  obtain ⟨s, hpre, hs, next', hc, hpost⟩ := append_iff.mp hseg
  obtain rfl : next' = next := by
    rw [hy] at hc
    simpa using hc.symm
  rw [addrs, List.map_append, List.nodup_append] at hnd
  have hnot : x.1 ∉ addrs ys := by
    intro hmem
    exact hnd.2.2 x.1 (by simp) x.1 (List.mem_cons_of_mem _ hmem) rfl
  exact append_iff.mpr ⟨_, hpre.set_last hnd.1 hcells, hpost.update hcells hnot⟩

/-- **Putting a cell behind the last.** -/
theorem snoc {x y : Addr × α} (hseg : Seg h p (xs ++ [x]) q)
    (hnd : (addrs (xs ++ [x])).Nodup) (hy : h.cells y.1 = some ⟨y.2, none⟩)
    (hxy : y.1 ∉ addrs (xs ++ [x]))
    (hcells : h'.cells = Function.update h.cells x.1 (some ⟨x.2, some y.1⟩)) :
    Seg h' p (xs ++ [x] ++ [y]) none := by
  refine append_iff.mpr ⟨_, hseg.set_last hnd hcells, rfl, none, ?_, rfl⟩
  rw [hcells, Function.update_of_ne, hy]
  intro h
  exact hxy (by simp [h])

end Seg
end Heap
