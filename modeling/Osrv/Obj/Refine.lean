import Osrv.Obj.Store
import Osrv.Lib.Run

/-!
# The store as a key/value map

A key/value map holds one value for a key: adding replaces it and removing takes
it away. `obj.c` keeps a list instead. Adding puts an entry in front of all
others, also of one with the same key, and removing takes out the first entry
with the key only, so an entry that was added over becomes visible again.

`run_entries` connects the heap to the list of entries, for any sequence of
calls. On lists, the question whether the map is refined comes down to how many
entries of a key there are when it is removed (`refines_map_iff`).
-/

namespace Osrv
namespace Obj

open Bytes Heap

variable {D R : Type*}

/-! ### Histories -/

/-- The calls of `obj.c`. -/
inductive Op (D R : Type*)
  | add (key : CString) (sWhat : Option R) (data : D) (len : ℕ)
  | get (key : CString) (rm : Bool)
  | gc

/-- Performs a call. -/
def step (s : Store D R) : Op D R → Option (Store D R)
  | .add key sWhat data len => some (obj_add key sWhat data len s)
  | .get key rm => (obj_get key rm s).map Prod.snd
  | .gc => obj_gc s

/-- The store after a history. -/
def run (ops : List (Op D R)) : Option (Store D R) := Run.run step .init ops

/-- What a lookup finds: the entry `obj_get` returns a pointer to. -/
def lookup (key : CString) (s : Store D R) : Option (Option (Entry D R)) := do
  let (e, s) ← obj_get key false s
  pure (e.bind fun a => (s.heap.load a).map Cell.val)

/-! ### The map -/

/-- What the store is for: a value for each key that has one. -/
abbrev Map (D R : Type*) : Type _ := CString → Option (Entry D R)

/-- The effect of a call on the map. -/
def Map.apply (m : Map D R) : Op D R → Map D R
  | .add key sWhat data len => Function.update m key (some ⟨len, data, sWhat, key⟩)
  | .get key true => Function.update m key none
  | .get _ false => m
  | .gc => m

/-- The map after a history: the value added last, unless a removal came later. -/
def content (ops : List (Op D R)) : Map D R := ops.foldl Map.apply fun _ => none

theorem content_snoc (ops : List (Op D R)) (op : Op D R) :
    content (ops ++ [op]) = (content ops).apply op := by
  simp [content]

/-- The number of entries of a key: each call of `obj_add` makes one, each removal
takes one, if there is one. -/
def Op.count (key : CString) (n : ℕ) : Op D R → ℕ
  | .add k _ _ _ => if k = key then n + 1 else n
  | .get k true => if k = key then n - 1 else n
  | .get _ false => n
  | .gc => n

def live (key : CString) (ops : List (Op D R)) : ℕ := ops.foldl (Op.count key) 0

theorem live_snoc (key : CString) (ops : List (Op D R)) (op : Op D R) :
    live key (ops ++ [op]) = op.count key (live key ops) := by
  simp [live]

/-! ### The list -/

/-- The effect of a call on the list of entries. -/
def listStep (es : List (Entry D R)) : Op D R → List (Entry D R)
  | .add key sWhat data len => ⟨len, data, sWhat, key⟩ :: es
  | .get key true => es.eraseP fun e => e.key = key
  | .get _ false => es
  | .gc => es

/-- The list of entries after a history. -/
def entries (ops : List (Op D R)) : List (Entry D R) := ops.foldl listStep []

theorem entries_snoc (ops : List (Op D R)) (op : Op D R) :
    entries (ops ++ [op]) = listStep (entries ops) op := by
  simp [entries]

/-- The entries of one key, the visible one first. -/
def ofKey (key : CString) (es : List (Entry D R)) : List (Entry D R) :=
  es.filter fun e => e.key = key

theorem ofKey_eraseP_self (key : CString) (es : List (Entry D R)) :
    ofKey key (es.eraseP fun e => e.key = key) = (ofKey key es).tail := by
  induction es with
  | nil => rfl
  | cons e es ih =>
    by_cases h : e.key = key
    · simp [ofKey, h]
    · simpa [ofKey, h] using ih

theorem ofKey_eraseP_of_ne {key k : CString} (hne : k ≠ key) (es : List (Entry D R)) :
    ofKey k (es.eraseP fun e => e.key = key) = ofKey k es := by
  induction es with
  | nil => rfl
  | cons e es ih =>
    by_cases h : e.key = key
    · simp [ofKey, h, Ne.symm hne]
    · by_cases hk : e.key = k
      · simpa [ofKey, h, hk, hne] using ih
      · simpa [ofKey, h, hk] using ih

/-- The number of entries of a key. -/
theorem length_ofKey_entries (key : CString) (ops : List (Op D R)) :
    (ofKey key (entries ops)).length = live key ops := by
  induction ops using List.reverseRecOn with
  | nil => rfl
  | append_singleton ops op ih =>
    rw [entries_snoc, live_snoc, ← ih]
    cases op with
    | add k sWhat data len =>
      by_cases h : k = key <;> simp [listStep, ofKey, Op.count, h]
    | get k rm =>
      cases rm with
      | false => rfl
      | true =>
        by_cases h : k = key
        · subst h
          simp [listStep, Op.count, ofKey_eraseP_self]
        · simp [listStep, Op.count, h, ofKey_eraseP_of_ne (Ne.symm h)]
    | gc => rfl

/-! ### The heap refines the list -/

theorem map_eraseP_hasKey (key : CString) (xs : Entries D R) :
    (xs.eraseP (hasKey key)).map Prod.snd = (xs.map Prod.snd).eraseP fun e => e.key = key := by
  induction xs with
  | nil => rfl
  | cons x xs ih =>
    by_cases h : x.2.key = key
    · simp [hasKey, h]
    · simpa [hasKey, h] using ih

/-- The heap of `s` represents the list of entries after a history. -/
def Holds (ops : List (Op D R)) (s : Store D R) : Prop :=
  ∃ xs ys, Rep s xs ys ∧ xs.map Prod.snd = entries ops

theorem Holds.init : Holds [] (Store.init : Store D R) := ⟨[], [], Rep.init, rfl⟩

section Holds

variable {ops : List (Op D R)} {s : Store D R}

theorem Holds.obj_add (h : Holds ops s) (key : CString) (sWhat : Option R) (data : D) (len : ℕ) :
    Holds (ops ++ [.add key sWhat data len]) (obj_add key sWhat data len s) := by
  obtain ⟨xs, ys, hrep, hxs⟩ := h
  refine ⟨_, ys, hrep.obj_add key sWhat data len, ?_⟩
  rw [entries_snoc, ← hxs]
  rfl

/-- `obj_get` finds an entry if there is one. -/
theorem Holds.obj_get (h : Holds ops s) (key : CString) (rm : Bool) :
    ∃ e s', obj_get key rm s = some (e, s') ∧ e.isSome = decide (0 < live key ops) ∧
      Holds (ops ++ [.get key rm]) s' ∧ (rm = false → s' = s) := by
  obtain ⟨xs, ys, hrep, hxs⟩ := h
  have hfound : ((xs.find? (hasKey key)).map Prod.fst).isSome = decide (0 < live key ops) := by
    rw [Option.isSome_map, Bool.eq_iff_iff, decide_eq_true_iff, ← length_ofKey_entries, ← hxs,
      List.length_pos_iff_exists_mem, List.find?_isSome]
    constructor
    · rintro ⟨x, hx, hk⟩
      exact ⟨x.2, List.mem_filter.mpr ⟨List.mem_map_of_mem hx, hk⟩⟩
    · rintro ⟨e, he⟩
      obtain ⟨hmem, hk⟩ := List.mem_filter.mp he
      obtain ⟨x, hx, rfl⟩ := List.mem_map.mp hmem
      exact ⟨x, hx, hk⟩
  cases rm with
  | false =>
    refine ⟨_, s, hrep.obj_get_find key, hfound, ⟨xs, ys, hrep, ?_⟩, fun _ => rfl⟩
    rw [entries_snoc, ← hxs]
    rfl
  | true =>
    obtain ⟨s', hget, hrep', -⟩ := hrep.obj_get_remove key
    refine ⟨_, s', hget, hfound, ⟨_, _, hrep', ?_⟩, fun h => by cases h⟩
    rw [entries_snoc, ← hxs]
    exact map_eraseP_hasKey key xs

theorem Holds.obj_gc (h : Holds ops s) : ∃ s', obj_gc s = some s' ∧ Holds (ops ++ [.gc]) s' := by
  obtain ⟨xs, ys, hrep, hxs⟩ := h
  obtain ⟨s', hgc, hrep', -⟩ := hrep.obj_gc
  refine ⟨s', hgc, xs, [], hrep', ?_⟩
  rw [entries_snoc, ← hxs]
  rfl

end Holds

/-- **The heap after a history** represents the list of entries. -/
theorem run_entries (ops : List (Op D R)) : ∃ s, run ops = some s ∧ Holds ops s := by
  refine Run.total Holds.init ?_ ops
  intro ops s op h
  cases op with
  | add key sWhat data len => exact ⟨_, rfl, h.obj_add key sWhat data len⟩
  | get key rm =>
    obtain ⟨e, s', hget, -, h', -⟩ := h.obj_get key rm
    exact ⟨s', by rw [step, hget]; rfl, h'⟩
  | gc => exact h.obj_gc

/-- A lookup finds the first entry of the list with the key. -/
theorem lookup_of_rep {s : Store D R} {xs ys : Entries D R} (h : Rep s xs ys) (key : CString) :
    lookup key s = some (ofKey key (xs.map Prod.snd)).head? := by
  have hfind : (ofKey key (xs.map Prod.snd)).head? = (xs.find? (hasKey key)).map Prod.snd := by
    rw [ofKey, List.head?_filter, List.find?_map]
    rfl
  rw [lookup, h.obj_get_find, hfind]
  cases hx : xs.find? (hasKey key) with
  | none => rfl
  | some x =>
    obtain ⟨next, hc⟩ := h.root.cells_of_mem (List.mem_of_find?_eq_some hx)
    have hload : s.heap.load x.1 = some ⟨x.2, next⟩ := hc
    simp [hload]

/-- **Lookups after a history.** No call goes wrong, and a lookup finds the first
of the entries of its key. -/
theorem run_lookup (ops : List (Op D R)) (key : CString) :
    (run ops).bind (lookup key) = some (ofKey key (entries ops)).head? := by
  obtain ⟨s, hrun, xs, ys, hrep, hxs⟩ := run_entries ops
  rw [hrun, Option.bind_some, lookup_of_rep hrep, hxs]

/-! ### The list refines the map -/

/-- The effect of one call on what is visible: the list follows the map unless a
key is removed that has several entries. -/
theorem head_listStep {m : Map D R} {es : List (Entry D R)} {op : Op D R}
    (h : ∀ k, (ofKey k es).head? = m k)
    (hop : ∀ k, op = .get k true → (ofKey k es).length ≤ 1) (k : CString) :
    (ofKey k (listStep es op)).head? = m.apply op k := by
  cases op with
  | add key sWhat data len =>
    by_cases hk : key = k
    · simp [listStep, ofKey, Map.apply, hk]
    · have := h k
      simpa [listStep, ofKey, Map.apply, hk, Function.update_of_ne (Ne.symm hk)] using this
  | get key rm =>
    cases rm with
    | false => exact h k
    | true =>
      by_cases hk : k = key
      · subst hk
        have hlen := hop k rfl
        rw [listStep, ofKey_eraseP_self, Map.apply, Function.update_self, List.head?_eq_none_iff,
          ← List.length_eq_zero_iff, List.length_tail]
        omega
      · rw [listStep, ofKey_eraseP_of_ne hk, Map.apply, Function.update_of_ne hk]
        exact h k
  | gc => exact h k

/-- **The store refines a key/value map** along a history exactly if no key is
ever removed while it has more than one entry. -/
theorem refines_map_iff (ops : List (Op D R)) :
    (∀ p, p <+: ops → ∀ k, (run p).bind (lookup k) = some (content p k)) ↔
      ∀ p k, p ++ [.get k true] <+: ops → live k p ≤ 1 := by
  simp only [run_lookup, Option.some.injEq, ← length_ofKey_entries]
  constructor
  · intro h p k hp
    -- after the removal the map has no value, so the list may not have one left
    have hafter := h _ hp k
    rw [entries_snoc, content_snoc, listStep, ofKey_eraseP_self, Map.apply, Function.update_self,
      List.head?_eq_none_iff, ← List.length_eq_zero_iff, List.length_tail] at hafter
    omega
  · intro h p hp
    induction p using List.reverseRecOn with
    | nil =>
      intro k
      rfl
    | append_singleton p op ih =>
      have hpre : p <+: ops := (List.prefix_append p [op]).trans hp
      intro k
      rw [entries_snoc, content_snoc]
      refine head_listStep (ih hpre) ?_ k
      rintro k rfl
      exact h p k hp

/-- A key that was added twice and removed once. -/
def readded (key : CString) : List (Op ℕ Unit) :=
  [.add key none 1 1, .add key none 2 1, .get key true]

/-- After its removal the key is found again, with the value added first. -/
theorem removed_key_found_again : ¬ ∀ k,
    (run (readded CString.empty)).bind (lookup k) = some (content (readded CString.empty) k) := by
  intro h
  have hfound := h CString.empty
  rw [run_lookup] at hfound
  simp [readded, entries, listStep, ofKey, content, Map.apply] at hfound

end Obj
end Osrv
