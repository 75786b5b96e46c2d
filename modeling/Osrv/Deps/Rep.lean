import Osrv.Deps.Model

/-!
# The list of requests

`DepsRep s xs` says that the heap of `deps.c` holds the list `xs` of pending
requests. A sweep keeps those that still wait for some key and reports the others
(`DepsRep.deps_complete`).

`tail` is not part of the invariant. It leads to the request that was added last,
also after that request has been reported and freed. Appending behind it is fine
as long as it is the last node of the list (`DepsRep.deps_append`) and a write to
freed memory when it is not in the list any more (`DepsRep.deps_append_dangling`).
-/

namespace Osrv
namespace Deps

open Bytes Heap

/-! ### Lists of requests -/

/-- The addresses and contents of a list of requests. -/
abbrev Requests : Type := List (Addr × Depent)

/-- The requests after `key` has been marked in all of them. -/
def marked (key : Option CString) (xs : Requests) : Requests :=
  xs.map fun x => (x.1, x.2.mark key)

/-- Those that wait for some key. -/
def waiting (xs : Requests) : Requests := xs.filter fun x => !x.2.satisfied

/-- The messages for those that do not. -/
def resolved (xs : Requests) : List Resolved :=
  (xs.filter fun x => x.2.satisfied).map fun x => x.2.resolved

/-- `head` leads through the requests of a list, each of which has its own node. -/
structure Linked (s : State) (xs : Requests) : Prop where
  list : Seg s.heap s.head xs none
  nodup : (addrs xs).Nodup

/-- **The representation invariant**: `xs` are the pending requests. -/
structure DepsRep (s : State) (xs : Requests) : Prop where
  /-- `head` leads through them. -/
  list : Seg s.heap s.head xs none
  /-- No node occurs twice. -/
  nodup : (addrs xs).Nodup
  /-- Every allocated node is one of them. -/
  all : ∀ a, s.heap.cells a ≠ none → a ∈ addrs xs

theorem DepsRep.init : DepsRep State.init [] := ⟨rfl, List.nodup_nil, fun _ h => absurd rfl h⟩

theorem DepsRep.linked {s : State} {xs : Requests} (h : DepsRep s xs) : Linked s xs :=
  ⟨h.list, h.nodup⟩

section Spec

variable {s : State} {xs : Requests}

/-- The pointer to the last of a list of requests, as `prev` holds it. -/
def lastPtr (xs : Requests) : Ptr := xs.getLast?.map Prod.fst

@[simp] theorem lastPtr_nil : lastPtr [] = none := rfl

@[simp] theorem lastPtr_snoc (xs : Requests) (x : Addr × Depent) :
    lastPtr (xs ++ [x]) = some x.1 := by
  simp [lastPtr]

/-- Overwriting the value of a node. -/
theorem Linked.set_val {pre post : Requests} {x : Addr × Depent} {next : Ptr} {v : Depent}
    {heap : Heap Depent} (h : Linked s (pre ++ x :: post))
    (hx : s.heap.cells x.1 = some ⟨x.2, next⟩)
    (hcells : heap.cells = Function.update s.heap.cells x.1 (some ⟨v, next⟩)) :
    Linked { s with heap := heap } (pre ++ (x.1, v) :: post) where
  list := h.list.set_val h.nodup hx hcells
  nodup := by simpa using h.nodup

/-- Unlinking and freeing a node. Nothing changes but the node and its predecessor. -/
theorem Linked.remove {pre post : Requests} {x : Addr × Depent} {next : Ptr}
    (h : Linked s (pre ++ x :: post)) (hx : s.heap.cells x.1 = some ⟨x.2, next⟩) :
    ∃ heap₁ heap₂, relink (lastPtr pre) next s.heap = some heap₁ ∧ heap₁.free x.1 = some heap₂ ∧
      heap₂.top = s.heap.top ∧ Seg heap₂ next post none ∧ heap₂.cells x.1 = none ∧
      (∀ a, a ≠ x.1 → a ∉ addrs pre → heap₂.cells a = s.heap.cells a) ∧
      ∀ queue, Linked { s with
        heap := heap₂
        head := if s.head = some x.1 then next else s.head
        dep_queue := queue } (pre ++ post) := by
  have hnd := h.nodup
  rw [addrs, List.map_append, List.map_cons, List.nodup_middle, List.nodup_cons,
    ← List.map_append] at hnd
  rcases List.eq_nil_or_concat pre with rfl | ⟨pre, w, rfl⟩
  · -- the first node: `head` moves on
    obtain ⟨hhead, next', hc, hrest⟩ := h.list
    obtain rfl : next' = next := by simpa using hc.symm.trans hx
    obtain ⟨heap₂, hfree, hcells, htop⟩ := free_eq hx
    have hseg : Seg heap₂ next' post none := hrest.update hcells hnd.1
    refine ⟨s.heap, heap₂, rfl, hfree, htop, hseg, by rw [hcells, Function.update_self],
      fun a hne _ => cells_update hcells hne, fun queue => ⟨?_, hnd.2⟩⟩
    rw [if_pos hhead]
    exact hseg
  · -- a later one: its predecessor is relinked, and `head` stays
    rw [List.concat_eq_append] at h hnd ⊢
    obtain ⟨r, hw⟩ := h.list.cells_of_mem (x := w) (by simp)
    obtain ⟨heap₁, hset, hcells₁, htop₁⟩ := setNext_eq hw next
    -- the predecessor is another node
    have hwx : x.1 ≠ w.1 := by
      intro heq
      exact hnd.1 (by simp [heq])
    have hx₁ : heap₁.cells x.1 = some ⟨x.2, next⟩ := by
      rw [cells_update hcells₁ hwx, hx]
    obtain ⟨heap₂, hfree, hcells₂, htop₂⟩ := free_eq hx₁
    -- `head` is the first node of the list, which is not this one
    have hhead : s.head ≠ some x.1 := by
      intro heq
      have hfirst := h.list
      rw [heq] at hfirst
      cases pre with
      | nil =>
        obtain ⟨hw', -⟩ := hfirst
        exact hwx (by simpa using hw')
      | cons y pre =>
        obtain ⟨hy, -⟩ := hfirst
        have hxy : x.1 = y.1 := by simpa using hy
        exact hnd.1 (by simp [hxy])
    -- with the node unlinked the list is the two parts
    have hseg : Seg heap₂ s.head (pre ++ [w] ++ post) none :=
      (h.list.unlink h.nodup hx hcells₁).update hcells₂ hnd.1
    obtain ⟨r', hpre, hpost⟩ := Seg.append_iff.mp hseg
    obtain ⟨-, -, -, next', hw', hr'⟩ := Seg.append_iff.mp hpre
    -- what is behind the predecessor now is what was behind the node
    have hnext : r' = next := by
      rw [cells_update hcells₂ hwx.symm, hcells₁, Function.update_self] at hw'
      obtain rfl : next' = r' := hr'
      simpa using hw'.symm
    refine ⟨heap₁, heap₂, by rw [lastPtr_snoc]; exact hset, hfree, htop₂.trans htop₁,
      hnext ▸ hpost, by rw [hcells₂, Function.update_self], fun a hne hpre => ?_,
      fun queue => ⟨?_, hnd.2⟩⟩
    -- a node that is not in front is not the predecessor
    · have hnw : a ≠ w.1 := by
        rintro rfl
        exact hpre (by simp)
      rw [cells_update hcells₂ hne, cells_update hcells₁ hnw]
    · rw [if_neg hhead]
      exact hseg

/-- **The sweep**, from behind requests that stay. The nodes of the others are freed, and
no node outside the list changes. -/
theorem Linked.completeLoop {key : Option CString} {n : ℕ} {e : Ptr} {pre rest : Requests}
    (h : Linked s (pre ++ rest)) (hseg : Seg s.heap e rest none) (hn : rest.length < n) :
    ∃ s', completeLoop key n e (lastPtr pre) s = some s' ∧
      Linked s' (pre ++ waiting (marked key rest)) ∧ s'.tail = s.tail ∧
      s'.heap.top = s.heap.top ∧ s'.dep_queue = s.dep_queue ++ resolved (marked key rest) ∧
      (∀ a, a ∉ addrs (pre ++ rest) → s'.heap.cells a = s.heap.cells a) ∧
      ∀ a ∈ addrs rest, a ∉ addrs (waiting (marked key rest)) → s'.heap.cells a = none := by
  induction rest generalizing n e pre s with
  | nil =>
    obtain ⟨n, rfl⟩ : ∃ k, n = k + 1 := ⟨n - 1, by omega⟩
    obtain rfl : e = none := hseg
    exact ⟨s, rfl, h, rfl, rfl, (List.append_nil _).symm, fun _ _ => rfl, by simp⟩
  | cons x rest ih =>
    obtain ⟨n, rfl⟩ : ∃ k, n = k + 1 := ⟨n - 1, by omega⟩
    obtain ⟨rfl, next, hc, hrest⟩ := hseg
    have hload : s.heap.load x.1 = some ⟨x.2, next⟩ := hc
    obtain ⟨hkeys, hsat⟩ := checkStatus_eq key x.2
    -- the status bytes are written first, whatever happens to the request
    obtain ⟨heap, hwrite, hcells, htop⟩ := write_eq hc ⟨x.2.mark key, next⟩
    have hmark : ({ x.2 with keys := (checkStatus key x.2.keys).1 } : Depent) = x.2.mark key := by
      rw [hkeys]
      rfl
    have h₁ : Linked { s with heap := heap } (pre ++ (x.1, x.2.mark key) :: rest) :=
      h.set_val hc hcells
    have hx₁ : heap.cells x.1 = some ⟨x.2.mark key, next⟩ := by
      rw [hcells, Function.update_self]
    -- the links are as before, so the rest of the list is where it was
    have hrest₁ : Seg heap next rest none := by
      obtain ⟨r, -, hr, next', hc', hseg'⟩ := Seg.append_iff.mp h₁.list
      obtain rfl : next' = next := by simpa using hc'.symm.trans hx₁
      exact hseg'
    have hout : ∀ a, a ∉ addrs (pre ++ x :: rest) →
        a ≠ x.1 ∧ a ∉ addrs pre ∧ a ∉ addrs (pre ++ rest) := by
      intro a ha
      simp only [addrs, List.map_append, List.map_cons, List.mem_append, List.mem_cons] at ha ⊢
      tauto
    by_cases hdone : (x.2.mark key).satisfied = true
    · -- the request is satisfied: it is unlinked, reported and freed, and `prev` stays
      obtain ⟨heap₁, heap₂, hunlink, hfree, htop₂, hrest₂, hfreed, hframe, hrep⟩ := h₁.remove hx₁
      obtain ⟨s', hrun, hrep', htail, htop', hqueue, hsame, hgone⟩ :=
        ih (hrep (s.dep_queue ++ [x.2.resolved])) hrest₂ (by simpa using hn)
      have hwaiting : waiting (marked key (x :: rest)) = waiting (marked key rest) := by
        simp [marked, waiting, hdone]
      refine ⟨s', ?_, ?_, htail, ?_, ?_, fun a ha => ?_, fun a ha hnot => ?_⟩
      · simp only [Deps.completeLoop, hload, Option.bind_eq_bind, Option.bind_some, hmark, hwrite,
          hsat, hdone, if_true, hunlink, hfree]
        exact hrun
      · rw [hwaiting]
        exact hrep'
      · rw [htop', htop₂, htop]
      · rw [hqueue]
        simp [marked, resolved, hdone]
      · obtain ⟨hne, hpre, hall⟩ := hout a ha
        rw [hsame a hall, hframe a hne hpre, cells_update hcells hne]
      · rw [hwaiting] at hnot
        rcases List.mem_cons.mp ha with rfl | ha
        · have hnd := h.nodup
          rw [addrs, List.map_append, List.map_cons, List.nodup_middle, List.nodup_cons,
            ← List.map_append] at hnd
          rw [hsame x.1 hnd.1, hfreed]
        · exact hgone a ha hnot
    · -- it still waits, and is the new `prev`
      have hpre : Linked { s with heap := heap } (pre ++ [(x.1, x.2.mark key)] ++ rest) := by
        rwa [List.append_assoc]
      obtain ⟨s', hrun, hrep', htail, htop', hqueue, hsame, hgone⟩ :=
        ih hpre hrest₁ (by simpa using hn)
      have hwaiting : waiting (marked key (x :: rest))
          = (x.1, x.2.mark key) :: waiting (marked key rest) := by
        simp [marked, waiting, hdone]
      refine ⟨s', ?_, ?_, htail, htop'.trans htop, ?_, fun a ha => ?_, fun a ha hnot => ?_⟩
      · rw [lastPtr_snoc] at hrun
        simp only [Deps.completeLoop, hload, Option.bind_eq_bind, Option.bind_some, hmark, hwrite,
          hsat, hdone]
        exact hrun
      · rw [hwaiting]
        simpa using hrep'
      · simpa [marked, resolved, hdone] using hqueue
      · rw [hsame a (by simpa [addrs] using ha), cells_update hcells (hout a ha).1]
      · rw [hwaiting, addrs, List.map_cons, List.mem_cons, not_or] at hnot
        exact hgone a ((List.mem_cons.mp ha).resolve_left hnot.1) hnot.2

theorem Linked.deps_complete (h : Linked s xs) (key : Option CString) :
    ∃ s', deps_complete key s = some s' ∧ Linked s' (waiting (marked key xs)) ∧
      s'.tail = s.tail ∧ s'.heap.top = s.heap.top ∧
      s'.dep_queue = s.dep_queue ++ resolved (marked key xs) ∧
      (∀ a, a ∉ addrs xs → s'.heap.cells a = s.heap.cells a) ∧
      ∀ a ∈ addrs xs, a ∉ addrs (waiting (marked key xs)) → s'.heap.cells a = none := by
  have hpre : Linked s ([] ++ xs) := h
  exact hpre.completeLoop h.list (Nat.lt_succ_of_le (h.list.length_le h.nodup))

theorem DepsRep.deps_complete (h : DepsRep s xs) (key : Option CString) :
    ∃ s', deps_complete key s = some s' ∧ DepsRep s' (waiting (marked key xs)) ∧
      s'.tail = s.tail ∧ s'.heap.top = s.heap.top ∧
      s'.dep_queue = s.dep_queue ++ resolved (marked key xs) := by
  obtain ⟨s', hrun, hlinked, htail, htop, hqueue, hsame, hgone⟩ := h.linked.deps_complete key
  refine ⟨s', hrun, ⟨hlinked.list, hlinked.nodup, fun a ha => ?_⟩, htail, htop, hqueue⟩
  by_contra hnot
  by_cases hmem : a ∈ addrs xs
  · exact ha (hgone a hmem hnot)
  · rw [hsame a hmem] at ha
    exact hmem (h.all a ha)

/-! ### Appending -/

/-- A new node is none of the old ones. -/
theorem Linked.top_notMem (h : Linked s xs) : s.heap.top ∉ addrs xs := fun hmem =>
  lt_irrefl _ (h.list.lt_top hmem)

theorem Linked.head_ne_none (h : Linked s xs) (hne : xs ≠ []) : s.head ≠ none := by
  obtain ⟨x, xs, rfl⟩ := List.exists_cons_of_ne_nil hne
  have hhead : s.head = some x.1 := h.list.1
  rw [hhead]
  exact Option.some_ne_none _

theorem Linked.snoc_nodup (h : Linked s xs) (e : Depent) :
    (addrs (xs ++ [(s.heap.top, e)])).Nodup := by
  rw [addrs, List.map_append, List.nodup_append]
  refine ⟨h.nodup, by simp, fun a ha b hb => ?_⟩
  obtain rfl : b = s.heap.top := by simpa using hb
  rintro rfl
  exact h.top_notMem ha

/-- **Appending** to the empty list, or behind its last node. -/
theorem Linked.deps_append (h : Linked s xs) (e : Depent)
    (htail : xs = [] ∨ s.tail = lastPtr xs) :
    ∃ s', deps_append e s = some s' ∧ Linked s' (xs ++ [(s.heap.top, e)]) ∧
      s'.tail = some s.heap.top ∧ s'.heap.top = s.heap.top + 1 ∧ s'.dep_queue = s.dep_queue ∧
      ∀ a, a ∉ addrs (xs ++ [(s.heap.top, e)]) → s'.heap.cells a = s.heap.cells a := by
  have hnew : (s.heap.alloc ⟨e, none⟩).2.cells s.heap.top = some ⟨e, none⟩ := load_alloc_self ..
  have hout : ∀ a, a ∉ addrs (xs ++ [(s.heap.top, e)]) → a ∉ addrs xs ∧ a ≠ s.heap.top := by
    intro a ha
    simpa [addrs, not_or] using ha
  rcases List.eq_nil_or_concat xs with rfl | ⟨xs, x, rfl⟩
  · have hhead : s.head = none := h.list
    refine ⟨_, if_pos hhead, ⟨⟨rfl, none, hnew, rfl⟩, by simp⟩, rfl, rfl, rfl, fun a ha => ?_⟩
    exact cells_alloc _ (hout a ha).2
  · rw [List.concat_eq_append] at h htail hout ⊢
    have htail' : s.tail = some x.1 := by
      rw [htail.resolve_left (by simp), lastPtr_snoc]
    have hseg : Seg (s.heap.alloc ⟨e, none⟩).2 s.head (xs ++ [x]) none := h.list.alloc _
    obtain ⟨r, hx⟩ := hseg.cells_of_mem (x := x) (by simp)
    obtain ⟨heap, hset, hcells, htop'⟩ := setNext_eq hx (some s.heap.top)
    refine ⟨{ s with heap := heap, tail := some s.heap.top }, ?_, ⟨?_, h.snoc_nodup e⟩, rfl, htop',
      rfl, fun a ha => ?_⟩
    · rw [Deps.deps_append]
      change (if s.head = none then _ else _) = _
      rw [if_neg (h.head_ne_none (by simp)), htail']
      change (((s.heap.alloc ⟨e, none⟩).2.setNext x.1 (some s.heap.top)).bind _) = _
      rw [hset]
      rfl
    · exact hseg.snoc h.nodup hnew h.top_notMem hcells
    · have hne : a ≠ x.1 := by
        rintro rfl
        exact (hout _ ha).1 (by simp)
      show heap.cells a = _
      rw [cells_update hcells hne, cells_alloc _ (hout a ha).2]

theorem DepsRep.deps_append (h : DepsRep s xs) (e : Depent)
    (htail : xs = [] ∨ s.tail = lastPtr xs) :
    ∃ s', deps_append e s = some s' ∧ DepsRep s' (xs ++ [(s.heap.top, e)]) ∧
      s'.tail = some s.heap.top ∧ s'.heap.top = s.heap.top + 1 ∧ s'.dep_queue = s.dep_queue := by
  obtain ⟨s', happ, hlinked, htail', htop, hqueue, hsame⟩ := h.linked.deps_append e htail
  refine ⟨s', happ, ⟨hlinked.list, hlinked.nodup, fun a ha => ?_⟩, htail', htop, hqueue⟩
  by_contra hnot
  rw [hsame a hnot] at ha
  exact hnot (by rw [addrs, List.map_append]; exact List.mem_append_left _ (h.all a ha))

/-- **Appending behind a freed node** is a write to freed memory. -/
theorem DepsRep.deps_append_dangling (h : DepsRep s xs) (e : Depent) {a : Addr} (hne : xs ≠ [])
    (htail : s.tail = some a) (ha : a ∉ addrs xs) (hlt : a < s.heap.top) :
    Deps.deps_append e s = none := by
  obtain ⟨x, xs, rfl⟩ := List.exists_cons_of_ne_nil hne
  have hhead : s.head = some x.1 := h.list.1
  have hcell : s.heap.cells a = none := by
    by_contra hcell
    exact ha (h.all a hcell)
  have hset : (s.heap.alloc ⟨e, none⟩).2.setNext a (some s.heap.top) = none := by
    refine setNext_eq_none ?_ _
    rw [cells_alloc _ (Nat.ne_of_lt hlt), hcell]
  rw [Deps.deps_append]
  change (if s.head = none then _ else _) = _
  rw [if_neg (by simp [hhead]), htail]
  change (((s.heap.alloc ⟨e, none⟩).2.setNext a (some s.heap.top)).bind _) = _
  rw [hset]
  rfl

end Spec

/-! ### Sorting by what is waited for -/

theorem Depent.satisfied_mark {e : Depent} (key : Option CString) (h : e.satisfied = true) :
    (e.mark key).satisfied = true := by
  simp only [satisfied, mark, List.all_map, List.all_eq_true, Function.comp_apply] at h ⊢
  intro k hk
  rw [h k hk, Bool.true_or]

@[simp] theorem marked_none (xs : Requests) : marked none xs = xs := by
  simp [marked, Depent.mark_none]

theorem addrs_marked (key : Option CString) (xs : Requests) : addrs (marked key xs) = addrs xs := by
  simp [marked, addrs]

@[simp] theorem lastPtr_marked (key : Option CString) (xs : Requests) :
    lastPtr (marked key xs) = lastPtr xs := by
  rcases List.eq_nil_or_concat xs with rfl | ⟨xs, x, rfl⟩ <;> simp [marked, lastPtr]

theorem addrs_waiting_subset (xs : Requests) : addrs (waiting xs) ⊆ addrs xs :=
  (List.filter_sublist.map Prod.fst).subset

@[simp] theorem waiting_append (xs ys : Requests) :
    waiting (xs ++ ys) = waiting xs ++ waiting ys := List.filter_append ..

theorem marked_append (key : Option CString) (xs ys : Requests) :
    marked key (xs ++ ys) = marked key xs ++ marked key ys := List.map_append

theorem resolved_append (xs ys : Requests) :
    resolved (xs ++ ys) = resolved xs ++ resolved ys := by
  simp [resolved]

@[simp] theorem waiting_waiting (xs : Requests) : waiting (waiting xs) = waiting xs := by
  simp [waiting, List.filter_filter]

/-- A sweep over the pending requests leaves what a sweep over all would. -/
theorem waiting_marked_waiting (key : Option CString) (xs : Requests) :
    waiting (marked key (waiting xs)) = waiting (marked key xs) := by
  induction xs with
  | nil => rfl
  | cons x xs ih =>
    cases h : x.2.satisfied with
    | false =>
      cases h' : (x.2.mark key).satisfied <;>
        simpa [waiting, marked, h, h'] using ih
    | true =>
      simpa [waiting, marked, h, x.2.satisfied_mark key h] using ih

/-- A sweep reports what has not been reported yet. -/
theorem resolved_marked_perm (key : Option CString) (xs : Requests) :
    (resolved xs ++ resolved (marked key (waiting xs))).Perm (resolved (marked key xs)) := by
  induction xs with
  | nil => exact List.Perm.refl _
  | cons x xs ih =>
    cases h : x.2.satisfied with
    | false =>
      cases h' : (x.2.mark key).satisfied with
      | false => simpa [resolved, waiting, marked, h, h'] using ih
      | true =>
        -- this request is reported by the sweep
        have hall : resolved (marked key (x :: xs)) = x.2.resolved :: resolved (marked key xs) := by
          simp [resolved, marked, h']
        have hbefore : resolved (x :: xs) = resolved xs := by
          simp [resolved, h]
        have hsweep : resolved (marked key (waiting (x :: xs)))
            = x.2.resolved :: resolved (marked key (waiting xs)) := by
          simp [resolved, marked, waiting, h, h']
        rw [hall, hbefore, hsweep]
        exact List.perm_middle.trans (ih.cons x.2.resolved)
    | true =>
      simpa [resolved, waiting, marked, h, x.2.satisfied_mark key h] using ih.cons x.2.resolved

end Deps
end Osrv
