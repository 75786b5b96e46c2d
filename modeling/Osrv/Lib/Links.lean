import Mathlib.Data.List.Basic
import Mathlib.Data.List.Induction
import Mathlib.Data.List.Nodup

/-!
# Doubly linked lists in memory

A `Mem α` holds nodes, each with a value and a link in either direction. Which
address a new node gets is up to the allocator: it may be any that is not in use.
Reading or relinking a node that is not in use gives `none`.

`Seg m b p xs l q` says that following the links from `p` leads through the nodes
listed in `xs` and arrives at `q`, and that following them backwards from `l`
leads through the same nodes and arrives at `b`. A list between two null links is
a segment, and so is a ring without its root. As for singly linked segments, what
pointer code does comes down to giving the last node another next link
(`Seg.set_last`) or the first one another previous link (`Seg.set_first`).
-/

namespace Links

/-- The address of a node. -/
abbrev Addr : Type := ℕ

/-- A link: an address or null. -/
abbrev Ptr : Type := Option Addr

/-- A node. -/
structure Node (α : Type*) where
  val : α
  next : Ptr
  prev : Ptr

/-- The nodes in use. -/
abbrev Mem (α : Type*) : Type _ := Addr → Option (Node α)

variable {α : Type*}

/-! ### Operations -/

/-- Gives a node another link to the next one. -/
def setNext (m : Mem α) (a : Addr) (p : Ptr) : Option (Mem α) :=
  (m a).map fun n => Function.update m a (some { n with next := p })

/-- Gives a node another link to the previous one. -/
def setPrev (m : Mem α) (a : Addr) (p : Ptr) : Option (Mem α) :=
  (m a).map fun n => Function.update m a (some { n with prev := p })

/-- `if (a) a->next = p` -/
def relinkNext (m : Mem α) (a p : Ptr) : Option (Mem α) :=
  match a with
  | some a => setNext m a p
  | none => some m

/-- `if (a) a->prev = p` -/
def relinkPrev (m : Mem α) (a p : Ptr) : Option (Mem α) :=
  match a with
  | some a => setPrev m a p
  | none => some m

/-- Follows links from `p` over `n` nodes: these nodes, and where the links arrive. -/
def follow (link : Node α → Ptr) (m : Mem α) : ℕ → Ptr → Option (List Addr × Ptr)
  | 0, p => some ([], p)
  | _ + 1, none => none
  | n + 1, some a => (m a).bind fun c => (follow link m n (link c)).map fun r => (a :: r.1, r.2)

theorem setNext_eq {m : Mem α} {a : Addr} {n : Node α} (h : m a = some n) (p : Ptr) :
    setNext m a p = some (Function.update m a (some { n with next := p })) := by
  rw [setNext, h]
  rfl

theorem setPrev_eq {m : Mem α} {a : Addr} {n : Node α} (h : m a = some n) (p : Ptr) :
    setPrev m a p = some (Function.update m a (some { n with prev := p })) := by
  rw [setPrev, h]
  rfl

/-- What relinking a node does. -/
theorem setNext_spec {m : Mem α} {a : Addr} {n : Node α} (h : m a = some n) (p : Ptr) :
    ∃ m', setNext m a p = some m' ∧ m' a = some { n with next := p } ∧
      ∀ b, b ≠ a → m' b = m b :=
  ⟨_, setNext_eq h p, Function.update_self .., fun _ hb => Function.update_of_ne hb ..⟩

theorem setPrev_spec {m : Mem α} {a : Addr} {n : Node α} (h : m a = some n) (p : Ptr) :
    ∃ m', setPrev m a p = some m' ∧ m' a = some { n with prev := p } ∧
      ∀ b, b ≠ a → m' b = m b :=
  ⟨_, setPrev_eq h p, Function.update_self .., fun _ hb => Function.update_of_ne hb ..⟩

/-- A node of the same value in the place of another. -/
theorem update_val {m : Mem α} {a : Addr} {n n' : Node α} (h : m a = some n)
    (hval : n'.val = n.val) (b : Addr) :
    (Function.update m a (some n') b).map Node.val = (m b).map Node.val := by
  by_cases hb : b = a
  · rw [hb, Function.update_self, h, Option.map_some, Option.map_some, hval]
  · rw [Function.update_of_ne hb]

/-- Relinking changes no value. -/
theorem setNext_val {m m' : Mem α} {a : Addr} {p : Ptr} (h : setNext m a p = some m') (b : Addr) :
    (m' b).map Node.val = (m b).map Node.val := by
  obtain ⟨n, hn, rfl⟩ := Option.map_eq_some_iff.mp h
  refine update_val hn ?_ b
  rfl

theorem setPrev_val {m m' : Mem α} {a : Addr} {p : Ptr} (h : setPrev m a p = some m') (b : Addr) :
    (m' b).map Node.val = (m b).map Node.val := by
  obtain ⟨n, hn, rfl⟩ := Option.map_eq_some_iff.mp h
  refine update_val hn ?_ b
  rfl

theorem relinkNext_val {m m' : Mem α} {a p : Ptr} (h : relinkNext m a p = some m') (b : Addr) :
    (m' b).map Node.val = (m b).map Node.val := by
  cases a with
  | none =>
    obtain rfl := Option.some.inj h
    rfl
  | some a => exact setNext_val h b

theorem relinkPrev_val {m m' : Mem α} {a p : Ptr} (h : relinkPrev m a p = some m') (b : Addr) :
    (m' b).map Node.val = (m b).map Node.val := by
  cases a with
  | none =>
    obtain rfl := Option.some.inj h
    rfl
  | some a => exact setPrev_val h b

/-! ### Segments -/

/-- From `p` the links lead through the nodes of `xs`, given by address and value, to `q`,
and backwards from `l` to `b`. -/
def Seg (m : Mem α) : Ptr → Ptr → List (Addr × α) → Ptr → Ptr → Prop
  | b, p, [], l, q => p = q ∧ l = b
  | b, p, x :: xs, l, q =>
    p = some x.1 ∧ ∃ next, m x.1 = some ⟨x.2, next, b⟩ ∧ Seg m (some x.1) next xs l q

/-- The addresses of a list of nodes. -/
abbrev addrs (xs : List (Addr × α)) : List Addr := xs.map Prod.fst

namespace Seg

variable {m m' : Mem α} {b p l q : Ptr} {xs ys : List (Addr × α)}

@[simp] theorem nil_iff : Seg m b p [] l q ↔ p = q ∧ l = b := Iff.rfl

theorem cons_iff {x : Addr × α} : Seg m b p (x :: xs) l q ↔
    p = some x.1 ∧ ∃ next, m x.1 = some ⟨x.2, next, b⟩ ∧ Seg m (some x.1) next xs l q := Iff.rfl

theorem append_iff : Seg m b p (xs ++ ys) l q ↔
    ∃ l' q', Seg m b p xs l' q' ∧ Seg m l' q' ys l q := by
  induction xs generalizing b p with
  | nil =>
    constructor
    · intro hseg
      exact ⟨b, p, ⟨rfl, rfl⟩, hseg⟩
    · rintro ⟨l', q', ⟨rfl, rfl⟩, hseg⟩
      exact hseg
  | cons x xs ih =>
    simp only [List.cons_append, cons_iff, ih]
    constructor
    · rintro ⟨hp, next, hx, l', q', hxs, hys⟩
      exact ⟨l', q', ⟨hp, next, hx, hxs⟩, hys⟩
    · rintro ⟨l', q', ⟨hp, next, hx, hxs⟩, hys⟩
      exact ⟨hp, next, hx, l', q', hxs, hys⟩

/-- A segment with a last node. -/
theorem snoc_iff {x : Addr × α} : Seg m b p (xs ++ [x]) l q ↔
    l = some x.1 ∧ ∃ prev, m x.1 = some ⟨x.2, q, prev⟩ ∧ Seg m b p xs prev (some x.1) := by
  rw [append_iff]
  constructor
  · rintro ⟨l', q', hxs, rfl, next, hx, rfl, hl⟩
    exact ⟨hl, l', hx, hxs⟩
  · rintro ⟨hl, prev, hx, hxs⟩
    exact ⟨prev, some x.1, hxs, rfl, q, hx, rfl, hl⟩

/-- **Frame rule.** A segment depends only on its own nodes. -/
theorem congr (hseg : Seg m b p xs l q) (hm : ∀ a ∈ addrs xs, m' a = m a) :
    Seg m' b p xs l q := by
  induction xs generalizing b p with
  | nil => exact hseg
  | cons x xs ih =>
    obtain ⟨hp, next, hx, hrest⟩ := hseg
    refine ⟨hp, next, ?_, ih hrest fun a ha => hm a (List.mem_cons_of_mem _ ha)⟩
    rw [hm x.1 (List.mem_cons_self ..), hx]

/-- A change outside a segment. -/
theorem update {a : Addr} {n : Option (Node α)} (hseg : Seg m b p xs l q) (ha : a ∉ addrs xs) :
    Seg (Function.update m a n) b p xs l q :=
  hseg.congr fun _ hc => Function.update_of_ne (ne_of_mem_of_not_mem hc ha) ..

theorem mem_of_mem (hseg : Seg m b p xs l q) {x : Addr × α} (hx : x ∈ xs) :
    ∃ next prev, m x.1 = some ⟨x.2, next, prev⟩ := by
  induction xs generalizing b p with
  | nil => cases hx
  | cons y ys ih =>
    obtain ⟨-, next, hy, hrest⟩ := hseg
    rcases List.mem_cons.mp hx with rfl | hx
    · exact ⟨next, b, hy⟩
    · exact ih hrest hx

theorem ne_none (hseg : Seg m b p xs l q) {a : Addr} (ha : a ∈ addrs xs) : m a ≠ none := by
  obtain ⟨x, hx, rfl⟩ := List.mem_map.mp ha
  obtain ⟨next, prev, hm⟩ := hseg.mem_of_mem hx
  simp [hm]

/-- The links at the ends lead to the first and the last node. -/
theorem ends (hseg : Seg m b p xs l q) :
    p = ((addrs xs).head?).or q ∧ l = ((addrs xs).getLast?).or b := by
  constructor
  · cases xs with
    | nil => exact hseg.1
    | cons x xs => exact hseg.1
  · rcases List.eq_nil_or_concat xs with rfl | ⟨ys, y, rfl⟩
    · exact hseg.2
    · rw [List.concat_eq_append] at hseg ⊢
      rw [(snoc_iff.mp hseg).1]
      simp [addrs]

/-- **Relinking the first node** of a segment backwards. -/
theorem relink_first {x : Addr × α} {next b' : Ptr} (hseg : Seg m b p (x :: xs) l q)
    (hx : m x.1 = some ⟨x.2, next, b⟩) (hx' : m' x.1 = some ⟨x.2, next, b'⟩)
    (hm : ∀ a ∈ addrs xs, m' a = m a) : Seg m' b' p (x :: xs) l q := by
  obtain ⟨hp, next', hnext, hrest⟩ := hseg
  obtain rfl : next' = next := by
    rw [hx] at hnext
    simpa using hnext.symm
  exact ⟨hp, next', hx', hrest.congr hm⟩

/-- **Relinking the last node** of a segment. -/
theorem relink_last {x : Addr × α} {prev q' : Ptr} (hseg : Seg m b p (xs ++ [x]) l q)
    (hx : m x.1 = some ⟨x.2, q, prev⟩) (hx' : m' x.1 = some ⟨x.2, q', prev⟩)
    (hm : ∀ a ∈ addrs xs, m' a = m a) : Seg m' b p (xs ++ [x]) l q' := by
  obtain ⟨hl, prev', hprev, hxs⟩ := snoc_iff.mp hseg
  obtain rfl : prev' = prev := by
    rw [hx] at hprev
    simpa using hprev.symm
  exact snoc_iff.mpr ⟨hl, prev', hx', hxs.congr hm⟩

theorem set_first {x : Addr × α} {next b' : Ptr} (hseg : Seg m b p (x :: xs) l q)
    (hnd : (addrs (x :: xs)).Nodup) (hx : m x.1 = some ⟨x.2, next, b⟩) :
    Seg (Function.update m x.1 (some ⟨x.2, next, b'⟩)) b' p (x :: xs) l q := by
  have hnot : x.1 ∉ addrs xs := (List.nodup_cons.mp hnd).1
  exact hseg.relink_first hx (Function.update_self ..) fun _ ha =>
    Function.update_of_ne (ne_of_mem_of_not_mem ha hnot) ..

theorem set_last {x : Addr × α} {prev q' : Ptr} (hseg : Seg m b p (xs ++ [x]) l q)
    (hnd : (addrs (xs ++ [x])).Nodup) (hx : m x.1 = some ⟨x.2, q, prev⟩) :
    Seg (Function.update m x.1 (some ⟨x.2, q', prev⟩)) b p (xs ++ [x]) l q' := by
  have hnot : x.1 ∉ addrs xs := by
    rw [addrs, List.map_append, List.nodup_append] at hnd
    exact fun hmem => hnd.2.2 _ hmem _ (by simp) rfl
  exact hseg.relink_last hx (Function.update_self ..) fun _ ha =>
    Function.update_of_ne (ne_of_mem_of_not_mem ha hnot) ..

/-- **Following the links** of a segment gives its nodes in order. -/
theorem follow_next (hseg : Seg m b p xs l q) :
    follow Node.next m xs.length p = some (addrs xs, q) := by
  induction xs generalizing b p with
  | nil =>
    obtain ⟨rfl, -⟩ := hseg
    rfl
  | cons x xs ih =>
    obtain ⟨rfl, next, hx, hrest⟩ := hseg
    show ((m x.1).bind fun c => (follow Node.next m xs.length c.next).map _) = _
    rw [hx, Option.bind_some, ih hrest]
    rfl

/-- Following them backwards gives the nodes in reverse order. -/
theorem follow_prev (hseg : Seg m b p xs l q) :
    follow Node.prev m xs.length l = some ((addrs xs).reverse, b) := by
  induction xs using List.reverseRecOn generalizing l q with
  | nil =>
    obtain ⟨-, rfl⟩ := hseg
    rfl
  | append_singleton xs x ih =>
    obtain ⟨rfl, prev, hx, hrest⟩ := snoc_iff.mp hseg
    have haddrs : addrs (xs ++ [x]) = addrs xs ++ [x.1] := List.map_append
    rw [List.length_append, List.length_singleton]
    show ((m x.1).bind fun c => (follow Node.prev m xs.length c.prev).map _) = _
    rw [hx, Option.bind_some, ih hrest, haddrs, List.reverse_append]
    rfl

end Seg
end Links
