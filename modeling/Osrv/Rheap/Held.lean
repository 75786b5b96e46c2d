import Osrv.Lib.Ends
import Osrv.Rheap.Collector

/-!
# Objects in hand

What the decoder may do with an object that it has got from R. An object is held
(`Held`) when nothing has been lost of it and of what it is made of. As long as it is on
the protect stack, or part of something that is, it stays held whatever R collects
(`Held.grows`); and every other call of the API leaves alone what is held.

The invariant `Ok` says that the references of the machine are in use, that the tables
of R name what they should, and that nothing in use has been lost, up to one exception. It
is the vector whose elements are being fetched, which is not protected. When a piece of
it arrives after a retry, that is a use of something R can have collected (`Steady`).
-/

namespace Osrv
namespace Rheap

open Bytes Sfs Lib

variable {σ α β : Type}

/-! ### The exception -/

/-- A piece arrives after a retry. -/
def LatePiece (ps : List Piece) : Prop :=
  ∃ qs rs bs, ps = qs ++ .check :: rs ∧ .bytes bs ∈ rs

/-- No piece of the elements of a vector has arrived after a retry. -/
def Steady (trace : List Event) : Prop := ∀ ps, .elements ps ∈ trace → ¬ LatePiece ps

theorem Steady.of_suffix {es es' : List Event} (h : es <:+ es') (hes : Steady es') : Steady es :=
  fun ps hps => hes ps (h.subset hps)

theorem steady_cons {e : Event} {es : List Event} :
    Steady (e :: es) ↔ (∀ ps, e = .elements ps → ¬ LatePiece ps) ∧ Steady es := by
  constructor
  · exact fun h => ⟨fun ps he => h ps (he ▸ List.mem_cons_self ..),
      fun ps hps => h ps (List.mem_cons_of_mem _ hps)⟩
  · rintro ⟨he, h⟩ ps hps
    obtain heq | hps := List.mem_cons.mp hps
    · exact he ps heq.symm
    · exact h ps hps

/-! ### The invariant -/

variable (S : Session) (P : Prop)

/-- The invariant of a load in the session `S`. The traces need not be settled where `P`
holds. -/
structure Ok (m : Machine σ) : Prop where
  base : S.heap.top ≤ m.heap.top
  closed : ∀ r < m.heap.top, ∀ q ∈ m.heap.refs r, q < m.heap.top
  /-- Nothing the load makes is put into an object that was there before. -/
  old : ∀ r < S.heap.top, ∀ q ∈ m.heap.parts r, q < S.heap.top
  null : (m.heap.objects R_NilValue).contents = .null
  stack : ∀ r ∈ m.stack, r < m.heap.top
  interned : ∀ k s r, m.interned k s = some r →
    r < m.heap.top ∧ (m.heap.objects r).contents = k.contents s
  lost : ∀ r, Lost S.heap.top m.trace r → S.heap.top ≤ r ∧ r < m.heap.top
  settled : P ∨ (Steady m.trace ↔ Safe S.heap.top m.trace)

/-- How a load stops: the loop over the attributes has not run on, and nothing in use has
been lost but for the exception. -/
def Stopped (e : Stop) (m : Machine σ) : Prop :=
  e ≠ .spins ∧ (P ∨ (Steady m.trace ↔ Safe S.heap.top m.trace))

/-- Nothing has been lost of an object and of what it is made of. -/
def Held (m : Machine σ) (r : Ref) : Prop :=
  r < m.heap.top ∧
    (Steady m.trace → ∀ q, Reaches m.heap.parts r q → ¬ Lost S.heap.top m.trace q)

/-- What a machine has come to when no object has been changed that it had, but for its
attributes. What is on its stack is still there, with all its parts. -/
structure Grows (m m' : Machine σ) : Prop where
  top : m.heap.top ≤ m'.heap.top
  contents : ∀ r < m.heap.top, (m'.heap.objects r).contents = (m.heap.objects r).contents
  stack : m.stack <:+ m'.stack
  trace : m.trace <:+ m'.trace
  lost : ∀ q, Pinned m.heap m.stack q → Lost S.heap.top m'.trace q → Lost S.heap.top m.trace q

/-- Where an object comes from. -/
structure Yields (m : Machine σ) (r : Ref) (m' : Machine σ) : Prop where
  ok : Ok S P m'
  grows : Grows S m m'
  stack : m'.stack = m.stack
  held : Held S m' r

variable {S} {P} {m m₁ m₂ m' : Machine σ} {r q v : Ref}

theorem Ok.stopped (h : Ok S P m) {e : Stop} (he : e ≠ .spins) : Stopped S P e m := ⟨he, h.settled⟩

theorem Ok.parts_closed (h : Ok S P m) :
    ∀ r, r < m.heap.top → ∀ q ∈ m.heap.parts r, q < m.heap.top :=
  fun r hr q hq => h.closed r hr q (parts_subset _ r hq)

/-- What was there before is held. -/
theorem Ok.held_old (h : Ok S P m) (hr : r < S.heap.top) : Held S m r := by
  refine ⟨Nat.lt_of_lt_of_le hr h.base, fun _ q hq hlost => ?_⟩
  have hold : q < S.heap.top := Reaches.of_closed (P := (· < S.heap.top)) h.old hq hr
  exact absurd hold (Nat.not_lt.mpr (h.lost q hlost).1)

theorem Ok.held_nil (h : Ok S P m) : Held S m R_NilValue :=
  h.held_old ((show R_NilValue < R_BlankString by decide).trans S.fixed)

/-! ### Growing -/

theorem Grows.refl (S : Session) (m : Machine σ) : Grows S m m :=
  ⟨Nat.le_refl _, fun _ _ => rfl, List.suffix_refl _, List.suffix_refl _, fun _ _ h => h⟩

theorem Grows.parts (h : Grows S m m') (hr : r < m.heap.top) : m'.heap.parts r = m.heap.parts r :=
  congrArg Contents.refs (h.contents r hr)

/-- The parts of an object are what they were. -/
theorem Grows.reaches (h : Grows S m m') (hm : Ok S P m) (hr : r < m.heap.top) :
    Reaches m'.heap.parts r q ↔ Reaches m.heap.parts r q :=
  reaches_congr (P := (· < m.heap.top)) hm.parts_closed (fun _ ha => h.parts ha) hr

theorem Grows.pinned (h : Grows S m m') (hm : Ok S P m) (hq : Pinned m.heap m.stack q) :
    Pinned m'.heap m'.stack q := by
  obtain ⟨s, hs, hq⟩ := hq
  exact ⟨s, h.stack.subset hs, (h.reaches hm (hm.stack s hs)).mpr hq⟩

theorem Grows.trans (h : Grows S m m₁) (h' : Grows S m₁ m₂) (hm : Ok S P m) : Grows S m m₂ where
  top := h.top.trans h'.top
  contents r hr := (h'.contents r (Nat.lt_of_lt_of_le hr h.top)).trans (h.contents r hr)
  stack := h.stack.trans h'.stack
  trace := h.trace.trans h'.trace
  lost q hq hlost := h.lost q hq (h'.lost q (h.pinned hm hq) hlost)

/-- **What is protected stays held.** -/
theorem Held.grows (hr : Held S m r) (h : Grows S m m') (hm : Ok S P m)
    (hpin : Pinned m.heap m.stack r) : Held S m' r := by
  refine ⟨Nat.lt_of_lt_of_le hr.1 h.top, fun hsteady q hq hlost => ?_⟩
  have hq' : Reaches m.heap.parts r q := (h.reaches hm hr.1).mp hq
  obtain ⟨s, hs, hsr⟩ := hpin
  exact hr.2 (hsteady.of_suffix h.trace) q hq' (h.lost q ⟨s, hs, hsr.trans hq'⟩ hlost)

/-- The parts of what is held are held. -/
theorem Held.part (hr : Held S m r) (hm : Ok S P m) (hq : Reaches m.heap.parts r q) : Held S m q :=
  ⟨Reaches.of_closed (P := (· < m.heap.top)) hm.parts_closed hq hr.1,
    fun hsteady _ hq' => hr.2 hsteady _ (hq.trans hq')⟩

theorem pinned_of_mem {stack : List Ref} {h : Memory} (hr : r ∈ stack) : Pinned h stack r :=
  ⟨r, hr, Reaches.refl _ _⟩

/-- What can be put into a new object: it is from before the load, or held and protected. -/
def Anchored (S : Session) (m : Machine σ) (q : Ref) : Prop :=
  q < S.heap.top ∨ Held S m q ∧ Pinned m.heap m.stack q

theorem Anchored.held (hq : Anchored S m q) (h : Grows S m m') (hm : Ok S P m) (hm' : Ok S P m') :
    Held S m' q := by
  obtain hq | ⟨hq, hpin⟩ := hq
  · exact hm'.held_old hq
  · exact hq.grows h hm hpin

/-! ### Steps that collect nothing -/

/-- Nothing has happened but for an event. -/
structure Still (S : Session) (P : Prop) (m m' : Machine σ) : Prop where
  ok : Ok S P m'
  heap : m'.heap = m.heap
  stack : m'.stack = m.stack
  trace : m.trace <:+ m'.trace
  lost : ∀ q, Lost S.heap.top m'.trace q ↔ Lost S.heap.top m.trace q

theorem Still.grows (h : Still S P m m') : Grows S m m' :=
  ⟨(congrArg Memory.top h.heap).ge, fun r _ => by rw [h.heap], h.stack ▸ List.suffix_refl _,
    h.trace, fun q _ => (h.lost q).mp⟩

theorem Still.held (h : Still S P m m') (hr : Held S m r) : Held S m' r := by
  refine ⟨h.heap ▸ hr.1, fun hsteady q hq hlost => ?_⟩
  exact hr.2 (hsteady.of_suffix h.trace) q (h.heap ▸ hq) ((h.lost q).mp hlost)

theorem Still.refl (hm : Ok S P m) : Still S P m m :=
  ⟨hm, rfl, rfl, List.suffix_refl _, fun _ => Iff.rfl⟩

theorem Still.trans (h : Still S P m m₁) (h' : Still S P m₁ m₂) : Still S P m m₂ :=
  ⟨h'.ok, h'.heap.trans h.heap, h'.stack.trans h.stack, h.trace.trans h'.trace,
    fun q => (h'.lost q).trans (h.lost q)⟩

/-- An event that takes nothing. -/
theorem Ok.logged (h : Ok S P m) {e : Event} (hinert : e.inert) (hsteady : ∀ ps, e ≠ .elements ps)
    (huse : ∀ r, e = .use r → Held S m r) : Still S P m { m with trace := e :: m.trace } := by
  have hlost : ∀ q, Lost S.heap.top (e :: m.trace) q ↔ Lost S.heap.top m.trace q :=
    fun _ => lost_inert hinert
  refine ⟨⟨h.base, h.closed, h.old, h.null, h.stack, h.interned,
    fun r hr => h.lost r ((hlost r).mp hr), ?_⟩, rfl, rfl, List.suffix_cons _ _, hlost⟩
  refine h.settled.imp_right fun hset => ?_
  show Steady (e :: m.trace) ↔ Safe S.heap.top (e :: m.trace)
  rw [steady_cons, safe_cons, and_iff_right fun ps heq => absurd heq (hsteady ps)]
  constructor
  · intro hs
    exact ⟨fun r he hr => (huse r he).2 hs r (Reaches.refl _ _) hr, hset.mp hs⟩
  · exact fun hs => hset.mpr hs.2

theorem ends_use (h : Ok S P m) (hr : Held S m r) :
    Ends (log (.use r)) m (fun _ m' => Still S P m m') (Stopped S P) := by
  refine h.logged trivial (fun _ heq => nomatch heq) fun q heq => ?_
  cases heq
  exact hr

theorem ends_look (h : Ok S P m) (hr : Held S m r) :
    Ends (look r) m (fun u m' => u = (m.heap.objects r).contents ∧ Still S P m m') (Stopped S P) :=
  (ends_use h hr).bind (fun _ _ h => h) fun _ m' hm' => ⟨by rw [hm'.heap], hm'⟩

theorem ends_PROTECT (h : Ok S P m) (hr : Held S m r) :
    Ends (PROTECT r) m (fun _ m' => Ok S P m' ∧ Grows S m m' ∧ m'.stack = r :: m.stack ∧
      m'.heap = m.heap ∧ ∀ x, Held S m x → Held S m' x) (Stopped S P) := by
  refine (ends_use h hr).bind (fun _ _ h => h) fun _ m₁ h₁ => ?_
  refine ⟨⟨h₁.ok.base, h₁.ok.closed, h₁.ok.old, h₁.ok.null, ?_, h₁.ok.interned, h₁.ok.lost,
    h₁.ok.settled⟩, ⟨h₁.grows.top, h₁.grows.contents, h₁.grows.stack.trans (List.suffix_cons _ _),
    h₁.trace, h₁.grows.lost⟩, congrArg (r :: ·) h₁.stack, h₁.heap, fun x => h₁.held⟩
  intro x hx
  obtain rfl | hx := List.mem_cons.mp hx
  · exact (h₁.held hr).1
  · exact h₁.ok.stack x hx

/-- Entries are taken off the stack down to what was there before. -/
theorem ends_UNPROTECT (h : Ok S P m) {n : ℕ} (xs : List Ref) {rest : List Ref}
    (hstack : m.stack = xs ++ rest)
    (hn : xs.length = n) :
    Ends (UNPROTECT n) m (fun _ m' => Ok S P m' ∧ m'.stack = rest ∧ m'.heap = m.heap ∧
      m'.trace = m.trace) (Stopped S P) := by
  have hdrop : m.stack.drop n = rest := by rw [hstack, List.drop_left' hn]
  refine ⟨⟨h.base, h.closed, h.old, h.null, fun r hr => h.stack r ?_, h.interned, h.lost,
    h.settled⟩, hdrop, rfl, rfl⟩
  exact List.mem_of_mem_drop hr

/-- Taking entries off the stack that were not there before. -/
theorem Grows.unprotect (h : Grows S m m₁) (hheap : m₂.heap = m₁.heap)
    (htrace : m₂.trace = m₁.trace) (hstack : m.stack <:+ m₂.stack) : Grows S m m₂ :=
  ⟨hheap ▸ h.top, hheap ▸ h.contents, hstack, htrace ▸ h.trace, htrace ▸ h.lost⟩

theorem Held.of_eq (hr : Held S m r) (hheap : m'.heap = m.heap) (htrace : m'.trace = m.trace) :
    Held S m' r := by
  unfold Held
  rw [hheap, htrace]
  exact hr

/-! ### Collections and new objects -/

/-- **A collection** takes nothing that is protected. -/
theorem ends_gc (h : Ok S P m) :
    Ends gc m (fun _ m' => Ok S P m' ∧ Grows S m m' ∧ m'.stack = m.stack ∧ m'.heap = m.heap)
      (Stopped S P) := by
  refine ⟨⟨h.base, h.closed, h.old, h.null, h.stack, h.interned, fun r hr => ?_, ?_⟩,
    ⟨Nat.le_refl _, fun _ _ => rfl, List.suffix_refl _, List.suffix_cons _ _, fun q hq hlost => ?_⟩,
    rfl, rfl⟩
  · obtain ⟨hbase, htop, -⟩ | hr := lost_collect.mp hr
    · exact ⟨hbase, htop⟩
    · exact h.lost r hr
  · refine h.settled.imp_right fun hset => ?_
    show Steady (_ :: m.trace) ↔ Safe S.heap.top (_ :: m.trace)
    rw [steady_cons, safe_of_ne_use fun _ => Event.noConfusion]
    exact (and_iff_right fun _ => Event.noConfusion).trans hset
  · obtain ⟨-, -, hr⟩ | hr := lost_collect.mp hlost
    · exact absurd hq.reachable hr
    · exact hr

/-- A new object is held when all that is put into it is. -/
theorem Ok.pushed (h : Ok S P m) {c : Contents} (hc : ∀ q ∈ c.refs, Held S m q) :
    Yields S P m m.heap.top { m with heap := m.heap.push c.fresh } := by
  have hself : (m.heap.push c.fresh).objects m.heap.top = c.fresh := Function.update_self ..
  have hother : ∀ r < m.heap.top, (m.heap.push c.fresh).objects r = m.heap.objects r :=
    fun r hr => Function.update_of_ne hr.ne ..
  have hnil : R_NilValue < m.heap.top := h.held_nil.1
  have hgrows : Grows S m { m with heap := m.heap.push c.fresh } :=
    ⟨Nat.le_succ _, fun r hr => congrArg Object.contents (hother r hr), List.suffix_refl _,
      List.suffix_refl _, fun _ _ h => h⟩
  refine ⟨⟨h.base.trans (Nat.le_succ _), fun r hr q hq => ?_, fun r hr => ?_, ?_, fun r hr => ?_,
    fun k s r hk => ?_, fun r hr => ?_, h.settled⟩, hgrows, rfl, ?_⟩
  -- references are in use
  · obtain hr | rfl := Nat.lt_succ_iff_lt_or_eq.mp hr
    · have hq' : q ∈ m.heap.refs r := by
        rw [Memory.refs, hother r hr] at hq
        exact hq
      exact (h.closed r hr q hq').trans (Nat.lt_succ_self _)
    · rw [Memory.refs, hself] at hq
      obtain rfl | hq := List.mem_cons.mp hq
      · exact hnil.trans (Nat.lt_succ_self _)
      · exact (hc q hq).1.trans (Nat.lt_succ_self _)
  -- the objects of the session are not new
  · rw [Memory.parts, hother r (Nat.lt_of_lt_of_le hr h.base)]
    exact h.old r hr
  · show (Memory.objects (m.heap.push c.fresh) R_NilValue).contents = .null
    rw [hother _ hnil]
    exact h.null
  · exact (h.stack r hr).trans (Nat.lt_succ_self _)
  · obtain ⟨hr, hs⟩ := h.interned k s r hk
    exact ⟨hr.trans (Nat.lt_succ_self _), (congrArg Object.contents (hother r hr)).trans hs⟩
  · exact ⟨(h.lost r hr).1, (h.lost r hr).2.trans (Nat.lt_succ_self _)⟩
  -- what is reached from the new object is itself or reached from what has been put into it
  · refine ⟨Nat.lt_succ_self _, fun hsteady q hq hlost => ?_⟩
    obtain rfl | ⟨p, hp, hpq⟩ := hq.cases
    · exact (h.lost _ hlost).2.ne rfl
    · have hp' : p ∈ c.refs := by
        rw [Memory.parts, hself] at hp
        exact hp
      have hheld := hc p hp'
      exact hheld.2 hsteady q ((hgrows.reaches h hheld.1).mp hpq) hlost

theorem contents_push (h : Memory) (c : Contents) :
    ((h.push c.fresh).objects h.top).contents = c := by
  show (Function.update h.objects h.top c.fresh h.top).contents = c
  rw [Function.update_self]
  rfl

theorem ends_alloc (h : Ok S P m) {c : Contents} (hc : ∀ q ∈ c.refs, Anchored S m q) (ok : Bool)
    {e : Stop} (he : e ≠ .spins) :
    Ends (alloc ok e c) m (fun r m' => Yields S P m r m' ∧ r = m.heap.top ∧
      m'.heap = m.heap.push c.fresh) (Stopped S P) := by
  refine (ends_gc h).bind (fun _ _ h => h) fun _ m₁ ⟨h₁, hg₁, hs₁, hh₁⟩ => ?_
  cases ok with
  | false => exact h₁.stopped he
  | true =>
    have hyields := h₁.pushed fun q hq => (hc q hq).held hg₁ h h₁
    exact ⟨⟨hyields.ok, hg₁.trans hyields.grows h, hyields.stack.trans hs₁, hyields.held⟩,
      congrArg Memory.top hh₁, congrArg (Memory.push · c.fresh) hh₁⟩

theorem ends_allocCell (R : Runtime) (h : Ok S P m) {c : Contents}
    (hc : ∀ q ∈ c.refs, Anchored S m q) :
    Ends (allocCell R c) m (fun r m' => Yields S P m r m' ∧ r = m.heap.top ∧
      m'.heap = m.heap.push c.fresh) (Stopped S P) :=
  ends_alloc h hc _ Stop.noConfusion

end Rheap
end Osrv
