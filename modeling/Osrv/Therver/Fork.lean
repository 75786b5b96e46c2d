import Osrv.Therver.Sockets

/-!
# Servers across a fork

The handlers that `therver.c` registers with `pthread_atfork`. `prefork` locks the
mutex of every server, so that no worker is at the queue of any of them when the
process forks. In the parent the mutexes are given back. The child has a copy of the
servers without their threads: `forked_child` shuts each of them down, closes the
listening socket and the sockets of the queue, and gives the mutex back.

The child knows nothing of the other sockets of its copy. Those that a worker serves
or the accept thread has in its hands at the time of the fork stay open in the child.
-/

namespace Osrv
namespace Pool

open Links

/-! ### The child -/

/-- Closes the sockets of the queue from `me` on. -/
def closeQueued : ℕ → Ptr → Threads → Option Threads
  | 0, _, _ => none
  | _ + 1, none, t => some t
  | fuel + 1, some me, t =>
    if me = t.root then some t
    else do
      let e ← t.mem me
      closeQueued fuel e.next { t with
        mem := Function.update t.mem me (some { e with val := { e.val with s := -1 } })
        closed := t.closed ++ if e.val.s ≠ -1 then [e.val.s] else [] }

/-- Closes the listening socket. -/
def closeListening (t : Threads) : Threads :=
  if t.ss ≠ -1 then { t with closed := t.closed ++ [t.ss], ss := -1 } else t

/-- The handler in the child for one server. -/
def childTherver (fuel : ℕ) (t : Threads) : Option Threads := do
  let t := closeListening { t with active := false }
  let root ← t.mem t.root
  let t ← closeQueued fuel root.next t
  some { t with pool_mutex := none }

/-- The handler in the child, for all servers. -/
def forked_child (fuel : ℕ) (ts : List Threads) : Option (List Threads) :=
  ts.mapM (childTherver fuel)

/-! ### The loop over the queue -/

/-- A connection whose socket has been closed. -/
def reset (x : Addr × Conn) : Addr × Conn := (x.1, { x.2 with s := -1 })

/-- The sockets of the queue that are open. -/
def openSockets (xs : List (Addr × Conn)) : List ℤ :=
  (xs.map fun x => x.2.s).filter (· ≠ -1)

theorem addrs_reset (xs : List (Addr × Conn)) : addrs (xs.map reset) = addrs xs := by
  simp [addrs, reset, Function.comp_def]

/-- **The loop** comes to an end at the root, and closes every socket of the queue. -/
theorem closeQueued_spec {fuel : ℕ} {t : Threads} {xs : List (Addr × Conn)} {b p l : Ptr}
    (hseg : Seg t.mem b p xs l (some t.root)) (hnd : (t.root :: addrs xs).Nodup)
    (hfuel : xs.length < fuel) :
    ∃ mem, closeQueued fuel p t = some { t with
        mem := mem
        closed := t.closed ++ openSockets xs } ∧
      Seg mem b p (xs.map reset) l (some t.root) ∧ ∀ a, a ∉ addrs xs → mem a = t.mem a := by
  induction xs generalizing fuel t b p with
  | nil =>
    obtain ⟨rfl, rfl⟩ := hseg
    obtain ⟨fuel, rfl⟩ := Nat.exists_eq_succ_of_ne_zero (Nat.pos_iff_ne_zero.mp hfuel)
    refine ⟨t.mem, ?_, ⟨rfl, rfl⟩, fun _ _ => rfl⟩
    rw [closeQueued, if_pos rfl, openSockets, List.map_nil, List.filter_nil, List.append_nil]
  | cons x xs ih =>
    obtain ⟨rfl, next, hx, hrest⟩ := hseg
    obtain ⟨fuel, rfl⟩ := Nat.exists_eq_succ_of_ne_zero (Nat.ne_zero_of_lt hfuel)
    rw [addrs, List.map_cons, List.nodup_cons, List.mem_cons, not_or, List.nodup_cons] at hnd
    obtain ⟨⟨hroot, hrootNot⟩, hxNot, hnd⟩ := hnd
    let t₁ : Threads := { t with
      mem := Function.update t.mem x.1 (some ⟨{ x.2 with s := -1 }, next, b⟩)
      closed := t.closed ++ if x.2.s ≠ -1 then [x.2.s] else [] }
    obtain ⟨mem, hrun, hseg', hother⟩ := ih (t := t₁) (hrest.update hxNot)
      (List.nodup_cons.mpr ⟨hrootNot, hnd⟩) (Nat.lt_of_succ_lt_succ hfuel)
    refine ⟨mem, ?_, ⟨rfl, next, ?_, hseg'⟩, fun a ha => ?_⟩
    · rw [closeQueued, if_neg (Ne.symm hroot), hx]
      refine hrun.trans ?_
      have hsockets : t₁.closed ++ openSockets xs = t.closed ++ openSockets (x :: xs) := by
        show (t.closed ++ if x.2.s ≠ -1 then [x.2.s] else []) ++ _ = _
        rw [openSockets, openSockets, List.map_cons, List.filter_cons, List.append_assoc]
        congr 1
        by_cases hs : x.2.s = -1 <;> simp [hs]
      rw [hsockets]
    · exact (hother _ hxNot).trans (Function.update_self ..)
    · rw [addrs, List.map_cons, List.mem_cons, not_or] at ha
      rw [hother a ha.2]
      exact Function.update_of_ne ha.1 ..

/-! ### One server -/

/-- A server of the parent, and what the handler makes of its copy in the child. -/
structure Child (n : ℕ) (t t' : Threads) : Prop where
  active : t'.active = false
  mutex : t'.pool_mutex = none
  ss : t'.ss = -1
  /-- No worker is at the queue. -/
  outside : ∀ w, ¬ (t.phase w).Critical
  /-- The queue is as it was, with closed sockets. -/
  queue : ∃ xs, Consistent t.toTherver xs ∧ Consistent t'.toTherver (xs.map reset)
  /-- What is still open is in the hands of threads that the child does not have. -/
  sockets : (t.opened : Multiset ℤ) = t'.closed + (held t + served n t)

section Child

variable {t : Threads} {xs : List (Addr × Conn)} {n fuel : ℕ}

/-- **The handler for one server** whose mutex the forking thread has. -/
theorem childTherver_spec (hs : Sound t xs) (hacc : Accounted n t xs)
    (hss : t.ss = -1 ↔ t.accepting = .ended) (hmutex : t.pool_mutex = some .forking)
    (hfuel : xs.length < fuel) : ∃ t', childTherver fuel t = some t' ∧ Child n t t' := by
  obtain ⟨c, first, last, hroot, hseg⟩ := hs.pool.ring
  let t₀ : Threads := closeListening { t with active := false }
  have ht₀ : t₀ = { t with
      active := false
      closed := t.closed ++ if t.ss ≠ -1 then [t.ss] else []
      ss := -1 } := by
    by_cases hopen : t.ss = -1
    · simp [t₀, closeListening, hopen]
    · simp [t₀, closeListening, hopen]
  -- the child has the listening socket closed before it goes through the queue
  obtain ⟨mem, hrun, hseg', hother⟩ := @closeQueued_spec fuel t₀ xs (some t.root) first last
    (by rw [ht₀]; exact hseg) (by rw [ht₀]; exact hs.pool.nodup) hfuel
  have hrootNot : t.root ∉ addrs xs := (List.nodup_cons.mp hs.pool.nodup).1
  have hroot₀ : t₀.mem t₀.root = some ⟨c, first, last⟩ := by
    rw [ht₀]
    exact hroot
  -- the handler ends; what it leaves is read off the two closing steps
  refine ⟨{ t₀ with mem := mem, closed := t₀.closed ++ openSockets xs, pool_mutex := none }, ?_,
    by rw [ht₀], rfl, by rw [ht₀], fun w hc => ?_, ⟨xs, hs.pool.consistent, ?_⟩, ?_⟩
  · simp only [childTherver, Option.bind_eq_bind]
    rw [show closeListening { t with active := false } = t₀ from rfl, hroot₀, Option.bind_some,
      hrun]
    rfl
  · -- a worker in a critical section would hold the mutex that `prefork` has taken
    have hworker := hs.holds hc
    rw [hmutex] at hworker
    cases hworker
  · -- the entries that are served are not touched
    have hinv : Inv { t.toTherver with
        mem := mem
        active := false
        closed := t₀.closed ++ openSockets xs } (xs.map reset) := by
      refine ⟨⟨c, first, last, ?_, ?_⟩, ?_, fun w me data hw => ?_, hs.pool.alone, hs.pool.root⟩
      · -- the root is not one of the entries
        show mem t.root = _
        rw [hother _ hrootNot, ht₀]
        exact hroot
      · rw [ht₀] at hseg'
        exact hseg'
      · rw [addrs_reset]
        exact hs.pool.nodup
      · -- an entry that is served has left the queue, so that its memory is as it was
        obtain ⟨hne, hout⟩ := hs.pool.serving w me data hw
        rw [addrs_reset]
        refine ⟨?_, hout⟩
        show mem me ≠ none
        rw [hother _ fun hin => hout (List.mem_cons_of_mem _ hin), ht₀]
        exact hne
    have hcons := hinv.consistent
    refine ⟨?_, ?_, ?_, hcons.val⟩
    · rw [ht₀]
      exact hcons.forwards
    · rw [ht₀]
      exact hcons.backwards
    · rw [ht₀]
      exact hcons.nodup
  · -- the listening socket and the queue are what is closed
    -- there is a listening socket as long as the accept thread has not ended
    have hlistening : listening t = ((if t.ss ≠ -1 then [t.ss] else [] : List ℤ) : Multiset ℤ) := by
      by_cases hend : t.accepting = .ended
      · rw [if_neg (not_not.mpr (hss.mpr hend))]
        simp only [listening, hend]
        rfl
      · rw [if_pos fun heq => hend (hss.mp heq)]
        rw [listening]
        split
        · next heq => exact absurd heq hend
        · rfl
    -- every queued socket is open, and none is -1
    have hqueued : queued xs = (openSockets xs : Multiset ℤ) := by
      rw [queued, openSockets, List.filter_eq_self.mpr]
      intro s hsin
      have hopen : s ∈ (t.opened : Multiset ℤ) := by
        rw [hacc.opened]
        refine Multiset.mem_add.mpr (Or.inr (Multiset.mem_add.mpr (Or.inl ?_)))
        exact Multiset.mem_add.mpr (Or.inr (Multiset.mem_coe.mpr hsin))
      exact decide_eq_true (hacc.valid s (Multiset.mem_coe.mp hopen))
    have hclosed : t₀.closed = t.closed ++ if t.ss ≠ -1 then [t.ss] else [] := by rw [ht₀]
    rw [hacc.opened, hlistening, hqueued, hclosed, ← Multiset.coe_add, ← Multiset.coe_add]
    abel

end Child

/-! ### All servers -/

/-- The listening socket is closed when the accept thread has ended. -/
theorem Moves.ss_iff {t t' : Threads} {xs ys : List (Addr × Conn)} {a : Act}
    (hm : Moves t xs a t' ys) (h : t.ss = -1 ↔ t.accepting = .ended) :
    t'.ss = -1 ↔ t'.accepting = .ended := by
  cases hm with
  | acceptTop hacc =>
    rw [hacc] at h
    rw [Pool.acceptTop]
    split
    · exact h.trans (by simp)
    · exact iff_of_true rfl rfl
  | @accept _ r hacc =>
    rw [hacc] at h
    cases hr : r.accept <;> exact h.trans (by simp [acceptReturns])
  | reject hacc | queue hacc =>
    rw [hacc] at h
    exact h.trans (by simp)
  | prefork =>
    rw [Pool.prefork]
    split <;> exact h
  | parent =>
    rw [forked_parent]
    split <;> exact h
  | _ => exact h

/-- How a server has been started, and what its threads have done since. -/
structure History where
  root : Addr
  ss : ℤ
  max_threads : ℕ
  acts : List Act

/-- The server is in the state `t` after its history. -/
structure History.Leads (s : History) (t : Threads) : Prop where
  ss : s.ss ≠ -1
  guarded : Run.Guarded next (Threads.start s.root s.ss s.max_threads) Returned s.acts
  /-- The services close the sockets or leave that to the workers. -/
  closes : ∀ a ∈ s.acts, a.Closes
  run : Run.run next (Threads.start s.root s.ss s.max_threads) s.acts = some t

theorem History.Leads.sound {s : History} {t : Threads} (h : s.Leads t) :
    ∃ xs, Sound t xs ∧ Accounted s.max_threads t xs ∧ (t.ss = -1 ↔ t.accepting = .ended) := by
  obtain ⟨t', xs, hrun, hs, hP⟩ := (Sound.start s.root s.ss s.max_threads).run
    (P := fun l t xs => (∀ a ∈ l, a.Closes) →
      Accounted s.max_threads t xs ∧ (t.ss = -1 ↔ t.accepting = .ended))
    (fun _ => ⟨.start s.root h.ss s.max_threads, iff_of_false h.ss nofun⟩)
    (fun l t xs a t' ys hs hP ha hm hall => by
      obtain ⟨hacc, hss⟩ := hP fun b hb => hall b (List.mem_append_left _ hb)
      exact ⟨hacc.step hs ha (hall a (by simp)) hm, hm.ss_iff hss⟩) h.guarded
  obtain rfl : t' = t := Option.some.inj (hrun.symm.trans h.run)
  exact ⟨xs, hs, hP h.closes⟩

/-- **The servers in the child of a fork.** Whatever the threads of the servers have done
before, in any order, with services that close the socket or leave that to the worker, once
`prefork` has all mutexes: no worker is at a queue, and the
handler in the child comes to an end. It shuts every server down, closes its listening
socket and every socket of its queue, and leaves the queue linked as it was. The sockets
that stay open are those which a worker or the accept thread has at the time of the fork. -/
theorem forked_child_closes {servers : List (History × Threads)}
    (h : ∀ p ∈ servers, p.1.Leads p.2 ∧ p.2.pool_mutex = some .forking) :
    ∃ bound, ∀ fuel, bound ≤ fuel → ∃ ts, forked_child fuel (servers.map Prod.snd) = some ts ∧
      List.Forall₂ (fun p t' => Child p.1.max_threads p.2 t') servers ts := by
  induction servers with
  | nil => exact ⟨0, fun _ _ => ⟨[], rfl, .nil⟩⟩
  | cons p servers ih =>
    obtain ⟨bound, hrest⟩ := ih fun q hq => h q (List.mem_cons_of_mem _ hq)
    obtain ⟨hleads, hmutex⟩ := h p (List.mem_cons_self ..)
    obtain ⟨xs, hs, hacc, hss⟩ := hleads.sound
    refine ⟨max bound (xs.length + 1), fun fuel hfuel => ?_⟩
    obtain ⟨ts, hrun, hall⟩ := hrest fuel ((le_max_left _ _).trans hfuel)
    obtain ⟨t', hone, hchild⟩ := childTherver_spec hs hacc hss hmutex
      (Nat.lt_of_succ_le ((le_max_right _ _).trans hfuel))
    refine ⟨t' :: ts, ?_, .cons hchild hall⟩
    rw [forked_child] at hrun
    rw [forked_child, List.map_cons, List.mapM_cons, hone, hrun]
    rfl

/-- A server is forked with a connection in the queue. -/
def forkedServer : History where
  root := 0
  ss := 3
  max_threads := 1
  acts := connect ++ [.prefork]

theorem forked_child_closes_one :
    ∃ t, Run.run next (Threads.start 0 3 1) forkedServer.acts = some t ∧
      ∃ bound, ∀ fuel, bound ≤ fuel → ∃ ts, forked_child fuel [t] = some ts ∧
        List.Forall₂ (fun p t' => Child p.1.max_threads p.2 t') [(forkedServer, t)] ts := by
  refine ⟨_, rfl, @forked_child_closes [(forkedServer, _)] fun p hp => ?_⟩
  obtain rfl := List.mem_singleton.mp hp
  refine ⟨⟨by decide, ?_, fun a ha => ?_, rfl⟩, rfl⟩
  · exact guarded_connect fun _ => .cons trivial fun _ _ => Run.guarded_nil _
  · simp only [forkedServer, connect, List.mem_append, List.mem_cons, List.not_mem_nil,
      or_false] at ha
    rcases ha with (rfl | rfl | rfl) | rfl <;> trivial

end Pool
end Osrv
