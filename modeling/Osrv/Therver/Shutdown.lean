import Osrv.Therver.Threads

/-!
# After a shutdown

`therver_shutdown` writes `active` and wakes nobody, and it may come between any two
steps of the threads. What still happens is bounded by where the threads are at that
moment. A worker that has read `active` for the last time takes the entry that it has
seen, which one worker at most can be about to do, since it holds the mutex
(`unlinking`). The accept thread accepts one connection at most (`toAccept`) and
queues one at most (`toQueue`). Nobody takes that one, and without it the workers
that are blocked stay blocked.
-/

namespace Osrv
namespace Pool

open Links Monitor

/-! ### What may still happen -/

/-- Whether a worker is about to take an entry. -/
def unlinking (t : Threads) : ℕ :=
  match t.pool_mutex with
  | some (.worker w) =>
    match t.phase w with
    | .unlink _ => 1
    | _ => 0
  | _ => 0

/-- Whether the accept thread is in `accept`. -/
def toAccept (t : Threads) : ℕ :=
  match t.accepting with
  | .accept => 1
  | _ => 0

/-- Whether the accept thread is in `accept` or has a connection. -/
def toQueue (t : Threads) : ℕ :=
  match t.accepting with
  | .accept | .received _ => 1
  | _ => 0

section Unlinking

variable {t t' : Threads} {xs ys : List (Addr × Conn)}

theorem unlinking_le_one (t : Threads) : unlinking t ≤ 1 := by
  rw [unlinking]
  split
  · split
    · exact le_rfl
    · exact Nat.zero_le _
  · exact Nat.zero_le _

/-- The worker that is about to take an entry has the mutex. -/
theorem Sound.unlinking_eq (h : Sound t xs) {w : ℕ} {me : Ptr} (hw : t.phase w = .unlink me) :
    unlinking t = 1 := by
  have hmutex := h.holds (w := w) (by rw [hw]; trivial)
  simp only [unlinking, hmutex, hw]

theorem exists_of_unlinking (h : unlinking t ≠ 0) : ∃ w me, t.phase w = .unlink me := by
  rw [unlinking] at h
  split at h
  · next w _ =>
    split at h
    · next me hme => exact ⟨w, me, hme⟩
    · exact absurd rfl h
  · exact absurd rfl h

/-- If no other worker gets there, no more is about to happen. -/
theorem Sound.unlinking_le (h : Sound t xs)
    (hphase : ∀ w me, t'.phase w = .unlink me → ∃ me', t.phase w = .unlink me') :
    unlinking t' ≤ unlinking t := by
  by_cases hne : unlinking t' = 0
  · rw [hne]
    exact Nat.zero_le _
  · obtain ⟨w, me, hw⟩ := exists_of_unlinking hne
    obtain ⟨me', hw'⟩ := hphase w me hw
    rw [h.unlinking_eq hw']
    exact unlinking_le_one t'

end Unlinking

/-! ### The invariant -/

/-- Nobody wakes up for no reason. -/
def Act.Regular : Act → Prop
  | .spurious _ => False
  | _ => True

/-- **Since a shutdown** in the state `t₀` with the queue `xs₀`. -/
structure Down (t₀ : Threads) (xs₀ : List (Addr × Conn)) (l : List Act) (t : Threads)
    (xs : List (Addr × Conn)) : Prop where
  active : t.active = false
  taken : ∃ ys, t.taken = t₀.taken ++ ys ∧ ys.length + unlinking t ≤ unlinking t₀
  arrived : ∃ zs, t.taken ++ xs = t₀.taken ++ xs₀ ++ zs ∧ zs.length + toQueue t ≤ toQueue t₀ ∧
    ((∀ a ∈ l, a.Regular) → zs = [] → t₀.pool_work_cond.blocked ⊆ t.pool_work_cond.blocked)
  opened : t.opened.length + toAccept t ≤ t₀.opened.length + toAccept t₀

section Step

variable {t₀ t t' : Threads} {xs₀ xs ys : List (Addr × Conn)} {l : List Act} {a : Act} {w : ℕ}

theorem Down.init (hactive : t.active = false) : Down t xs [] t xs where
  active := hactive
  taken := ⟨[], (List.append_nil _).symm, (Nat.zero_add _).le⟩
  arrived := ⟨[], (List.append_nil _).symm, (Nat.zero_add _).le, fun _ _ => Finset.Subset.refl _⟩
  opened := le_rfl

/-- **A step that takes and queues nothing.** -/
theorem Down.keep (h : Down t₀ xs₀ l t xs) (hs : Sound t xs) (hactive : t'.active = t.active)
    (htaken : t'.taken = t.taken)
    (hphase : ∀ w me, t'.phase w = .unlink me → ∃ me', t.phase w = .unlink me')
    (hqueue : toQueue t' ≤ toQueue t)
    (hopened : t'.opened.length + toAccept t' ≤ t.opened.length + toAccept t)
    (hblocked : a.Regular → t.pool_work_cond.blocked ⊆ t'.pool_work_cond.blocked) :
    Down t₀ xs₀ (l ++ [a]) t' xs where
  active := hactive.trans h.active
  taken := by
    obtain ⟨ys, htaken', hle⟩ := h.taken
    refine ⟨ys, htaken.trans htaken', ?_⟩
    exact (Nat.add_le_add_left (hs.unlinking_le hphase) _).trans hle
  arrived := by
    obtain ⟨zs, hall, hle, hkeep⟩ := h.arrived
    refine ⟨zs, by rw [htaken, hall], (Nat.add_le_add_left hqueue _).trans hle, ?_⟩
    intro hregular hzs
    exact (hkeep (fun b hb => hregular b (List.mem_append_left _ hb)) hzs).trans
      (hblocked (hregular a (by simp)))
  opened := hopened.trans h.opened

/-- A worker goes to a place where it takes nothing. -/
theorem Down.goto (h : Down t₀ xs₀ l t xs) (hs : Sound t xs) {p : Phase}
    (hp : ∀ me, p ≠ .unlink me) (hphase : t'.phase = Function.update t.phase w p)
    (hactive : t'.active = t.active) (htaken : t'.taken = t.taken)
    (haccepting : t'.accepting = t.accepting) (hopened : t'.opened = t.opened)
    (hblocked : t'.pool_work_cond.blocked = t.pool_work_cond.blocked) :
    Down t₀ xs₀ (l ++ [a]) t' xs := by
  refine h.keep hs hactive htaken (fun v me hv => ?_) ?_ ?_ fun _ => ?_
  · by_cases hvw : v = w
    · rw [hphase, hvw, Function.update_self] at hv
      exact absurd hv (hp me)
    · rw [hphase, Function.update_of_ne hvw] at hv
      exact ⟨me, hv⟩
  · rw [toQueue, toQueue, haccepting]
  · rw [hopened, toAccept, toAccept, haccepting]
  · rw [hblocked]

/-- **A step** after the shutdown. -/
theorem Down.step (h : Down t₀ xs₀ l t xs) (hs : Sound t xs) (hm : Moves t xs a t' ys) :
    Down t₀ xs₀ (l ++ [a]) t' ys := by
  -- the branches of an active server
  have hinactive : t.active ≠ true := by
    rw [h.active]
    nofun
  cases hm with
  | ended | blocked | hold | finished =>
    exact h.keep hs rfl rfl (fun w me hw => ⟨me, hw⟩) le_rfl le_rfl fun _ => Finset.Subset.refl _
  | enter _ _ hactive => exact absurd hactive hinactive
  | wait _ _ hactive => exact absurd hactive hinactive
  | see _ _ hactive => exact absurd hactive hinactive
  | decide _ _ hactive => exact absurd hactive hinactive
  | quit | drop => exact h.goto hs (p := .top) nofun rfl rfl rfl rfl rfl rfl
  | lock | resume => exact h.goto hs (p := .test) nofun rfl rfl rfl rfl rfl rfl
  | miss => exact h.goto hs (p := .check none) nofun rfl rfl rfl rfl rfl rfl
  | @take x _ _ _ _ _ hw hp =>
    -- an entry that was decided on before the shutdown is taken
    refine ⟨h.active, ?_, ?_, h.opened⟩
    · obtain ⟨ys, htaken, hle⟩ := h.taken
      refine ⟨ys ++ [x], ?_, ?_⟩
      · show t.taken ++ [x] = _
        rw [htaken, List.append_assoc]
      · rw [hs.unlinking_eq hp] at hle
        rw [List.length_append, List.length_singleton]
        exact hle
    · obtain ⟨zs, hall, hle, hkeep⟩ := h.arrived
      refine ⟨zs, ?_, hle, fun hregular =>
        hkeep fun b hb => hregular b (List.mem_append_left _ hb)⟩
      rw [← hall]
      exact List.append_assoc ..
  | serve hw he =>
    exact h.keep hs rfl rfl (fun w me hw => ⟨me, hw⟩) le_rfl le_rfl fun _ => Finset.Subset.refl _
  | acceptTop hacc =>
    -- the accept thread sees that the server is down, and ends
    rw [Pool.acceptTop, if_neg hinactive]
    exact h.keep hs rfl rfl (fun w me hw => ⟨me, hw⟩) (Nat.zero_le _) (Nat.le_add_right _ _)
      fun _ => Finset.Subset.refl _
  | @accept _ r hacc =>
    -- it was in `accept` at the time of the shutdown: this is the last socket
    have htoAccept : toAccept t = 1 := by simp only [toAccept, hacc]
    have htoQueue : toQueue t = 1 := by simp only [toQueue, hacc]
    cases hr : r.accept with
    | none =>
      exact h.keep hs rfl rfl (fun w me hw => ⟨me, hw⟩) (Nat.zero_le _) (Nat.le_add_right _ _)
        fun _ => Finset.Subset.refl _
    | some s =>
      refine h.keep hs rfl rfl (fun w me hw => ⟨me, hw⟩) ?_ ?_ fun _ => Finset.Subset.refl _
      · rw [htoQueue]
        exact le_rfl
      · rw [htoAccept]
        show (t.opened ++ [s]).length + 0 ≤ t.opened.length + 1
        rw [List.length_append, List.length_singleton, Nat.add_zero]
  | reject hacc =>
    exact h.keep hs rfl rfl (fun w me hw => ⟨me, hw⟩) (Nat.zero_le _) (Nat.add_le_add_left
      (Nat.zero_le _) _) fun _ => Finset.Subset.refl _
  | @queue _ r s me mem hacc =>
    -- the connection that was accepted comes last in the queue, which is then not empty: the
    -- clause on an empty queue has nothing to say
    have htoQueue : toQueue t = 1 := by simp only [toQueue, hacc]
    refine ⟨h.active, h.taken, ?_, (Nat.add_le_add_left (Nat.zero_le _) _).trans h.opened⟩
    obtain ⟨zs, hall, hle, -⟩ := h.arrived
    refine ⟨zs ++ [(me, ⟨s, none⟩)], ?_, ?_, fun _ hnil => absurd hnil (by simp)⟩
    · show t.taken ++ (xs ++ [(me, ⟨s, none⟩)]) = _
      rw [← List.append_assoc, hall, List.append_assoc]
    · rw [htoQueue] at hle
      rw [List.length_append, List.length_singleton]
      exact hle
  | shutdown =>
    exact h.keep hs h.active.symm rfl (fun w me hw => ⟨me, hw⟩) le_rfl le_rfl
      fun _ => Finset.Subset.refl _
  | prefork =>
    rw [Pool.prefork]
    split <;> exact h.keep hs rfl rfl (fun w me hw => ⟨me, hw⟩) le_rfl le_rfl
      fun _ => Finset.Subset.refl _
  | parent =>
    rw [forked_parent]
    split <;> exact h.keep hs rfl rfl (fun w me hw => ⟨me, hw⟩) le_rfl le_rfl
      fun _ => Finset.Subset.refl _
  | spurious =>
    exact h.keep hs rfl rfl (fun w me hw => ⟨me, hw⟩) le_rfl le_rfl fun hreg => hreg.elim

end Step

/-! ### After the shutdown -/

/-- **What a shutdown leaves to be done.** In every run of the threads of a server, from any
state in which it has been shut down: no connection is taken any more, but for one that a
worker is about to take at that moment; one connection at most is accepted and one at most
is queued, namely by the accept thread if it was in `accept` or had a connection. If nobody
wakes up for no reason, every worker that was blocked stays blocked unless a connection is
queued. While one is queued, nobody is blocked. -/
theorem after_shutdown (root : Addr) (ss : ℤ) (max_threads : ℕ) {l l' : List Act} {t₀ : Threads}
    (hl : Run.Guarded next (Threads.start root ss max_threads) Returned l)
    (hrun : Run.run next (Threads.start root ss max_threads) l = some t₀)
    (hactive : t₀.active = false) (hl' : Run.Guarded next t₀ Returned l') :
    ∃ xs₀ t xs ys zs, Run.run next t₀ l' = some t ∧
      Consistent t₀.toTherver xs₀ ∧ Consistent t.toTherver xs ∧ t.active = false ∧
      t.taken = t₀.taken ++ ys ∧ ys.length ≤ unlinking t₀ ∧
      t.taken ++ xs = t₀.taken ++ xs₀ ++ zs ∧ zs.length ≤ toQueue t₀ ∧
      t.opened.length ≤ t₀.opened.length + toAccept t₀ ∧
      ((∀ a ∈ l', a.Regular) → zs = [] →
        t₀.pool_work_cond.blocked ⊆ t.pool_work_cond.blocked) ∧
      (xs ≠ [] → t.pool_work_cond.blocked = ∅) := by
  obtain ⟨t₁, xs₀, hrun₁, hs₀, -⟩ := (Sound.start root ss max_threads).run
    (P := fun _ _ _ => True) trivial (fun _ _ _ _ _ _ _ _ _ _ => trivial) hl
  obtain rfl : t₁ = t₀ := Option.some.inj (hrun₁.symm.trans hrun)
  obtain ⟨t, xs, hrun', hs, hdown⟩ := hs₀.run (P := Down t₁ xs₀) (Down.init hactive)
    (fun l t xs a t' ys hs hP _ hm => hP.step hs hm) hl'
  obtain ⟨ys, htaken, hys⟩ := hdown.taken
  obtain ⟨zs, hall, hzs, hkeep⟩ := hdown.arrived
  refine ⟨xs₀, t, xs, ys, zs, hrun', hs₀.pool.consistent, hs.pool.consistent, hdown.active, htaken,
    (Nat.le_add_right _ _).trans hys, hall, (Nat.le_add_right _ _).trans hzs,
    (Nat.le_add_right _ _).trans hdown.opened, hkeep, fun hne => ?_⟩
  exact hs.awake fun hlen => hne (List.length_eq_zero_iff.mp hlen)

/-- A server that is shut down when a worker is about to take a connection. -/
def shutDown : List Act := connect ++ List.replicate 4 (.worker 0 fun c => (c, [])) ++ [.shutdown]

theorem guarded_shutDown : Run.Guarded next (Threads.start 0 3 1) Returned shutDown :=
  guarded_connect fun _ => .cons trivial fun _ _ => .cons trivial fun _ _ =>
    .cons trivial fun _ _ => .cons trivial fun _ _ => .cons trivial fun _ _ => Run.guarded_nil _

theorem after_shutdown_taking :
    ∃ t₀, Run.run next (Threads.start 0 3 1) shutDown = some t₀ ∧ ∃ xs₀ t xs ys zs,
      Run.run next t₀ [.worker 0 fun c => (c, []), .accepting ⟨none, none⟩] = some t ∧
      Consistent t₀.toTherver xs₀ ∧ Consistent t.toTherver xs ∧ t.active = false ∧
      t.taken = t₀.taken ++ ys ∧ ys.length ≤ unlinking t₀ ∧
      t.taken ++ xs = t₀.taken ++ xs₀ ++ zs ∧ zs.length ≤ toQueue t₀ ∧
      t.opened.length ≤ t₀.opened.length + toAccept t₀ ∧
      (zs = [] → t₀.pool_work_cond.blocked ⊆ t.pool_work_cond.blocked) ∧
      (xs ≠ [] → t.pool_work_cond.blocked = ∅) := by
  have hl' : ∀ t₀, Run.Guarded next t₀ Returned
      [.worker 0 fun c => (c, []), .accepting ⟨none, none⟩] := fun _ =>
    .cons trivial fun _ _ =>
      .cons ⟨fun _ h => (by cases h), fun _ h => (by cases h)⟩ fun _ _ => Run.guarded_nil _
  obtain ⟨xs₀, t, xs, ys, zs, hrun, h₀, h, hactive, htaken, hys, hall, hzs, hopened, hkeep,
    hawake⟩ := after_shutdown 0 3 1 guarded_shutDown rfl rfl (hl' _)
  refine ⟨_, rfl, xs₀, t, xs, ys, zs, hrun, h₀, h, hactive, htaken, hys, hall, hzs, hopened,
    hkeep fun a ha => ?_, hawake⟩
  simp only [List.mem_cons, List.not_mem_nil, or_false] at ha
  obtain rfl | rfl := ha
  · trivial
  · trivial

end Pool
end Osrv
