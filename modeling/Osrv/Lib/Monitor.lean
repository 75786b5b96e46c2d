import Mathlib.Data.Finset.Card
import Mathlib.Data.Finset.Basic

/-!
# Condition variables

The threads that have to do with one condition variable: those that are blocked on
it, and those that have been released and have not got the mutex back. A signal
releases at least one of the blocked threads, if there is any, and a broadcast
releases all of them. A thread may also be released for no reason.

`Covered n c` says that no wake-up is lost when `n` things can be taken: either no
thread is blocked, or there is a released thread for each of the `n`. Signals are
enough to keep it (`Covered.signal`), whatever threads take things without
blocking. Broadcasts keep the stronger `Awake`: nothing can be taken while a thread
is blocked.
-/

namespace Monitor

/-- A condition variable. No thread is blocked and released. -/
@[ext] structure Cond (T : Type*) [DecidableEq T] where
  blocked : Finset T
  released : Finset T
  disjoint : Disjoint blocked released

variable {T : Type*} [DecidableEq T]

namespace Cond

/-- No thread waits. -/
def init : Cond T := ⟨∅, ∅, Finset.disjoint_empty_left _⟩

/-- A thread that is not released blocks. -/
def wait (t : T) (c : Cond T) : Cond T where
  blocked := insert t c.blocked
  released := c.released.erase t
  disjoint := by
    rw [Finset.disjoint_insert_left]
    exact ⟨Finset.notMem_erase t _, c.disjoint.mono_right (Finset.erase_subset t _)⟩

/-- Those of `ts` that are blocked are released. -/
def release (ts : Finset T) (c : Cond T) : Cond T where
  blocked := c.blocked \ ts
  released := c.released ∪ (c.blocked ∩ ts)
  disjoint := by
    rw [Finset.disjoint_union_right]
    refine ⟨c.disjoint.mono_left Finset.sdiff_subset, ?_⟩
    exact Finset.sdiff_disjoint.mono_right Finset.inter_subset_right

/-- All of them are released. -/
def broadcast (c : Cond T) : Cond T := c.release c.blocked

/-- A released thread has the mutex again. -/
def resume (t : T) (c : Cond T) : Cond T where
  blocked := c.blocked
  released := c.released.erase t
  disjoint := c.disjoint.mono_right (Finset.erase_subset t _)

/-- A choice of threads that a signal may make. -/
def Signalled (ts : Finset T) (c : Cond T) : Prop := c.blocked.Nonempty → (c.blocked ∩ ts).Nonempty

instance (ts : Finset T) (c : Cond T) : Decidable (Signalled ts c) := by
  unfold Signalled
  infer_instance

@[simp] theorem blocked_broadcast (c : Cond T) : c.broadcast.blocked = ∅ :=
  Finset.sdiff_self _

@[simp] theorem released_broadcast (c : Cond T) :
    c.broadcast.released = c.released ∪ c.blocked := by
  show c.released ∪ (c.blocked ∩ c.blocked) = _
  rw [Finset.inter_self]

/-- A thread that waits goes on waiting, blocked or not, when others are released. -/
theorem mem_release {ts : Finset T} {c : Cond T} {t : T} :
    t ∈ (c.release ts).blocked ∪ (c.release ts).released ↔ t ∈ c.blocked ∪ c.released := by
  simp only [release, Finset.mem_union, Finset.mem_sdiff, Finset.mem_inter]
  tauto

/-- The threads that are released now are not among those released before. -/
theorem card_released_release (ts : Finset T) (c : Cond T) :
    (c.release ts).released.card = c.released.card + (c.blocked ∩ ts).card :=
  Finset.card_union_of_disjoint (c.disjoint.symm.mono_right Finset.inter_subset_left)

end Cond

open Cond

variable {c : Cond T} {n m : ℕ} {t : T}

/-! ### Signals -/

/-- **No wake-up is lost**: while a thread is blocked, there is a released one for each of
the `n` things that can be taken. -/
def Covered (n : ℕ) (c : Cond T) : Prop := c.blocked.Nonempty → n ≤ c.released.card

theorem Covered.init : Covered n (Cond.init : Cond T) := fun h => absurd h Finset.not_nonempty_empty

theorem Covered.mono (h : Covered n c) (hm : m ≤ n) : Covered m c := fun hne => hm.trans (h hne)

/-- A thread blocks when there is nothing to take. -/
theorem Covered.wait (c : Cond T) (t : T) : Covered 0 (c.wait t) := fun _ => Nat.zero_le _

/-- Threads are released for no reason. -/
theorem Covered.release (h : Covered n c) (ts : Finset T) : Covered n (c.release ts) := by
  intro hne
  rw [card_released_release]
  exact (h (hne.mono Finset.sdiff_subset)).trans (Nat.le_add_right _ _)

/-- **A signal** for one thing more. -/
theorem Covered.signal (h : Covered n c) {ts : Finset T} (hts : Signalled ts c) :
    Covered (n + 1) (c.release ts) := by
  intro hne
  have hblocked : c.blocked.Nonempty := hne.mono Finset.sdiff_subset
  rw [card_released_release]
  exact Nat.add_le_add (h hblocked) (Finset.card_pos.mpr (hts hblocked))

/-- **A released thread** takes something. -/
theorem Covered.resume (h : Covered n c) (t : T) : Covered (n - 1) (c.resume t) := by
  intro hne
  refine le_trans ?_ (Finset.pred_card_le_card_erase (a := t))
  exact Nat.sub_le_sub_right (h hne) 1

/-- Once all released threads have run, nothing can be taken if a thread is blocked. -/
theorem Covered.quiet (h : Covered n c) (hne : c.blocked.Nonempty) (hr : c.released = ∅) :
    n = 0 := by
  have hcard := h hne
  rw [hr, Finset.card_empty] at hcard
  exact Nat.le_zero.mp hcard

/-- While a thread is blocked and something can be taken, a released one is about to run. -/
theorem Covered.exists_released (h : Covered n c) (hne : c.blocked.Nonempty) (hn : n ≠ 0) :
    ∃ t, t ∈ c.released :=
  Finset.card_pos.mp ((Nat.pos_of_ne_zero hn).trans_le (h hne))

/-! ### Broadcasts -/

/-- **No thread is blocked** while something can be taken. -/
def Awake (n : ℕ) (c : Cond T) : Prop := n ≠ 0 → c.blocked = ∅

theorem Awake.init : Awake n (Cond.init : Cond T) := fun _ => rfl

theorem Awake.mono (h : Awake n c) (hm : m ≤ n) : Awake m c := by
  intro hne
  exact h fun hn => hne (Nat.le_zero.mp (hn ▸ hm))

theorem Awake.wait (c : Cond T) (t : T) : Awake 0 (c.wait t) := fun h => absurd rfl h

theorem Awake.release (h : Awake n c) (ts : Finset T) : Awake n (c.release ts) := by
  intro hn
  show c.blocked \ ts = ∅
  rw [h hn, Finset.empty_sdiff]

/-- **A broadcast**, for any number of things. -/
theorem Awake.broadcast (c : Cond T) : Awake n c.broadcast := fun _ => blocked_broadcast c

theorem Awake.resume (h : Awake n c) (t : T) : Awake n (c.resume t) := h

theorem Awake.covered (h : Awake n c) : Covered n c := by
  intro hne
  by_cases hn : n = 0
  · rw [hn]
    exact Nat.zero_le _
  · rw [h hn] at hne
    exact absurd hne Finset.not_nonempty_empty

end Monitor
