import Osrv.Lib.Monitor
import Osrv.Queue.Deque

/-!
# Threads that wait for events

`ev_push` and `ev_pop_wait` with the condition variable of a queue. A push signals
it, which releases at least one of the threads that are blocked on the queue. A call
of `ev_pop_wait` blocks as long as there is no entry; it is released by a signal, by
its timer or for no reason, and tests the queue again once it has the mutex. Other
threads may pop meanwhile.

Each step is one critical section of the queue, so that a history of these threads
contains one of the queue alone (`calls`). No signal is lost: while a thread is
blocked on a queue there is a released one for each entry (`no_signal_lost`).
-/

namespace Osrv
namespace Queue

open Links Monitor

variable {α : Type}

/-! ### Steps -/

/-- The queues with the threads that wait on each of them, and the calls of the queues that
have been made. -/
structure Monitored (α : Type) where
  world : World α
  cond : ℕ → Cond ℕ
  calls : List (Action α)

def Monitored.init : Monitored α := ⟨.init, fun _ => .init, []⟩

/-- The steps. A push releases `ts`, or those of them that are blocked. -/
inductive Move (α : Type)
  | create (a : Addr) (v : α)
  | push (q : ℕ) (e : Addr) (front : Bool) (ts : Finset ℕ)
  | pop (q : ℕ)
  /-- A thread calls `ev_pop_wait` and gets the mutex. -/
  | wait (q t : ℕ)
  /-- A thread is released by its timer, or for no reason. -/
  | release (q t : ℕ)
  /-- A released thread has the mutex again. -/
  | resume (q t : ℕ) (timedOut : Bool)
  | notifyFd (q fd : ℕ)
  | free (e : Addr)

/-- A call of the queue alone. -/
def call (m : Monitored α) (a : Action α) : Option (Monitored α) := do
  let w ← step m.world a
  some { m with world := w, calls := m.calls ++ [a] }

/-- A round of `ev_pop_wait`: the thread blocks, or it has a result. -/
def waitRound (m : Monitored α) (q t : ℕ) (timedOut : Bool) : Option (Monitored α) :=
  if (m.world.queue q).head = none ∧ ¬ timedOut then
    call { m with cond := Function.update m.cond q ((m.cond q).wait t) } (.popWait q timedOut)
  else call { m with cond := Function.update m.cond q ((m.cond q).resume t) } (.popWait q timedOut)

def monitor (m : Monitored α) : Move α → Option (Monitored α)
  | .create a v => call m (.create a v)
  | .push q e front ts =>
    call { m with cond := Function.update m.cond q ((m.cond q).release ts) } (.push q e front)
  | .pop q => call m (.pop q)
  | .wait q t => waitRound m q t false
  | .release q t =>
    some { m with cond := Function.update m.cond q ((m.cond q).release {t}) }
  | .resume q t timedOut => waitRound m q t timedOut
  | .notifyFd q fd => call m (.notifyFd q fd)
  | .free e => call m (.free e)

/-- The calls of the queue keep to its contract, a signal releases somebody if it can, and
the threads take their steps in turn. -/
def Permitted (m : Monitored α) : Move α → Prop
  | .create a v => Allowed m.world (.create a v)
  | .push q e front ts => Allowed m.world (.push q e front) ∧ (m.cond q).Signalled ts
  | .wait q t => t ∉ (m.cond q).blocked ∪ (m.cond q).released
  | .resume q t _ => t ∈ (m.cond q).released
  | .free e => Allowed m.world (.free e)
  | _ => True

/-! ### The invariant -/

/-- **The invariant**: the entries `d`, with enough released threads for them. -/
structure Watched (m : Monitored α) (d : ℕ → List (Addr × α)) : Prop where
  inv : Inv m.world d
  covered : ∀ q, Covered (d q).length (m.cond q)
  history : Run.run step World.init m.calls = some m.world
  deques : (fun q => addrs (d q)) = deques m.calls

theorem Watched.init : Watched (Monitored.init : Monitored α) fun _ => [] where
  inv := Inv.init
  covered _ := Covered.init
  history := rfl
  deques := rfl

section Step

variable {m : Monitored α} {d : ℕ → List (Addr × α)}

/-- **A call** of the queue, with other threads waiting afterwards. -/
theorem Watched.call (h : Watched m d) {a : Action α} (ha : Allowed m.world a)
    (cond : ℕ → Cond ℕ)
    (hcond : ∀ d' : ℕ → List (Addr × α), (fun q => addrs (d' q)) = deque (fun q => addrs (d q)) a →
      ∀ q, Covered (d' q).length (cond q)) :
    ∃ m' d', Queue.call { m with cond := cond } a = some m' ∧ Watched m' d' := by
  obtain ⟨w', d', hstep, hinv, hd⟩ := h.inv.step a ha
  refine ⟨{ world := w', cond := cond, calls := m.calls ++ [a] }, d', ?_, hinv, hcond d' hd, ?_, ?_⟩
  · simp only [Queue.call, hstep, Option.bind_eq_bind, Option.bind_some]
  · exact Run.run_snoc_eq_some.mpr ⟨m.world, h.history, hstep⟩
  · rw [hd, h.deques, Queue.deques, Queue.deques, List.foldl_append]
    rfl

/-- The number of entries of a queue, from its addresses. -/
theorem length_eq {d : ℕ → List (Addr × α)} {e : ℕ → List Addr}
    (h : (fun q => addrs (d q)) = e) (q : ℕ) : (d q).length = (e q).length := by
  rw [← congrFun h q, List.length_map]

/-- A call that does not add to a queue, and for which nobody waits otherwise. -/
theorem Watched.call_of_le (h : Watched m d) {a : Action α} (ha : Allowed m.world a)
    (hle : ∀ q, (deque (fun q => addrs (d q)) a q).length ≤ (addrs (d q)).length) :
    ∃ m' d', Queue.call m a = some m' ∧ Watched m' d' := by
  refine h.call ha m.cond fun d' hd q => (h.covered q).mono ?_
  rw [length_eq hd]
  exact (hle q).trans (by rw [List.length_map])

/-- **A round of `ev_pop_wait`.** -/
theorem Watched.waitRound (h : Watched m d) (q t : ℕ) (timedOut : Bool) :
    ∃ m' d', Queue.waitRound m q t timedOut = some m' ∧ Watched m' d' := by
  have hhead : (m.world.queue q).head = (addrs (d q)).head? := h.inv.head_eq q
  have htail : ∀ d' : ℕ → List (Addr × α),
      (fun q => addrs (d' q)) =
        deque (fun q => addrs (d q)) (.popWait q timedOut : Action α) →
      (d' q).length = (d q).length - 1 ∧ ∀ q', q' ≠ q → (d' q').length = (d q').length := by
    intro d' hd
    refine ⟨?_, fun q' hq => ?_⟩
    · rw [length_eq hd]
      show (Function.update (fun q => addrs (d q)) q (addrs (d q)).tail q).length = _
      rw [Function.update_self, List.length_tail, List.length_map]
    · rw [length_eq hd]
      show (Function.update (fun q => addrs (d q)) q (addrs (d q)).tail q').length = _
      rw [Function.update_of_ne hq, List.length_map]
  rw [Queue.waitRound]
  split
  · next hempty =>
    -- there is no entry
    rw [hhead, List.head?_eq_none_iff, List.map_eq_nil_iff] at hempty
    refine h.call (a := .popWait q timedOut) trivial _ fun d' hd q' => ?_
    obtain ⟨hq, hother⟩ := htail d' hd
    by_cases hq' : q' = q
    · rw [hq', Function.update_self, hq, hempty.1]
      exact Covered.wait _ _
    · rw [Function.update_of_ne hq', hother q' hq']
      exact h.covered q'
  · refine h.call (a := .popWait q timedOut) trivial _ fun d' hd q' => ?_
    obtain ⟨hq, hother⟩ := htail d' hd
    by_cases hq' : q' = q
    · rw [hq', Function.update_self, hq]
      exact (h.covered q).resume t
    · rw [Function.update_of_ne hq', hother q' hq']
      exact h.covered q'

/-- **A step keeps the invariant.** -/
theorem Watched.step (h : Watched m d) (a : Move α) (ha : Permitted m a) :
    ∃ m' d', monitor m a = some m' ∧ Watched m' d' := by
  cases a with
  | create a v => exact h.call_of_le (a := .create a v) ha fun _ => le_rfl
  | free e => exact h.call_of_le (a := .free e) ha fun _ => le_rfl
  | notifyFd q fd => exact h.call_of_le (a := .notifyFd q fd) trivial fun _ => le_rfl
  | pop q =>
    refine h.call_of_le (a := .pop q) trivial fun q' => ?_
    show (Function.update (fun q => addrs (d q)) q (addrs (d q)).tail q').length ≤ _
    by_cases hq : q' = q
    · rw [hq, Function.update_self, List.length_tail]
      exact Nat.sub_le _ _
    · rw [Function.update_of_ne hq]
  | push q e front ts =>
    obtain ⟨hallowed, hts⟩ := ha
    refine h.call (a := .push q e front) hallowed _ fun d' hd q' => ?_
    rw [length_eq hd]
    show Covered (Function.update (fun q => addrs (d q)) q _ q').length _
    by_cases hq : q' = q
    · rw [hq, Function.update_self, Function.update_self]
      have hlen : (pushed front e (addrs (d q))).length = (d q).length + 1 := by
        cases front <;> simp [pushed]
      rw [hlen]
      exact (h.covered q).signal hts
    · rw [Function.update_of_ne hq, Function.update_of_ne hq, List.length_map]
      exact h.covered q'
  | wait q t => exact h.waitRound q t false
  | resume q t timedOut => exact h.waitRound q t timedOut
  | release q t =>
    refine ⟨_, d, rfl, h.inv, fun q' => ?_, h.history, h.deques⟩
    show Covered _ (Function.update m.cond q _ q')
    by_cases hq : q' = q
    · rw [hq, Function.update_self]
      exact (h.covered q).release _
    · rw [Function.update_of_ne hq]
      exact h.covered q'

end Step

/-! ### No signal is lost -/

/-- **No signal is lost.** In every history of any number of threads that push, pop and wait
on any number of queues, with timers that expire and threads that wake up for no reason:
what the threads have made of the queues is a history of deques. While a thread is
blocked on a queue there are at least as many released ones as there are entries. So if
there is an entry one of them takes the first one as soon as it has the mutex, whatever its
timer says; and once no thread is released, a queue on which a thread is blocked is
empty. -/
theorem no_signal_lost {l : List (Move α)}
    (hl : Run.Guarded monitor Monitored.init Permitted l) :
    ∃ m, Run.run monitor Monitored.init l = some m ∧
      Run.run step World.init m.calls = some m.world ∧
      ∀ q, Consistent m.world.toState q (deques m.calls q) ∧
        ((m.cond q).blocked.Nonempty →
          (deques m.calls q).length ≤ (m.cond q).released.card ∧
          ((m.cond q).released = ∅ → deques m.calls q = []) ∧
          ∀ e, (deques m.calls q).head? = some e → ∃ t ∈ (m.cond q).released, ∀ timedOut,
            ∃ s, ev_pop_wait q timedOut m.world.toState = some (.over (some e, s))) := by
  obtain ⟨m, hrun, d, hm⟩ := Run.total_guarded (P := fun _ m => ∃ d, Watched m d)
    ⟨_, Watched.init⟩ (fun l m a hP ha => by
      obtain ⟨d, hm⟩ := hP
      obtain ⟨m', d', hstep, hm'⟩ := hm.step a ha
      exact ⟨m', hstep, d', hm'⟩) hl
  refine ⟨m, hrun, hm.history, fun q => ?_⟩
  have hq : deques m.calls q = addrs (d q) := (congrFun hm.deques q).symm
  have hlen : (deques m.calls q).length = (d q).length := by rw [hq, List.length_map]
  refine ⟨hq ▸ hm.inv.consistent q, fun hblocked => ⟨?_, fun hnone => ?_, fun e he => ?_⟩⟩
  · rw [hlen]
    exact hm.covered q hblocked
  · rw [← List.length_eq_zero_iff, hlen]
    exact (hm.covered q).quiet hblocked hnone
  · have hne : (d q).length ≠ 0 := by
      rw [← hlen]
      intro hzero
      rw [List.length_eq_zero_iff.mp hzero] at he
      cases he
    obtain ⟨t, ht⟩ := (hm.covered q).exists_released hblocked hne
    refine ⟨t, ht, fun timedOut => ?_⟩
    obtain ⟨e', s, hpop, he', -, -⟩ := hm.inv.pop q
    rw [← hq, he] at he'
    have hhead : (m.world.queue q).head ≠ none := by
      rw [hm.inv.head_eq q, ← hq, he]
      nofun
    refine ⟨s, ?_⟩
    simp only [ev_pop_wait, hhead, false_and, if_false, hpop, he', Option.bind_eq_bind,
      Option.bind_some]

/-- A thread waits, and another one pushes an entry. -/
def waitAndPush : List (Move Unit) := [.wait 0 5, .create 7 (), .push 0 7 false {5}]

theorem no_signal_lost_one :
    ∃ m, Run.run monitor Monitored.init waitAndPush = some m ∧
      Run.run step World.init m.calls = some m.world ∧
      ∀ q, Consistent m.world.toState q (deques m.calls q) ∧
        ((m.cond q).blocked.Nonempty →
          (deques m.calls q).length ≤ (m.cond q).released.card ∧
          ((m.cond q).released = ∅ → deques m.calls q = []) ∧
          ∀ e, (deques m.calls q).head? = some e → ∃ t ∈ (m.cond q).released, ∀ timedOut,
            ∃ s, ev_pop_wait q timedOut m.world.toState = some (.over (some e, s))) := by
  refine no_signal_lost (l := waitAndPush) (Run.Guarded.cons ?_ fun m hm => ?_)
  · simp [Permitted, Monitored.init, Cond.init]
  obtain rfl := Option.some.inj hm
  refine Run.Guarded.cons rfl fun m hm => ?_
  obtain rfl := Option.some.inj hm
  refine Run.Guarded.cons ⟨List.mem_cons_self .., fun _ => ⟨5, ?_⟩⟩ fun m _ => Run.guarded_nil _
  decide

end Queue
end Osrv
