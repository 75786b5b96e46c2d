import Osrv.Lib.Locks

/-!
# The order of the locks

What the functions of `obj.c`, `deps.c` and `evqueue.c` do to their mutexes.
`obj_add` notifies inside its critical section, so `dep_mutex` and the mutex of
`dep_queue` are locked under `obj_mutex`. `deps_add` looks its keys up before it
enters a critical section of its own, and `ev_push` under `dep_mutex` goes to
`dep_queue`. The locks are always taken in the order of `Mutex.rank`, so calls of
these functions from any number of threads do not block each other for good.

Branches and loops on data are choices and any number of rounds. All allocations of
`ev_create` and `deps_add` may fail. `pthread_mutex_lock` of a queue may report an
error, after which the function returns without the lock.
-/

namespace Osrv
namespace Mutexes

open Locks

variable {Q T : Type}

/-- The mutexes: two static ones, and one for each queue. -/
inductive Mutex (Q : Type)
  | obj_mutex
  | dep_mutex
  | queue (q : Q)
deriving DecidableEq

/-- The order in which they are taken. -/
def Mutex.rank : Mutex Q → ℕ
  | .obj_mutex => 0
  | .dep_mutex => 1
  | .queue _ => 2

/-! ### The functions -/

/-- Returns at once without an entry, or if the mutex cannot be locked. -/
def ev_push (q : Q) : Prog (Mutex Q) := .alt .skip (.critical (.queue q) .skip)

/-- Returns at once without a queue, or if the mutex cannot be locked. -/
def ev_pop (q : Q) : Prog (Mutex Q) := .alt .skip (.critical (.queue q) .skip)

/-- One round for each request. It reports the request if all keys are there and an
event can be created. -/
def deps_complete (dep_queue : Q) : Prog (Mutex Q) :=
  .critical .dep_mutex (.loop (.alt .skip (ev_push dep_queue)))

/-- The notification is in the critical section. -/
def obj_add (dep_queue : Q) : Prog (Mutex Q) := .critical .obj_mutex (deps_complete dep_queue)

def obj_get : Prog (Mutex Q) := .critical .obj_mutex .skip

/-- The loop over the pool locks nothing. -/
def obj_gc : Prog (Mutex Q) := .critical .obj_mutex .skip

/-- Returns at once if the request cannot be allocated. Otherwise the keys are looked
up one by one, the request is appended, and all requests are checked. -/
def deps_add (dep_queue : Q) : Prog (Mutex Q) :=
  .alt .skip
    (.seq (.loop obj_get) (.seq (.critical .dep_mutex .skip) (deps_complete dep_queue)))

/-- A call. -/
inductive Call (Q : Type)
  | obj_add
  | obj_get
  | obj_gc
  | deps_add
  | deps_complete
  | ev_push (q : Q)
  | ev_pop (q : Q)

/-- What it does. There is one `dep_queue`. -/
def Call.code (dep_queue : Q) : Call Q → Prog (Mutex Q)
  | .obj_add => Mutexes.obj_add dep_queue
  | .obj_get => Mutexes.obj_get
  | .obj_gc => Mutexes.obj_gc
  | .deps_add => Mutexes.deps_add dep_queue
  | .deps_complete => Mutexes.deps_complete dep_queue
  | .ev_push q => Mutexes.ev_push q
  | .ev_pop q => Mutexes.ev_pop q

/-! ### Nesting -/

section Nesting

variable {q : Q}

theorem ev_push_nested : Nested Mutex.rank 2 (ev_push q) :=
  .alt .skip (.critical .skip (le_refl 2))

theorem ev_pop_nested : Nested Mutex.rank 2 (ev_pop q) :=
  .alt .skip (.critical .skip (le_refl 2))

theorem deps_complete_nested : Nested Mutex.rank 1 (deps_complete q) :=
  .critical (.loop (.alt .skip ev_push_nested)) (le_refl 1)

theorem obj_add_nested : Nested Mutex.rank 0 (obj_add q) :=
  .critical deps_complete_nested (le_refl 0)

theorem obj_get_nested : Nested Mutex.rank 0 (obj_get : Prog (Mutex Q)) :=
  .critical .skip (le_refl 0)

theorem obj_gc_nested : Nested Mutex.rank 0 (obj_gc : Prog (Mutex Q)) :=
  .critical .skip (le_refl 0)

/-- The critical sections of `deps_add` follow each other and do not nest. -/
theorem deps_add_nested : Nested Mutex.rank 0 (deps_add q) := by
  have hlookup : Nested Mutex.rank 0 (.loop obj_get : Prog (Mutex Q)) := .loop obj_get_nested
  have hunder : Nested Mutex.rank 0 (.critical .dep_mutex .skip : Prog (Mutex Q)) :=
    .critical .skip (Nat.zero_le 1)
  have hcheck : Nested Mutex.rank 0 (deps_complete q) := deps_complete_nested.mono (Nat.zero_le 1)
  exact .alt .skip (.seq hlookup (.seq hunder hcheck))

/-- Every function leaves the mutexes as it found them and takes them in order. -/
theorem Call.nested (dep_queue : Q) (c : Call Q) : Nested Mutex.rank 0 (c.code dep_queue) := by
  cases c with
  | obj_add => exact obj_add_nested
  | obj_get => exact obj_get_nested
  | obj_gc => exact obj_gc_nested
  | deps_add => exact deps_add_nested
  | deps_complete => exact deps_complete_nested.mono (Nat.zero_le 1)
  | ev_push q => exact ev_push_nested.mono (Nat.zero_le 2)
  | ev_pop q => exact ev_pop_nested.mono (Nat.zero_le 2)

theorem Mutex.rank_lt (l : Mutex Q) : l.rank < 3 := by
  cases l <;> simp [Mutex.rank]

end Nesting

/-! ### No deadlock -/

/-- **No deadlock.** In every state that calls from any number of threads lead to, a
thread that is to lock a mutex holds only mutexes of smaller rank, and not that mutex.
No threads wait for each other in a circle. A call that is about to return holds
nothing, and while there are calls some thread can go on with its own. -/
theorem no_deadlock [DecidableEq Q] [DecidableEq T] (dep_queue : Q) {s : Sys (Mutex Q) T}
    (h : s.Reachable (Call.code dep_queue)) :
    (∀ t l m, s.Waits t l → s.owner m = some t → m.rank < l.rank) ∧
      (∀ t l, s.Waits t l → s.owner l ≠ some t) ∧
      (∀ t, ¬Relation.TransGen s.WaitsFor t t) ∧
      (∀ t l, s.calls t = some [] → s.owner l ≠ some t) ∧
      (∀ t, s.calls t ≠ none → ∃ u, s.CanStep u) := by
  have hclean : Clean Mutex.rank s := h.clean (Call.nested dep_queue)
  refine ⟨fun t l m hw hm => hclean.rank_lt hw hm, fun t l hw hl => ?_, hclean.no_cycle,
    fun t l hcall => hclean.owner_ne (by rw [hcall]; rfl),
    fun t hcall => hclean.progress Mutex.rank_lt hcall⟩
  exact absurd (hclean.rank_lt hw hl) (lt_irrefl _)

/-- A call of `obj_add` that reports one request. -/
def addSteps : List (Op (Mutex Unit)) :=
  [.lock .obj_mutex, .lock .dep_mutex, .lock (.queue ()), .unlock (.queue ()), .unlock .dep_mutex,
    .unlock .obj_mutex]

/-- A call of `deps_add` for one key. -/
def depsSteps : List (Op (Mutex Unit)) :=
  [.lock .obj_mutex, .unlock .obj_mutex, .lock .dep_mutex, .unlock .dep_mutex, .lock .dep_mutex,
    .unlock .dep_mutex]

theorem addSteps_trace : (obj_add ()).Trace addSteps :=
  .critical (.critical (.again (.right (.right (.critical .skip))) .done))

theorem depsSteps_trace : (deps_add ()).Trace depsSteps :=
  .right (.seq (.again (.critical .skip) .done) (.seq (.critical .skip) (.critical .done)))

/-- Thread `0` looks a key up for `deps_add`. Then thread `1` gets to its notification
in `obj_add`, so thread `0` waits for `dep_mutex`. -/
def contended : List (Act (Mutex Unit) ℕ) :=
  [.call 0 depsSteps, .call 1 addSteps, .step 0, .step 0, .step 1, .step 1]

theorem contended_allowed : ∀ a ∈ contended, a.Allowed (Call.code ()) := by
  intro a ha
  simp only [contended, List.mem_cons, List.not_mem_nil, or_false] at ha
  rcases ha with rfl | rfl | rfl | rfl | rfl | rfl
  · exact ⟨.deps_add, depsSteps_trace⟩
  · exact ⟨.obj_add, addSteps_trace⟩
  all_goals trivial

/-- One of the two can go on. -/
theorem no_deadlock_contended : ∃ s : Sys (Mutex Unit) ℕ, s.Reachable (Call.code ()) ∧
    s.WaitsFor 0 1 ∧ ¬s.WaitsFor 1 1 ∧ ∃ u, s.CanStep u := by
  have hreach : ∃ s, Run.run Sys.step .init contended = some s ∧ s.WaitsFor 0 1 :=
    ⟨_, rfl, .dep_mutex, ⟨_, rfl⟩, rfl⟩
  obtain ⟨s, hrun, hwait⟩ := hreach
  have h : s.Reachable (Call.code ()) := ⟨contended, contended_allowed, hrun⟩
  obtain ⟨-, -, hcycle, -, hprogress⟩ := no_deadlock () h
  have hbusy : s.calls 0 ≠ none := by
    obtain ⟨l, ⟨ops, hops⟩, -⟩ := hwait
    simp [hops]
  exact ⟨s, h, hwait, fun hself => hcycle 1 (.single hself), hprogress 0 hbusy⟩

end Mutexes
end Osrv
