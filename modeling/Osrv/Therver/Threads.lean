import Osrv.Lib.Monitor
import Osrv.Therver.Pool

/-!
# The threads of a server

The threads of `therver.c` one access at a time, with `pool_mutex` and
`pool_work_cond`. What a thread does to the queue while it holds the mutex is as
in the pool of workers. `active` is read and written without the mutex, so a server
may be shut down between any two steps.

A worker reads `active` at the top of its loop, in the condition of the inner loop
and behind it, and it takes the entry that it saw in that condition. A thread that
cannot go on leaves the state as it is. `accept`, `calloc` and the service of a
connection have their results as parameters. The forking thread holds the mutex
from `prefork` on.
-/

namespace Osrv
namespace Pool

open Links Monitor

/-! ### The state -/

/-- Where a worker is in its loop while it has no connection. -/
inductive Phase
  /-- At the test of the outer loop. -/
  | top
  /-- In front of `pthread_mutex_lock`. -/
  | lock
  /-- At the condition of the inner loop, with the mutex. -/
  | test
  /-- In `pthread_cond_wait`. -/
  | waiting
  /-- Behind the inner loop, with the mutex and the entry that was seen. -/
  | check (me : Ptr)
  /-- The server was active: about to unlink the entry, with the mutex. -/
  | unlink (me : Ptr)

/-- Where the accept thread is. -/
inductive Accepting
  | top
  | accept
  /-- With a connection that is not queued yet. -/
  | received (s : ℤ)
  | ended

/-- Who holds the mutex. -/
inductive Holder
  | worker (w : ℕ)
  | forking
  deriving DecidableEq

/-- `therver_t` with its threads and all sockets it has opened. -/
structure Threads extends Therver where
  ss : ℤ
  pool_mutex : Option Holder
  pool_work_cond : Cond ℕ
  phase : ℕ → Phase
  accepting : Accepting
  opened : List ℤ

/-- A server that listens on `ss`, with `max_threads` workers. -/
def Threads.start (root : Addr) (ss : ℤ) (max_threads : ℕ) : Threads where
  toTherver := { start_threads root with
    workers := fun w => if w < max_threads then .idle none else .ended }
  ss := ss
  pool_mutex := none
  pool_work_cond := .init
  phase _ := .top
  accepting := .top
  opened := [ss]

/-- A worker goes to another place in its loop. -/
def Threads.goto (t : Threads) (w : ℕ) (p : Phase) : Threads :=
  { t with phase := Function.update t.phase w p }

/-- A worker ends, and is at no place of the loop. -/
def Threads.leave (t : Threads) (w : ℕ) : Threads :=
  { t.goto w .top with workers := Function.update t.workers w .ended }

/-! ### The workers -/

/-- Takes the entry `me` off the queue. -/
def unlink (w : ℕ) (me : Addr) (data : Option ℕ) (t : Therver) : Option Therver := do
  let e ← t.mem me
  let mem ← setNext t.mem t.root e.next
  let e ← mem me
  let mem ← relinkPrev mem e.next (some t.root)
  some { t with
    mem := mem
    workers := Function.update t.workers w (.serving me data)
    taken := t.taken ++ [(me, e.val)] }

/-- The inner loop: waits on the condition while the server is active and has no work. -/
def testQueue (w : ℕ) (t : Threads) : Option Threads :=
  if t.active then do
    let root ← t.mem t.root
    if root.next = none ∨ root.next = some t.root then
      some { t.goto w .waiting with
        pool_mutex := none
        pool_work_cond := t.pool_work_cond.wait w }
    else some (t.goto w (.check root.next))
  else some (t.goto w (.check none))

/-- A worker without a connection. -/
def searching (w : ℕ) (data : Option ℕ) (t : Threads) : Option Threads :=
  match t.phase w with
  | .top => some (if t.active then t.goto w .lock else t.leave w)
  | .lock =>
    if t.pool_mutex = none then some { t.goto w .test with pool_mutex := some (.worker w) }
    else some t
  | .waiting =>
    -- a released thread needs the mutex to come back from the call
    if w ∈ t.pool_work_cond.released ∧ t.pool_mutex = none then
      some { t.goto w .test with
        pool_mutex := some (.worker w)
        pool_work_cond := t.pool_work_cond.resume w }
    else some t
  | .test => testQueue w t
  | .check me =>
    if t.active then some (t.goto w (.unlink me))
    else some { t.leave w with pool_mutex := none }
  | .unlink me => do
    let me ← me
    let pool ← unlink w me data t.toTherver
    some { t.goto w .top with toTherver := pool, pool_mutex := none }

/-- What the service of a connection does: the connection afterwards, and the sockets that it
has closed itself. -/
abbrev Service : Type := Conn → Conn × List ℤ

/-- A worker with a connection. -/
def serving (process : Service) (w : ℕ) (me : Addr) (data : Option ℕ) (t : Threads) :
    Option Threads := do
  let e ← t.mem me
  let closed := (process { e.val with data := data }).2
  let pool ← serve (fun c => (process c).1) w me data
    { t.toTherver with closed := t.closed ++ closed }
  some { t with toTherver := pool }

/-- A step of a worker. -/
def worker_thread (process : Service) (w : ℕ) (t : Threads) : Option Threads :=
  match t.workers w with
  | .idle data => searching w data t
  | .serving me data => serving process w me data t
  | .ended => some t

/-! ### The other threads -/

/-- The accept thread at the top of its loop. It closes the listening socket in the end. -/
def acceptTop (t : Threads) : Threads :=
  if t.active then { t with accepting := .accept }
  else { t with accepting := .ended, closed := t.closed ++ [t.ss], ss := -1 }

/-- `accept` returns a socket, or fails. -/
def acceptReturns (s : Option ℤ) (t : Threads) : Threads :=
  match s with
  | some s => { t with accepting := .received s, opened := t.opened ++ [s] }
  | none => { t with accepting := .top }

/-- The accept thread queues a connection in the entry `me`. Without memory it closes it. -/
def acceptQueues (me : Option Addr) (s : ℤ) (t : Threads) : Option Threads :=
  match me with
  | none => some { t with accepting := .top, closed := t.closed ++ [s] }
  | some me =>
    if t.pool_mutex = none then do
      let pool ← accept me s t.toTherver
      some { t with
        toTherver := pool
        pool_work_cond := t.pool_work_cond.broadcast
        accepting := .top }
    else some t

/-- What `accept` and `calloc` return to the accept thread. -/
structure Returns where
  accept : Option ℤ
  calloc : Option Addr

/-- A step of the accept thread. -/
def accept_thread_run (r : Returns) (t : Threads) : Option Threads :=
  match t.accepting with
  | .top => some (acceptTop t)
  | .accept => some (acceptReturns r.accept t)
  | .received s => acceptQueues r.calloc s t
  | .ended => some t

/-- Nothing but `active` changes. In particular the workers are not woken. -/
def therver_shutdown (t : Threads) : Threads := { t with active := false }

/-- The forking thread locks the mutex. -/
def prefork (t : Threads) : Threads :=
  if t.pool_mutex = none then { t with pool_mutex := some .forking } else t

/-- The forking thread goes on in the parent. -/
def forked_parent (t : Threads) : Threads :=
  if t.pool_mutex = some .forking then { t with pool_mutex := none } else t

/-! ### Runs -/

/-- The steps of the threads. `process` is what happens if the worker has a connection. -/
inductive Act
  | worker (w : ℕ) (process : Service)
  | accepting (r : Returns)
  | shutdown
  | prefork
  | parent
  /-- A thread comes back from `pthread_cond_wait` for no reason. -/
  | spurious (w : ℕ)

def next (t : Threads) : Act → Option Threads
  | .worker w process => worker_thread process w t
  | .accepting r => accept_thread_run r t
  | .shutdown => some (therver_shutdown t)
  | .prefork => some (prefork t)
  | .parent => some (forked_parent t)
  | .spurious w => some { t with pool_work_cond := t.pool_work_cond.release {w} }

/-- What `calloc` returns is memory that is not in use, and `accept` returns no `-1`. -/
def Returned (t : Threads) : Act → Prop
  | .accepting r => (∀ me ∈ r.calloc, t.mem me = none) ∧ ∀ s ∈ r.accept, s ≠ -1
  | _ => True

/-! ### The invariant -/

/-- Whether a worker at this place holds the mutex. -/
def Phase.Critical : Phase → Prop
  | .test | .check _ | .unlink _ => True
  | _ => False

/-- What holds of a worker at its place in the loop, with the connections `xs` in the
queue. -/
structure Placed (t : Threads) (xs : List (Addr × Conn)) (w : ℕ) : Prop where
  waiting : w ∈ t.pool_work_cond.blocked ∪ t.pool_work_cond.released ↔ t.phase w = .waiting
  critical : (t.phase w).Critical ↔ t.pool_mutex = some (.worker w)
  /-- A worker that serves a connection or has ended is at the top of the loop. -/
  idle : t.phase w ≠ .top → ∃ data, t.workers w = .idle data
  /-- The entry that was seen is still the first one. Without one the server was shut down. -/
  seen : ∀ me, t.phase w = .check me →
    (me = none → t.active = false) ∧ (me ≠ none → me = (addrs xs).head?)
  first : ∀ me, t.phase w = .unlink me → me ≠ none ∧ me = (addrs xs).head?

/-- **The invariant**: the connections `xs` are queued. -/
structure Sound (t : Threads) (xs : List (Addr × Conn)) : Prop where
  pool : Inv t.toTherver xs
  /-- Nobody is blocked while a connection is queued. -/
  awake : Awake xs.length t.pool_work_cond
  placed : ∀ w, Placed t xs w

theorem Sound.start (root : Addr) (ss : ℤ) (max_threads : ℕ) :
    Sound (Threads.start root ss max_threads) [] where
  pool := by
    refine ⟨(Inv.init root).ring, List.nodup_singleton root, fun w me data hw => ?_,
      fun w w' me data data' hw => ?_, fun x hx => by cases hx⟩
    all_goals
      change (if w < max_threads then Worker.idle none else .ended) = .serving me data at hw
      split at hw <;> cases hw
  awake := Awake.init
  placed w :=
    { waiting := by simp [Threads.start, Cond.init]
      critical := by simp [Threads.start, Phase.Critical]
      idle := fun hw => absurd rfl hw
      seen := fun me hw => by cases hw
      first := fun me hw => by cases hw }

/-! ### What a step does -/

/-- Taking the first entry off the queue. -/
theorem Inv.unlinkEntry {t : Therver} {x : Addr × Conn} {xs : List (Addr × Conn)}
    (h : Inv t (x :: xs)) (w : ℕ) (data : Option ℕ) :
    ∃ mem, Pool.unlink w x.1 data t = some { t with
        mem := mem
        workers := Function.update t.workers w (.serving x.1 data)
        taken := t.taken ++ [x] } ∧
      Inv { t with
        mem := mem
        workers := Function.update t.workers w (.serving x.1 data)
        taken := t.taken ++ [x] } xs ∧
      ∀ a, (mem a).map Node.val = (t.mem a).map Node.val := by
  obtain ⟨c, prev, e, mem, mem', -, hxroot, hx, hval, hrun, hx', hrun', hinv, hx''⟩ := h.unlink
  have hout : x.1 ∉ t.root :: addrs xs := by
    have hnodup := h.nodup
    rw [addrs, List.map_cons, List.nodup_cons, List.nodup_cons] at hnodup
    rw [List.mem_cons, not_or]
    exact ⟨hxroot, hnodup.2.1⟩
  -- no other worker has the entry, since it was queued
  have hwork := @Inv.work _ _ hinv w (.serving x.1 data) fun me data' heq => by
    cases heq
    refine ⟨⟨?_, hout⟩, fun w' data' hw' => ?_⟩
    · show mem' x.1 ≠ none
      rw [hx'']
      exact Option.some_ne_none _
    · exact absurd (by simp) (h.serving w' x.1 data' hw').2
  refine ⟨mem', ?_, ⟨hwork.ring, hwork.nodup, hwork.serving, hwork.alone, fun y hy => ?_⟩,
    fun a => (relinkPrev_val hrun' a).trans (setNext_val hrun a)⟩
  · simp only [Pool.unlink, hx, hrun, hx', hrun', Option.bind_eq_bind, Option.bind_some]
    rw [hval]
  · rcases List.mem_append.mp hy with hy | hy
    · exact h.root y hy
    · rw [List.mem_singleton.mp hy]
      exact hxroot

/-- Adding an entry changes the memory alone, and no value but that of the entry. -/
theorem accept_eq_some {t t' : Therver} {me : Addr} {s : ℤ} (h : accept me s t = some t') :
    ∃ mem, t' = { t with mem := mem } ∧
      ∀ a, (mem a).map Node.val = if a = me then some ⟨s, none⟩ else (t.mem a).map Node.val := by
  rw [accept] at h
  split at h
  · simp only [add_task, Option.bind_eq_bind] at h
    obtain ⟨m₁, h₁, h⟩ := Option.bind_eq_some_iff.mp h
    obtain ⟨root, -, h⟩ := Option.bind_eq_some_iff.mp h
    obtain ⟨m₂, h₂, h⟩ := Option.bind_eq_some_iff.mp h
    obtain ⟨m₃, h₃, h⟩ := Option.bind_eq_some_iff.mp h
    obtain ⟨m₄, h₄, h⟩ := Option.bind_eq_some_iff.mp h
    obtain rfl := Option.some.inj h
    refine ⟨m₄, rfl, fun a => ?_⟩
    calc (m₄ a).map Node.val = (m₃ a).map Node.val := setPrev_val h₄ a
      _ = (m₂ a).map Node.val := relinkNext_val h₃ a
      _ = (m₁ a).map Node.val := setPrev_val h₂ a
      _ = (Function.update t.mem me (some ⟨⟨s, none⟩, none, none⟩) a).map Node.val :=
        setNext_val h₁ a
      _ = if a = me then some ⟨s, none⟩ else (t.mem a).map Node.val := by
        by_cases ha : a = me
        · rw [ha, Function.update_self, if_pos rfl]
          rfl
        · rw [Function.update_of_ne ha, if_neg ha]
  · cases h

/-- **What a step does** to the threads and to the queue, as seen from the connections that
are queued. -/
inductive Moves : Threads → List (Addr × Conn) → Act → Threads → List (Addr × Conn) → Prop
  | ended {t xs w process} : t.workers w = .ended → Moves t xs (.worker w process) t xs
  | blocked {t xs w data process} : t.workers w = .idle data →
      (t.phase w = .lock ∧ t.pool_mutex ≠ none ∨ t.phase w = .waiting ∧
        ¬ (w ∈ t.pool_work_cond.released ∧ t.pool_mutex = none)) →
      Moves t xs (.worker w process) t xs
  | enter {t xs w data process} : t.workers w = .idle data → t.phase w = .top → t.active = true →
      Moves t xs (.worker w process) (t.goto w .lock) xs
  | quit {t xs w data process} : t.workers w = .idle data → t.phase w = .top → t.active = false →
      Moves t xs (.worker w process) (t.leave w) xs
  | lock {t xs w data process} : t.workers w = .idle data → t.phase w = .lock →
      t.pool_mutex = none →
      Moves t xs (.worker w process) { t.goto w .test with pool_mutex := some (.worker w) } xs
  | resume {t xs w data process} : t.workers w = .idle data → t.phase w = .waiting →
      w ∈ t.pool_work_cond.released → t.pool_mutex = none →
      Moves t xs (.worker w process) { t.goto w .test with
        pool_mutex := some (.worker w)
        pool_work_cond := t.pool_work_cond.resume w } xs
  | wait {t w data process} : t.workers w = .idle data → t.phase w = .test → t.active = true →
      Moves t [] (.worker w process) { t.goto w .waiting with
        pool_mutex := none
        pool_work_cond := t.pool_work_cond.wait w } []
  | see {t x xs w data process} : t.workers w = .idle data → t.phase w = .test → t.active = true →
      Moves t (x :: xs) (.worker w process) (t.goto w (.check (some x.1))) (x :: xs)
  | miss {t xs w data process} : t.workers w = .idle data → t.phase w = .test → t.active = false →
      Moves t xs (.worker w process) (t.goto w (.check none)) xs
  | decide {t xs w data me process} : t.workers w = .idle data → t.phase w = .check me →
      t.active = true → Moves t xs (.worker w process) (t.goto w (.unlink me)) xs
  | drop {t xs w data me process} : t.workers w = .idle data → t.phase w = .check me →
      t.active = false → Moves t xs (.worker w process) { t.leave w with pool_mutex := none } xs
  | take {t x xs w data mem process} : t.workers w = .idle data → t.phase w = .unlink (some x.1) →
      (∀ a, (mem a).map Node.val = (t.mem a).map Node.val) →
      Inv { t.toTherver with
        mem := mem
        workers := Function.update t.workers w (.serving x.1 data)
        taken := t.taken ++ [x] } xs →
      Moves t (x :: xs) (.worker w process) { t.goto w .top with
        mem := mem
        workers := Function.update t.workers w (.serving x.1 data)
        taken := t.taken ++ [x]
        pool_mutex := none } xs
  | serve {t xs w data me e process} : t.workers w = .serving me data → t.mem me = some e →
      Moves t xs (.worker w process) { t with
        mem := Function.update t.mem me none
        workers := Function.update t.workers w
          (.idle (process { e.val with data := data }).1.data)
        closed := t.closed ++ (process { e.val with data := data }).2 ++
          if (process { e.val with data := data }).1.s = -1 then []
          else [(process { e.val with data := data }).1.s] } xs
  | acceptTop {t xs r} : t.accepting = .top → Moves t xs (.accepting r) (acceptTop t) xs
  | accept {t xs r} : t.accepting = .accept →
      Moves t xs (.accepting r) (acceptReturns r.accept t) xs
  | reject {t xs r s} : t.accepting = .received s → r.calloc = none →
      Moves t xs (.accepting r) { t with accepting := .top, closed := t.closed ++ [s] } xs
  | hold {t xs r s} : t.accepting = .received s → t.pool_mutex ≠ none →
      Moves t xs (.accepting r) t xs
  | queue {t xs r s me mem} : t.accepting = .received s → r.calloc = some me →
      t.pool_mutex = none → t.mem me = none →
      (∀ a, (mem a).map Node.val = if a = me then some ⟨s, none⟩ else (t.mem a).map Node.val) →
      Inv { t.toTherver with mem := mem } (xs ++ [(me, ⟨s, none⟩)]) →
      Moves t xs (.accepting r) { t with
        mem := mem
        pool_work_cond := t.pool_work_cond.broadcast
        accepting := .top } (xs ++ [(me, ⟨s, none⟩)])
  | finished {t xs r} : t.accepting = .ended → Moves t xs (.accepting r) t xs
  | shutdown {t xs} : Moves t xs .shutdown (therver_shutdown t) xs
  | prefork {t xs} : Moves t xs .prefork (prefork t) xs
  | parent {t xs} : Moves t xs .parent (forked_parent t) xs
  | spurious {t xs w} : Moves t xs (.spurious w)
      { t with pool_work_cond := t.pool_work_cond.release {w} } xs

/-! ### The steps keep the invariant -/

/-- Nothing has changed for the worker `v`. -/
structure Same (t t' : Threads) (v : ℕ) : Prop where
  phase : t'.phase v = t.phase v
  workers : t'.workers v = t.workers v
  waiting : v ∈ t'.pool_work_cond.blocked ∪ t'.pool_work_cond.released ↔
    v ∈ t.pool_work_cond.blocked ∪ t.pool_work_cond.released
  mutex : t'.pool_mutex = some (.worker v) ↔ t.pool_mutex = some (.worker v)

section Step

variable {t t' : Threads} {xs ys : List (Addr × Conn)} {w v : ℕ} {a : Act}

/-- A worker keeps its place when the others change. If the queue changes in front, it does
not hold the mutex. -/
theorem Placed.same (h : Placed t xs v) (hsame : Same t t' v)
    (hactive : t.active = false → t'.active = false)
    (hqueue : (addrs ys).head? = (addrs xs).head? ∨ t.pool_mutex ≠ some (.worker v)) :
    Placed t' ys v where
  waiting := by rw [hsame.waiting, hsame.phase, h.waiting]
  critical := by rw [hsame.phase, h.critical, hsame.mutex]
  idle hne := by
    rw [hsame.phase] at hne
    rw [hsame.workers]
    exact h.idle hne
  seen me hme := by
    rw [hsame.phase] at hme
    obtain ⟨hnone, hsome⟩ := h.seen me hme
    rcases hqueue with heq | hne
    · exact ⟨fun hm => hactive (hnone hm), fun hm => (hsome hm).trans heq.symm⟩
    · exact absurd (h.critical.mp (by rw [hme]; trivial)) hne
  first me hme := by
    rw [hsame.phase] at hme
    obtain ⟨hne, hfirst⟩ := h.first me hme
    rcases hqueue with heq | hne'
    · exact ⟨hne, hfirst.trans heq.symm⟩
    · exact absurd (h.critical.mp (by rw [hme]; trivial)) hne'

/-- Two workers do not hold the mutex at the same time. -/
theorem mutex_ne (hvw : v ≠ w) (hw : t.pool_mutex = some (.worker w)) :
    t.pool_mutex ≠ some (.worker v) := by
  rw [hw]
  intro heq
  cases heq
  exact hvw rfl

/-- **A step of one worker**: the others keep their places. -/
theorem Sound.worker (h : Sound t xs) (hpool : Inv t'.toTherver ys)
    (hawake : Awake ys.length t'.pool_work_cond) (hplaced : Placed t' ys w)
    (hother : ∀ v, v ≠ w → Same t t' v) (hactive : t'.active = t.active)
    (hqueue : ys = xs ∨ t.pool_mutex = some (.worker w)) : Sound t' ys where
  pool := hpool
  awake := hawake
  placed v := by
    by_cases hv : v = w
    · rw [hv]
      exact hplaced
    · refine (h.placed v).same (hother v hv) (fun hf => hactive.trans hf) ?_
      exact hqueue.imp (fun heq => by rw [heq]) (mutex_ne hv)

/-- A worker at a place where it has seen no entry. -/
theorem Placed.plain {p : Phase} (hphase : t.phase w = p)
    (hwait : w ∈ t.pool_work_cond.blocked ∪ t.pool_work_cond.released ↔ p = .waiting)
    (hcritical : p.Critical ↔ t.pool_mutex = some (.worker w))
    (hidle : p ≠ .top → ∃ data, t.workers w = .idle data) (hcheck : ∀ me, p ≠ .check me)
    (hunlink : ∀ me, p ≠ .unlink me) : Placed t xs w where
  waiting := by rw [hphase, hwait]
  critical := by rw [hphase, hcritical]
  idle hne := hidle (by rwa [← hphase])
  seen me hme := absurd (hphase.symm.trans hme) (hcheck me)
  first me hme := absurd (hphase.symm.trans hme) (hunlink me)

/-- A worker behind the inner loop has the mutex and waits no more. -/
theorem Placed.behind {p : Phase} {data : Option ℕ} (hphase : t.phase w = p)
    (hp : (∃ me, p = .check me) ∨ ∃ me, p = .unlink me)
    (hwait : w ∉ t.pool_work_cond.blocked ∪ t.pool_work_cond.released)
    (hmutex : t.pool_mutex = some (.worker w)) (hw : t.workers w = .idle data)
    (hseen : ∀ me, p = .check me →
      (me = none → t.active = false) ∧ (me ≠ none → me = (addrs xs).head?))
    (hfirst : ∀ me, p = .unlink me → me ≠ none ∧ me = (addrs xs).head?) : Placed t xs w where
  waiting := by
    rw [hphase]
    refine ⟨fun hin => absurd hin hwait, fun heq => ?_⟩
    rcases hp with ⟨me, rfl⟩ | ⟨me, rfl⟩ <;> cases heq
  critical := by
    rw [hphase]
    refine ⟨fun _ => hmutex, fun _ => ?_⟩
    rcases hp with ⟨me, rfl⟩ | ⟨me, rfl⟩ <;> trivial
  idle _ := ⟨data, hw⟩
  seen me hme := hseen me (hphase.symm.trans hme)
  first me hme := hfirst me (hphase.symm.trans hme)

/-- Nothing changes for the others when a worker goes to another place. -/
theorem Same.goto (hv : v ≠ w) {p : Phase} (hphase : t'.phase = Function.update t.phase w p)
    (hworkers : t'.workers v = t.workers v)
    (hwait : v ∈ t'.pool_work_cond.blocked ∪ t'.pool_work_cond.released ↔
      v ∈ t.pool_work_cond.blocked ∪ t.pool_work_cond.released)
    (hmutex : t'.pool_mutex = some (.worker v) ↔ t.pool_mutex = some (.worker v)) :
    Same t t' v :=
  ⟨by rw [hphase, Function.update_of_ne hv], hworkers, hwait, hmutex⟩

theorem Sound.not_waiting (h : Sound t xs) (hp : t.phase w ≠ .waiting) :
    w ∉ t.pool_work_cond.blocked ∪ t.pool_work_cond.released :=
  fun hin => hp ((h.placed w).waiting.mp hin)

theorem Sound.holds (h : Sound t xs) (hp : (t.phase w).Critical) :
    t.pool_mutex = some (.worker w) := (h.placed w).critical.mp hp

theorem Sound.not_holds (h : Sound t xs) (hp : ¬ (t.phase w).Critical) :
    t.pool_mutex ≠ some (.worker w) := fun heq => hp ((h.placed w).critical.mpr heq)

/-- The mutex goes from nobody to a worker or back. -/
theorem mutex_iff_of_ne (hv : v ≠ w) {m m' : Option Holder}
    (hm : m = none ∨ m = some (.worker w)) (hm' : m' = none ∨ m' = some (.worker w)) :
    m' = some (.worker v) ↔ m = some (.worker v) := by
  have hne : ∀ o : Option Holder, o = none ∨ o = some (.worker w) → o ≠ some (.worker v) := by
    rintro o (rfl | rfl) heq <;> cases heq
    exact hv rfl
  exact ⟨fun heq => absurd heq (hne m' hm'), fun heq => absurd heq (hne m hm)⟩

/-- Others are not affected when a worker blocks or comes back. -/
theorem mem_wait_of_ne (hv : v ≠ w) (c : Cond ℕ) :
    v ∈ (c.wait w).blocked ∪ (c.wait w).released ↔ v ∈ c.blocked ∪ c.released := by
  simp [Cond.wait, hv]

theorem mem_resume_of_ne (hv : v ≠ w) (c : Cond ℕ) :
    v ∈ (c.resume w).blocked ∪ (c.resume w).released ↔ v ∈ c.blocked ∪ c.released := by
  simp [Cond.resume, hv]

/-- A worker in front of the mutex, or at the top of the loop. -/
theorem Sound.outside (h : Sound t xs) {data : Option ℕ} (hw : t.workers w = .idle data)
    (htop : t.phase w = .top) : Sound (t.goto w .lock) xs := by
  refine h.worker h.pool h.awake ?_
    (fun v hv => .goto hv rfl rfl Iff.rfl Iff.rfl) rfl (Or.inl rfl)
  refine .plain (Function.update_self ..) ?_ ?_ (fun _ => ⟨data, hw⟩) nofun nofun
  · exact iff_of_false (h.not_waiting (by rw [htop]; nofun)) nofun
  · exact iff_of_false id (h.not_holds (by rw [htop]; exact id))

/-- A worker that leaves the loop, with the mutex or without. -/
theorem Sound.leave (h : Sound t xs) (hp : t.phase w ≠ .waiting) {m : Option Holder}
    (hm : m = none ∧ (t.phase w).Critical ∨ m = t.pool_mutex ∧ ¬ (t.phase w).Critical) :
    Sound { t.leave w with pool_mutex := m } xs := by
  have hpool : Inv { t.toTherver with workers := Function.update t.workers w .ended } xs :=
    h.pool.work w fun _ _ heq => (by cases heq)
  refine h.worker hpool h.awake ?_
    (fun v hv => .goto hv rfl (Function.update_of_ne hv ..) Iff.rfl ?_) rfl (Or.inl rfl)
  · refine .plain (Function.update_self ..) ?_ ?_ (fun hne => absurd rfl hne) nofun nofun
    · exact iff_of_false (h.not_waiting hp) nofun
    · refine iff_of_false id ?_
      rcases hm with ⟨rfl, -⟩ | ⟨rfl, hc⟩
      · nofun
      · exact h.not_holds hc
  · rcases hm with ⟨rfl, hc⟩ | ⟨rfl, -⟩
    · exact mutex_iff_of_ne hv (Or.inr (h.holds hc)) (Or.inl rfl)
    · exact Iff.rfl

/-- **A worker gets the mutex**, on entry or back from the wait. -/
theorem Sound.acquire (h : Sound t xs) {data : Option ℕ} (hw : t.workers w = .idle data)
    (hfree : t.pool_mutex = none) {c : Cond ℕ} (hc : Awake xs.length c)
    (hin : w ∉ c.blocked ∪ c.released)
    (hother : ∀ v, v ≠ w → (v ∈ c.blocked ∪ c.released ↔
      v ∈ t.pool_work_cond.blocked ∪ t.pool_work_cond.released)) :
    Sound { t.goto w .test with
      pool_mutex := some (.worker w)
      pool_work_cond := c } xs := by
  refine h.worker h.pool hc ?_ (fun v hv => .goto hv rfl rfl (hother v hv) ?_) rfl (Or.inl rfl)
  · refine .plain (Function.update_self ..) ?_ ?_ (fun _ => ⟨data, hw⟩) nofun nofun
    · exact iff_of_false hin nofun
    · exact iff_of_true trivial rfl
  · exact mutex_iff_of_ne hv (Or.inl hfree) (Or.inr rfl)

/-- **A worker blocks**, if there is no connection. -/
theorem Sound.wait (h : Sound t []) {data : Option ℕ} (hw : t.workers w = .idle data)
    (hp : t.phase w = .test) : Sound { t.goto w .waiting with
      pool_mutex := none
      pool_work_cond := t.pool_work_cond.wait w } [] := by
  have hmutex : t.pool_mutex = some (.worker w) := h.holds (by rw [hp]; trivial)
  refine h.worker h.pool (Awake.wait _ w) ?_
    (fun v hv => .goto hv rfl rfl (mem_wait_of_ne hv _) ?_) rfl (Or.inl rfl)
  · refine .plain (Function.update_self ..) ?_ ?_ (fun _ => ⟨data, hw⟩)
      (fun _ heq => by cases heq) (fun _ heq => by cases heq)
    · exact iff_of_true (by simp [Cond.wait]) rfl
    · exact iff_of_false id (by simp)
  · exact mutex_iff_of_ne hv (Or.inr hmutex) (Or.inl rfl)

/-- A worker with the mutex goes on to a place behind the inner loop. -/
theorem Sound.behind (h : Sound t xs) {data : Option ℕ} (hw : t.workers w = .idle data)
    (hp : (t.phase w).Critical) {p : Phase}
    (hbehind : (∃ me, p = .check me) ∨ ∃ me, p = .unlink me)
    (hseen : ∀ me, p = .check me →
      (me = none → t.active = false) ∧ (me ≠ none → me = (addrs xs).head?))
    (hfirst : ∀ me, p = .unlink me → me ≠ none ∧ me = (addrs xs).head?) :
    Sound (t.goto w p) xs := by
  refine h.worker h.pool h.awake ?_
    (fun v hv => .goto hv rfl rfl Iff.rfl Iff.rfl) rfl (Or.inl rfl)
  refine .behind (Function.update_self ..) hbehind (h.not_waiting fun heq => ?_) (h.holds hp) hw
    hseen hfirst
  rw [heq] at hp
  exact hp

/-- **A worker takes the first entry** and gives the mutex back. -/
theorem Sound.take {x : Addr × Conn} (h : Sound t (x :: xs)) {me : Ptr}
    (hp : t.phase w = .unlink me) {pool : Therver} (hpool : Inv pool xs)
    (hworkers : ∀ v, v ≠ w → pool.workers v = t.workers v) (hactive : pool.active = t.active) :
    Sound { t.goto w .top with toTherver := pool, pool_mutex := none } xs := by
  have hmutex : t.pool_mutex = some (.worker w) := h.holds (by rw [hp]; trivial)
  have hawake : Awake xs.length t.pool_work_cond := h.awake.mono (Nat.le_succ _)
  refine h.worker hpool hawake ?_
    (fun v hv => .goto hv rfl (hworkers v hv) Iff.rfl ?_) hactive (Or.inr hmutex)
  · refine .plain (Function.update_self ..) ?_ ?_ (fun hne => absurd rfl hne) nofun nofun
    · exact iff_of_false (h.not_waiting (by rw [hp]; nofun)) nofun
    · exact iff_of_false id nofun
  · exact mutex_iff_of_ne hv (Or.inr hmutex) (Or.inl rfl)

/-- **A step of another thread**, which leaves the workers where they are. -/
theorem Sound.other (h : Sound t xs) (hpool : Inv t'.toTherver ys)
    (hawake : Awake ys.length t'.pool_work_cond) (hsame : ∀ v, Same t t' v)
    (hactive : t.active = false → t'.active = false)
    (hqueue : ys = xs ∨ t.pool_mutex = none) : Sound t' ys where
  pool := hpool
  awake := hawake
  placed v := by
    refine (h.placed v).same (hsame v) hactive ?_
    exact hqueue.imp (fun heq => by rw [heq]) fun hnone => by rw [hnone]; nofun

/-- A worker that serves a connection or has ended is in the loop at no other place. -/
theorem Sound.top (h : Sound t xs) (hw : ∀ data, t.workers w ≠ .idle data) : t.phase w = .top := by
  by_contra hne
  obtain ⟨data, hdata⟩ := (h.placed w).idle hne
  exact hw data hdata

/-- **A step keeps the invariant.** -/
theorem Moves.sound (hm : Moves t xs a t' ys) (h : Sound t xs) : Sound t' ys := by
  cases hm with
  | ended | blocked | hold | finished => exact h
  | enter hw hp _ => exact h.outside hw hp
  | quit _ hp _ => exact h.leave (by rw [hp]; simp) (Or.inr ⟨rfl, by rw [hp]; exact id⟩)
  | @lock _ w _ _ hw hp hfree =>
    -- the mutex is free, and a worker that wants it is not waiting
    exact h.acquire hw hfree h.awake (h.not_waiting (by rw [hp]; simp)) fun _ _ => Iff.rfl
  | @resume _ w _ _ hw hp hr hfree =>
    -- a worker that has been signalled takes the mutex, and is not waiting any more
    refine h.acquire hw hfree (h.awake.resume w) ?_ fun v hv => mem_resume_of_ne hv _
    have hnot := Finset.disjoint_right.mp t.pool_work_cond.disjoint hr
    simp [Cond.resume, hnot]
  | wait hw hp _ => exact h.wait hw hp
  | see hw hp _ =>
    -- what it has seen is there, since it holds the mutex
    refine h.behind hw (by rw [hp]; trivial) (Or.inl ⟨_, rfl⟩) (fun me heq => ?_)
      (fun _ heq => by cases heq)
    cases heq
    exact ⟨fun hnone => absurd hnone.symm (by simp), fun _ => rfl⟩
  | miss hw hp hactive =>
    -- it has seen nothing, which is right as long as the server is active
    refine h.behind hw (by rw [hp]; trivial) (Or.inl ⟨_, rfl⟩) (fun me heq => ?_)
      (fun _ heq => by cases heq)
    cases heq
    exact ⟨fun _ => hactive, fun hne => absurd rfl hne⟩
  | @decide _ w _ me _ hw hp hactive =>
    refine h.behind hw (by rw [hp]; trivial) (Or.inr ⟨_, rfl⟩)
      (fun _ heq => by cases heq) (fun me' heq => ?_)
    cases heq
    -- the server is active, so an entry was seen
    obtain ⟨hnone, hsome⟩ := (h.placed w).seen me hp
    have hne : me ≠ none := fun heq => by
      rw [hnone heq] at hactive
      cases hactive
    exact ⟨hne, hsome hne⟩
  | drop _ hp _ => exact h.leave (by rw [hp]; simp) (Or.inl ⟨rfl, by rw [hp]; trivial⟩)
  | take hw hp _ hinv =>
    exact h.take hp hinv (fun v hv => Function.update_of_ne hv ..) rfl
  | @serve _ w data me e process hw he =>
    -- the entry is freed; the worker was not inside the lock, and goes back to the top
    obtain ⟨pool, hrun, hinv, -, -⟩ := h.pool.serve (fun c => (process c).1) hw
    have htop : t.phase w = .top := h.top fun data' heq => by
      rw [hw] at heq
      cases heq
    have hpool : pool = { t.toTherver with
        mem := Function.update t.mem me none
        workers := Function.update t.workers w
          (.idle (process { e.val with data := data }).1.data)
        closed := pool.closed } := by
      simp only [Pool.serve, he, Option.bind_eq_bind, Option.bind_some, Option.some.injEq] at hrun
      rw [← hrun]
    rw [hpool] at hinv
    refine h.worker ⟨hinv.ring, hinv.nodup, hinv.serving, hinv.alone, hinv.root⟩ h.awake ?_
      (fun v hv => ⟨rfl, Function.update_of_ne hv .., Iff.rfl, Iff.rfl⟩) rfl (Or.inl rfl)
    refine .plain htop ?_ ?_ (fun hne => absurd rfl hne) (fun _ heq => by cases heq)
      (fun _ heq => by cases heq)
    · exact iff_of_false (h.not_waiting (by rw [htop]; simp)) (by simp)
    · exact iff_of_false id (h.not_holds (by rw [htop]; exact id))
  | acceptTop =>
    rw [Pool.acceptTop]
    split
    · exact h.other h.pool h.awake (fun v => ⟨rfl, rfl, Iff.rfl, Iff.rfl⟩) id (Or.inl rfl)
    · refine h.other ?_ h.awake (fun v => ⟨rfl, rfl, Iff.rfl, Iff.rfl⟩) id (Or.inl rfl)
      exact ⟨h.pool.ring, h.pool.nodup, h.pool.serving, h.pool.alone, h.pool.root⟩
  | @accept _ r =>
    cases r.accept <;>
      exact h.other h.pool h.awake (fun v => ⟨rfl, rfl, Iff.rfl, Iff.rfl⟩) id (Or.inl rfl)
  | reject =>
    refine h.other ?_ h.awake (fun v => ⟨rfl, rfl, Iff.rfl, Iff.rfl⟩) id (Or.inl rfl)
    exact ⟨h.pool.ring, h.pool.nodup, h.pool.serving, h.pool.alone, h.pool.root⟩
  | queue _ _ hfree _ _ hinv =>
    -- the signal wakes all that wait for an entry
    refine h.other hinv (Awake.broadcast _) (fun v => ⟨rfl, rfl, ?_, Iff.rfl⟩) id (Or.inr hfree)
    exact Cond.mem_release
  | shutdown =>
    refine h.other ?_ h.awake (fun v => ⟨rfl, rfl, Iff.rfl, Iff.rfl⟩) (fun _ => rfl) (Or.inl rfl)
    exact ⟨h.pool.ring, h.pool.nodup, h.pool.serving, h.pool.alone, h.pool.root⟩
  | prefork =>
    rw [Pool.prefork]
    split
    · next hfree =>
      -- nobody held the mutex, and no worker does now
      refine h.other h.pool h.awake (fun v => ⟨rfl, rfl, Iff.rfl, ?_⟩) id (Or.inl rfl)
      rw [hfree]
      exact iff_of_false (by simp) (by simp)
    · exact h
  | parent =>
    rw [forked_parent]
    split
    · next hheld =>
      -- the thread that forks held it, and no worker did
      refine h.other h.pool h.awake (fun v => ⟨rfl, rfl, Iff.rfl, ?_⟩) id (Or.inl rfl)
      rw [hheld]
      exact iff_of_false (by simp) (by simp)
    · exact h
  | spurious =>
    exact h.other h.pool (h.awake.release _) (fun v => ⟨rfl, rfl, Cond.mem_release, Iff.rfl⟩) id
      (Or.inl rfl)

/-! ### What the steps are -/

/-- A step of a worker without a connection. -/
theorem Sound.searching (h : Sound t xs) {data : Option ℕ} (hw : t.workers w = .idle data)
    (process : Service) : ∃ t' ys,
      Pool.searching w data t = some t' ∧ Moves t xs (.worker w process) t' ys := by
  obtain ⟨c, first, last, hroot, hseg⟩ := h.pool.ring
  cases hp : t.phase w with
  | top =>
    cases hactive : t.active with
    | true => exact ⟨_, xs, by simp [Pool.searching, hp, hactive], .enter hw hp hactive⟩
    | false => exact ⟨_, xs, by simp [Pool.searching, hp, hactive], .quit hw hp hactive⟩
  | lock =>
    by_cases hfree : t.pool_mutex = none
    · exact ⟨_, xs, by simp only [Pool.searching, hp, if_pos hfree], .lock hw hp hfree⟩
    · exact ⟨t, xs, by simp only [Pool.searching, hp, if_neg hfree], .blocked hw (.inl ⟨hp, hfree⟩)⟩
  | waiting =>
    by_cases hr : w ∈ t.pool_work_cond.released ∧ t.pool_mutex = none
    · exact ⟨_, xs, by simp only [Pool.searching, hp, if_pos hr], .resume hw hp hr.1 hr.2⟩
    · exact ⟨t, xs, by simp only [Pool.searching, hp, if_neg hr], .blocked hw (.inr ⟨hp, hr⟩)⟩
  | test =>
    cases hactive : t.active with
    | false => exact ⟨_, xs, by simp [Pool.searching, hp, testQueue, hactive], .miss hw hp hactive⟩
    | true =>
      cases xs with
      | nil =>
        obtain ⟨rfl, rfl⟩ := hseg
        exact ⟨_, [], by simp [Pool.searching, hp, testQueue, hactive, hroot], .wait hw hp hactive⟩
      | cons x xs =>
        obtain ⟨rfl, -⟩ := hseg
        have hne : x.1 ≠ t.root := fun heq => (List.nodup_cons.mp h.pool.nodup).1 (by simp [heq])
        refine ⟨_, x :: xs, ?_, .see hw hp hactive⟩
        simp [Pool.searching, hp, testQueue, hactive, hroot, hne]
  | check me =>
    cases hactive : t.active with
    | true => exact ⟨_, xs, by simp [Pool.searching, hp, hactive], .decide hw hp hactive⟩
    | false => exact ⟨_, xs, by simp [Pool.searching, hp, hactive], .drop hw hp hactive⟩
  | unlink me =>
    obtain ⟨hne, hfirst⟩ := (h.placed w).first me hp
    cases xs with
    | nil => exact absurd hfirst hne
    | cons x xs =>
      obtain rfl : me = some x.1 := hfirst
      obtain ⟨mem, hrun, hinv, hval⟩ := h.pool.unlinkEntry w data
      refine ⟨_, xs, ?_, .take hw hp hval hinv⟩
      simp only [Pool.searching, hp, hrun, Option.bind_eq_bind, Option.bind_some]
      rfl

/-- **The steps of the threads** are those. None of them uses an entry that is not in use. -/
theorem Sound.next (h : Sound t xs) (a : Act) (ha : Returned t a) :
    ∃ t' ys, Pool.next t a = some t' ∧ Moves t xs a t' ys := by
  cases a with
  | worker w process =>
    cases hw : t.workers w with
    | idle data =>
      obtain ⟨t', ys, hrun, hm⟩ := h.searching hw process
      exact ⟨t', ys, by simp only [Pool.next, worker_thread, hw, hrun], hm⟩
    | serving me data =>
      obtain ⟨e, he⟩ := Option.ne_none_iff_exists'.mp (h.pool.serving w me data hw).1
      refine ⟨_, xs, ?_, .serve hw he⟩
      simp only [Pool.next, worker_thread, hw, serving, Pool.serve, he, Option.bind_eq_bind,
        Option.bind_some]
    | ended => exact ⟨t, xs, by simp only [Pool.next, worker_thread, hw], .ended hw⟩
  | accepting r =>
    cases hacc : t.accepting with
    | top => exact ⟨_, xs, by simp only [Pool.next, accept_thread_run, hacc], .acceptTop hacc⟩
    | accept => exact ⟨_, xs, by simp only [Pool.next, accept_thread_run, hacc], .accept hacc⟩
    | ended => exact ⟨t, xs, by simp only [Pool.next, accept_thread_run, hacc], .finished hacc⟩
    | received s =>
      cases hr : r.calloc with
      | none =>
        exact ⟨_, xs, by simp only [Pool.next, accept_thread_run, hacc, acceptQueues, hr],
          .reject hacc hr⟩
      | some me =>
        by_cases hfree : t.pool_mutex = none
        · have hme : t.mem me = none := ha.1 me hr
          obtain ⟨pool, hrun, hinv, -, -⟩ := h.pool.accept (s := s) hme
          obtain ⟨mem, rfl, hval⟩ := accept_eq_some hrun
          refine ⟨_, _, ?_, .queue hacc hr hfree hme hval hinv⟩
          simp only [Pool.next, accept_thread_run, hacc, acceptQueues, hr, if_pos hfree, hrun,
            Option.bind_eq_bind, Option.bind_some]
        · exact ⟨t, xs, by simp only [Pool.next, accept_thread_run, hacc, acceptQueues, hr,
            if_neg hfree], .hold hacc hfree⟩
  | shutdown => exact ⟨_, xs, rfl, .shutdown⟩
  | prefork => exact ⟨_, xs, rfl, .prefork⟩
  | parent => exact ⟨_, xs, rfl, .parent⟩
  | spurious w => exact ⟨_, xs, rfl, .spurious⟩

end Step

/-! ### Runs of the threads -/

section Runs

variable {t₀ t : Threads} {xs₀ : List (Addr × Conn)}

/-- **Runs** from a state where the invariant holds do not get stuck, and keep what every
step keeps. -/
theorem Sound.run {P : List Act → Threads → List (Addr × Conn) → Prop} (h : Sound t₀ xs₀)
    (init : P [] t₀ xs₀)
    (step : ∀ l t xs a t' ys, Sound t xs → P l t xs → Returned t a → Moves t xs a t' ys →
      P (l ++ [a]) t' ys)
    {l : List Act} (hl : Run.Guarded Pool.next t₀ Returned l) :
    ∃ t xs, Run.run Pool.next t₀ l = some t ∧ Sound t xs ∧ P l t xs := by
  obtain ⟨t, hrun, xs, hs, hP⟩ := Run.total_guarded
    (P := fun l t => ∃ xs, Sound t xs ∧ P l t xs) ⟨xs₀, h, init⟩ (fun l t a hP ha => by
      obtain ⟨xs, hs, hP⟩ := hP
      obtain ⟨t', ys, hnext, hm⟩ := hs.next a ha
      exact ⟨t', hnext, ys, hm.sound hs, step l t xs a t' ys hs hP ha hm⟩) hl
  exact ⟨t, xs, hrun, hs, hP⟩

end Runs

/-- The accept thread accepts a connection and queues it. -/
def connect : List Act :=
  [.accepting ⟨none, none⟩, .accepting ⟨some 5, none⟩, .accepting ⟨none, some 1⟩]

theorem guarded_connect {l : List Act} (h : ∀ t, Run.Guarded next t Returned l) :
    Run.Guarded next (Threads.start 0 3 1) Returned (connect ++ l) := by
  refine Run.Guarded.cons ⟨nofun, nofun⟩ fun t ht => ?_
  obtain rfl := Option.some.inj ht
  refine Run.Guarded.cons ⟨nofun, fun s hs => ?_⟩ fun t ht => ?_
  · obtain rfl := Option.some.inj hs
    decide
  obtain rfl := Option.some.inj ht
  refine Run.Guarded.cons ⟨fun me hme => ?_, nofun⟩ fun t _ => h t
  obtain rfl := Option.some.inj hme
  rfl

end Pool
end Osrv
