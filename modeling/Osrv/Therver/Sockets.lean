import Mathlib.Algebra.BigOperators.Group.Finset.Basic
import Mathlib.Algebra.Order.Group.Multiset
import Mathlib.Tactic.Abel
import Osrv.Therver.Threads

/-!
# The sockets of a server

Every socket that a server has opened is closed, or it is in one place: the
listening socket, the connection that the accept thread is about to queue, a queued
connection or one that a worker serves. `Accounted` counts them with their
multiplicity, since the number of a socket is used again after it has been closed.
It holds in every state of every run (`sockets_accounted`) as long as the services
close the socket or leave that to the worker.

A service that does neither loses the socket, and the worker cannot tell.
-/

namespace Osrv
namespace Pool

open Links

/-! ### Where the sockets are -/

/-- A service closes the socket of its connection and says so, or leaves it open, as is asked of
a callback. `http_connected` without memory does neither (`httpService_closes_iff`). -/
def Service.Closes (process : Service) : Prop :=
  ∀ c, c.s ≠ -1 →
    (process c).2 ++ (if (process c).1.s = -1 then [] else [(process c).1.s]) = [c.s]

/-- The listening socket, until the accept thread has ended. -/
def listening (t : Threads) : Multiset ℤ :=
  match t.accepting with
  | .ended => 0
  | _ => {t.ss}

/-- The socket that the accept thread has in its hands. -/
def held (t : Threads) : Multiset ℤ :=
  match t.accepting with
  | .received s => {s}
  | _ => 0

/-- The socket that a worker serves. -/
def servedBy (t : Threads) (w : ℕ) : Multiset ℤ :=
  match t.workers w with
  | .serving me _ => ((t.mem me).map fun e => e.val.s).toList
  | _ => 0

/-- The sockets that the workers serve. -/
def served (max_threads : ℕ) (t : Threads) : Multiset ℤ :=
  ∑ w ∈ Finset.range max_threads, servedBy t w

/-- The sockets of the connections that are queued. -/
def queued (xs : List (Addr × Conn)) : Multiset ℤ := xs.map fun x => x.2.s

/-- **The account**: every socket that has been opened is closed or in its place. -/
structure Accounted (max_threads : ℕ) (t : Threads) (xs : List (Addr × Conn)) : Prop where
  opened : (t.opened : Multiset ℤ) =
    t.closed + (listening t + held t + queued xs + served max_threads t)
  valid : ∀ s ∈ t.opened, s ≠ -1
  beyond : ∀ w, max_threads ≤ w → t.workers w = .ended

theorem Accounted.start (root : Addr) {ss : ℤ} (hss : ss ≠ -1) (max_threads : ℕ) :
    Accounted max_threads (Threads.start root ss max_threads) [] where
  opened := by
    have hserved : served max_threads (Threads.start root ss max_threads) = 0 := by
      refine Finset.sum_eq_zero fun w hw => ?_
      have hworker : (Threads.start root ss max_threads).workers w = .idle none :=
        if_pos (Finset.mem_range.mp hw)
      simp only [servedBy, hworker]
    rw [hserved]
    simp [Threads.start, start_threads, listening, held, queued]
  valid s hs := by rwa [List.mem_singleton.mp hs]
  beyond w hw := if_neg hw.not_gt

section Step

variable {t t' : Threads} {xs ys : List (Addr × Conn)} {w n : ℕ} {a : Act}

/-! ### One worker at a time -/

theorem servedBy_of_idle {data : Option ℕ} (hw : t.workers w = .idle data) : servedBy t w = 0 := by
  simp only [servedBy, hw]

theorem servedBy_of_ended (hw : t.workers w = .ended) : servedBy t w = 0 := by
  simp only [servedBy, hw]

theorem servedBy_of_serving {me : Addr} {data : Option ℕ} {c : Conn}
    (hw : t.workers w = .serving me data) (hme : (t.mem me).map Node.val = some c) :
    servedBy t w = {c.s} := by
  obtain ⟨e, he, rfl⟩ := Option.map_eq_some_iff.mp hme
  simp only [servedBy, hw, he]
  rfl

/-- What a worker serves depends on the worker and on its entry. -/
theorem servedBy_congr (hw : t'.workers w = t.workers w)
    (hval : ∀ me data, t.workers w = .serving me data →
      (t'.mem me).map Node.val = (t.mem me).map Node.val) : servedBy t' w = servedBy t w := by
  simp only [servedBy, hw]
  cases hw' : t.workers w with
  | serving me data =>
    have hcomp : ∀ m : Option (Node Conn),
        (m.map fun e => e.val.s) = (m.map Node.val).map Conn.s := by
      intro m
      cases m <;> rfl
    simp only [hcomp, hval me data hw']
  | idle data => rfl
  | ended => rfl

/-- A step of one worker: the others serve what they have served. -/
theorem served_step (hw : w < n) (hother : ∀ v, v ≠ w → servedBy t' v = servedBy t v) :
    served n t' + servedBy t w = served n t + servedBy t' w := by
  have hsum : ∀ v ∈ (Finset.range n).erase w, servedBy t' v = servedBy t v :=
    fun v hv => hother v (Finset.ne_of_mem_erase hv)
  rw [served, served, ← Finset.add_sum_erase _ _ (Finset.mem_range.mpr hw),
    ← Finset.add_sum_erase _ (servedBy t) (Finset.mem_range.mpr hw), Finset.sum_congr rfl hsum]
  abel

theorem served_congr (h : ∀ v, servedBy t' v = servedBy t v) : served n t' = served n t :=
  Finset.sum_congr rfl fun v _ => h v

/-- A worker that does something is one of the first. -/
theorem Accounted.lt (h : Accounted n t xs) (hw : t.workers w ≠ .ended) : w < n := by
  by_contra hle
  exact hw (h.beyond w (not_lt.mp hle))

/-- Nothing changes that counts. -/
theorem Accounted.congr (h : Accounted n t xs) (hopened : t'.opened = t.opened)
    (hclosed : t'.closed = t.closed) (haccepting : t'.accepting = t.accepting)
    (hss : t'.ss = t.ss) (hserved : ∀ v, servedBy t' v = servedBy t v)
    (hworkers : ∀ v, t.workers v = .ended → t'.workers v = .ended) : Accounted n t' xs where
  opened := by
    have hlistening : listening t' = listening t := by rw [listening, listening, haccepting, hss]
    have hheld : held t' = held t := by rw [held, held, haccepting]
    rw [hopened, hclosed, hlistening, hheld, served_congr hserved]
    exact h.opened
  valid := by rw [hopened]; exact h.valid
  beyond v hv := hworkers v (h.beyond v hv)

/-- A worker without a connection goes to another place in its loop. -/
theorem Accounted.goto (h : Accounted n t xs) (p : Phase) (m : Option Holder)
    (c : Monitor.Cond ℕ) :
    Accounted n { t.goto w p with pool_mutex := m, pool_work_cond := c } xs :=
  h.congr rfl rfl rfl rfl (fun _ => rfl) fun _ => id

/-- A worker without a connection ends. -/
theorem Accounted.leave (h : Accounted n t xs) {data : Option ℕ} (hw : t.workers w = .idle data)
    (m : Option Holder) : Accounted n { t.leave w with pool_mutex := m } xs := by
  have hw' : ({ t.leave w with pool_mutex := m } : Threads).workers w = .ended :=
    Function.update_self ..
  refine h.congr rfl rfl rfl rfl (fun v => ?_) fun v hv => ?_
  · by_cases hvw : v = w
    · rw [hvw, servedBy_of_ended hw', servedBy_of_idle hw]
    · exact servedBy_congr (Function.update_of_ne hvw ..) fun _ _ _ => rfl
  · by_cases hvw : v = w
    · rw [hvw]
      exact hw'
    · exact (Function.update_of_ne hvw ..).trans hv

/-- **A step of a worker** moves a socket from one place to another. -/
theorem Accounted.worker (h : Accounted n t xs) (gone : List ℤ) (hlt : w < n)
    (hopened : t'.opened = t.opened) (haccepting : t'.accepting = t.accepting) (hss : t'.ss = t.ss)
    (hworkers : ∀ v, v ≠ w → t'.workers v = t.workers v)
    (hother : ∀ v, v ≠ w → servedBy t' v = servedBy t v)
    (hclosed : t'.closed = t.closed ++ gone)
    (hmoved : queued xs + servedBy t w = gone + (queued ys + servedBy t' w)) :
    Accounted n t' ys where
  opened := by
    have hlistening : listening t' = listening t := by rw [listening, listening, haccepting, hss]
    have hheld : held t' = held t := by rw [held, held, haccepting]
    have hstep := served_step hlt hother
    -- what the others serve is on both sides
    refine add_right_cancel (b := servedBy t w) ?_
    rw [hopened, hclosed, hlistening, hheld, h.opened, ← Multiset.coe_add]
    calc (t.closed : Multiset ℤ) + (listening t + held t + queued xs + served n t) + servedBy t w
        = t.closed + (listening t + held t + (queued xs + servedBy t w) + served n t) := by abel
      _ = t.closed + gone + (listening t + held t + queued ys + (served n t + servedBy t' w)) := by
        rw [hmoved]
        abel
      _ = t.closed + gone + (listening t + held t + queued ys + served n t') + servedBy t w := by
        rw [← hstep]
        abel
  valid := by rw [hopened]; exact h.valid
  beyond v hv := by
    rw [hworkers v fun heq => absurd hlt (by rw [← heq]; exact hv.not_gt)]
    exact h.beyond v hv

/-- **Taking** a connection off the queue. -/
theorem Accounted.take {x : Addr × Conn} (h : Accounted n t (x :: xs)) {data : Option ℕ}
    (hw : t.workers w = .idle data) {mem : Mem Conn}
    (hval : ∀ a, (mem a).map Node.val = (t.mem a).map Node.val)
    (hx : (t.mem x.1).map Node.val = some x.2) :
    Accounted n { t.goto w .top with
      mem := mem
      workers := Function.update t.workers w (.serving x.1 data)
      taken := t.taken ++ [x]
      pool_mutex := none } xs := by
  refine h.worker [] (h.lt (by rw [hw]; nofun)) rfl rfl rfl
    (fun v hv => Function.update_of_ne hv ..)
    (fun v hv => servedBy_congr (Function.update_of_ne hv ..) fun me _ _ => hval me)
    (List.append_nil _).symm ?_
  rw [servedBy_of_idle hw, servedBy_of_serving (Function.update_self ..) ((hval x.1).trans hx),
    Multiset.coe_nil, zero_add, add_zero, queued, List.map_cons, ← Multiset.cons_coe,
    ← Multiset.singleton_add, add_comm]
  rfl

/-- The socket that a worker serves is one that has been opened. -/
theorem Accounted.served_valid (h : Accounted n t xs) (hlt : w < n) {s : ℤ}
    (hs : s ∈ servedBy t w) : s ≠ -1 := by
  have hserved : s ∈ served n t :=
    Multiset.mem_sum.mpr ⟨w, Finset.mem_range.mpr hlt, hs⟩
  refine h.valid s (Multiset.mem_coe.mp ?_)
  rw [h.opened]
  exact Multiset.mem_add.mpr (Or.inr (Multiset.mem_add.mpr (Or.inr hserved)))

/-- **The end of a service**: the socket is closed by the service or by the worker. -/
theorem Accounted.serve (h : Accounted n t xs) (hs : Sound t xs) {me : Addr} {data : Option ℕ}
    {e : Node Conn} {process : Service} (hw : t.workers w = .serving me data)
    (he : t.mem me = some e) (hclose : process.Closes) :
    Accounted n { t with
      mem := Function.update t.mem me none
      workers := Function.update t.workers w (.idle (process { e.val with data := data }).1.data)
      closed := t.closed ++ (process { e.val with data := data }).2 ++
        if (process { e.val with data := data }).1.s = -1 then []
        else [(process { e.val with data := data }).1.s] } xs := by
  have hlt : w < n := h.lt (by rw [hw]; nofun)
  have hserved : servedBy t w = {e.val.s} :=
    servedBy_of_serving hw (by rw [he, Option.map_some])
  have hvalid : e.val.s ≠ -1 := h.served_valid hlt (by rw [hserved]; simp)
  refine h.worker [e.val.s] hlt rfl rfl rfl (fun v hv => Function.update_of_ne hv ..)
    (fun v hv => ?_) ?_ ?_
  · -- another worker serves another entry
    refine servedBy_congr (Function.update_of_ne hv ..) fun me' data' hv' => ?_
    have hne : me' ≠ me := by
      rintro rfl
      exact hv (hs.pool.alone v w _ _ _ hv' hw)
    exact congrArg _ (Function.update_of_ne hne ..)
  · rw [List.append_assoc]
    exact congrArg _ (hclose { e.val with data := data } hvalid)
  · rw [hserved, servedBy_of_idle (Function.update_self ..), Multiset.coe_singleton, add_zero,
      add_comm]

/-! ### The accept thread -/

/-- **A step of the accept thread** moves a socket from one place to another. -/
theorem Accounted.accepting (h : Accounted n t xs) (fresh gone : List ℤ)
    (hworkers : t'.workers = t.workers)
    (hserved : ∀ v, servedBy t' v = servedBy t v) (hvalid : ∀ s ∈ t'.opened, s ≠ -1)
    (hopened : t'.opened = t.opened ++ fresh)
    (hclosed : t'.closed = t.closed ++ gone)
    (hmoved : listening t + held t + queued xs + (fresh : Multiset ℤ) =
      gone + (listening t' + held t' + queued ys)) : Accounted n t' ys where
  opened := by
    rw [hopened, hclosed, ← Multiset.coe_add, ← Multiset.coe_add, h.opened,
      served_congr hserved]
    calc (t.closed : Multiset ℤ) + (listening t + held t + queued xs + served n t) + fresh
        = t.closed + (listening t + held t + queued xs + fresh) + served n t := by abel
      _ = t.closed + gone + (listening t' + held t' + queued ys + served n t) := by
        rw [hmoved]
        abel
  valid := hvalid
  beyond v hv := by rw [hworkers]; exact h.beyond v hv

/-- The accept thread at the top of its loop. -/
theorem Accounted.acceptTop (h : Accounted n t xs) (hacc : t.accepting = .top) :
    Accounted n (acceptTop t) xs := by
  have hlistening : listening t = {t.ss} := by simp only [listening, hacc]
  have hheld : held t = 0 := by simp only [held, hacc]
  rw [Pool.acceptTop]
  split
  · refine h.accepting [] [] rfl (fun _ => rfl) h.valid (List.append_nil _).symm
      (List.append_nil _).symm ?_
    rw [hlistening, hheld]
    show _ = (([] : List ℤ) : Multiset ℤ) + ({t.ss} + 0 + queued xs)
    rw [Multiset.coe_nil, zero_add, add_zero]
  · refine h.accepting [] [t.ss] rfl (fun _ => rfl) h.valid (List.append_nil _).symm rfl ?_
    rw [hlistening, hheld]
    show _ = (([t.ss] : List ℤ) : Multiset ℤ) + (0 + 0 + queued xs)
    rw [Multiset.coe_nil, Multiset.coe_singleton]
    abel

/-- `accept` returns. -/
theorem Accounted.acceptReturns (h : Accounted n t xs) (hacc : t.accepting = .accept)
    {s : Option ℤ} (hs : ∀ r ∈ s, r ≠ -1) : Accounted n (acceptReturns s t) xs := by
  have hlistening : listening t = {t.ss} := by simp only [listening, hacc]
  have hheld : held t = 0 := by simp only [held, hacc]
  cases s with
  | none =>
    refine h.accepting [] [] rfl (fun _ => rfl) h.valid (List.append_nil _).symm
      (List.append_nil _).symm ?_
    rw [hlistening, hheld]
    show _ = (([] : List ℤ) : Multiset ℤ) + ({t.ss} + 0 + queued xs)
    rw [Multiset.coe_nil, zero_add, add_zero]
  | some s =>
    refine h.accepting [s] [] rfl (fun _ => rfl) (fun r hr => ?_) rfl
      (List.append_nil _).symm ?_
    · rcases List.mem_append.mp hr with hr | hr
      · exact h.valid r hr
      · rw [List.mem_singleton.mp hr]
        exact hs s rfl
    · rw [hlistening, hheld]
      show _ = (([] : List ℤ) : Multiset ℤ) + ({t.ss} + {s} + queued xs)
      rw [Multiset.coe_nil, Multiset.coe_singleton]
      abel

/-- The connection is queued, or closed for want of memory. -/
theorem Accounted.received (h : Accounted n t xs) (gone : List ℤ) {s : ℤ}
    (hacc : t.accepting = .received s) (hacc' : t'.accepting = .top) (hss : t'.ss = t.ss)
    (hworkers : t'.workers = t.workers)
    (hserved : ∀ v, servedBy t' v = servedBy t v) (hopened : t'.opened = t.opened)
    (hclosed : t'.closed = t.closed ++ gone)
    (hmoved : queued xs + {s} = gone + queued ys) : Accounted n t' ys := by
  refine h.accepting [] gone hworkers hserved (by rw [hopened]; exact h.valid)
    (hopened.trans (List.append_nil _).symm) hclosed ?_
  have hplaces : listening t + held t = {t.ss} + {s} := by simp only [listening, held, hacc]
  have hplaces' : listening t' + held t' = {t.ss} + 0 := by
    simp only [listening, held, hacc', hss]
  rw [hplaces, hplaces', Multiset.coe_nil, add_zero, add_zero]
  calc {t.ss} + {s} + queued xs = {t.ss} + (queued xs + {s}) := by abel
    _ = gone + ({t.ss} + queued ys) := by
      rw [hmoved]
      abel

/-! ### All steps -/

/-- Services close the socket or leave it open. -/
def Act.Closes : Act → Prop
  | .worker _ process => process.Closes
  | _ => True

/-- **A step keeps the account.** -/
theorem Accounted.step (h : Accounted n t xs) (hs : Sound t xs) (ha : Returned t a)
    (hclose : a.Closes) (hm : Moves t xs a t' ys) : Accounted n t' ys := by
  cases hm with
  | ended | blocked | hold | finished => exact h
  | enter | see | miss | decide => exact h.goto _ t.pool_mutex t.pool_work_cond
  | lock => exact h.goto _ _ t.pool_work_cond
  | resume | wait => exact h.goto _ _ _
  | quit hw => exact h.leave hw t.pool_mutex
  | drop hw => exact h.leave hw none
  | @take _ x _ _ _ mem hw _ hval _ =>
    obtain ⟨c, first, last, -, hseg⟩ := hs.pool.ring
    obtain ⟨next, prev, hx⟩ := hseg.mem_of_mem (List.mem_cons_self ..)
    exact h.take hw hval (by rw [hx, Option.map_some])
  | serve hw he => exact h.serve hs hw he hclose
  | acceptTop hacc => exact h.acceptTop hacc
  | accept hacc => exact h.acceptReturns hacc ha.2
  | @reject _ r s hacc =>
    refine h.received [s] hacc rfl rfl rfl (fun _ => rfl) rfl rfl ?_
    rw [Multiset.coe_singleton, add_comm]
  | @queue _ r s me mem hacc _ _ hfree hval _ =>
    refine h.received [] hacc rfl rfl rfl (fun v => ?_) rfl (List.append_nil _).symm ?_
    · refine servedBy_congr rfl fun me' data hv => ?_
      have hne : me' ≠ me := by
        rintro rfl
        exact (hs.pool.serving v _ _ hv).1 hfree
      exact (hval me').trans (if_neg hne)
    · simp only [queued, List.map_append, List.map_singleton, ← Multiset.coe_add,
        Multiset.coe_singleton, Multiset.coe_nil, zero_add]
  | shutdown => exact h.congr rfl rfl rfl rfl (fun _ => rfl) fun _ => id
  | prefork =>
    rw [Pool.prefork]
    split
    · exact h.congr rfl rfl rfl rfl (fun _ => rfl) fun _ => id
    · exact h
  | parent =>
    rw [forked_parent]
    split
    · exact h.congr rfl rfl rfl rfl (fun _ => rfl) fun _ => id
    · exact h
  | spurious => exact h.congr rfl rfl rfl rfl (fun _ => rfl) fun _ => id

end Step

/-! ### The services -/

/-- `do_process` of the object server, as far as the socket goes. Without memory for its
buffer it returns at once, and otherwise it closes the socket in the end. -/
def tcpService (calloc : Option ℕ) : Service := fun c =>
  if c.s < 0 then (c, [])
  else
    match c.data.or calloc with
    | none => (c, [])
    | some data => (⟨-1, some data⟩, [c.s])

/-- `do_process` of the HTTP server. `http_connected` closes the socket, unless there is no
memory for the connection, and `do_process` takes it for closed in either case. -/
def httpService (calloc : Bool) : Service := fun c =>
  (⟨-1, c.data⟩, if calloc then [c.s] else [])

theorem tcpService_closes (calloc : Option ℕ) : (tcpService calloc).Closes := by
  intro c hc
  have hopen : ([] : List ℤ) ++ (if c.s = -1 then [] else [c.s]) = [c.s] := by
    rw [if_neg hc, List.nil_append]
  by_cases hneg : c.s < 0
  · rw [tcpService, if_pos hneg]
    exact hopen
  · rw [tcpService, if_neg hneg]
    cases c.data.or calloc with
    | none => exact hopen
    | some data => rfl

/-- **The HTTP server loses the socket** if there is no memory for the connection. -/
theorem httpService_closes_iff (calloc : Bool) : (httpService calloc).Closes ↔ calloc = true := by
  constructor
  · intro h
    have hone := h ⟨5, none⟩ (by decide)
    cases calloc with
    | true => rfl
    | false => cases hone
  · rintro rfl c -
    rw [httpService, if_pos rfl, if_pos rfl, List.append_nil]

/-! ### The sockets of a run -/

/-- No thread will do anything any more, unless a connection is queued or a thread wakes up
for no reason. -/
structure AtRest (t : Threads) : Prop where
  accepting : t.accepting = .ended
  worker : ∀ w, t.workers w = .ended ∨
    (∃ data, t.workers w = .idle data) ∧ w ∈ t.pool_work_cond.blocked

/-- **Sockets are accounted for.** In every run of the threads of a server, with services
that close the socket or leave that to the worker, every socket that has been opened is
closed, or it is the listening socket, in the hands of the accept thread, queued or served:
as often as it has been opened. When all threads rest, what has not been closed is queued. -/
theorem sockets_accounted (root : Addr) {ss : ℤ} (hss : ss ≠ -1) (max_threads : ℕ)
    {l : List Act} (hl : Run.Guarded next (Threads.start root ss max_threads) Returned l)
    (hclose : ∀ a ∈ l, a.Closes) :
    ∃ t xs, Run.run next (Threads.start root ss max_threads) l = some t ∧
      Consistent t.toTherver xs ∧
      (t.opened : Multiset ℤ) =
        t.closed + (listening t + held t + queued xs + served max_threads t) ∧
      (AtRest t → (t.opened : Multiset ℤ) = t.closed + queued xs) := by
  obtain ⟨t, xs, hrun, hs, hacc⟩ := (Sound.start root ss max_threads).run
    (P := fun l t xs => (∀ a ∈ l, a.Closes) → Accounted max_threads t xs)
    (fun _ => .start root hss max_threads) (fun l t xs a t' ys hs hP ha hm hall => by
      have hacc := hP fun b hb => hall b (List.mem_append_left _ hb)
      exact hacc.step hs ha (hall a (by simp)) hm) hl
  have hacc := hacc hclose
  refine ⟨t, xs, hrun, hs.pool.consistent, hacc.opened, fun hrest => ?_⟩
  have hlistening : listening t = 0 := by simp only [listening, hrest.accepting]
  have hheld : held t = 0 := by simp only [held, hrest.accepting]
  have hserved : served max_threads t = 0 := by
    refine Finset.sum_eq_zero fun w _ => ?_
    rcases hrest.worker w with hw | ⟨⟨data, hw⟩, -⟩
    · exact servedBy_of_ended hw
    · exact servedBy_of_idle hw
  rw [hacc.opened, hlistening, hheld, hserved, zero_add, zero_add, add_zero]

/-- A client connects and is served. -/
def oneClient : List Act := connect ++ List.replicate 6 (.worker 0 (tcpService (some 9)))

theorem guarded_oneClient : Run.Guarded next (Threads.start 0 3 1) Returned oneClient :=
  guarded_connect fun _ => .cons trivial fun _ _ => .cons trivial fun _ _ =>
    .cons trivial fun _ _ => .cons trivial fun _ _ => .cons trivial fun _ _ =>
    .cons trivial fun _ _ => Run.guarded_nil _

theorem sockets_accounted_one :
    ∃ t xs, Run.run next (Threads.start 0 3 1) oneClient = some t ∧
      Consistent t.toTherver xs ∧
      (t.opened : Multiset ℤ) = t.closed + (listening t + held t + queued xs + served 1 t) ∧
      (AtRest t → (t.opened : Multiset ℤ) = t.closed + queued xs) := by
  refine sockets_accounted 0 (by decide) 1 guarded_oneClient fun a ha => ?_
  simp only [oneClient, connect, List.mem_append, List.mem_cons, List.not_mem_nil, or_false] at ha
  rcases ha with (rfl | rfl | rfl) | ha
  · trivial
  · trivial
  · trivial
  · rw [List.eq_of_mem_replicate ha]
    exact tcpService_closes _

end Pool
end Osrv
