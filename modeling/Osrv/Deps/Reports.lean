import Osrv.Deps.Sound
import Osrv.Queue.Ownership

/-!
# Reports that reach R

`deps_complete` reports a request as an event: under `dep_mutex` it creates an entry,
copies the message and the name to it and pushes it on `dep_queue`, one request after the
other. R takes the entries off with `evq.pop(dep.queue())` whenever it likes, also in the
middle of a sweep. The queue is not for reports alone: the HTTP server puts the bodies of
work requests on it, and R what it likes, also in front.

The system below puts all this together: the threads of `deps_add` and `obj_add`, the
pushes of a sweep one by one, and the calls on the queues. What the model of `deps.c` takes
for a list are the entries of an event queue, and `reports_delivered` says that they are
still there between the others, in order, each once until R takes it off, and none for a
request that still waits.
-/

namespace Osrv
namespace Deps

open Bytes

variable {T D R : Type}

/-! ### The system -/

/-- The contents of the entry for a report, to its end. -/
def Resolved.bytes (m : Resolved) : List UInt8 := Revq.resolvedBytes m.msg m.name ++ [0, 0, 0]

/-- The server and its threads with their books, how many reports have been pushed, the
events, what the calls returned that took an entry off `dep_queue`, and what else has been
pushed there. -/
structure Notifier (T D R : Type) where
  sys : Sys T D R
  books : Account T D R
  pushed : ℕ
  process : Revq.Process
  taken : List Revq.Outcome
  others : List (List UInt8)

def Notifier.init : Notifier T D R := ⟨.init, .init, 0, .init, [], []⟩

/-- The reports in the order of their sweeps. -/
def Notifier.reports (s : Notifier T D R) : List Resolved := s.sys.server.deps.dep_queue

/-- The steps. -/
inductive Move (T D R : Type)
  /-- A section of `deps.c` or `obj.c`. Its reports are pushed one by one. -/
  | call (a : Act T D R)
  /-- The next report is pushed, in a new entry. -/
  | push (a : Links.Addr)
  /-- A call on the queues. -/
  | event (act : Revq.Act)

/-- A call that has taken an entry returns it, as bytes or as a reference, or fails. -/
def tookEntry : Revq.Outcome → Bool
  | .raw _ | .ref _ | .error => true
  | _ => false

/-- What a call returned, if it took an entry off `dep_queue`. -/
def takes (dep_queue : ℕ) (act : Revq.Act) (o : Revq.Outcome) : List Revq.Outcome :=
  match act with
  | .pop q _ _ _ _ => if q = dep_queue ∧ tookEntry o then [o] else []
  | _ => []

/-- The contents of the entry that a reference stands for. -/
def referenced (p : Revq.Process) (i : ℕ) : Option (List UInt8) :=
  match p.refs[i]? with
  | some (some e) => Revq.contentsAt (Revq.vals p.events) p.blocks e
  | _ => none

/-- What a call pushes on `dep_queue`. -/
def adds (dep_queue : ℕ) (p : Revq.Process) : Revq.Act → List (List UInt8)
  | .pushRaw q _ bytes _ => if q = dep_queue then [bytes] else []
  | .pushRef q i _ => if q = dep_queue then (referenced p i).toList else []
  | .post (some q) _ (some (_, bytes)) => if q = dep_queue ∧ bytes ≠ [] then [bytes] else []
  | _ => []

/-- Performs a step. -/
def Notifier.step [DecidableEq T] (dep_queue : ℕ) (s : Notifier T D R) :
    Move T D R → Option (Notifier T D R)
  | .call a => do
    let sys ← s.sys.step a
    pure { s with sys := sys, books := s.books.step a }
  | .push a => do
    let m ← s.reports[s.pushed]?
    let (_, process) ← Revq.notifyResolved dep_queue a m.msg m.name s.process
    pure { s with pushed := s.pushed + 1, process := process }
  | .event act => do
    let (o, process) ← Revq.perform s.process act
    pure { s with
      process := process
      taken := s.taken ++ takes dep_queue act o
      others := s.others ++ adds dep_queue s.process act }

/-- A section of `dep_mutex`. -/
def Act.Locks : Act T D R → Prop
  | .append _ | .sweep _ | .obj_add _ _ _ _ => True
  | _ => False

/-- A call that is not made by `deps_complete`. -/
def Elsewhere : Revq.Act → Prop
  | .resolved _ _ _ _ => False
  | _ => True

/-- **What can come next**: a thread makes the steps of its calls in their order, and holds
`dep_mutex` until the last report of its sweep is pushed; no request is appended behind a freed
node; the allocator returns memory that is not in use. -/
def Notifier.Allowed (s : Notifier T D R) : Move T D R → Prop
  | .call a => s.books.Next a ∧ (∀ t, a = .append t → s.books.TailValid) ∧
      (a.Locks → s.pushed = s.reports.length)
  | .push a => s.pushed < s.reports.length ∧ s.process.events.mem a = none
  | .event act => Revq.Fresh ([], s.process) act ∧ Elsewhere act

/-! ### Reports are only added -/

theorem completeLoop_reports {key : Option CString} {n : ℕ} {e prev : Heap.Ptr} {s s' : State}
    (h : completeLoop key n e prev s = some s') : s.dep_queue <+: s'.dep_queue := by
  induction n generalizing e prev s with
  | zero => cases h
  | succ n ih =>
    cases e with
    | none =>
      obtain rfl := Option.some.inj h
      exact List.prefix_refl _
    | some cur =>
      simp only [completeLoop, Option.bind_eq_bind, Option.bind_eq_some_iff] at h
      obtain ⟨cell, -, heap, -, h⟩ := h
      split at h
      · obtain ⟨heap₁, -, h⟩ := Option.bind_eq_some_iff.mp h
        obtain ⟨heap₂, -, h⟩ := Option.bind_eq_some_iff.mp h
        exact (List.prefix_append _ _).trans (ih h)
      · have hrest := ih h
        exact hrest

theorem deps_append_reports {e : Depent} {s s' : State} (h : deps_append e s = some s') :
    s'.dep_queue = s.dep_queue := by
  simp only [deps_append] at h
  split at h
  · obtain rfl := Option.some.inj h
    rfl
  · obtain ⟨t, -, h⟩ := Option.bind_eq_some_iff.mp h
    obtain ⟨heap, -, h⟩ := Option.bind_eq_some_iff.mp h
    obtain rfl := Option.some.inj h
    rfl

/-- **A section** adds reports, if any, behind those there are, and only under the mutex. -/
theorem step_reports [DecidableEq T] {s s' : Sys T D R} {a : Act T D R}
    (h : s.step a = some s') :
    s.server.deps.dep_queue <+: s'.server.deps.dep_queue ∧
      (¬ a.Locks → s'.server.deps.dep_queue = s.server.deps.dep_queue) := by
  have hcases := Sys.step_cases h
  cases a with
  | deps_add t name keys msg =>
    obtain ⟨-, rfl⟩ := hcases
    exact ⟨List.prefix_refl _, fun _ => rfl⟩
  | check t =>
    obtain ⟨_, _, _, _, _, _, _, -, -, rfl⟩ := hcases
    exact ⟨List.prefix_refl _, fun _ => rfl⟩
  | append t =>
    obtain ⟨_, _, _, deps, -, happ, rfl⟩ := hcases
    have hsame := deps_append_reports happ
    exact ⟨hsame ▸ List.prefix_refl _, fun hno => absurd trivial hno⟩
  | sweep t =>
    obtain ⟨-, deps, hrun, rfl⟩ := hcases
    exact ⟨completeLoop_reports hrun, fun hno => absurd trivial hno⟩
  | obj_add key sWhat data len =>
    obtain ⟨deps, hrun, rfl⟩ := hcases
    exact ⟨completeLoop_reports hrun, fun hno => absurd trivial hno⟩
  | obj_get key rm =>
    obtain ⟨_, _, -, rfl⟩ := hcases
    exact ⟨List.prefix_refl _, fun _ => rfl⟩

/-! ### What is on the queue -/

/-- What an entry of `dep_queue` is: a report, or something else. A report that R puts back
is something else from then on. -/
inductive Item
  | report (m : Resolved)
  | other (bytes : List UInt8)

def Item.bytes : Item → List UInt8
  | .report m => m.bytes
  | .other bytes => bytes

def Item.report? : Item → Option Resolved
  | .report m => some m
  | .other _ => none

def Item.other? : Item → Option (List UInt8)
  | .report _ => none
  | .other bytes => some bytes

/-- What a call returned that took the entry: its bytes, or a reference. If there was no
room for the bytes, the entry is left to the finaliser. -/
def Returned (o : Revq.Outcome) (x : Item) : Prop :=
  o = .raw x.bytes ∨ (∃ i, o = .ref i) ∨ o = .error

/-- The items that are taken off the queue by a call, those that are on it afterwards, and
what they were before. -/
structure Handed (dep_queue : ℕ) (queued taken queued' : List Item) (o : List Revq.Outcome)
    (added : List (List UInt8)) (σ : Revq.Ideal) : Prop where
  returned : List.Forall₂ Returned o taken
  queue : σ.queues dep_queue = queued'.map Item.bytes
  reports : (taken ++ queued').filterMap Item.report? = queued.filterMap Item.report?
  others : ((taken ++ queued').filterMap Item.other?).Perm
    (queued.filterMap Item.other? ++ added)

section Queue

variable {dep_queue : ℕ} {σ σ' : Revq.Ideal} {queued : List Item}

/-- A call that leaves the queue alone. -/
theorem handed_same (hqueue : σ.queues dep_queue = queued.map Item.bytes)
    (hsame : σ'.queues dep_queue = σ.queues dep_queue) :
    Handed dep_queue queued [] queued [] [] σ' where
  returned := .nil
  queue := hsame.trans hqueue
  reports := rfl
  others := by rw [List.append_nil]; exact .refl _

/-- Something is pushed, at the front or at the end. -/
theorem handed_push (hqueue : σ.queues dep_queue = queued.map Item.bytes) (front : Bool)
    (bytes : List UInt8)
    (hpush : σ'.queues dep_queue = Queue.pushed front bytes (σ.queues dep_queue)) :
    Handed dep_queue queued [] (Queue.pushed front (.other bytes) queued) [] [bytes] σ' := by
  rw [hqueue] at hpush
  cases front with
  | true => exact ⟨.nil, hpush, rfl, (List.perm_append_singleton _ _).symm⟩
  | false =>
    refine ⟨.nil, ?_, ?_, ?_⟩
    · rw [hpush]
      show queued.map Item.bytes ++ [bytes] = (queued ++ [Item.other bytes]).map Item.bytes
      rw [List.map_append]
      rfl
    · show (queued ++ [Item.other bytes]).filterMap Item.report? = _
      rw [List.filterMap_append]
      exact List.append_nil _
    · show ((queued ++ [Item.other bytes]).filterMap Item.other?).Perm _
      rw [List.filterMap_append]
      rfl

/-- A push on a queue that may be this one. -/
theorem handed_pushed (hqueue : σ.queues dep_queue = queued.map Item.bytes) (q : ℕ) (front : Bool)
    (bytes : List UInt8)
    (hpush : σ'.queues = Function.update σ.queues q (Queue.pushed front bytes (σ.queues q))) :
    ∃ queued', Handed dep_queue queued [] queued' []
      (if q = dep_queue then [bytes] else []) σ' := by
  by_cases hq : q = dep_queue
  · subst hq
    rw [if_pos rfl]
    exact ⟨_, handed_push hqueue front bytes (by rw [hpush, Function.update_self])⟩
  · rw [if_neg hq]
    refine ⟨queued, handed_same hqueue ?_⟩
    rw [hpush]
    exact Function.update_of_ne (Ne.symm hq) ..

/-- The first item is taken off, if there is one. -/
theorem handed_pop (hqueue : σ.queues dep_queue = queued.map Item.bytes) (timer : Option Bool)
    (ref room : Bool) (fresh : Memory) :
    ∃ taken queued', Handed dep_queue queued taken queued'
      (takes dep_queue (.pop dep_queue timer ref room fresh) (σ.pop dep_queue timer ref room).1)
      [] (σ.pop dep_queue timer ref room).2 := by
  cases queued with
  | nil =>
    have hempty : σ.queues dep_queue = [] := hqueue
    refine ⟨[], [], ?_, ?_, rfl, .nil⟩
    · simp only [Revq.Ideal.pop, hempty, takes]
      split <;> exact .nil
    · simp only [Revq.Ideal.pop, hempty]
      rfl
  | cons x queued =>
    refine ⟨[x], queued, ?_, ?_, rfl, by rw [List.append_nil]; exact .refl _⟩
    · simp only [Revq.Ideal.pop, hqueue, List.map_cons, takes]
      cases ref with
      | true => exact .cons (Or.inr (Or.inl ⟨_, rfl⟩)) .nil
      | false =>
        cases room with
        | true => exact .cons (Or.inl rfl) .nil
        | false => exact .cons (Or.inr (Or.inr rfl)) .nil
    · simp only [Revq.Ideal.pop, hqueue, List.map_cons]
      cases ref with
      | true => exact Function.update_self ..
      | false => cases room <;> exact Function.update_self ..

/-- **What a call does to the queue.** -/
theorem perform_handed {p : Revq.Process} {d : ℕ → List (Links.Addr × Revq.Event)}
    (howned : Revq.Owned p [] d σ) (hqueue : σ.queues dep_queue = queued.map Item.bytes)
    {act : Revq.Act} (hact : Elsewhere act) :
    ∃ taken queued', Handed dep_queue queued taken queued'
      (takes dep_queue act (σ.perform act).1) (adds dep_queue p act) (σ.perform act).2 := by
  cases act with
  -- a push hands in the bytes of the vector
  | pushRaw q a bytes front => exact ⟨[], handed_pushed hqueue q front bytes rfl⟩
  | pushRef q i front =>
    by_cases hi : ∃ e, p.refs[i]? = some (some e)
    · obtain ⟨e, hi⟩ := hi
      obtain ⟨bytes, hσ, hbytes, -⟩ := howned.clearRef hi
      have hadds : adds dep_queue p (.pushRef q i front)
          = if q = dep_queue then [bytes] else [] := by
        simp only [adds, referenced, hi, hbytes]
        rfl
      rw [hadds]
      refine ⟨[], handed_pushed hqueue q front bytes ?_⟩
      simp only [Revq.Ideal.perform, hσ]
      rfl
    -- a reference that has been cleared is an error
    · have hadds : adds dep_queue p (.pushRef q i front) = [] := by
        have hnone : referenced p i = none := by
          simp only [referenced]
          split
          · exact absurd ⟨_, ‹_›⟩ hi
          · rfl
        simp [adds, hnone]
      have hσ := howned.ref_none fun e he => hi ⟨e, he⟩
      rw [hadds]
      refine ⟨[], queued, handed_same hqueue ?_⟩
      simp only [Revq.Ideal.perform]
  | pop q timer ref room fresh =>
    by_cases hq : q = dep_queue
    · subst hq
      exact handed_pop hqueue timer ref room fresh
    · -- a pop of another queue leaves this one as it is
      have htakes : ∀ o, takes dep_queue (.pop q timer ref room fresh) o = [] :=
        fun o => if_neg fun h => hq h.1
      rw [htakes]
      refine ⟨[], queued, handed_same hqueue ?_⟩
      simp only [Revq.Ideal.perform, Revq.Ideal.pop]
      split
      · rfl
      · split
        · exact Function.update_of_ne (Ne.symm hq) ..
        · split <;> exact Function.update_of_ne (Ne.symm hq) ..
  -- a finalizer drops an element that no queue holds
  | finalize i => exact ⟨[], queued, handed_same hqueue rfl⟩
  | post queue a body =>
    cases queue with
    | none => exact ⟨[], queued, handed_same hqueue rfl⟩
    | some q =>
      cases body with
      | none => exact ⟨[], queued, handed_same hqueue rfl⟩
      | some block =>
        obtain ⟨b, bytes⟩ := block
        by_cases hbytes : bytes = []
        · -- an empty body is not queued
          subst hbytes
          have hadds : adds dep_queue p (.post (some q) a (some (b, []))) = [] :=
            if_neg fun h => h.2 rfl
          rw [hadds]
          exact ⟨[], queued, handed_same hqueue rfl⟩
        · have hadds : adds dep_queue p (.post (some q) a (some (b, bytes)))
              = if q = dep_queue then [bytes] else [] := by
            simp only [adds, ne_eq, hbytes, not_false_eq_true, and_true]
          have hperform : (σ.perform (.post (some q) a (some (b, bytes)))).2
              = σ.push q false bytes := by
            rw [Revq.Ideal.perform, if_neg hbytes]
          rw [hadds, hperform]
          exact ⟨[], handed_pushed hqueue q false bytes rfl⟩
  | resolved q a msg name => exact hact.elim

end Queue

/-! ### The invariant -/

/-- What has been taken off `dep_queue`, and what is on it. -/
structure Lined (s : Notifier T D R) (taken queued : List Item) : Prop where
  returned : List.Forall₂ Returned s.taken taken
  /-- The reports that have been pushed are there in order, each once. -/
  reports : (taken ++ queued).filterMap Item.report? = s.reports.take s.pushed
  /-- So is the rest, if not in order. -/
  others : ((taken ++ queued).filterMap Item.other?).Perm s.others

/-- The invariant. -/
structure Delivering (dep_queue : ℕ) (s : Notifier T D R) : Prop where
  books : Accounted s.books s.sys
  pushed : s.pushed ≤ s.reports.length
  events : ∃ d σ taken queued, Revq.Owned s.process [] d σ ∧
    σ.queues dep_queue = queued.map Item.bytes ∧ Lined s taken queued

theorem Delivering.init (dep_queue : ℕ) :
    Delivering dep_queue (Notifier.init : Notifier T D R) where
  books := Accounted.init
  pushed := Nat.le_refl 0
  events := ⟨_, _, [], [], Revq.Owned.init, rfl, .nil, rfl, .nil⟩

section Step

variable [DecidableEq T] {dep_queue : ℕ} {s : Notifier T D R}

/-- **One step** is possible, and keeps the invariant. -/
theorem Delivering.step (h : Delivering dep_queue s) {act : Move T D R} (hact : s.Allowed act) :
    ∃ s', s.step dep_queue act = some s' ∧ Delivering dep_queue s' := by
  obtain ⟨d, σ, taken, queued, howned, hqueue, hlined⟩ := h.events
  cases act with
  | call a =>
    obtain ⟨hnext, hvalid, hlocks⟩ := hact
    obtain ⟨sys, hstep, hbooks⟩ := h.books.step hnext hvalid
    obtain ⟨hgrown, hsame⟩ := step_reports hstep
    have hlen : s.reports.length ≤ sys.server.deps.dep_queue.length := hgrown.length_le
    -- the reports that have been pushed stay where they are
    have htake : sys.server.deps.dep_queue.take s.pushed = s.reports.take s.pushed := by
      obtain ⟨new, hnew⟩ := hgrown
      rw [← hnew]
      exact List.take_append_of_le_length h.pushed
    refine ⟨{ s with sys := sys, books := s.books.step a }, ?_, hbooks, h.pushed.trans hlen, d, σ,
      taken, queued, howned, hqueue, hlined.returned, ?_, hlined.others⟩
    swap
    · exact hlined.reports.trans htake.symm
    rw [Notifier.step, hstep]
    rfl
  | push a =>
    obtain ⟨hlt, hfresh⟩ := hact
    have hget : s.reports[s.pushed]? = some s.reports[s.pushed] := List.getElem?_eq_getElem hlt
    have hfresh' : Revq.Fresh ([], s.process)
        (.resolved dep_queue a s.reports[s.pushed].msg s.reports[s.pushed].name) := hfresh
    obtain ⟨p', d', hrun, howned'⟩ := howned.perform hfresh'
    change Revq.notifyResolved dep_queue a _ _ s.process = some (.done, p') at hrun
    refine ⟨{ s with pushed := s.pushed + 1, process := p' }, ?_, h.books, hlt, d', _, taken,
      queued ++ [.report s.reports[s.pushed]], howned', ?_, hlined.returned, ?_, ?_⟩
    · simp only [Notifier.step, hget, hrun, Option.bind_eq_bind, Option.bind_some]
      rfl
    · -- the report is queued behind the others, in the order of the list
      show Function.update σ.queues dep_queue _ dep_queue = _
      rw [Function.update_self, hqueue, List.map_append]
      rfl
    · show _ = s.reports.take (s.pushed + 1)
      rw [List.take_add_one, hget, ← hlined.reports, ← List.append_assoc, List.filterMap_append]
      rfl
    · show ((taken ++ (queued ++ _)).filterMap Item.other?).Perm s.others
      rw [← List.append_assoc, List.filterMap_append]
      exact (List.append_nil _).symm ▸ hlined.others
  | event act =>
    obtain ⟨hfresh, helsewhere⟩ := hact
    obtain ⟨p', d', hrun, howned'⟩ := howned.perform hfresh
    -- the rest of the process may take reports out and put other elements in
    obtain ⟨new, rest, hhanded⟩ := perform_handed howned hqueue helsewhere
    refine ⟨{ s with
      process := p'
      taken := s.taken ++ takes dep_queue act (σ.perform act).1
      others := s.others ++ adds dep_queue s.process act }, ?_, h.books, h.pushed, d', _,
      taken ++ new, rest, howned', hhanded.queue, List.rel_append hlined.returned hhanded.returned,
      ?_, ?_⟩
    · simp only [Notifier.step, hrun, Option.bind_eq_bind, Option.bind_some]
      rfl
    · calc (taken ++ new ++ rest).filterMap Item.report?
          = taken.filterMap Item.report? ++ (new ++ rest).filterMap Item.report? := by
            rw [List.append_assoc, List.filterMap_append]
        _ = s.reports.take s.pushed := by
            rw [hhanded.reports, ← List.filterMap_append, hlined.reports]
    · have hothers : (taken.filterMap Item.other? ++ (new ++ rest).filterMap Item.other?).Perm
          (taken.filterMap Item.other? ++ (queued.filterMap Item.other? ++ _)) :=
        hhanded.others.append_left _
      rw [← List.filterMap_append, ← List.append_assoc, ← List.append_assoc,
        ← List.filterMap_append] at hothers
      exact hothers.trans (hlined.others.append_right _)

end Step

/-! ### The result -/

/-- **R gets the reports.** -/
structure Delivered (dep_queue : ℕ) (s : Notifier T D R) : Prop where
  /-- What has been taken and what is on the queue are the reports that have been pushed, in
  order, and between them what else has been pushed. The first one on the queue is what
  `evq.pop` returns, or it finds out that there is none. -/
  lined : ∃ taken queued, Lined s taken queued ∧ ∀ timer fresh, ∃ p',
    Revq.C_evq_pop dep_queue timer false true fresh s.process
      = some (match queued.head? with
        | some x => .raw x.bytes
        | none => if timer = some false then .waiting else .null, p')
  /-- Each report is for one request, all of whose keys have been found or added. -/
  due : s.reports.Subperm s.books.due

theorem Delivering.delivered {dep_queue : ℕ} {s : Notifier T D R} (h : Delivering dep_queue s) :
    Delivered dep_queue s := by
  obtain ⟨d, σ, taken, queued, howned, hqueue, hlined⟩ := h.events
  refine ⟨⟨taken, queued, hlined, fun timer fresh => ?_⟩, ?_⟩
  · obtain ⟨p', d', hrun, -⟩ := howned.evq_pop dep_queue timer false true fresh
    refine ⟨p', hrun.trans ?_⟩
    cases queued with
    | nil =>
      have hempty : σ.queues dep_queue = [] := hqueue
      simp only [Revq.Ideal.pop, hempty]
      rfl
    | cons x queued =>
      simp only [Revq.Ideal.pop, hqueue, List.map_cons]
      rfl
  · obtain ⟨zs, new, hdeps⟩ := h.books.deps
    exact hdeps.queue_subperm

/-- **Reports are delivered.** In every interleaving of calls of `deps_add`, `obj_add` and
`obj_get`, the pushes of their sweeps, and calls on the queues, in which no request is appended
behind a freed node, no step fails, and R gets from
`dep_queue` one report after the other, each once and none before its time, and between
them what else is put there. -/
theorem reports_delivered [DecidableEq T] (dep_queue : ℕ) {acts : List (Move T D R)}
    (h : Run.Guarded (Notifier.step dep_queue) Notifier.init Notifier.Allowed acts) :
    ∃ s, Run.run (Notifier.step dep_queue) Notifier.init acts = some s ∧
      Delivered dep_queue s := by
  obtain ⟨s, hrun, hs⟩ := Run.total_guarded (P := fun _ s => Delivering dep_queue s)
    (Delivering.init dep_queue) (fun _ _ _ hs hact => hs.step hact) h
  exact ⟨s, hrun, hs.delivered⟩

/-- A request that waits for nothing is reported behind a work request, and R takes both. -/
def reported : List (Move Unit ℕ Unit) :=
  [.call (.deps_add () (cstr [65]) [] 1), .call (.append ()), .call (.sweep ()),
    .event (.post (some 0) 3 (some (5, [9]))), .push 7,
    .event (.pop 0 none false true fun _ => 0), .event (.pop 0 none false true fun _ => 0)]

example : (Run.run (Notifier.step 0) Notifier.init reported).map Notifier.taken
    = some [.raw [9], .raw [1, 0, 0, 0, 65, 0, 0, 0, 0]] := rfl

theorem reports_delivered_one : ∃ s, Run.run (Notifier.step 0) Notifier.init reported = some s ∧
    Delivered 0 s := by
  refine reports_delivered 0 ?_
  refine .cons ⟨rfl, fun _ h => (by cases h), fun h => h.elim⟩ fun s₁ h₁ => ?_
  obtain rfl := Option.some.inj h₁
  refine .cons ⟨⟨_, _, _, rfl⟩, fun _ _ _ => .inl fun _ h => (by cases h), fun _ => rfl⟩
    fun s₂ h₂ => ?_
  obtain rfl := Option.some.inj h₂
  refine .cons ⟨rfl, fun _ h => (by cases h), fun _ => rfl⟩ fun s₃ h₃ => ?_
  obtain rfl := Option.some.inj h₃
  refine .cons ⟨⟨rfl, fun b hb => ?_⟩, trivial⟩ fun s₄ h₄ => ?_
  · obtain rfl := Option.some.inj hb
    rfl
  obtain rfl := Option.some.inj h₄
  refine .cons ⟨Nat.zero_lt_one, rfl⟩ fun s₅ h₅ => ?_
  obtain rfl := Option.some.inj h₅
  refine .cons ⟨trivial, trivial⟩ fun s₆ h₆ => ?_
  obtain rfl := Option.some.inj h₆
  exact .cons ⟨trivial, trivial⟩ fun s₇ h₇ => Run.guarded_nil _

end Deps
end Osrv
