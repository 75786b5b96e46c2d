import Osrv.Deps.Interleave
import Osrv.Deps.Sequential

/-!
# Nothing is reported too early or twice

Any number of threads call `deps_add`, `obj_add` and `obj_get`, in any order of their
atomic steps. `Account` keeps the books of such a run: every request that was appended,
with the keys its own check has found and those added since. It knows nothing of lists
and nodes.

The invariant `Accounted` splits the requests of the books into those that a sweep has seen
and those appended since the last one. Of the first the list has those that wait, and the
others have been reported; the second are all in the list. A message for a request that waits
for a key, or a second one, is therefore never posted.

What goes wrong is the same as with one call at a time: when `tail` leads to a freed node, the
next append writes to it. The books say when this is (`Account.TailValid`), and up to the
first such append a run has no fault (`notifications_sound_iff`).
-/

namespace Osrv
namespace Deps

open Bytes Heap

variable {T D R : Type}

/-! ### The books -/

/-- What is known of a run: the history of the store, where the threads are, the requests
appended so far, and whether there has been a sweep since the last append. The status of a key
says whether it was found by the check of its request, or has been added after the append. -/
structure Account (T D R : Type) where
  hist : List (Obj.Op D R)
  calls : T → Call
  registered : List Depent
  swept : Bool

def Account.init : Account T D R := ⟨[], fun _ => .idle, [], true⟩

/-- One more step. -/
def Account.step [DecidableEq T] (g : Account T D R) : Act T D R → Account T D R
  | .deps_add t name keys msg =>
    { g with calls := Function.update g.calls t (.checking name msg [] keys) }
  | .check t =>
    match g.calls t with
    | .checking name msg checked (k :: todo) =>
      { g with
        calls := Function.update g.calls t
          (.checking name msg (checked ++ [(k, decide (0 < Obj.live k g.hist))]) todo) }
    | _ => g
  | .append t =>
    match g.calls t with
    | .checking name msg checked _ =>
      { g with
        calls := Function.update g.calls t .appended
        registered := g.registered ++ [⟨msg, checked, name⟩]
        swept := false }
    | _ => g
  | .sweep t => { g with calls := Function.update g.calls t .idle, swept := true }
  | .obj_add key sWhat data len =>
    { g with
      hist := g.hist ++ [.add key sWhat data len]
      registered := g.registered.map (Depent.mark (some key))
      swept := true }
  | .obj_get key rm => { g with hist := g.hist ++ [.get key rm] }

/-- The books after a list of steps. -/
def account [DecidableEq T] (acts : List (Act T D R)) : Account T D R :=
  acts.foldl Account.step .init

/-- The step is the next one of its thread. -/
def Account.Next (g : Account T D R) : Act T D R → Prop
  | .deps_add t _ _ _ => g.calls t = .idle
  | .check t => ∃ name msg checked k todo, g.calls t = .checking name msg checked (k :: todo)
  | .append t => ∃ name msg checked, g.calls t = .checking name msg checked []
  | .sweep t => g.calls t = .appended
  | .obj_add _ _ _ _ | .obj_get _ _ => True

/-- The messages for the requests all of whose keys have been found or added. -/
def Account.due (g : Account T D R) : List Resolved :=
  (g.registered.filter Depent.satisfied).map Depent.resolved

/-- `tail` leads to a node in use, or is not used: the request appended last has not been seen
by a sweep, or it still waits, or none does. -/
def Account.TailValid (g : Account T D R) : Prop := g.swept = true → LastWaits g.registered

/-- **An interleaving**: every thread makes the steps of its calls in their order. -/
def Interleaving [DecidableEq T] (g : Account T D R) : List (Act T D R) → Prop
  | [] => True
  | a :: acts => g.Next a ∧ Interleaving (g.step a) acts

theorem account_snoc [DecidableEq T] (acts : List (Act T D R)) (a : Act T D R) :
    account (acts ++ [a]) = (account acts).step a := List.foldl_concat ..

/-- A step of an interleaving is the next one of its thread. -/
theorem Interleaving.next [DecidableEq T] {g : Account T D R} {p : List (Act T D R)}
    {a : Act T D R} (h : Interleaving g (p ++ [a])) : (p.foldl Account.step g).Next a := by
  induction p generalizing g with
  | nil => exact h.1
  | cons b p ih => exact ih h.2

theorem Interleaving.of_prefix [DecidableEq T] {g : Account T D R} {p acts : List (Act T D R)}
    (hp : p <+: acts) (h : Interleaving g acts) : Interleaving g p := by
  induction p generalizing g acts with
  | nil => trivial
  | cons a p ih =>
    obtain ⟨rest, rfl⟩ := hp
    exact ⟨h.1, ih (List.prefix_append p rest) h.2⟩

/-! ### The books agree with the state -/

/-- The requests of the books: `zs` have been seen by a sweep, and `new` have been appended
since. -/
structure Balanced (s : State) (registered : List Depent) (swept : Bool) (zs new : Requests) :
    Prop where
  list : Enlisted s zs new
  all : (zs ++ new).map Prod.snd = registered
  swept : swept = true ↔ new = []

/-- **The invariant.** -/
structure Accounted (g : Account T D R) (s : Sys T D R) : Prop where
  store : Obj.Holds g.hist s.server.store
  calls : s.calls = g.calls
  deps : ∃ zs new, Balanced s.server.deps g.registered g.swept zs new

theorem Accounted.init : Accounted (Account.init : Account T D R) .init :=
  ⟨Obj.Holds.init, rfl, [], [], Registered.init.enlisted, rfl, iff_of_true rfl rfl⟩

section Balanced

variable {s : State} {registered : List Depent} {swept : Bool} {zs new : Requests}

/-- A sweep reports those of all requests that wait for nothing more, if they have not been
reported before. -/
theorem Balanced.complete (h : Balanced s registered swept zs new) (key : Option CString) :
    ∃ s', deps_complete key s = some s' ∧
      ∃ zs' new', Balanced s' (registered.map (Depent.mark key)) true zs' new' := by
  obtain ⟨s', hrun, hreg⟩ := h.list.complete key
  refine ⟨s', hrun, _, [], hreg.enlisted, ?_, iff_of_true rfl rfl⟩
  rw [List.append_nil, ← h.all, marked, List.map_map, List.map_map]
  rfl

/-- Appending adds a request to the list. -/
theorem Balanced.append (h : Balanced s registered swept zs new) (e : Depent)
    (hvalid : swept = true → LastWaits registered) :
    ∃ s', deps_append e s = some s' ∧
      ∃ zs' new', Balanced s' (registered ++ [e]) false zs' new' := by
  have hnode : new = [] →
      waiting zs = [] ∨ ∃ z, zs.getLast? = some z ∧ z.2.satisfied = false := by
    rintro rfl
    have hall := h.all
    rw [List.append_nil] at hall
    exact (hvalid (h.swept.mpr rfl)).node hall
  obtain ⟨s', happ, hlist⟩ := h.list.append e hnode
  refine ⟨s', happ, zs, _, hlist, ?_, iff_of_false Bool.false_ne_true (by simp)⟩
  rw [← h.all, ← List.append_assoc]
  exact List.map_append

/-- **The append that goes wrong.** -/
theorem Balanced.append_fault (h : Balanced s registered true zs new)
    (hlast : ¬ LastWaits registered) (e : Depent) : deps_append e s = none := by
  obtain rfl := h.swept.mp rfl
  have hall := h.all
  rw [List.append_nil] at hall
  exact h.list.registered.append_fault hall hlast e

/-- The messages are some of those that are due. -/
theorem Balanced.queue_subperm (h : Balanced s registered swept zs new) :
    s.dep_queue.Subperm ((registered.filter Depent.satisfied).map Depent.resolved) := by
  have hdue : (registered.filter Depent.satisfied).map Depent.resolved = resolved (zs ++ new) := by
    rw [← h.all, resolved, List.filter_map, List.map_map]
    rfl
  rw [hdue, resolved_append]
  exact h.list.queue.subperm.trans (List.sublist_append_left _ _).subperm

end Balanced

/-- **One step**: it is possible, and the books stay right. -/
theorem Accounted.step [DecidableEq T] {g : Account T D R} {s : Sys T D R} (h : Accounted g s)
    {a : Act T D R} (ha : g.Next a) (hvalid : ∀ t, a = .append t → g.TailValid) :
    ∃ s', s.step a = some s' ∧ Accounted (g.step a) s' := by
  obtain ⟨zs, new, hdeps⟩ := h.deps
  cases a with
  -- a call begins: nothing has been looked up
  | deps_add t name keys msg =>
    have hcall : s.calls t = .idle := by
      rw [h.calls]
      exact ha
    refine ⟨{ s with calls := Function.update s.calls t (.checking name msg [] keys) }, ?_, h.store,
      ?_, zs, new, hdeps⟩
    · simp only [Sys.step, hcall]
    · show Function.update s.calls t _ = Function.update g.calls t _
      rw [h.calls]
  | check t =>
    obtain ⟨name, msg, checked, k, todo, hcall⟩ := ha
    have hcall' : s.calls t = .checking name msg checked (k :: todo) := by
      rw [h.calls]
      exact hcall
    obtain ⟨e, store, hget, hfound, -, hsame⟩ := h.store.obj_get k false
    -- a lookup that does not remove leaves the store as it is
    obtain rfl := hsame rfl
    refine ⟨⟨s.server, Function.update s.calls t
      (.checking name msg (checked ++ [(k, e.isSome)]) todo)⟩, ?_, ?_⟩
    · simp only [Sys.step, hcall', deps_check, Deps.obj_get, hget,
        Option.bind_eq_bind, Option.bind_some, Option.pure_def]
    · simp only [Account.step, hcall]
      refine ⟨h.store, ?_, zs, new, hdeps⟩
      show Function.update s.calls t _ = Function.update g.calls t _
      rw [h.calls, hfound]
  | append t =>
    obtain ⟨name, msg, checked, hcall⟩ := ha
    have hcall' : s.calls t = .checking name msg checked [] := by
      rw [h.calls]
      exact hcall
    obtain ⟨deps, happ, hdeps'⟩ := hdeps.append ⟨msg, checked, name⟩ (hvalid t rfl)
    refine ⟨⟨{ s.server with deps := deps }, Function.update s.calls t .appended⟩, ?_, ?_⟩
    · simp only [Sys.step, hcall', happ, Option.bind_eq_bind, Option.bind_some, Option.pure_def]
    simp only [Account.step, hcall]
    refine ⟨h.store, ?_, hdeps'⟩
    show Function.update s.calls t _ = Function.update g.calls t _
    rw [h.calls]
  | sweep t =>
    have hcall : s.calls t = .appended := by
      rw [h.calls]
      exact ha
    obtain ⟨deps, hrun, hdeps'⟩ := hdeps.complete none
    -- a sweep without a key marks nothing
    have hmark : g.registered.map (Depent.mark none) = g.registered := by
      rw [show Depent.mark none = id from funext Depent.mark_none, List.map_id]
    rw [hmark] at hdeps'
    refine ⟨⟨{ s.server with deps := deps }, Function.update s.calls t .idle⟩, ?_, h.store, ?_,
      hdeps'⟩
    · simp only [Sys.step, hcall, hrun, Option.bind_eq_bind, Option.bind_some,
        Option.pure_def]
    · show Function.update s.calls t _ = Function.update g.calls t _
      rw [h.calls]
  -- the store and the marks of the list change together
  | obj_add key sWhat data len =>
    obtain ⟨deps, hrun, hdeps'⟩ := hdeps.complete (some key)
    refine ⟨{ s with server := ⟨Obj.obj_add key sWhat data len s.server.store, deps⟩ }, ?_,
      h.store.obj_add key sWhat data len, h.calls, hdeps'⟩
    simp only [Sys.step, Deps.obj_add, hrun, Option.bind_eq_bind, Option.bind_some,
      Option.pure_def]
  -- the list has no part in a removal
  | obj_get key rm =>
    obtain ⟨e, store, hget, -, hstore, -⟩ := h.store.obj_get key rm
    refine ⟨{ s with server := { s.server with store := store } }, ?_, hstore, h.calls, zs, new,
      hdeps⟩
    simp only [Sys.step, Deps.obj_get, hget, Option.bind_eq_bind, Option.bind_some,
      Option.pure_def]

/-- **The step that goes wrong**: the append writes to a freed node. -/
theorem Accounted.step_fault [DecidableEq T] {g : Account T D R} {s : Sys T D R}
    (h : Accounted g s) {t : T} (ha : g.Next (.append t)) (hvalid : ¬ g.TailValid) :
    s.step (.append t) = none := by
  obtain ⟨zs, new, hdeps⟩ := h.deps
  obtain ⟨name, msg, checked, hcall⟩ := ha
  have hcall' : s.calls t = .checking name msg checked [] := by
    rw [h.calls]
    exact hcall
  rw [Account.TailValid, Classical.not_imp] at hvalid
  obtain ⟨hswept, hlast⟩ := hvalid
  rw [hswept] at hdeps
  simp only [Sys.step, hcall', hdeps.append_fault hlast, Option.bind_eq_bind, Option.bind_none]

/-- **Every state reached** agrees with the books. -/
theorem run_accounted [DecidableEq T] {acts : List (Act T D R)} (h : Interleaving .init acts)
    {s : Sys T D R} (hrun : Sys.run acts = some s) : Accounted (account acts) s := by
  suffices hinv : Interleaving .init acts → Accounted (account acts) s from hinv h
  refine Run.induction (P := fun acts s => Interleaving .init acts → Accounted (account acts) s)
    (fun _ => Accounted.init) ?_ hrun
  intro p s a s' hacc hstep hp
  have hprev := hacc (hp.of_prefix (List.prefix_append p [a]))
  have hvalid : ∀ t, a = .append t → (account p).TailValid := by
    rintro t rfl
    by_contra hnot
    rw [hprev.step_fault hp.next hnot] at hstep
    cases hstep
  obtain ⟨s₁, hs₁, hacc'⟩ := hprev.step hp.next hvalid
  obtain rfl : s₁ = s' := Option.some.inj (hs₁.symm.trans hstep)
  rw [account_snoc]
  exact hacc'

/-- **Sound notifications.** In an interleaving of any number of calls of `deps_add`, `obj_add`
and `obj_get` no step is a fault, and at every time the messages on `dep_queue` are, each at
most once for each request, those of appended requests all of whose keys were found by the
request's own check or added after its append: exactly if no request is appended at a time when
a sweep has seen all others, one of these waits and the last one does not. -/
theorem notifications_sound_iff [DecidableEq T] (acts : List (Act T D R))
    (h : Interleaving .init acts) :
    (∀ p, p <+: acts → ∃ s, Sys.run p = some s ∧
      s.server.deps.dep_queue.Subperm (account p).due) ↔
      ∀ p t, p ++ [.append t] <+: acts → (account p).TailValid := by
  constructor
  · intro hsound p t hp
    by_contra hvalid
    have hnext := (h.of_prefix hp).next
    obtain ⟨s', hs', -⟩ := hsound _ hp
    obtain ⟨s, hs, hstep⟩ := Run.run_snoc_eq_some.mp hs'
    have hacc := run_accounted (h.of_prefix ((List.prefix_append p _).trans hp)) hs
    rw [hacc.step_fault hnext hvalid] at hstep
    cases hstep
  · intro hvalid p hp
    suffices hsuff : ∃ s, Sys.run p = some s ∧ Accounted (account p) s by
      obtain ⟨s, hs, hacc⟩ := hsuff
      obtain ⟨zs, new, hdeps⟩ := hacc.deps
      exact ⟨s, hs, hdeps.queue_subperm⟩
    induction p using List.reverseRecOn with
    | nil => exact ⟨_, rfl, Accounted.init⟩
    | append_singleton p a ih =>
      obtain ⟨s, hs, hacc⟩ := ih ((List.prefix_append p [a]).trans hp)
      obtain ⟨s', hs', hacc'⟩ := hacc.step (h.of_prefix hp).next fun t ht =>
        hvalid p t (ht ▸ hp)
      rw [account_snoc]
      exact ⟨s', Run.run_snoc_eq_some.mpr ⟨s, hs, hs'⟩, hacc'⟩

/-- A request whose key is missing at its check and added after its append. -/
theorem notifications_sound_later :
    (∀ p, p <+: Act.deps_add () (cstr [65]) [cstr [97]] 1 :: addedLater →
      ∃ s : Sys Unit ℕ Unit, Sys.run p = some s ∧
        s.server.deps.dep_queue.Subperm (account p).due) ↔
      ∀ p t, p ++ [.append t] <+: Act.deps_add () (cstr [65]) [cstr [97]] 1 :: addedLater →
        (account p).TailValid :=
  notifications_sound_iff (.deps_add () (cstr [65]) [cstr [97]] 1 :: addedLater)
    ⟨rfl, ⟨_, _, _, _, _, rfl⟩, ⟨_, _, _, rfl⟩, trivial, rfl, trivial⟩

/-- Two threads register a request each, the key of the second is added, and the first thread
registers one more. -/
def appendedLate : List (Act Bool ℕ Unit) :=
  [.deps_add false (cstr [65]) [cstr [97]] 1, .deps_add true (cstr [66]) [cstr [98]] 2,
    .check false, .check true, .append false, .append true, .sweep true, .sweep false,
    .obj_add (cstr [98]) none 0 1, .deps_add false (cstr [67]) [] 3, .append false]

/-- The last append writes to the node of the second request, which has been freed. -/
theorem appended_to_freed : ¬ ∀ p, p <+: appendedLate →
    ∃ s, Sys.run p = some s ∧ s.server.deps.dep_queue.Subperm (account p).due := by
  intro h
  obtain ⟨s, hs, -⟩ := h _ (List.prefix_refl _)
  have hfault : Sys.run appendedLate = none := rfl
  rw [hfault] at hs
  cases hs

end Deps
end Osrv
