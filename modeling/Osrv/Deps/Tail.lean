import Osrv.Deps.Sequential

/-!
# The list of requests and its tail

`deps_complete` may be called with any key, and not only from `obj_add`. An `Action` is a call of
the server or a sweep of its own, and `Log` reads off a sequence of calls what each request
has seen.

The list holds the requests that have not been posted, in order, whatever the calls are. But
a sweep does not touch `tail`, so it leads to the request registered last even when the sweep
has freed that one and others stay. This is the only thing that goes wrong
(`list_intact_iff`): the next request is then linked behind the freed node.
-/

namespace Osrv
namespace Deps

open Bytes Heap

variable {D R : Type}

/-! ### Calls -/

/-- A call of the server, or of `deps_complete` alone. -/
inductive Action (D R : Type)
  | server (op : Op D R)
  | deps_complete (key : Option CString)

/-- Performs a call to its end. -/
def Action.step (s : Server D R) : Action D R → Option (Server D R)
  | .server op => Deps.step s op
  | .deps_complete key => do
    let deps ← Deps.deps_complete key s.deps
    pure { s with deps := deps }

/-- The server after a sequence of calls. -/
def runCalls (calls : List (Action D R)) : Option (Server D R) := Run.run Action.step .init calls

/-! ### What the requests have seen -/

/-- The calls of the server so far, and the requests in order of registration. -/
structure Log (D R : Type) where
  ops : List (Op D R)
  requests : List Depent

/-- One more call. A sweep marks its key in every request, an `obj_add` the key that it adds,
and a `deps_add` is one more request. -/
def Log.add (log : Log D R) : Action D R → Log D R
  | .server op => ⟨log.ops ++ [op], log.requests.map op.notify ++ op.request log.ops⟩
  | .deps_complete key => ⟨log.ops, log.requests.map (Depent.mark key)⟩

/-- The log of a sequence of calls. -/
def Log.of (calls : List (Action D R)) : Log D R := calls.foldl Log.add ⟨[], []⟩

/-- The requests that have not been posted, since they wait for some key. -/
def Log.unposted (log : Log D R) : List Depent := log.requests.filter fun e => !e.satisfied

/-- The messages for the others. -/
def Log.posted (log : Log D R) : List Resolved :=
  (log.requests.filter Depent.satisfied).map Depent.resolved

theorem Log.of_snoc (calls : List (Action D R)) (call : Action D R) :
    Log.of (calls ++ [call]) = (Log.of calls).add call := by
  rw [Log.of, List.foldl_append]
  rfl

/-! ### The state after a sequence of calls -/

/-- The server serves what is in the log. -/
def Logged (calls : List (Action D R)) (s : Server D R) : Prop :=
  Serving (Log.of calls).ops (Log.of calls).requests s

/-- **The list from `head`** is acyclic, has the unposted requests in order, and everything
else has been posted; `tail` is its last node. -/
structure ListIntact (calls : List (Action D R)) (s : State) (xs : Requests) : Prop
    extends Linked s xs where
  pending : xs.map Prod.snd = (Log.of calls).unposted
  posted : s.dep_queue.Perm (Log.of calls).posted
  tail : s.head ≠ none → s.tail = lastPtr xs

section Logged

variable {calls : List (Action D R)} {s : Server D R}

theorem Logged.init : Logged [] (Server.init : Server D R) :=
  ⟨Obj.Holds.init, [], Registered.init, rfl⟩

/-- A sweep does not touch the store, and marks its key in all requests. -/
theorem Logged.complete (h : Logged calls s) (key : Option CString) :
    ∃ s', Action.step s (.deps_complete key) = some s' ∧
      Logged (calls ++ [.deps_complete key]) s' := by
  obtain ⟨zs, hreg, hzs⟩ := h.deps
  obtain ⟨deps, hrun, hreg'⟩ := hreg.complete key
  have hmarked : (marked key zs).map Prod.snd = (Log.of calls).requests.map (Depent.mark key) := by
    rw [← hzs]
    simp [marked]
  refine ⟨{ s with deps := deps }, ?_, ?_⟩
  · rw [Action.step, hrun]
    rfl
  · rw [Logged, Log.of_snoc]
    exact ⟨h.store, _, hreg', hmarked⟩

theorem Logged.step (h : Logged calls s) (call : Action D R)
    (hvalid : LastWaits (Log.of calls).requests) :
    ∃ s', call.step s = some s' ∧ Logged (calls ++ [call]) s' := by
  cases call with
  | server op =>
    obtain ⟨s', hstep, hserving⟩ := Serving.step h op fun _ _ _ _ => hvalid
    refine ⟨s', hstep, ?_⟩
    rw [Logged, Log.of_snoc]
    exact hserving
  | deps_complete key => exact h.complete key

/-- The nodes of the list, whatever `tail` is. -/
theorem map_snd_waiting {zs : Requests} {es : List Depent} (hzs : zs.map Prod.snd = es) :
    (waiting zs).map Prod.snd = es.filter fun e => !e.satisfied := by
  rw [← hzs, waiting, List.filter_map]
  rfl

theorem perm_posted {zs : Requests} (h : Registered s.deps zs)
    (hzs : zs.map Prod.snd = (Log.of calls).requests) :
    s.deps.dep_queue.Perm (Log.of calls).posted := by
  have hposted : resolved zs = (Log.of calls).posted := by
    rw [Log.posted, ← hzs, resolved, List.filter_map, List.map_map]
    rfl
  rw [← hposted]
  exact h.queue

/-- Since `tail` leads to the last request of all, it leads to the last one of the list if
that one waits. -/
theorem Logged.intact (h : Logged calls s) (hvalid : LastWaits (Log.of calls).requests) :
    ∃ xs, ListIntact calls s.deps xs := by
  obtain ⟨zs, hreg, hzs⟩ := h.deps
  refine ⟨waiting zs, hreg.pending.linked, map_snd_waiting hzs, perm_posted hreg hzs, ?_⟩
  intro hhead
  obtain hall | ⟨e, he, hwait⟩ := hvalid
  · have hnil : waiting zs = [] := (waiting_eq_nil_iff hzs).mpr hall
    have hlist := hreg.pending.list
    rw [hnil] at hlist
    exact absurd hlist hhead
  · rw [getLast?_requests hzs, Option.map_eq_some_iff] at he
    obtain ⟨z, hz, rfl⟩ := he
    obtain ⟨zs, rfl⟩ := List.getLast?_eq_some_iff.mp hz
    have hlast : waiting [z] = [z] := by simp [waiting, hwait]
    rw [hreg.tail, waiting_append, hlast, lastPtr_snoc, lastPtr_snoc]

/-- And if it does not wait, but another one does, `tail` leads to no node of the list. -/
theorem Logged.lastWaits (h : Logged calls s) {xs : Requests} (hxs : ListIntact calls s.deps xs) :
    LastWaits (Log.of calls).requests := by
  obtain ⟨zs, hreg, hzs⟩ := h.deps
  obtain rfl : xs = waiting zs := hxs.list.eq_of_none hreg.pending.list
  by_cases hnil : waiting zs = []
  · exact .inl ((waiting_eq_nil_iff hzs).mp hnil)
  · have htail := hxs.tail (hreg.pending.linked.head_ne_none hnil)
    obtain ⟨ws, w, hws⟩ := (List.eq_nil_or_concat (waiting zs)).resolve_left hnil
    rw [List.concat_eq_append] at hws
    have hmem : w ∈ waiting zs := by
      rw [hws]
      exact List.mem_append_right ws (List.mem_singleton_self w)
    have hw := List.mem_filter.mp hmem
    refine .inr ⟨w.2, ?_, by simpa using hw.2⟩
    -- the last request has the node of the last one that waits, so it is that one
    have hzsne : zs ≠ [] := List.ne_nil_of_mem hw.1
    obtain ⟨ys, y, rfl⟩ := (List.eq_nil_or_concat zs).resolve_left hzsne
    rw [List.concat_eq_append] at *
    rw [hreg.tail, hws, lastPtr_snoc, lastPtr_snoc, Option.some.injEq] at htail
    have hyw : w = y := by
      have hy : y ∈ ys ++ [y] := List.mem_append_right ys (List.mem_singleton_self y)
      exact List.inj_on_of_nodup_map hreg.nodup hw.1 hy htail.symm
    rw [getLast?_requests hzs, List.getLast?_concat, hyw]
    rfl

end Logged

/-- **Every state reached** is that of the log. -/
theorem runCalls_logged {calls : List (Action D R)} {s : Server D R} (h : runCalls calls = some s) :
    Logged calls s := by
  refine Run.induction (P := Logged) Logged.init ?_ h
  intro calls s call s' hlogged hstep
  cases call with
  | server op =>
    rw [Logged, Log.of_snoc]
    exact Serving.of_step hlogged hstep
  | deps_complete key =>
    obtain ⟨s₁, hs₁, hlogged'⟩ := hlogged.complete key
    obtain rfl : s₁ = s' := Option.some.inj (hs₁.symm.trans hstep)
    exact hlogged'

/-- **The list of requests is kept** by every call of a sequence exactly if after each of them
no request waits, or the one registered last does. -/
theorem list_intact_iff (calls : List (Action D R)) :
    (∀ p, p <+: calls → ∃ s xs, runCalls p = some s ∧ ListIntact p s.deps xs) ↔
      ∀ p, p <+: calls → LastWaits (Log.of p).requests := by
  constructor
  · intro h p hp
    obtain ⟨s, xs, hs, hxs⟩ := h p hp
    exact (runCalls_logged hs).lastWaits hxs
  · intro h p hp
    suffices hsuff : ∃ s, runCalls p = some s ∧ Logged p s by
      obtain ⟨s, hs, hlogged⟩ := hsuff
      obtain ⟨xs, hxs⟩ := hlogged.intact (h p hp)
      exact ⟨s, xs, hs, hxs⟩
    induction p using List.reverseRecOn with
    | nil => exact ⟨_, rfl, Logged.init⟩
    | append_singleton p call ih =>
      have hprefix := (List.prefix_append p [call]).trans hp
      obtain ⟨s, hs, hlogged⟩ := ih hprefix
      obtain ⟨s', hs', hlogged'⟩ := hlogged.step call (h p hprefix)
      exact ⟨s', Run.run_snoc_eq_some.mpr ⟨s, hs, hs'⟩, hlogged'⟩

/-- Two requests, of which the second is completed first. -/
def lastCompletedFirst : List (Action ℕ Unit) :=
  [.server (.deps_add (cstr [65]) [cstr [97]] 1), .server (.deps_add (cstr [66]) [cstr [98]] 2),
    .deps_complete (some (cstr [98]))]

/-- `tail` leads to the freed node of the second, and the first one waits. -/
theorem tail_left_behind : ¬ ∀ p, p <+: lastCompletedFirst →
    ∃ s xs, runCalls p = some s ∧ ListIntact p s.deps xs := by
  intro h
  obtain ⟨s, xs, hs, hxs⟩ := h _ (List.prefix_refl _)
  obtain hall | ⟨e, he, hwait⟩ := (runCalls_logged hs).lastWaits hxs
  · have hfirst : (⟨1, [(cstr [97], false)], cstr [65]⟩ : Depent) ∈
        (Log.of lastCompletedFirst).requests := List.mem_cons_self ..
    cases hall _ hfirst
  · cases he
    cases hwait

end Deps
end Osrv
