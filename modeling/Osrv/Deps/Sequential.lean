import Osrv.Deps.Rep
import Osrv.Obj.Refine

/-!
# Dependencies, one call at a time

A request should be reported once all its keys have been in the store: when it is
registered, or because they are added later. `requests` reads off a history what
each request still waits for and `due` what should have been reported.

`SeqInv` connects a history to the state it leads to. Its last clause is about
`tail`: it leads to the request registered last, whether this request is still in
the list or not. So everything goes well until a request is registered while an
earlier one waits and the last one does not (`reported_once_iff`); its node is then
linked behind a freed one.
-/

namespace Osrv
namespace Deps

open Bytes Heap

variable {D R : Type}

/-! ### Histories -/

/-- The calls. -/
inductive Op (D R : Type)
  | deps_add (name : CString) (keys : List CString) (msg : ℤ)
  | obj_add (key : CString) (sWhat : Option R) (data : D) (len : ℕ)
  | obj_get (key : CString) (rm : Bool)

/-- Performs a call. -/
def step (s : Server D R) : Op D R → Option (Server D R)
  | .deps_add name keys msg => deps_add name keys msg s
  | .obj_add key sWhat data len => obj_add key sWhat data len s
  | .obj_get key rm => (obj_get key rm s).map Prod.snd

/-- The server after a history. -/
def run (ops : List (Op D R)) : Option (Server D R) := Run.run step .init ops

/-- The part of a call that `obj.c` sees. -/
def Op.storeOps : Op D R → List (Obj.Op D R)
  | .deps_add _ _ _ => []
  | .obj_add key sWhat data len => [.add key sWhat data len]
  | .obj_get key rm => [.get key rm]

/-- The history of the store. -/
def storeOps (ops : List (Op D R)) : List (Obj.Op D R) := ops.flatMap Op.storeOps

/-- A key has an entry in the store. -/
def Present (ops : List (Op D R)) (key : CString) : Prop := 0 < Obj.live key (storeOps ops)

instance (ops : List (Op D R)) (key : CString) : Decidable (Present ops key) :=
  inferInstanceAs (Decidable (_ < _))

/-- The keys a call adds to the store. -/
def Op.added : Op D R → List CString
  | .obj_add key _ _ _ => [key]
  | _ => []

/-- The keys added in the course of a history. -/
def added (ops : List (Op D R)) : List CString := ops.flatMap Op.added

/-! ### What requests wait for -/

/-- A key is accounted for if it was in the store when the request was registered,
after `hist`, or has been added since, in `rest`. -/
def accounted (hist rest : List (Op D R)) (key : CString) : CString × Bool :=
  (key, decide (Present hist key) || decide (key ∈ added rest))

/-- The requests registered in the course of `ops` after `hist`, in order. -/
def requestsFrom (hist : List (Op D R)) : List (Op D R) → List Depent
  | [] => []
  | .deps_add name keys msg :: rest =>
    ⟨msg, keys.map (accounted hist rest), name⟩ ::
      requestsFrom (hist ++ [.deps_add name keys msg]) rest
  | op :: rest => requestsFrom (hist ++ [op]) rest

/-- The requests registered so far, with what they have seen. -/
def requests (ops : List (Op D R)) : List Depent := requestsFrom [] ops

/-- The messages for the requests that wait for nothing more. -/
def due (ops : List (Op D R)) : List Resolved :=
  ((requests ops).filter Depent.satisfied).map Depent.resolved

/-- No request waits, or the last one does: `tail` leads to the end of the list. -/
def TailValid (ops : List (Op D R)) : Prop :=
  (∀ e ∈ requests ops, e.satisfied = true) ∨
    ∃ e, (requests ops).getLast? = some e ∧ e.satisfied = false

/-! ### One more call -/

theorem storeOps_snoc (ops : List (Op D R)) (op : Op D R) :
    storeOps (ops ++ [op]) = storeOps ops ++ op.storeOps := by
  simp [storeOps]

/-- What a call does to the requests registered before it. -/
def Op.notify : Op D R → Depent → Depent
  | .obj_add key _ _ _ => Depent.mark (some key)
  | _ => id

theorem accounted_snoc (hist rest : List (Op D R)) (op : Op D R) (msg : ℤ) (name : CString)
    (keys : List CString) :
    (⟨msg, keys.map (accounted hist (rest ++ [op])), name⟩ : Depent)
      = op.notify ⟨msg, keys.map (accounted hist rest), name⟩ := by
  cases op with
  | obj_add key sWhat data len =>
    have hkey : ∀ k, accounted hist (rest ++ [.obj_add key sWhat data len]) k
        = ((accounted hist rest k).1,
          (accounted hist rest k).2 || decide (some key = some (accounted hist rest k).1)) := by
      intro k
      simp [accounted, added, Op.added, Bool.or_assoc, eq_comm]
    simp [Op.notify, Depent.mark, hkey, Function.comp_def]
  | _ => simp [Op.notify, accounted, added, Op.added]

/-- The request a call registers. -/
def Op.request (hist : List (Op D R)) : Op D R → List Depent
  | .deps_add name keys msg => [⟨msg, keys.map (accounted hist []), name⟩]
  | _ => []

theorem requestsFrom_snoc (hist ops : List (Op D R)) (op : Op D R) :
    requestsFrom hist (ops ++ [op])
      = (requestsFrom hist ops).map op.notify ++ op.request (hist ++ ops) := by
  induction ops generalizing hist with
  | nil =>
    cases op <;> simp [requestsFrom, Op.request]
  | cons o ops ih =>
    cases o with
    | deps_add name keys msg =>
      rw [List.cons_append, requestsFrom, requestsFrom, accounted_snoc, ih]
      simp
    | obj_add key sWhat data len =>
      rw [List.cons_append, requestsFrom, requestsFrom, ih] <;> simp
    | obj_get key rm =>
      rw [List.cons_append, requestsFrom, requestsFrom, ih] <;> simp

theorem requests_snoc (ops : List (Op D R)) (op : Op D R) :
    requests (ops ++ [op]) = (requests ops).map op.notify ++ op.request ops := by
  simpa [requests] using requestsFrom_snoc [] ops op

/-! ### The list after a history -/

/-- **The dependencies and their history**: `zs` are all requests registered so far,
with the nodes they were given. -/
structure Registered (s : State) (zs : Requests) : Prop where
  /-- The list holds those that wait. -/
  pending : DepsRep s (waiting zs)
  /-- Every request has had a node of its own. -/
  nodup : (addrs zs).Nodup
  /-- All of them were allocated at some time. -/
  old : ∀ a ∈ addrs zs, a < s.heap.top
  /-- `tail` leads to the last one, whether it waits or not. -/
  tail : s.tail = lastPtr zs
  /-- The others have been reported. -/
  queue : s.dep_queue.Perm (resolved zs)

theorem Registered.init : Registered .init [] :=
  ⟨DepsRep.init, List.nodup_nil, by simp, rfl, List.Perm.refl _⟩

/-- **Between an append and its sweep**: every sweep so far has seen `zs`, and `new` has been
appended since. -/
structure Enlisted (s : State) (zs new : Requests) : Prop where
  /-- Those that no sweep has seen are in the list, whatever they wait for. -/
  pending : DepsRep s (waiting zs ++ new)
  nodup : (addrs (zs ++ new)).Nodup
  old : ∀ a ∈ addrs (zs ++ new), a < s.heap.top
  tail : s.tail = lastPtr (zs ++ new)
  queue : s.dep_queue.Perm (resolved zs)

theorem Registered.enlisted {s : State} {zs : Requests} (h : Registered s zs) :
    Enlisted s zs [] where
  pending := by rw [List.append_nil]; exact h.pending
  nodup := by rw [List.append_nil]; exact h.nodup
  old := by rw [List.append_nil]; exact h.old
  tail := by rw [List.append_nil]; exact h.tail
  queue := h.queue

theorem Enlisted.registered {s : State} {zs : Requests} (h : Enlisted s zs []) :
    Registered s zs where
  pending := by rw [← List.append_nil (waiting zs)]; exact h.pending
  nodup := by rw [← List.append_nil zs]; exact h.nodup
  old := by rw [← List.append_nil zs]; exact h.old
  tail := by rw [← List.append_nil zs]; exact h.tail
  queue := h.queue

section Enlisted

variable {s : State} {zs new : Requests}

/-- A sweep sees all of them. -/
theorem Enlisted.complete (h : Enlisted s zs new) (key : Option CString) :
    ∃ s', deps_complete key s = some s' ∧ Registered s' (marked key (zs ++ new)) := by
  obtain ⟨s', hrun, hrep, htail, htop, hqueue⟩ := h.pending.deps_complete key
  -- those that have left the list before stay away
  have hwait : waiting (marked key (waiting zs ++ new)) = waiting (marked key (zs ++ new)) := by
    rw [marked_append, marked_append, waiting_append, waiting_append, waiting_marked_waiting]
  rw [hwait] at hrep
  refine ⟨s', hrun, hrep, ?_, ?_, ?_, ?_⟩
  · rw [addrs_marked]
    exact h.nodup
  · rw [addrs_marked, htop]
    exact h.old
  · rw [htail, h.tail, lastPtr_marked]
  · rw [hqueue, marked_append, marked_append, resolved_append, resolved_append,
      ← List.append_assoc]
    exact ((h.queue.append_right _).trans (resolved_marked_perm key zs)).append_right _

/-- Appending a request when `tail` leads to the end of the list. -/
theorem Enlisted.append (h : Enlisted s zs new) (e : Depent)
    (hvalid : new = [] →
      waiting zs = [] ∨ ∃ z, zs.getLast? = some z ∧ z.2.satisfied = false) :
    ∃ s', deps_append e s = some s' ∧ Enlisted s' zs (new ++ [(s.heap.top, e)]) := by
  have htail : waiting zs ++ new = [] ∨ s.tail = lastPtr (waiting zs ++ new) := by
    rcases List.eq_nil_or_concat new with rfl | ⟨pre, x, rfl⟩
    -- the last request is one of those that a sweep has seen
    · rw [List.append_nil]
      refine (hvalid rfl).imp id fun ⟨z, hz, hwait⟩ => ?_
      obtain ⟨zs, rfl⟩ := List.getLast?_eq_some_iff.mp hz
      have hlast : waiting [z] = [z] := by simp [waiting, hwait]
      rw [h.tail, List.append_nil, waiting_append, hlast, lastPtr_snoc, lastPtr_snoc]
    · refine .inr ?_
      rw [h.tail, List.concat_eq_append, ← List.append_assoc, ← List.append_assoc, lastPtr_snoc,
        lastPtr_snoc]
  obtain ⟨s', happ, hrep, htail', htop, hqueue⟩ := h.pending.deps_append e htail
  rw [List.append_assoc] at hrep
  refine ⟨s', happ, hrep, ?_, ?_, ?_, ?_⟩
  · rw [← List.append_assoc, addrs, List.map_append, List.nodup_append]
    refine ⟨h.nodup, by simp, fun a ha b hb => ?_⟩
    obtain rfl : b = s.heap.top := by simpa using hb
    exact Nat.ne_of_lt (h.old a ha)
  · intro a ha
    rw [← List.append_assoc, addrs, List.map_append, List.mem_append] at ha
    rw [htop]
    rcases ha with ha | ha
    · exact Nat.lt_succ_of_lt (h.old a ha)
    · obtain rfl : a = s.heap.top := by simpa using ha
      exact Nat.lt_succ_self _
  · rw [htail', ← List.append_assoc, lastPtr_snoc]
  · rw [hqueue]
    exact h.queue

end Enlisted

section Registered

variable {s : State} {zs : Requests}

/-- A sweep. -/
theorem Registered.complete (h : Registered s zs) (key : Option CString) :
    ∃ s', deps_complete key s = some s' ∧ Registered s' (marked key zs) := by
  obtain ⟨s', hrun, hreg⟩ := h.enlisted.complete key
  rw [List.append_nil] at hreg
  exact ⟨s', hrun, hreg⟩

/-- Registering a request when `tail` leads to the end of the list. -/
theorem Registered.append (h : Registered s zs) (e : Depent)
    (hvalid : waiting zs = [] ∨ ∃ z, zs.getLast? = some z ∧ z.2.satisfied = false) :
    ∃ s' s'', deps_append e s = some s' ∧ deps_complete none s' = some s'' ∧
      Registered s'' (zs ++ [(s.heap.top, e)]) := by
  obtain ⟨s', happ, henl⟩ := h.enlisted.append e fun _ => hvalid
  obtain ⟨s'', hrun, hreg⟩ := henl.complete none
  rw [marked_none] at hreg
  exact ⟨s', s'', happ, hrun, hreg⟩

/-- Registering a request when it does not. -/
theorem Registered.append_dangling (h : Registered s zs) (e : Depent) {z : Addr × Depent}
    (hwait : waiting zs ≠ []) (hz : zs.getLast? = some z) (hdone : z.2.satisfied = true) :
    deps_append e s = none := by
  obtain ⟨zs, rfl⟩ := List.getLast?_eq_some_iff.mp hz
  refine h.pending.deps_append_dangling e hwait (by rw [h.tail, lastPtr_snoc]) ?_
    (h.old _ (by simp))
  -- the last request has left the list
  have hnd := h.nodup
  rw [addrs, List.map_append, List.nodup_append] at hnd
  have hlast : waiting [z] = [] := by simp [waiting, hdone]
  rw [waiting_append, hlast, List.append_nil]
  intro hmem
  exact hnd.2.2 z.1 (addrs_waiting_subset zs hmem) z.1 (by simp) rfl

end Registered

/-! ### The request registered last -/

/-- No request waits, or the last one does. -/
def LastWaits (es : List Depent) : Prop :=
  (∀ e ∈ es, e.satisfied = true) ∨ ∃ e, es.getLast? = some e ∧ e.satisfied = false

section LastWaits

variable {zs : Requests} {es : List Depent}

/-- The pending requests of the list are those that wait. -/
theorem waiting_eq_nil_iff (hzs : zs.map Prod.snd = es) :
    waiting zs = [] ↔ ∀ e ∈ es, e.satisfied = true := by
  rw [← hzs, waiting, List.filter_eq_nil_iff, List.forall_mem_map]
  simp

theorem getLast?_requests (hzs : zs.map Prod.snd = es) :
    es.getLast? = zs.getLast?.map Prod.snd := by
  rw [← hzs, List.getLast?_map]

/-- The last request of the books is the last node of the list. -/
theorem LastWaits.node (h : LastWaits es) (hzs : zs.map Prod.snd = es) :
    waiting zs = [] ∨ ∃ z, zs.getLast? = some z ∧ z.2.satisfied = false := by
  refine h.imp (waiting_eq_nil_iff hzs).mpr ?_
  rintro ⟨e, he, hwait⟩
  rw [getLast?_requests hzs, Option.map_eq_some_iff] at he
  obtain ⟨z, hz, rfl⟩ := he
  exact ⟨z, hz, hwait⟩

/-- **The append that goes wrong**: the last request has been reported, and another
one still waits. -/
theorem Registered.append_fault {s : State} (h : Registered s zs) (hzs : zs.map Prod.snd = es)
    (hvalid : ¬ LastWaits es) (e : Depent) : deps_append e s = none := by
  rw [LastWaits, not_or] at hvalid
  have hwait : waiting zs ≠ [] := fun hnil => hvalid.1 ((waiting_eq_nil_iff hzs).mp hnil)
  have hne : zs ≠ [] := by
    rintro rfl
    exact hwait rfl
  obtain ⟨z, hz⟩ : ∃ z, zs.getLast? = some z := ⟨_, List.getLast?_eq_some_getLast hne⟩
  have hdone : z.2.satisfied = true := by
    by_contra hnot
    exact hvalid.2 ⟨z.2, by rw [getLast?_requests hzs, hz]; rfl, by simpa using hnot⟩
  exact h.append_dangling e hwait hz hdone

end LastWaits

/-! ### The server after a history -/

/-- **The server and the requests made to it**: `ops` are the calls so far, and `es` the
requests, with what they have seen. -/
structure Serving (ops : List (Op D R)) (es : List Depent) (s : Server D R) : Prop where
  /-- The store holds the entries of its own history. -/
  store : Obj.Holds (storeOps ops) s.store
  /-- Each request has had a node. -/
  deps : ∃ zs, Registered s.deps zs ∧ zs.map Prod.snd = es

section Serving

variable {s : Server D R} {ops : List (Op D R)} {es : List Depent}

/-- The check of `deps_add` finds out whether a key is present. -/
theorem Serving.deps_check (h : Serving ops es s) (key : CString) :
    deps_check key s = some ((key, decide (Present ops key)), s) := by
  obtain ⟨e, store, hget, hfound, -, hsame⟩ := h.store.obj_get key false
  obtain rfl := hsame rfl
  have hpresent : e.isSome = decide (Present ops key) := hfound
  simp [Deps.deps_check, Deps.obj_get, hget, hpresent]

theorem Serving.checkLoop (h : Serving ops es s) (keys : List CString) :
    checkLoop keys s = some (keys.map (accounted ops []), s) := by
  induction keys with
  | nil => rfl
  | cons k keys ih =>
    simp [Deps.checkLoop, h.deps_check, ih, accounted, added]

/-- **A call that goes well.** -/
theorem Serving.step (h : Serving ops es s) (op : Op D R)
    (hvalid : ∀ name keys msg, op = .deps_add name keys msg → LastWaits es) :
    ∃ s', step s op = some s' ∧
      Serving (ops ++ [op]) (es.map op.notify ++ op.request ops) s' := by
  obtain ⟨zs, hreg, hzs⟩ := h.deps
  cases op with
  | deps_add name keys msg =>
    obtain ⟨s₁, s₂, happ, hrun, hreg'⟩ :=
      hreg.append ⟨msg, keys.map (accounted ops []), name⟩ ((hvalid name keys msg rfl).node hzs)
    refine ⟨{ s with deps := s₂ }, ?_, ?_, _, hreg', ?_⟩
    · simp [Deps.step, Deps.deps_add, h.checkLoop, happ, hrun]
    · rw [storeOps_snoc, Op.storeOps, List.append_nil]
      exact h.store
    · rw [List.map_append, hzs]
      simp [Op.notify, Op.request]
  -- the requests are marked
  | obj_add key sWhat data len =>
    obtain ⟨deps, hrun, hreg'⟩ := hreg.complete (some key)
    refine ⟨⟨Obj.obj_add key sWhat data len s.store, deps⟩, ?_, ?_, _, hreg', ?_⟩
    · simp [Deps.step, Deps.obj_add, hrun]
    · rw [storeOps_snoc]
      exact h.store.obj_add key sWhat data len
    · rw [← hzs]
      simp [Op.notify, Op.request, marked]
  -- the requests are left alone
  | obj_get key rm =>
    obtain ⟨e, store, hget, -, hstore, -⟩ := h.store.obj_get key rm
    refine ⟨{ s with store := store }, ?_, ?_, zs, hreg, ?_⟩
    · simp [Deps.step, Deps.obj_get, hget]
    · rw [storeOps_snoc]
      exact hstore
    · rw [← hzs]
      simp [Op.notify, Op.request]

/-- **The call that goes wrong.** -/
theorem Serving.step_dangling (h : Serving ops es s) (hvalid : ¬ LastWaits es) (name : CString)
    (keys : List CString) (msg : ℤ) : Deps.step s (.deps_add name keys msg) = none := by
  obtain ⟨zs, hreg, hzs⟩ := h.deps
  have happ := hreg.append_fault hzs hvalid ⟨msg, keys.map (accounted ops []), name⟩
  simp [Deps.step, Deps.deps_add, h.checkLoop, happ]

/-- A call that has returned went well. -/
theorem Serving.of_step (h : Serving ops es s) {op : Op D R} {s' : Server D R}
    (hstep : Deps.step s op = some s') :
    Serving (ops ++ [op]) (es.map op.notify ++ op.request ops) s' := by
  have hvalid : ∀ name keys msg, op = .deps_add name keys msg → LastWaits es := by
    intro name keys msg hop
    by_contra hnot
    rw [hop, h.step_dangling hnot] at hstep
    cases hstep
  obtain ⟨s₁, hs₁, hserving⟩ := h.step op hvalid
  obtain rfl : s₁ = s' := Option.some.inj (hs₁.symm.trans hstep)
  exact hserving

end Serving

/-- **The state after a history.** -/
structure SeqInv (ops : List (Op D R)) (s : Server D R) : Prop where
  /-- The store holds the entries of its own history. -/
  store : Obj.Holds (storeOps ops) s.store
  /-- The dependencies are the requests of the history. -/
  deps : ∃ zs, Registered s.deps zs ∧ zs.map Prod.snd = requests ops

theorem SeqInv.init : SeqInv [] (Server.init : Server D R) :=
  ⟨Obj.Holds.init, [], Registered.init, rfl⟩

section SeqInv

variable {s : Server D R} {ops : List (Op D R)}

theorem SeqInv.serving (h : SeqInv ops s) : Serving ops (requests ops) s := ⟨h.store, h.deps⟩

theorem SeqInv.step (h : SeqInv ops s) (op : Op D R)
    (hvalid : ∀ name keys msg, op = .deps_add name keys msg → TailValid ops) :
    ∃ s', step s op = some s' ∧ SeqInv (ops ++ [op]) s' := by
  obtain ⟨s', hstep, hserving⟩ := h.serving.step op hvalid
  rw [← requests_snoc] at hserving
  exact ⟨s', hstep, hserving.store, hserving.deps⟩

theorem SeqInv.step_dangling (h : SeqInv ops s) (hvalid : ¬ TailValid ops) (name : CString)
    (keys : List CString) (msg : ℤ) : Deps.step s (.deps_add name keys msg) = none :=
  h.serving.step_dangling hvalid name keys msg

end SeqInv

/-- **Every state reached** satisfies the invariant. -/
theorem run_inv {ops : List (Op D R)} {s : Server D R} (h : run ops = some s) : SeqInv ops s := by
  refine Run.induction (P := SeqInv) SeqInv.init ?_ h
  intro ops s op s' hinv hstep
  have hserving := hinv.serving.of_step hstep
  rw [← requests_snoc] at hserving
  exact ⟨hserving.store, hserving.deps⟩

/-- **Exactly one report for each satisfied request**, after every call of a history,
exactly if no request is registered at a time when some request waits and the one
registered last does not. -/
theorem reported_once_iff (ops : List (Op D R)) :
    (∀ p, p <+: ops → ∃ s, run p = some s ∧ s.deps.dep_queue.Perm (due p)) ↔
      ∀ p name keys msg, p ++ [.deps_add name keys msg] <+: ops → TailValid p := by
  have hdue : ∀ {p : List (Op D R)} {s : Server D R}, SeqInv p s →
      s.deps.dep_queue.Perm (due p) := by
    rintro p s ⟨-, zs, hreg, hzs⟩
    refine hreg.queue.trans ?_
    rw [due, ← hzs, resolved, List.filter_map, List.map_map]
    exact List.Perm.refl _
  constructor
  · intro h p name keys msg hp
    by_contra hvalid
    obtain ⟨s', hs', -⟩ := h _ hp
    obtain ⟨s, hs, hstep⟩ := Run.run_snoc_eq_some.mp hs'
    rw [(run_inv hs).step_dangling hvalid] at hstep
    cases hstep
  · intro h p hp
    suffices hsuff : ∃ s, run p = some s ∧ SeqInv p s by
      obtain ⟨s, hs, hinv⟩ := hsuff
      exact ⟨s, hs, hdue hinv⟩
    induction p using List.reverseRecOn with
    | nil => exact ⟨_, rfl, SeqInv.init⟩
    | append_singleton p op ih =>
      obtain ⟨s, hs, hinv⟩ := ih ((List.prefix_append p [op]).trans hp)
      obtain ⟨s', hs', hinv'⟩ := hinv.step op fun name keys msg hop =>
        h p name keys msg (hop ▸ hp)
      exact ⟨s', Run.run_snoc_eq_some.mpr ⟨s, hs, hs'⟩, hinv'⟩

/-- Two requests, of which the second is satisfied first, and a third one that waits
for nothing. -/
def lastReportedFirst : List (Op ℕ Unit) :=
  [.deps_add (cstr [65]) [cstr [97]] 1, .deps_add (cstr [66]) [cstr [98]] 2,
    .obj_add (cstr [98]) none 0 1, .deps_add (cstr [67]) [] 3]

/-- The third request is linked behind the freed node of the second. -/
theorem third_request_lost : ¬ ∀ p, p <+: lastReportedFirst →
    ∃ s, run p = some s ∧ s.deps.dep_queue.Perm (due p) := by
  intro h
  obtain ⟨s, hs, -⟩ := h _ (List.prefix_refl _)
  have hfault : run lastReportedFirst = none := rfl
  rw [hfault] at hs
  cases hs

end Deps
end Osrv
