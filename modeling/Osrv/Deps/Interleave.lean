import Osrv.Deps.Rep
import Osrv.Obj.Refine

/-!
# Registering a request while keys are added

`deps_add` is not one critical section. It looks its keys up one by one, each under
`obj_mutex`, then appends the request under `dep_mutex`, and then sweeps the list
once more. Calls of `obj_add` can fall in between. The sweep adds up the status
bytes and does not look at the store again, so a key that was missing at its check
and is added before the append is noticed by nobody.

The system below has any number of threads. `posted_iff` says when the request of a
single `deps_add` is reported, for every interleaving with calls of `obj_add` and
`obj_get`.
-/

namespace Osrv
namespace Deps

open Bytes Heap

variable {T D R : Type}

/-! ### The system -/

/-- Where a thread is in `deps_add`. -/
inductive Call
  /-- Not in it. -/
  | idle
  /-- In the loop over the keys: those checked, with their status bytes, and the
  rest. -/
  | checking (name : CString) (msg : ℤ) (checked : List (CString × Bool)) (todo : List CString)
  /-- Between the append and the sweep. -/
  | appended

/-- The server and its threads. -/
structure Sys (T D R : Type) where
  server : Server D R
  calls : T → Call

def Sys.init : Sys T D R := ⟨.init, fun _ => .idle⟩

/-- The atomic steps. -/
inductive Act (T D R : Type)
  /-- A thread calls `deps_add`. -/
  | deps_add (t : T) (name : CString) (keys : List CString) (msg : ℤ)
  /-- Its check of one key. -/
  | check (t : T)
  | append (t : T)
  /-- Its closing `deps_complete(0)`. -/
  | sweep (t : T)
  | obj_add (key : CString) (sWhat : Option R) (data : D) (len : ℕ)
  | obj_get (key : CString) (rm : Bool)

/-- Performs a step, in the order of `deps_add` for each thread. -/
def Sys.step [DecidableEq T] (s : Sys T D R) : Act T D R → Option (Sys T D R)
  | .deps_add t name keys msg =>
    match s.calls t with
    | .idle => some { s with calls := Function.update s.calls t (.checking name msg [] keys) }
    | _ => none
  | .check t =>
    match s.calls t with
    -- the next of the keys is looked up
    | .checking name msg checked (k :: todo) => do
      let (k, server) ← deps_check k s.server
      pure ⟨server, Function.update s.calls t (.checking name msg (checked ++ [k]) todo)⟩
    | _ => none
  | .append t =>
    match s.calls t with
    -- all of them have been looked up
    | .checking name msg checked [] => do
      let deps ← deps_append ⟨msg, checked, name⟩ s.server.deps
      pure ⟨{ s.server with deps := deps }, Function.update s.calls t .appended⟩
    | _ => none
  | .sweep t =>
    match s.calls t with
    -- the last part of `deps_add`
    | .appended => do
      let deps ← deps_complete none s.server.deps
      pure ⟨{ s.server with deps := deps }, Function.update s.calls t .idle⟩
    | _ => none
  | .obj_add key sWhat data len => do
    let server ← Deps.obj_add key sWhat data len s.server
    pure { s with server := server }
  | .obj_get key rm => do
    let (_, server) ← Deps.obj_get key rm s.server
    pure { s with server := server }

/-- The system after a list of steps. -/
def Sys.run [DecidableEq T] (acts : List (Act T D R)) : Option (Sys T D R) :=
  Run.run Sys.step .init acts

/-! ### What a run does to the keys -/

/-- The part of a step that `obj.c` sees as a call. -/
def Act.storeOps : Act T D R → List (Obj.Op D R)
  | .obj_add key sWhat data len => [.add key sWhat data len]
  | .obj_get key rm => [.get key rm]
  | _ => []

/-- A call of `obj.c`, by any thread. -/
def Act.OnStore : Act T D R → Prop
  | .obj_add _ _ _ _ | .obj_get _ _ => True
  | _ => False

/-- A step of the call of `deps_add` that `t` is in, or a call of `obj.c`. -/
def Act.Around (t : T) : Act T D R → Prop
  | .deps_add _ _ _ _ => False
  | .check u | .append u | .sweep u => u = t
  | .obj_add _ _ _ _ | .obj_get _ _ => True

/-- The keys added to the store. -/
def keysAdded (acts : List (Act T D R)) : List CString :=
  acts.flatMap fun
    | .obj_add key _ _ _ => [key]
    | _ => []

/-- The keys added after the append. -/
def addedAfterAppend : List (Act T D R) → List CString
  | [] => []
  | .append _ :: acts => keysAdded acts
  | _ :: acts => addedAfterAppend acts

/-- The keys of `todo` that are not in the store when they are checked. `hist` is the
history of the store so far. -/
def missing (hist : List (Obj.Op D R)) : List CString → List (Act T D R) → List CString
  | _, [] => []
  | todo, .check _ :: acts =>
    (todo.take 1).filter (fun k => Obj.live k hist = 0) ++ missing hist (todo.drop 1) acts
  | todo, a :: acts => missing (hist ++ a.storeOps) todo acts

/-! ### A single request -/

/-- The request is the only one in the list, and nothing has been reported. -/
def Pending (s : State) (e : Depent) : Prop := (∃ a, DepsRep s [(a, e)]) ∧ s.dep_queue = []

/-- The request has been reported. -/
def Posted (s : State) (m : Resolved) : Prop := DepsRep s [] ∧ s.dep_queue = [m]

theorem Posted.complete {s : State} {m : Resolved} (h : Posted s m) (key : Option CString) :
    ∃ s', deps_complete key s = some s' ∧ Posted s' m := by
  obtain ⟨s', hrun, hrep, -, -, hqueue⟩ := h.1.deps_complete key
  refine ⟨s', hrun, hrep, ?_⟩
  rw [hqueue, h.2]
  rfl

/-- A sweep reports the request if it has seen all its keys. -/
theorem Pending.complete {s : State} {e : Depent} (h : Pending s e) (key : Option CString) :
    ∃ s', deps_complete key s = some s' ∧
      ((e.mark key).satisfied = true ∧ Posted s' e.resolved ∨
        (e.mark key).satisfied = false ∧ Pending s' (e.mark key)) := by
  obtain ⟨⟨a, hrep⟩, hqueue⟩ := h
  obtain ⟨s', hrun, hrep', -, -, hqueue'⟩ := hrep.deps_complete key
  refine ⟨s', hrun, ?_⟩
  rw [hqueue] at hqueue'
  cases hsat : (e.mark key).satisfied with
  | true =>
    refine .inl ⟨rfl, ?_, ?_⟩
    · simpa [marked, waiting, hsat] using hrep'
    · simpa [marked, resolved, hsat] using hqueue'
  | false =>
    refine .inr ⟨rfl, ⟨a, ?_⟩, ?_⟩
    · simpa [marked, waiting, hsat] using hrep'
    · simpa [marked, resolved, hsat] using hqueue'

/-- Every key has been seen, or is among those added. -/
def Depent.Covered (e : Depent) (keys : List CString) : Prop :=
  ∀ k ∈ e.keys, k.2 = true ∨ k.1 ∈ keys

theorem Depent.covered_nil (e : Depent) : e.Covered [] ↔ e.satisfied = true := by
  simp [Covered, satisfied]

theorem Depent.covered_cons (e : Depent) (key : CString) (keys : List CString) :
    e.Covered (key :: keys) ↔ (e.mark (some key)).Covered keys := by
  simp only [Covered, mark, List.forall_mem_map]
  refine forall₂_congr fun k _ => ?_
  rw [List.mem_cons, Bool.or_eq_true, decide_eq_true_iff, Option.some.injEq, or_assoc,
    eq_comm (a := key)]

theorem Depent.Covered.of_satisfied {e : Depent} (h : e.satisfied = true)
    (keys : List CString) : e.Covered keys := fun k hk =>
  .inl (List.all_eq_true.mp h k hk)

/-! ### One step -/

variable [DecidableEq T] {t : T} {s s₁ : Sys T D R} {a : Act T D R}

/-- **What a step does**, action by action. -/
theorem Sys.step_cases (h : s.step a = some s₁) :
    match a with
    | .deps_add t name keys msg => s.calls t = .idle ∧
        s₁ = { s with calls := Function.update s.calls t (.checking name msg [] keys) }
    | .check t => ∃ name msg checked k todo e store,
        s.calls t = .checking name msg checked (k :: todo) ∧
        Obj.obj_get k false s.server.store = some (e, store) ∧
        s₁ = ⟨{ s.server with store := store }, Function.update s.calls t
          (.checking name msg (checked ++ [(k, e.isSome)]) todo)⟩
    | .append t => ∃ name msg checked deps, s.calls t = .checking name msg checked [] ∧
        deps_append ⟨msg, checked, name⟩ s.server.deps = some deps ∧
        s₁ = ⟨{ s.server with deps := deps }, Function.update s.calls t .appended⟩
    | .sweep t => s.calls t = .appended ∧ ∃ deps,
        deps_complete none s.server.deps = some deps ∧
        s₁ = ⟨{ s.server with deps := deps }, Function.update s.calls t .idle⟩
    | .obj_add key sWhat data len => ∃ deps,
        deps_complete (some key) s.server.deps = some deps ∧
        s₁ = { s with server := ⟨Obj.obj_add key sWhat data len s.server.store, deps⟩ }
    | .obj_get key rm => ∃ e store, Obj.obj_get key rm s.server.store = some (e, store) ∧
        s₁ = { s with server := { s.server with store := store } } := by
  cases a with
  | deps_add t name keys msg =>
    simp only [Sys.step] at h
    -- the list of keys has been looked up
    split at h
    · next hcall => exact ⟨hcall, (Option.some.inj h).symm⟩
    · cases h
  | check t =>
    simp only [Sys.step] at h
    split at h
    · next name msg checked k todo hcall =>
      simp only [deps_check, Deps.obj_get, Option.bind_eq_bind, Option.bind_eq_some_iff,
        Option.pure_def, Option.some.injEq] at h
      obtain ⟨-, ⟨-, ⟨⟨e, store⟩, hget, rfl⟩, rfl⟩, rfl⟩ := h
      exact ⟨name, msg, checked, k, todo, e, store, hcall, hget, rfl⟩
    · cases h
  | append t =>
    simp only [Sys.step] at h
    split at h
    · next name msg checked hcall =>
      obtain ⟨deps, happ, h⟩ := Option.bind_eq_some_iff.mp h
      exact ⟨name, msg, checked, deps, hcall, happ, (Option.some.inj h).symm⟩
    · cases h
  | sweep t =>
    simp only [Sys.step] at h
    split at h
    · next hcall =>
      obtain ⟨deps, hrun, h⟩ := Option.bind_eq_some_iff.mp h
      exact ⟨hcall, deps, hrun, (Option.some.inj h).symm⟩
    · cases h
  | obj_add key sWhat data len =>
    simp only [Sys.step, Deps.obj_add, Option.bind_eq_bind, Option.bind_eq_some_iff,
      Option.pure_def, Option.some.injEq] at h
    obtain ⟨-, ⟨deps, hrun, rfl⟩, rfl⟩ := h
    exact ⟨deps, hrun, rfl⟩
  | obj_get key rm =>
    simp only [Sys.step, Deps.obj_get, Option.bind_eq_bind, Option.bind_eq_some_iff,
      Option.pure_def, Option.some.injEq] at h
    obtain ⟨-, ⟨⟨e, store⟩, hget, rfl⟩, rfl⟩ := h
    exact ⟨e, store, hget, rfl⟩

/-! ### The rest of a run -/

variable {s' : Sys T D R} {post : List (Act T D R)}

/-- A reported request stays reported. -/
theorem run_posted {m : Resolved} (hacts : ∀ a ∈ post, a.Around t)
    (hrun : Run.run Sys.step s post = some s') (hpost : Posted s.server.deps m)
    (hcall : ∀ name msg checked todo, s.calls t ≠ .checking name msg checked todo) :
    Posted s'.server.deps m := by
  induction post generalizing s with
  | nil =>
    obtain rfl : s = s' := by simpa using hrun
    exact hpost
  | cons a post ih =>
    obtain ⟨s₁, hstep, hrest⟩ := Run.run_cons_eq_some.mp hrun
    have hcases := Sys.step_cases hstep
    have hacts' : ∀ a ∈ post, a.Around t := fun b hb => hacts b (List.mem_cons_of_mem _ hb)
    have ha := hacts a (List.mem_cons_self ..)
    cases a with
    -- no other call is made
    | deps_add u name keys msg => exact ha.elim
    -- the call is not within the loop any more
    | check u =>
      obtain rfl : u = t := ha
      obtain ⟨name, msg, checked, k, todo, e, store, hchecking, -⟩ := hcases
      exact (hcall _ _ _ _ hchecking).elim
    | append u =>
      obtain rfl : u = t := ha
      obtain ⟨name, msg, checked, deps, hchecking, -⟩ := hcases
      exact (hcall _ _ _ _ hchecking).elim
    -- a sweep and a mark only add to what is reported
    | sweep u =>
      obtain rfl : u = t := ha
      obtain ⟨-, deps, hsweep, rfl⟩ := hcases
      obtain ⟨deps', hrun', hpost'⟩ := hpost.complete none
      obtain rfl : deps' = deps := Option.some.inj (hrun'.symm.trans hsweep)
      exact ih hacts' hrest hpost' fun name msg checked todo => by simp
    | obj_add key sWhat data len =>
      obtain ⟨deps, hadd, rfl⟩ := hcases
      obtain ⟨deps', hrun', hpost'⟩ := hpost.complete (some key)
      obtain rfl : deps' = deps := Option.some.inj (hrun'.symm.trans hadd)
      exact ih hacts' hrest hpost' hcall
    | obj_get key rm =>
      obtain ⟨e, store, -, rfl⟩ := hcases
      exact ih hacts' hrest hpost hcall

/-- After the append, the request is reported once every key it has not seen is
added. If none is missing, the sweep reports it. -/
theorem run_pending {e : Depent} (hacts : ∀ a ∈ post, a.Around t)
    (hrun : Run.run Sys.step s post = some s') (hdone : s'.calls t = .idle)
    (hpend : Pending s.server.deps e)
    (hcall : s.calls t = .appended ∨ s.calls t = .idle ∧ e.satisfied = false) :
    e.resolved ∈ s'.server.deps.dep_queue ↔ e.Covered (keysAdded post) := by
  induction post generalizing s e with
  | nil =>
    obtain rfl : s = s' := by simpa using hrun
    -- the call has returned, so the sweep found a key missing
    have hwait : e.satisfied = false := by
      rcases hcall with happ | ⟨-, hwait⟩
      · rw [happ] at hdone
        cases hdone
      · exact hwait
    rw [hpend.2]
    exact iff_of_false (by simp) fun hcov => by
      rw [(e.covered_nil).mp hcov] at hwait
      cases hwait
  | cons a post ih =>
    obtain ⟨s₁, hstep, hrest⟩ := Run.run_cons_eq_some.mp hrun
    have hcases := Sys.step_cases hstep
    have hacts' : ∀ a ∈ post, a.Around t := fun b hb => hacts b (List.mem_cons_of_mem _ hb)
    -- the call is behind its checks, so only the sweep and other calls are left
    have hnot : ∀ name msg checked todo, s.calls t ≠ .checking name msg checked todo := by
      intro name msg checked todo h
      rw [h] at hcall
      simp at hcall
    have ha := hacts a (List.mem_cons_self ..)
    cases a with
    | deps_add u name keys msg => exact ha.elim
    | check u =>
      obtain rfl : u = t := ha
      obtain ⟨name, msg, checked, k, todo, e, store, hchecking, -⟩ := hcases
      exact (hnot _ _ _ _ hchecking).elim
    | append u =>
      obtain rfl : u = t := ha
      obtain ⟨name, msg, checked, deps, hchecking, -⟩ := hcases
      exact (hnot _ _ _ _ hchecking).elim
    | sweep u =>
      obtain rfl : u = t := ha
      obtain ⟨-, deps, hsweep, rfl⟩ := hcases
      obtain ⟨deps', hrun', hsat⟩ := hpend.complete none
      obtain rfl : deps' = deps := Option.some.inj (hrun'.symm.trans hsweep)
      rw [e.mark_none] at hsat
      rcases hsat with ⟨hsat, hpost⟩ | ⟨hwait, hpend'⟩
      · -- the sweep has posted it, and nothing takes a report back
        have hpost' := run_posted hacts' hrest hpost fun name msg checked todo => by simp
        rw [hpost'.2]
        exact iff_of_true (by simp) (Depent.Covered.of_satisfied hsat _)
      · exact ih hacts' hrest hpend' (.inr ⟨by simp, hwait⟩)
    | obj_add key sWhat data len =>
      obtain ⟨deps, hadd, rfl⟩ := hcases
      obtain ⟨deps', hrun', hsat⟩ := hpend.complete (some key)
      obtain rfl : deps' = deps := Option.some.inj (hrun'.symm.trans hadd)
      have hkeys : keysAdded (.obj_add key sWhat data len :: post) = key :: keysAdded post := rfl
      rw [hkeys, e.covered_cons]
      rcases hsat with ⟨hsat, hpost⟩ | ⟨hwait, hpend'⟩
      · -- the added key was the last one that it waited for
        have hpost' := run_posted hacts' hrest hpost hnot
        rw [hpost'.2]
        exact iff_of_true (by simp) (Depent.Covered.of_satisfied hsat _)
      · exact ih hacts' hrest hpend' (hcall.imp id fun h => ⟨h.1, hwait⟩)
    | obj_get key rm =>
      obtain ⟨e', store, -, rfl⟩ := hcases
      exact ih hacts' hrest hpend hcall

/-- A call of `obj.c` while no request waits. There is nothing that it could report. -/
theorem store_step {hist : List (Obj.Op D R)} {a : Act T D R}
    (hstep : s.step a = some s') (ha : a.OnStore) (hstore : Obj.Holds hist s.server.store)
    (hdeps : DepsRep s.server.deps []) (hqueue : s.server.deps.dep_queue = []) :
    Obj.Holds (hist ++ a.storeOps) s'.server.store ∧ DepsRep s'.server.deps [] ∧
      s'.server.deps.dep_queue = [] ∧ s'.calls = s.calls := by
  have hcases := Sys.step_cases hstep
  cases a with
  | obj_add key sWhat data len =>
    obtain ⟨deps, hadd, rfl⟩ := hcases
    obtain ⟨deps', hrun, hrep, -, -, hqueue'⟩ := hdeps.deps_complete (some key)
    obtain rfl : deps' = deps := Option.some.inj (hrun.symm.trans hadd)
    have hnone : resolved (marked (some key) []) = [] := rfl
    rw [hqueue, hnone, List.append_nil] at hqueue'
    exact ⟨hstore.obj_add key sWhat data len, hrep, hqueue', rfl⟩
  -- removals do not touch the list
  | obj_get key rm =>
    obtain ⟨e, store, hget, rfl⟩ := hcases
    obtain ⟨e', store', hget', -, hstore', -⟩ := hstore.obj_get key rm
    rw [hget'] at hget
    obtain ⟨rfl, rfl⟩ := Prod.mk.inj (Option.some.inj hget)
    exact ⟨hstore', hdeps, hqueue, rfl⟩
  | _ => exact ha.elim

omit [DecidableEq T] in
theorem missing_nil (hist : List (Obj.Op D R)) (acts : List (Act T D R)) :
    missing hist [] acts = [] := by
  induction acts generalizing hist with
  | nil => rfl
  | cons a acts ih => cases a <;> exact ih _

/-- From within the loop over the keys. -/
theorem run_checking {hist : List (Obj.Op D R)} {name : CString} {msg : ℤ}
    {checked : List (CString × Bool)} {todo : List CString} (hacts : ∀ a ∈ post, a.Around t)
    (hrun : Run.run Sys.step s post = some s') (hdone : s'.calls t = .idle)
    (hstore : Obj.Holds hist s.server.store) (hdeps : DepsRep s.server.deps [])
    (hqueue : s.server.deps.dep_queue = [])
    (hcall : s.calls t = .checking name msg checked todo) :
    ⟨msg, name⟩ ∈ s'.server.deps.dep_queue ↔
      (∀ k ∈ checked, k.2 = true ∨ k.1 ∈ addedAfterAppend post) ∧
        ∀ k ∈ missing hist todo post, k ∈ addedAfterAppend post := by
  induction post generalizing s hist checked todo with
  -- the call has not come to its end
  | nil =>
    obtain rfl : s = s' := by simpa using hrun
    rw [hcall] at hdone
    cases hdone
  | cons a post ih =>
    obtain ⟨s₁, hstep, hrest⟩ := Run.run_cons_eq_some.mp hrun
    have hcases := Sys.step_cases hstep
    have hacts' : ∀ a ∈ post, a.Around t := fun b hb => hacts b (List.mem_cons_of_mem _ hb)
    have ha := hacts a (List.mem_cons_self ..)
    cases a with
    -- no other call is made
    | deps_add u name keys msg => exact ha.elim
    | check u =>
      obtain rfl : u = t := ha
      obtain ⟨name', msg', checked', k, todo', e, store, hchecking, hget, rfl⟩ := hcases
      rw [hcall] at hchecking
      obtain ⟨rfl, rfl, rfl, rfl⟩ := Call.checking.inj hchecking
      obtain ⟨e', store', hget', hfound, -, hsame⟩ := hstore.obj_get k false
      rw [hget'] at hget
      obtain ⟨rfl, rfl⟩ := Prod.mk.inj (Option.some.inj hget)
      obtain rfl := hsame rfl
      -- the call has looked up `k` and goes on with the others
      have hnext := ih hacts' hrest hstore hdeps hqueue (Function.update_self ..)
      -- `k` is missing if it has not been found
      have hmissing : missing hist (k :: todo') (.check u :: post)
          = (if e'.isSome then [] else [k]) ++ missing hist todo' post := by
        rw [hfound]
        rcases Nat.eq_zero_or_pos (Obj.live k hist) with h | h
        · simp [missing, h]
        · simp [missing, h, Nat.ne_of_gt h]
      have hafter : addedAfterAppend (.check u :: post) = addedAfterAppend post := rfl
      rw [hnext, hmissing, hafter]
      cases e'.isSome <;> simp [or_imp, forall_and, and_assoc]
    -- from here on the request is in the list
    | append u =>
      obtain rfl : u = t := ha
      obtain ⟨name', msg', checked', deps, hchecking, happ, rfl⟩ := hcases
      rw [hcall] at hchecking
      obtain ⟨rfl, rfl, rfl, rfl⟩ := Call.checking.inj hchecking
      obtain ⟨deps', happ', hrep, -, -, hqueue'⟩ :=
        hdeps.deps_append ⟨msg, checked, name⟩ (.inl rfl)
      obtain rfl : deps' = deps := Option.some.inj (happ'.symm.trans happ)
      have hpend : Pending deps' ⟨msg, checked, name⟩ := ⟨⟨_, hrep⟩, hqueue'.trans hqueue⟩
      have hposted := run_pending hacts' hrest hdone hpend (.inl (by simp))
      rw [missing_nil]
      exact hposted.trans ⟨fun h => ⟨h, by simp⟩, fun h => h.1⟩
    -- a call within the loop does not sweep
    | sweep u =>
      obtain rfl : u = t := ha
      obtain ⟨happ, -⟩ := hcases
      rw [hcall] at happ
      cases happ
    -- nothing of the call is in the list yet, so nothing is reported
    | obj_add key sWhat data len =>
      obtain ⟨hstore', hdeps', hqueue', hcalls⟩ := store_step hstep trivial hstore hdeps hqueue
      exact ih hacts' hrest hstore' hdeps' hqueue' (hcalls ▸ hcall)
    | obj_get key rm =>
      obtain ⟨hstore', hdeps', hqueue', hcalls⟩ := store_step hstep trivial hstore hdeps hqueue
      exact ih hacts' hrest hstore' hdeps' hqueue' (hcalls ▸ hcall)

/-! ### Runs with a single request -/

/-- The system after calls of `obj.c` alone. -/
theorem run_store {pre : List (Act T D R)} (hacts : ∀ a ∈ pre, a.OnStore)
    (hrun : Sys.run pre = some s) :
    Obj.Holds (pre.flatMap Act.storeOps) s.server.store ∧ DepsRep s.server.deps [] ∧
      s.server.deps.dep_queue = [] := by
  refine Run.induction (P := fun pre s => (∀ a ∈ pre, a.OnStore) →
    Obj.Holds (pre.flatMap Act.storeOps) s.server.store ∧ DepsRep s.server.deps [] ∧
      s.server.deps.dep_queue = []) ?_ ?_ hrun hacts
  · intro _
    exact ⟨Obj.Holds.init, DepsRep.init, rfl⟩
  · intro pre s a s₁ ih hstep hacts
    obtain ⟨hstore, hdeps, hqueue⟩ := ih fun b hb => hacts b (List.mem_append_left _ hb)
    obtain ⟨hstore', hdeps', hqueue', -⟩ :=
      store_step hstep (hacts a (by simp)) hstore hdeps hqueue
    rw [List.flatMap_append, List.flatMap_singleton]
    exact ⟨hstore', hdeps', hqueue'⟩

/-- **Completion under interleaving.** Let one thread call `deps_add` while other
threads call `obj_add` and `obj_get` in between. At the end of a run in which the
call has returned, the request has been reported exactly if every key that was not
in the store at its own check has been added after the append. -/
theorem posted_iff {pre post : List (Act T D R)} {name : CString} {keys : List CString} {msg : ℤ}
    (hpre : ∀ a ∈ pre, a.OnStore) (hpost : ∀ a ∈ post, a.Around t)
    (hrun : Sys.run (pre ++ .deps_add t name keys msg :: post) = some s)
    (hdone : s.calls t = .idle) :
    ⟨msg, name⟩ ∈ s.server.deps.dep_queue ↔
      ∀ k ∈ missing (pre.flatMap Act.storeOps) keys post, k ∈ addedAfterAppend post := by
  obtain ⟨s₀, hs₀, hrest⟩ := Run.run_append_eq_some.mp hrun
  obtain ⟨s₁, hstep, hrest⟩ := Run.run_cons_eq_some.mp hrest
  obtain ⟨hstore, hdeps, hqueue⟩ := run_store hpre hs₀
  obtain ⟨-, rfl⟩ := Sys.step_cases hstep
  rw [run_checking hpost hrest hdone hstore hdeps hqueue (Function.update_self ..)]
  exact ⟨fun h => h.2, fun h => ⟨by simp, h⟩⟩

/-- The request for one key: the key is looked up, added, and the request appended. -/
def addedInWindow : List (Act Unit ℕ Unit) :=
  [.check (), .obj_add (cstr [97]) none 0 1, .append (), .sweep ()]

/-- The key is in the store, the call has returned, and nothing is reported. -/
theorem completion_lost : ∃ s : Sys Unit ℕ Unit,
    Sys.run (.deps_add () (cstr [65]) [cstr [97]] 1 :: addedInWindow) = some s ∧
      s.calls () = .idle ∧ 0 < Obj.live (cstr [97]) (addedInWindow.flatMap Act.storeOps) ∧
      s.server.deps.dep_queue = [] :=
  ⟨_, rfl, rfl, by decide, rfl⟩

/-- The same steps with the key added after the append. -/
def addedLater : List (Act Unit ℕ Unit) :=
  [.check (), .append (), .obj_add (cstr [97]) none 0 1, .sweep ()]

theorem completion_posted : ∃ s : Sys Unit ℕ Unit,
    Sys.run ([] ++ .deps_add () (cstr [65]) [cstr [97]] 1 :: addedLater) = some s ∧
      ⟨1, cstr [65]⟩ ∈ s.server.deps.dep_queue := by
  obtain ⟨s, hs, hidle⟩ : ∃ s : Sys Unit ℕ Unit,
      Sys.run ([] ++ .deps_add () (cstr [65]) [cstr [97]] 1 :: addedLater)
        = some s ∧ s.calls () = .idle := ⟨_, rfl, rfl⟩
  refine ⟨s, hs, (posted_iff (by simp) (by simp [addedLater, Act.Around]) hs hidle).mpr ?_⟩
  decide

end Deps
end Osrv
