import Osrv.Http.Process
import Osrv.Http.Steps
import Osrv.Obj.Robj
import Osrv.Tcp.Keeps

/-!
# Histories of the store

The store is changed by R, by the TCP server and by the HTTP server. A history is a
list of their operations in the order in which they take the mutex: a call of R, a
round of `do_process`, or a call of `http_process` with a request that the connection
loop can pass to it. Since a connection is a sequence of such operations, every
interleaving of connections is a history.

An operation that follows a null pointer or leaves its memory has no outcome. `Each P`
says that every entry of the store satisfies `P`, and `Each.step` is what an operation
has to do to keep that.
-/

namespace Osrv
namespace Fronts

open Bytes Net Obj Sfs Http

/-! ### Operations -/

/-- A call that the connection loop makes of the handler, for whatever bytes and at whatever
point the connection ends. `overrun` says whether a recorded head has run over its buffer by
then. -/
def Passed (site : Site) (req : HttpRequest) (overrun : Bool) : Prop :=
  ∃ (σ : Type) (malloc : Malloc) (process : Handler σ) (line_buf : Memory) (input : Input)
    (world : σ) (c c' : Connection σ) (recorded : List UInt8),
    Reachable malloc process (Connection.init line_buf input world) c ∧ c.s = true ∧
      http_input_iteration malloc process c = some (.ret c') ∧
      c'.log = c.log ++ [.process site req recorded] ∧ c'.overrun = overrun

/-- A round of `do_process`, on the bytes it has received. -/
structure TcpRound where
  send : SendFn
  malloc : Malloc
  buf : Memory
  bs : List UInt8
  input : Input
  conn : Conn
  mallocs : ℕ

/-- A call of `http_process`. -/
structure HttpCall where
  send : SendFn
  malloc : Malloc
  garbage : ℕ → Option Garbage
  site : Site
  req : HttpRequest
  overrun : Bool
  passed : Passed site req overrun
  conn : Conn
  queue : Option (List (List UInt8))
  allocs : ℕ

inductive Op
  | put (key : CString) (sWhat : SEXP) (use_sfs : Bool)
  | get (r : RSession) (key : CString) (use_sfs rm : Bool)
  | clean
  | tcp (t : TcpRound)
  | http (h : HttpCall)

/-- The world of a round on a store. -/
def TcpRound.world (t : TcpRound) (s : Objects) : Tcp.World :=
  ⟨t.input, t.conn, s, t.mallocs⟩

/-- The world of a call on a store. -/
def HttpCall.world (h : HttpCall) (s : Objects) : Server :=
  ⟨h.conn, s, h.queue, h.allocs, false⟩

/-- The world behind a call. -/
def HttpCall.after (h : HttpCall) (s : Objects) : Server :=
  (http_process h.send h.malloc h.garbage h.req (h.world s)).2.2

/-- Performs an operation. -/
def step (s : Objects) : Op → Option Objects
  | .put key sWhat use_sfs => some (C_put key sWhat use_sfs s)
  | .get r key use_sfs rm => (C_get r key use_sfs rm s).map Prod.snd
  | .clean => C_clean s
  | .tcp t => (Tcp.request t.send t.malloc t.buf t.bs (t.world s)).map fun r => r.2.2.store
  | .http h => if (h.after s).fault then none else some (h.after s).store

/-- The store after a history. -/
def run (ops : List Op) : Option Objects := Run.run step .init ops

/-! ### A property of every entry -/

/-- An entry of the store. -/
abbrev ObjEntry : Type := Entry (Option (List UInt8)) SEXP

/-- Every entry of the store satisfies `P`. -/
def Each (P : ObjEntry → Prop) (s : Objects) : Prop := ∃ xs ys, Rep s xs ys ∧ ∀ x ∈ xs, P x.2

section Each

variable {P : ObjEntry → Prop} {s s' : Objects}

theorem Each.init : Each P Store.init := ⟨[], [], Rep.init, fun _ h => absurd h List.not_mem_nil⟩

theorem Each.mono {Q : ObjEntry → Prop} (h : Each P s) (hPQ : ∀ e, P e → Q e) : Each Q s := by
  obtain ⟨xs, ys, hrep, hxs⟩ := h
  exact ⟨xs, ys, hrep, fun x hx => hPQ x.2 (hxs x hx)⟩

theorem Each.obj_add (h : Each P s) {key : CString} {sWhat : Option SEXP}
    {data : Option (List UInt8)} {len : ℕ} (hP : P ⟨len, data, sWhat, key⟩) :
    Each P (obj_add key sWhat data len s) := by
  obtain ⟨xs, ys, hrep, hxs⟩ := h
  refine ⟨_, ys, hrep.obj_add key sWhat data len, fun x hx => ?_⟩
  obtain rfl | hx := List.mem_cons.mp hx
  · exact hP
  · exact hxs x hx

/-- An entry that is found satisfies it, and so do those that are left. -/
theorem Each.obj_get (h : Each P s) {key : CString} {rm : Bool} {o : Heap.Ptr}
    (hget : obj_get key rm s = some (o, s')) :
    Each P s' ∧ ∀ a, o = some a → ∃ cell, s'.heap.load a = some cell ∧ P cell.val := by
  obtain ⟨xs, ys, hrep, hxs⟩ := h
  cases rm with
  | false =>
    rw [hrep.obj_get_find] at hget
    obtain ⟨rfl, rfl⟩ := Prod.mk.inj (Option.some.inj hget)
    refine ⟨⟨xs, ys, hrep, hxs⟩, fun a ha => ?_⟩
    obtain ⟨pre, e, post, next, hsplit, -, hcell⟩ := hrep.exists_found ha
    refine ⟨_, hcell, ?_⟩
    have hmem : (a, e) ∈ xs := hsplit ▸ List.mem_append_right _ (List.mem_cons_self ..)
    exact hxs _ hmem
  | true =>
    obtain ⟨s₁, hremove, hrep', -⟩ := hrep.obj_get_remove key
    rw [hremove] at hget
    obtain ⟨rfl, rfl⟩ := Prod.mk.inj (Option.some.inj hget)
    refine ⟨⟨_, _, hrep', fun x hx => hxs x (List.mem_of_mem_eraseP hx)⟩, fun a ha => ?_⟩
    -- the entry is in front of the pool
    obtain ⟨x, hx, rfl⟩ := Option.map_eq_some_iff.mp ha
    rw [hx] at hrep'
    obtain ⟨-, next, hcell, -⟩ := hrep'.pool
    exact ⟨_, hcell, hxs x (List.mem_of_find?_eq_some hx)⟩

theorem Each.obj_gc (h : Each P s) (hgc : obj_gc s = some s') : Each P s' := by
  obtain ⟨xs, ys, hrep, hxs⟩ := h
  obtain ⟨s₁, hrun, hrep', -⟩ := hrep.obj_gc
  rw [hrun] at hgc
  obtain rfl := Option.some.inj hgc
  exact ⟨xs, [], hrep', hxs⟩

end Each

/-! ### What an operation has to keep -/

/-- A property that the entries of R and of the TCP server have, and that a value kept in
an entry does not take away. -/
structure Usual (P : ObjEntry → Prop) : Prop where
  /-- Bytes with their length. -/
  bytes : ∀ bs sWhat key, P ⟨bs.length, some bs, sWhat, key⟩
  /-- A value. -/
  value : ∀ v key, P ⟨0, none, some v, key⟩
  /-- A value that is kept. -/
  kept : ∀ e v, P e → P { e with sWhat := some v }

/-- The entry that a request puts into the store. -/
def putEntry (req : HttpRequest) (key : CString) : ObjEntry :=
  ⟨toObjLen req.content_length, bodyBytes req, none, key⟩

/-- The request is a `PUT` of an object. -/
def PutsObject (req : HttpRequest) : Prop :=
  req.method = some .PUT ∧ ∃ path, req.path = some path ∧ under dataPrefix path = true

instance (req : HttpRequest) : Decidable (PutsObject req) :=
  decidable_of_iff (req.method = some .PUT ∧ req.path.any (under dataPrefix) = true)
    (and_congr_right fun _ => Option.any_eq_true _ _)

section Step

variable {P : ObjEntry → Prop} {s s' : Objects}

theorem Each.C_put (hP : Usual P) (h : Each P s) (key : CString) (sWhat : SEXP) (use_sfs : Bool) :
    Each P (C_put key sWhat use_sfs s) := by
  rw [Obj.C_put]
  split
  · exact h.obj_add (hP.value sWhat key)
  · split
    · exact h
    · exact h.obj_add (hP.bytes _ _ key)

theorem Each.keep (hP : Usual P) {xs ys pre post : Entries (Option (List UInt8)) SEXP}
    {a : Heap.Addr} {e : ObjEntry} {next : Heap.Ptr} (hrep : Rep s xs ys) (hxs : ∀ x ∈ xs, P x.2)
    (hsplit : xs = pre ++ (a, e) :: post) (hcell : s.heap.cells a = some ⟨e, next⟩) {v : SEXP}
    (hkeep : keep a ⟨e, next⟩ v s = some s') : Each P s' := by
  subst hsplit
  obtain ⟨s₁, hrun, hrep'⟩ := hrep.keep hcell v
  rw [hrun] at hkeep
  obtain rfl := Option.some.inj hkeep
  refine ⟨_, ys, hrep', fun x hx => ?_⟩
  rw [List.mem_append, List.mem_cons] at hx
  obtain hx | rfl | hx := hx
  · exact hxs x (List.mem_append_left _ hx)
  · exact hP.kept e v (hxs (a, e) (List.mem_append_right _ (List.mem_cons_self ..)))
  · exact hxs x (List.mem_append_right _ (List.mem_cons_of_mem _ hx))

theorem Each.C_get (hP : Usual P) (h : Each P s) {r : RSession} {key : CString}
    {use_sfs rm : Bool} {res : Option SEXP} (hget : C_get r key use_sfs rm s = some (res, s')) :
    Each P s' := by
  simp only [Obj.C_get, Option.bind_eq_bind, Option.bind_eq_some_iff] at hget
  obtain ⟨⟨o, s₁⟩, hobj, hget⟩ := hget
  obtain ⟨h₁, -⟩ := h.obj_get hobj
  cases o with
  | none =>
    obtain rfl := (Prod.mk.inj (Option.some.inj hget)).2
    exact h₁
  | some a =>
    obtain ⟨cell, hload, hget⟩ := Option.bind_eq_some_iff.mp hget
    split at hget
    · obtain rfl := (Prod.mk.inj (Option.some.inj hget)).2
      exact h₁
    · obtain ⟨value, -, hget⟩ := Option.bind_eq_some_iff.mp hget
      split at hget
      · obtain rfl := (Prod.mk.inj (Option.some.inj hget)).2
        exact h₁
      · split at hget
        · obtain rfl := (Prod.mk.inj (Option.some.inj hget)).2
          exact h₁
        · next hrm =>
          -- the entry stays in the store and gets the value
          obtain ⟨s₂, hkeep, hget⟩ := Option.bind_eq_some_iff.mp hget
          obtain rfl := (Prod.mk.inj (Option.some.inj hget)).2
          rw [Bool.not_eq_true] at hrm
          subst hrm
          obtain ⟨xs, ys, hrep, hxs⟩ := h
          rw [hrep.obj_get_find] at hobj
          obtain ⟨ha, rfl⟩ := Prod.mk.inj (Option.some.inj hobj)
          obtain ⟨pre, e, post, next, hsplit, -, hcell⟩ := hrep.exists_found ha
          obtain rfl : cell = ⟨e, next⟩ := Option.some.inj (hload.symm.trans hcell)
          exact Each.keep hP hrep hxs hsplit hcell hkeep

/-- No step of a TCP request takes it away. -/
theorem keeps_each (hP : Usual P) (send : SendFn) : Tcp.Keeps send fun w => Each P w.store where
  sent _ _ h := h
  stored _ _ h := h
  got _ _ _ _ _ h hget := (h.obj_get hget).1
  added _ _ _ h := h.obj_add (hP.bytes _ _ _)
  input _ _ h := h
  mallocs _ _ h := h

end Step

/-! ### The HTTP handler -/

section Handler

variable {P : ObjEntry → Prop} {send : SendFn} {malloc : Malloc} {garbage : ℕ → Option Garbage}
  {w : Server}

theorem each_sendObject (obj : Option (List UInt8)) (len : ℕ) (h : Each P w.store) :
    Each P (sendObject send obj len w).store := by
  unfold sendObject
  split
  · exact h
  · split
    · exact h
    · split <;> exact h

theorem each_getData (get : Bool) (attr : Attr) (key : CString) (h : Each P w.store) :
    Each P (getData send garbage get attr key w).store := by
  rw [getData]
  split
  · exact h
  · next store hget => exact (h.obj_get hget).1
  · next a store hget =>
    have hstore := (h.obj_get hget).1
    split
    · exact hstore
    · split
      · exact hstore
      · dsimp only
        split
        · exact each_sendObject _ _ hstore
        · exact hstore

theorem each_deleteData (attr : Attr) (key : CString) (h : Each P w.store) :
    Each P (deleteData send attr key w).store := by
  rw [deleteData]
  split
  · exact h
  · next o store hget =>
    dsimp only
    split <;> exact (h.obj_get hget).1

theorem store_pushWork (req : HttpRequest) :
    (pushWork send malloc req w).2.store = w.store := by
  rw [pushWork]
  split
  · rfl
  · split
    · rfl
    · split
      · rfl
      · dsimp only
        split <;> rfl

theorem store_otherRequest (path : CString) (req : HttpRequest) :
    (otherRequest send malloc path req w).2.store = w.store := by
  rw [otherRequest]
  split
  · split
    · exact store_pushWork req
    · rfl
  · rfl

/-- **The handler** adds an entry only for a `PUT` of an object. -/
theorem each_http_process (h : Each P w.store) (req : HttpRequest)
    (hput : PutsObject req → ∀ key, P (putEntry req key)) :
    Each P (http_process send malloc garbage req w).2.2.store := by
  rw [http_process]
  split
  · exact h
  · next path hpath =>
    split
    · next hunder =>
      dsimp only [dataRequest]
      split
      · exact each_getData _ _ _ h
      · exact each_getData _ _ _ h
      · exact each_deleteData _ _ h
      · next hmethod => exact h.obj_add (hput ⟨hmethod, path, hpath, hunder⟩ _)
      · rw [store_otherRequest]
        exact h
    · rw [store_otherRequest]
      exact h

end Handler

/-! ### Runs -/

section Runs

variable {P : ObjEntry → Prop} {s s' : Objects}

/-- **A step keeps it** if what it puts into the store for HTTP has it. -/
theorem Each.step (hP : Usual P) (h : Each P s) {op : Op}
    (hop : ∀ c, op = .http c → PutsObject c.req → ∀ key, P (putEntry c.req key))
    (hstep : step s op = some s') : Each P s' := by
  cases op with
  | put key sWhat use_sfs =>
    obtain rfl := Option.some.inj hstep
    exact h.C_put hP key sWhat use_sfs
  | get r key use_sfs rm =>
    obtain ⟨⟨res, s₁⟩, hget, rfl⟩ := Option.map_eq_some_iff.mp hstep
    exact h.C_get hP hget
  | clean => exact h.obj_gc hstep
  | tcp t =>
    obtain ⟨⟨buf', flow, w'⟩, hrequest, rfl⟩ := Option.map_eq_some_iff.mp hstep
    exact (keeps_each hP t.send).request (w := t.world s) h hrequest
  | http c =>
    rw [Fronts.step] at hstep
    split at hstep
    · cases hstep
    · obtain rfl := Option.some.inj hstep
      exact each_http_process (w := c.world s) h c.req (hop c rfl)

/-- **And so does a run.** -/
theorem Each.run (hP : Usual P) {ops : List Op}
    (hops : ∀ c, .http c ∈ ops → PutsObject c.req → ∀ key, P (putEntry c.req key))
    (hrun : run ops = some s) : Each P s := by
  have hrun' : Run.run Fronts.step Store.init ops = some s := hrun
  refine Run.induction (P := fun l s =>
    (∀ c, .http c ∈ l → PutsObject c.req → ∀ key, P (putEntry c.req key)) → Each P s)
    (fun _ => Each.init) (fun l s op s' ih hstep hl => ?_) hrun' hops
  refine (ih fun c hc => hl c (List.mem_append_left _ hc)).step hP (fun c hc => ?_) hstep
  exact hl c (List.mem_append_right _ (List.mem_singleton.mpr hc.symm))

end Runs

end Fronts
end Osrv
