import Osrv.Fronts.Servable
import Osrv.Obj.Cells
import Osrv.Obj.Preserved

/-!
# Clients at the same time

A `GET` is not one step. The entry is looked up under `obj_mutex`, and read and sent after
the lock is released; `C_get` makes a value of its entry and keeps it there after the lock is
released as well. Meanwhile other workers add and remove entries.

Below, any number of workers answer clients of the TCP and of the HTTP server while R calls
its functions, step by step. `gets_linearize` says that the replies and the results of R are
those of another server, in which each of these functions is performed as a whole at the
moment of its lookup: nobody sees an entry half of the one moment and half of a later one.
-/

namespace Osrv
namespace Fronts

open Bytes Heap Net Obj Sfs Http

/-! ### The two halves of a `GET` -/

/-- What a worker has of its own: its connection, the calls of the allocator, whether it has
made an access that the memory does not allow, and how its last request has ended. -/
structure Worker where
  conn : Conn
  allocs : ℕ
  fault : Bool
  flow : Tcp.Flow

/-- The requests that read an entry: `GET` of the TCP server, and `GET` and `HEAD` of the HTTP
server. -/
inductive Query
  | tcp (key : CString)
  | http (get : Bool) (attr : Attr) (key : CString)

def Query.key : Query → CString
  | .tcp key => key
  | .http _ _ key => key

/-- The worker as the world of a round of `do_process`. -/
def Worker.world (l : Worker) (s : Objects) : Tcp.World := ⟨⟨[], .closed⟩, l.conn, s, l.allocs⟩

/-- The worker as what the HTTP handler acts on. -/
def Worker.server (l : Worker) (s : Objects) : Server := ⟨l.conn, s, none, l.allocs, l.fault⟩

/-- The worker behind a call of the handler. -/
def Worker.after (l : Worker) (w : Server) : Worker :=
  { l with conn := w.conn, allocs := w.allocs, fault := w.fault }

variable (send : SendFn) (garbage : ℕ → Option Garbage)

/-- A request as a whole. -/
def Query.whole (q : Query) (l : Worker) (s : Objects) : Option Worker :=
  match q with
  | .tcp key => (Tcp.get send false key (l.world s)).map fun r =>
      { l with conn := r.2.conn, flow := r.1 }
  | .http get attr key => some (l.after (getData send garbage get attr key (l.server s)))

/-- What `do_process` sends of an entry. -/
def sendEntry (e : ObjEntry) (c : Conn) : Option (Tcp.Flow × Conn) :=
  match e.obj with
  | none =>
    let (res, c) := sendAll send Tcp.MAX_SEND c (ascii "OK ?\n")
    if res ≠ 0 then some (.leave, c)
    else do
      let sWhat ← e.sWhat
      match Tcp.fd_store send c sWhat with
      | .ok c => some (.leave, c)
      | .error c => some (.jumped, c)
  | some obj =>
    let (res, c) := sendAll send Tcp.MAX_SEND c (ascii "OK " ++ decimal e.len ++ [10])
    if res ≠ 0 then some (.leave, c)
    else if obj.length < e.len then none
    else
      let (res, c) := sendAll send Tcp.MAX_SEND c (obj.take e.len)
      some (if res ≠ 0 then .leave else .again, c)

/-- What it sends if there is none. -/
def sendMissing (c : Conn) : Tcp.Flow × Conn :=
  let (res, c) := sendAll send Tcp.MAX_SEND c Tcp.NF
  (if res ≠ 0 then .leave else .again, c)

/-- What `http_process` sends of an entry. -/
def respondEntry (get : Bool) (attr : Attr) (e : ObjEntry) (w : Server) : Server :=
  match get, e.obj, e.sWhat with
  | true, none, some sWhat =>
    streamObject send garbage sWhat
      (http_response send attr 200 (ascii "OK") octetStream (-1) transferEncoding w)
  | get, obj, _ =>
    let len := if obj.isSome then e.len else toObjLen (-1)
    let w := http_response send attr 200 (ascii "OK") octetStream (toInt len) [] w
    if get then sendObject send obj e.len w else w

/-- What a worker does with the entry it has found, or without one. -/
def Query.answer (q : Query) (l : Worker) (e : Option ObjEntry) : Option Worker :=
  match q with
  | .tcp _ =>
    let sent := match e with
      | none => some (sendMissing send l.conn)
      | some e => sendEntry send e l.conn
    sent.map fun r => { l with conn := r.2, flow := r.1 }
  | .http get attr _ =>
    -- the store has no part in what is sent
    some (l.after (match e with
      | none => statusOnly send attr 404 (ascii "Object Not Found") (l.server .init)
      | some e => respondEntry send garbage get attr e (l.server .init)))

/-- **The second half of a request**: the worker reads the entry through the pointer it has. -/
def Query.rest (q : Query) (o : Ptr) (l : Worker) (s : Objects) : Option Worker :=
  match o with
  | none => q.answer send garbage l none
  | some a => (s.heap.load a).bind fun cell => q.answer send garbage l (some cell.val)

variable {send garbage}

/-- `GET` of the TCP server. -/
theorem get_split {key : CString} {l : Worker} {s : Objects} {a : Addr}
    (hget : obj_get key false s = some (some a, s)) :
    (Tcp.get send false key (l.world s)).map (fun r => (r.1, r.2.conn))
      = (s.heap.load a).bind fun cell => sendEntry send cell.val l.conn := by
  have hkey : obj_get key false (l.world s).store = some (some a, s) := hget
  have hsent : ∀ line, ∃ res c, sendAll send Tcp.MAX_SEND l.conn line = (res, c) ∧
      Tcp.send_buf send (l.world s) line = (res, { l.world s with conn := c }) :=
    fun line => ⟨_, _, rfl, rfl⟩
  simp only [Tcp.get, hkey, Option.bind_eq_bind, Option.bind_some, Bool.false_eq_true, if_false]
  cases s.heap.load a with
  | none => rfl
  | some cell =>
    simp only [Option.bind_some, sendEntry]
    cases cell.val.obj with
    | none =>
      obtain ⟨res, c, hall, hbuf⟩ := hsent (ascii "OK ?\n")
      have hbuf' : Tcp.send_buf send { l.world s with store := s } (ascii "OK ?\n") = _ := hbuf
      simp only [hall, hbuf']
      by_cases hres : res ≠ 0
      · simp only [if_pos hres]
        rfl
      · simp only [if_neg hres]
        cases cell.val.sWhat with
        | none => rfl
        | some v =>
          simp only [Option.bind_eq_bind, Option.bind_some]
          cases Tcp.fd_store send c v <;> rfl
    | some obj =>
      obtain ⟨res, c, hall, hbuf⟩ := hsent (ascii "OK " ++ decimal cell.val.len ++ [10])
      have hbuf' : Tcp.send_buf send { l.world s with store := s }
        (ascii "OK " ++ decimal cell.val.len ++ [10]) = _ := hbuf
      simp only [hall, hbuf']
      by_cases hres : res ≠ 0
      · simp only [if_pos hres]
        rfl
      · simp only [if_neg hres]
        by_cases hlen : obj.length < cell.val.len
        · simp only [if_pos hlen]
          rfl
        · simp only [if_neg hlen]
          rfl

/-- The store has no part in what the HTTP server sends of an entry. -/
theorem after_respondEntry (get : Bool) (attr : Attr) (e : ObjEntry) (l : Worker)
    (s s' : Objects) : l.after (respondEntry send garbage get attr e (l.server s))
      = l.after (respondEntry send garbage get attr e (l.server s')) := by
  simp only [respondEntry, sendObject, streamObject, http_response, Worker.server, Server.crash]
  split
  · rfl
  · split
    · split
      · rfl
      · split
        · rfl
        · split <;> rfl
    · rfl

/-- **A request is its lookup and its second half.** -/
theorem Query.whole_eq {q : Query} {l : Worker} {s : Objects} {o : Ptr}
    (hget : obj_get q.key false s = some (o, s)) (ho : ∀ a, o = some a → s.heap.load a ≠ none) :
    q.whole send garbage l s = q.rest send garbage o l s := by
  cases q with
  | tcp key =>
    cases o with
    | none =>
      have hkey : obj_get key false (l.world s).store = some (none, s) := hget
      simp only [Query.whole, Tcp.get, hkey, Option.bind_eq_bind, Option.bind_some]
      rfl
    | some a =>
      have hsplit := congrArg (Option.map fun r : Tcp.Flow × Conn =>
        { l with conn := r.2, flow := r.1 }) (@get_split send key l s a hget)
      rw [Option.map_map, Option.map_bind] at hsplit
      exact hsplit
  | http get attr key =>
    have hkey : obj_get key false (l.server s).store = some (o, s) := hget
    cases o with
    | none =>
      simp only [Query.whole, getData, hkey]
      rfl
    | some a =>
      cases hload : s.heap.load a with
      | none => exact absurd hload (ho a rfl)
      | some cell =>
        simp only [Query.whole, getData, hkey, hload, Query.rest, Option.bind_some, Query.answer]
        exact congrArg some (after_respondEntry get attr cell.val l s .init)

/-- A value that is kept in an entry with bytes changes nothing of what is sent of it. -/
theorem Query.answer_kept (q : Query) (l : Worker) {e : ObjEntry} (hobj : e.obj ≠ none)
    (v : SEXP) : q.answer send garbage l (some { e with sWhat := some v })
      = q.answer send garbage l (some e) := by
  obtain ⟨bytes, hbytes⟩ := Option.ne_none_iff_exists'.mp hobj
  cases q with
  | tcp key => simp only [Query.answer, sendEntry, hbytes]
  | http get attr key =>
    have hrespond : ∀ w, respondEntry send garbage get attr { e with sWhat := some v } w
        = respondEntry send garbage get attr e w := by
      intro w
      unfold respondEntry
      simp only [hbytes]
    simp only [Query.answer, hrespond]

/-! ### The system -/

/-- What is put into the store: bytes, from R with the vector that holds them, or a value. -/
inductive Content
  | bytes (bs : List UInt8) (sWhat : Option SEXP)
  | value (v : SEXP)

/-- The entry that is made of it. -/
def Content.entry (key : CString) : Content → ObjEntry
  | .bytes bs sWhat => ⟨bs.length, some bs, sWhat, key⟩
  | .value v => ⟨0, none, some v, key⟩

theorem Content.servable (c : Content) (key : CString) : ServableEntry (c.entry key) := by
  cases c with
  | bytes bs sWhat => exact Or.inl ⟨bs, rfl, rfl⟩
  | value v => exact Or.inr (Option.some_ne_none v)

/-- A call of `C_get` behind its lookup, and the result that it would have had as a whole. -/
structure Reading where
  session : RSession
  use_sfs : Bool
  rm : Bool
  o : Ptr
  early : Option (Option SEXP)

/-- The store, the entries that have been removed so far, the workers, each with the request it
is about to answer and the answer it would have given as a whole, and the R thread with the
results of `C_get` so far. -/
structure Clients (W : Type) where
  store : Objects
  removed : List Addr
  worker : W → Worker
  held : W → Option (Query × Ptr × Option Worker)
  reading : Option Reading
  results : List (Option SEXP)

/-- The steps: critical sections of `obj_mutex`, and what follows them without a lock. -/
inductive ClientAct (W : Type)
  | lookup (w : W) (q : Query)
  /-- A worker sends what it has found. -/
  | respond (w : W)
  /-- R or a worker adds an entry. -/
  | add (key : CString) (c : Content)
  /-- A worker removes an entry. -/
  | remove (key : CString)
  /-- `C_get` looks an entry up, or removes it. -/
  | read (r : RSession) (key : CString) (use_sfs rm : Bool)
  /-- The rest of `C_get`. -/
  | finish
  /-- `C_clean` -/
  | clean

variable {W : Type} [DecidableEq W] (kernel : W → SendFn) (garbage : ℕ → Option Garbage)

/-- Performs a step. With `late` a worker answers from the entry as it is by now, and so does
R; without, both answer what they would have answered at the lookup. -/
def Clients.step (late : Bool) (s : Clients W) : ClientAct W → Option (Clients W)
  | .lookup w q =>
    match s.held w, (s.worker w).flow with
    | none, .again => do
      let (o, store) ← obj_get q.key false s.store
      let early := q.whole (kernel w) garbage (s.worker w) s.store
      pure { s with store := store, held := Function.update s.held w (some (q, o, early)) }
    | _, _ => none
  | .respond w => do
    let (q, o, early) ← s.held w
    let l ← if late then q.rest (kernel w) garbage o (s.worker w) s.store else early
    pure { s with
      worker := Function.update s.worker w l
      held := Function.update s.held w none }
  | .add key c =>
    let e := c.entry key
    some { s with store := obj_add key e.sWhat e.obj e.len s.store }
  | .remove key => do
    let (o, store) ← obj_get key true s.store
    pure { s with store := store, removed := o.toList ++ s.removed }
  | .read r key use_sfs rm =>
    match s.reading with
    | none => do
      let (o, store) ← obj_get key rm s.store
      let early := (C_get r key use_sfs rm s.store).map Prod.fst
      pure { s with
        store := store
        removed := if rm then o.toList ++ s.removed else s.removed
        reading := some ⟨r, use_sfs, rm, o, early⟩ }
    | some _ => none
  | .finish => do
    let g ← s.reading
    let (result, store) ← finishGet valueObjects g.session id g.o g.use_sfs g.rm s.store
    let result ← if late then some result else g.early
    pure { s with store := store, reading := none, results := s.results ++ [result] }
  | .clean =>
    match s.reading with
    | none => do
      let store ← obj_gc s.store
      pure { s with store := store }
    | some _ => none

/-- The system at the start, with the workers as they are. -/
def Clients.init (worker : W → Worker) : Clients W :=
  ⟨.init, [], worker, fun _ => none, none, []⟩

/-- Some worker is about to send an entry that has been removed. -/
def Clients.HoldsRemoved (s : Clients W) : Prop :=
  ∃ w q a early, s.held w = some (q, some a, early) ∧ a ∈ s.removed

/-- `C_clean` is not called while a worker is about to send an entry that has been removed. -/
def Clients.Collects (s : Clients W) (act : ClientAct W) : Prop :=
  act = .clean → ¬ s.HoldsRemoved

/-! ### What a pointer leads to -/

/-- What is found through a pointer, if there is one, satisfies `P`. -/
def Finds (s : Objects) (o : Ptr) (P : Option ObjEntry → Prop) : Prop :=
  match o with
  | none => P none
  | some a => ∃ e, s.entryAt a = some e ∧ P (some e)

section Finds

variable {s s' : Objects} {o : Ptr} {P : Option ObjEntry → Prop}
  {xs ys : Entries (Option (List UInt8)) SEXP}

theorem Finds.of_entries (h : Finds s o P)
    (hframe : ∀ a e, o = some a → s.entryAt a = some e → P (some e) →
      ∃ e', s'.entryAt a = some e' ∧ P (some e')) : Finds s' o P := by
  cases o with
  | none => exact h
  | some a =>
    obtain ⟨e, he, hP⟩ := h
    exact hframe a e rfl he hP

theorem Finds.of_eq (h : Finds s o P) (heq : s'.entryAt = s.entryAt) : Finds s' o P :=
  h.of_entries fun _ e _ he hP => ⟨e, by rw [heq, he], hP⟩

theorem exists_load {a : Addr} {e : ObjEntry} (h : s.entryAt a = some e) :
    ∃ next, s.heap.cells a = some ⟨e, next⟩ := by
  obtain ⟨⟨e', next⟩, hcell, rfl⟩ := Option.map_eq_some_iff.mp h
  exact ⟨next, hcell⟩

/-- Looking up and removing leave the entries where they are. -/
theorem entries_obj_get (h : Rep s xs ys) {key : CString} {rm : Bool}
    (hget : obj_get key rm s = some (o, s')) :
    s'.entryAt = s.entryAt ∧ (∀ a, o = some a → ∃ e, s.entryAt a = some e) ∧
      ∃ xs' ys', Rep s' xs' ys' ∧ ∀ a ∈ addrs ys', a ∈ addrs ys ∨ (rm = true ∧ o = some a) := by
  have hfound : ∀ a, (xs.find? (hasKey key)).map Prod.fst = some a →
      ∃ e, s.entryAt a = some e := by
    intro a ha
    obtain ⟨x, hx, rfl⟩ := Option.map_eq_some_iff.mp ha
    exact ⟨x.2, h.entryAt_eq_some_iff.mpr
      (List.mem_append_left _ (List.mem_of_find?_eq_some hx))⟩
  cases rm with
  | false =>
    obtain ⟨rfl, rfl⟩ := Prod.mk.inj (Option.some.inj ((h.obj_get_find key).symm.trans hget))
    exact ⟨rfl, hfound, xs, ys, h, fun a ha => Or.inl ha⟩
  | true =>
    obtain ⟨store, hremove, hrep, -⟩ := h.obj_get_remove key
    obtain ⟨rfl, rfl⟩ := Prod.mk.inj (Option.some.inj (hremove.symm.trans hget))
    refine ⟨h.entryAt_remove hrep, hfound, _, _, hrep, fun a ha => ?_⟩
    obtain ⟨x, hx, rfl⟩ := List.mem_map.mp ha
    obtain hx | hx := List.mem_append.mp hx
    · exact Or.inr ⟨rfl, by rw [Option.mem_toList.mp hx]; rfl⟩
    · exact Or.inl (List.mem_map_of_mem hx)

end Finds

/-! ### The rest of `C_get` -/

/-- What `C_get` makes of an entry. -/
def resultOf (r : RSession) (use_sfs : Bool) (e : Option ObjEntry) : Option (Option SEXP) :=
  match e with
  | none => some (some .NULL)
  | some e =>
    match e.sWhat with
    | some v => some (some v)
    | none => materialise r use_sfs e.len e.obj

section Finish

variable {s s' : Objects} {r : RSession} {use_sfs rm : Bool} {o : Ptr} {a : Addr} {e : ObjEntry}
  {xs ys : Entries (Option (List UInt8)) SEXP}

/-- The result depends on the entry alone. -/
theorem finishGet_result (h : s.entryAt a = some e) :
    (finishGet valueObjects r id (some a) use_sfs rm s).map Prod.fst
      = resultOf r use_sfs (some e) := by
  obtain ⟨next, hcell⟩ := exists_load h
  have hload : s.heap.load a = some ⟨e, next⟩ := hcell
  simp only [finishGet, hload, resultOf, Option.bind_eq_bind, Option.bind_some]
  cases e.sWhat with
  | some v => rfl
  | none =>
    cases materialise r use_sfs e.len e.obj with
    | none => rfl
    | some result =>
      cases result with
      | none => rfl
      | some v =>
        cases rm with
        | true => rfl
        | false =>
          obtain ⟨heap, hwrite, -⟩ := write_eq hcell
            (⟨{ e with sWhat := some v }, next⟩ : Cell ObjEntry)
          simp only [Option.bind_some, Bool.false_eq_true, if_false, id_eq, hwrite]
          rfl

/-- Of the entries it changes at most the one it has found, which gets a value if it had none. -/
theorem entries_finishGet (h : Rep s xs ys) (he : s.entryAt a = some e) {result : Option SEXP}
    (hfin : finishGet valueObjects r id (some a) use_sfs rm s = some (result, s')) :
    (∃ xs' ys', Rep s' xs' ys' ∧ addrs ys' = addrs ys) ∧
      (s'.entryAt = s.entryAt ∨ e.sWhat = none ∧ ∃ v,
        s'.entryAt = Function.update s.entryAt a (some { e with sWhat := some v })) := by
  obtain ⟨next, hcell⟩ := exists_load he
  have hload : s.heap.load a = some ⟨e, next⟩ := hcell
  simp only [finishGet, hload, Option.bind_eq_bind, Option.bind_some] at hfin
  cases hwhat : e.sWhat with
  | some v =>
    simp only [hwhat] at hfin
    obtain ⟨-, rfl⟩ := Prod.mk.inj (Option.some.inj hfin)
    exact ⟨⟨xs, ys, h, rfl⟩, Or.inl rfl⟩
  | none =>
    simp only [hwhat] at hfin
    obtain ⟨made, -, hfin⟩ := Option.bind_eq_some_iff.mp hfin
    cases made with
    | none =>
      obtain ⟨-, rfl⟩ := Prod.mk.inj (Option.some.inj hfin)
      exact ⟨⟨xs, ys, h, rfl⟩, Or.inl rfl⟩
    | some v =>
      cases rm with
      | true =>
        obtain ⟨-, rfl⟩ := Prod.mk.inj (Option.some.inj hfin)
        exact ⟨⟨xs, ys, h, rfl⟩, Or.inl rfl⟩
      -- the value is kept in the entry
      | false =>
        obtain ⟨heap, hwrite, hrep⟩ := h.overwrite hcell { e with sWhat := some v }
        obtain ⟨heap', hwrite', hcells, -⟩ := write_eq hcell
          (⟨{ e with sWhat := some v }, next⟩ : Cell ObjEntry)
        obtain rfl : heap = heap' := Option.some.inj (hwrite.symm.trans hwrite')
        simp only [Bool.false_eq_true, if_false, id_eq, hwrite, Option.bind_some] at hfin
        obtain ⟨-, rfl⟩ := Prod.mk.inj (Option.some.inj hfin)
        refine ⟨⟨_, _, hrep _, addrs_overwriteAt a _ ys⟩, Or.inr ⟨rfl, v, ?_⟩⟩
        funext b
        by_cases hb : b = a
        · subst hb
          rw [Function.update_self]
          show (heap.cells b).map Cell.val = _
          rw [hcells, Function.update_self]
          rfl
        · rw [Function.update_of_ne hb]
          show (heap.cells b).map Cell.val = _
          rw [hcells, Function.update_of_ne hb]
          rfl

end Finish

/-! ### The invariant -/

/-- **The invariant of the system.** A worker finds through its pointer an entry of which it
would send what it would have sent at the lookup, and so does R. -/
structure ClientsInv (s : Clients W) (xs ys : Entries (Option (List UInt8)) SEXP) : Prop where
  rep : Rep s.store xs ys
  /-- What is in the pool has been removed. -/
  pool : ∀ a ∈ addrs ys, a ∈ s.removed
  servable : ∀ a e, s.store.entryAt a = some e → ServableEntry e
  held : ∀ w q o early, s.held w = some (q, o, early) →
    Finds s.store o fun e => q.answer (kernel w) garbage (s.worker w) e = early
  reading : ∀ g, s.reading = some g →
    Finds s.store g.o fun e => resultOf g.session g.use_sfs e = g.early

variable {kernel garbage} {s s' : Clients W} {xs ys : Entries (Option (List UInt8)) SEXP}

omit [DecidableEq W] in
theorem ClientsInv.init (worker : W → Worker) :
    ClientsInv kernel garbage (Clients.init worker) [] [] where
  rep := Rep.init
  pool a ha := absurd ha List.not_mem_nil
  servable a e he := by cases he
  held w q o early hheld := by cases hheld
  reading g hg := by cases hg

/-- What a worker sends of the entry that it finds. -/
theorem rest_eq {send : SendFn} {q : Query} {o : Ptr} {l : Worker} {store : Objects}
    {answer : Option Worker} (h : Finds store o fun e => q.answer send garbage l e = answer) :
    q.rest send garbage o l store = answer := by
  cases o with
  | none => exact h
  | some a =>
    obtain ⟨e, he, hanswer⟩ := h
    obtain ⟨next, hcell⟩ := exists_load he
    have hload : store.heap.load a = some ⟨e, next⟩ := hcell
    simp only [Query.rest, hload, Option.bind_some]
    exact hanswer

/-- A worker that looks an entry up finds it, and sends of it what it sends as a whole. -/
theorem finds_lookup {send : SendFn} {q : Query} {o : Ptr} {l : Worker} {store store' : Objects}
    (hrep : Rep store xs ys) (hget : obj_get q.key false store = some (o, store')) :
    store' = store ∧
      Finds store o fun e => q.answer send garbage l e = q.whole send garbage l store := by
  obtain rfl : store' = store :=
    (Prod.mk.inj (Option.some.inj ((hrep.obj_get_find q.key).symm.trans hget))).2.symm
  obtain ⟨-, hfound, -⟩ := entries_obj_get hrep hget
  refine ⟨rfl, ?_⟩
  have hwhole : q.whole send garbage l store' = q.rest send garbage o l store' := by
    refine Query.whole_eq hget fun a ha hnone => ?_
    obtain ⟨e, he⟩ := hfound a ha
    obtain ⟨next, hcell⟩ := exists_load he
    exact absurd (hcell.symm.trans hnone) (Option.some_ne_none _)
  rw [hwhole]
  cases o with
  | none => rfl
  | some a =>
    obtain ⟨e, he⟩ := hfound a rfl
    obtain ⟨next, hcell⟩ := exists_load he
    have hload : store'.heap.load a = some ⟨e, next⟩ := hcell
    refine ⟨e, he, ?_⟩
    simp only [Query.rest, hload, Option.bind_some]

/-- `C_get` finds an entry, and makes of it what it makes as a whole. -/
theorem finds_read {r : RSession} {key : CString} {use_sfs rm : Bool} {o : Ptr}
    {store store' : Objects} (hrep : Rep store xs ys)
    (hget : obj_get key rm store = some (o, store')) :
    Finds store' o fun e =>
      resultOf r use_sfs e = (C_get r key use_sfs rm store).map Prod.fst := by
  obtain ⟨hsame, hfound, -⟩ := entries_obj_get hrep hget
  rw [C_get_eq, hget, Option.bind_some]
  cases o with
  | none => rfl
  | some a =>
    obtain ⟨e, he⟩ := hfound a rfl
    have he' : store'.entryAt a = some e := by rw [hsame, he]
    exact ⟨e, he', (finishGet_result he').symm⟩

/-- **The two servers perform a step alike.** -/
theorem ClientsInv.same (h : ClientsInv kernel garbage s xs ys) (act : ClientAct W) :
    s.step kernel garbage true act = s.step kernel garbage false act := by
  cases act with
  | respond w =>
    simp only [Clients.step]
    cases hheld : s.held w with
    | none => rfl
    | some found =>
      obtain ⟨q, o, early⟩ := found
      have hrest := rest_eq (h.held w q o early hheld)
      simp only [Option.bind_eq_bind, Option.bind_some, if_true, Bool.false_eq_true, if_false,
        hrest]
  | finish =>
    simp only [Clients.step]
    cases hreading : s.reading with
    | none => rfl
    | some g =>
      have hfinds := h.reading g hreading
      simp only [Option.bind_eq_bind, Option.bind_some, if_true, Bool.false_eq_true, if_false]
      cases hfin : finishGet valueObjects g.session id g.o g.use_sfs g.rm s.store with
      | none => rfl
      | some result =>
        -- the result is that of the entry, which is the one at the lookup
        have hearly : g.early = some result.1 := by
          cases ho : g.o with
          | none =>
            rw [ho] at hfin hfinds
            obtain rfl := Option.some.inj hfin
            exact hfinds.symm
          | some a =>
            rw [ho] at hfin hfinds
            obtain ⟨e, he, hresult⟩ := hfinds
            rw [← hresult, ← finishGet_result he, hfin]
            rfl
        simp only [Option.bind_some, hearly]
  | _ => rfl

omit [DecidableEq W] in
/-- What the other steps leave to a worker. -/
theorem ClientsInv.of_entries (h : ClientsInv kernel garbage s xs ys) {store : Objects}
    (hframe : ∀ a e, (∃ w q early, s.held w = some (q, some a, early)) →
      s.store.entryAt a = some e → ∃ e', store.entryAt a = some e' ∧
        (e' = e ∨ e.sWhat = none ∧ ∃ v, e' = { e with sWhat := some v }))
    {w : W} {q : Query} {o : Ptr} {early : Option Worker} (hheld : s.held w = some (q, o, early)) :
    Finds store o fun e => q.answer (kernel w) garbage (s.worker w) e = early := by
  refine (h.held w q o early hheld).of_entries fun a e ha he hanswer => ?_
  obtain ⟨e', he', hsame⟩ := hframe a e ⟨w, q, early, ha ▸ hheld⟩ he
  refine ⟨e', he', ?_⟩
  obtain rfl | ⟨hnone, v, rfl⟩ := hsame
  · exact hanswer
  -- an entry without a value has bytes
  · have hobj : e.obj ≠ none := fun hobj => by
      obtain ⟨v', hv'⟩ := (h.servable a e he).value hobj
      rw [hnone] at hv'
      cases hv'
    exact (q.answer_kept _ hobj v).trans hanswer

/-- A worker looks an entry up. -/
theorem ClientsInv.lookup (h : ClientsInv kernel garbage s xs ys) {w : W} {q : Query} {o : Ptr}
    {store : Objects} (hget : obj_get q.key false s.store = some (o, store)) :
    ClientsInv kernel garbage
      { s with
        store := store
        held := Function.update s.held w
          (some (q, o, q.whole (kernel w) garbage (s.worker w) s.store)) } xs ys := by
  obtain ⟨rfl, hfinds⟩ := @finds_lookup garbage xs ys (kernel w) q o (s.worker w) _ _ h.rep hget
  refine ⟨h.rep, h.pool, h.servable, fun v q' o' early hheld => ?_, h.reading⟩
  by_cases hv : v = w
  · subst hv
    change Function.update s.held v _ v = _ at hheld
    rw [Function.update_self] at hheld
    cases hheld
    exact hfinds
  · change Function.update s.held w _ v = _ at hheld
    rw [Function.update_of_ne hv] at hheld
    exact h.held v q' o' early hheld

/-- A worker has answered, and holds nothing any more. -/
theorem ClientsInv.respond (h : ClientsInv kernel garbage s xs ys) (w : W) (l : Worker) :
    ClientsInv kernel garbage
      { s with worker := Function.update s.worker w l, held := Function.update s.held w none }
      xs ys := by
  refine ⟨h.rep, h.pool, h.servable, fun v q o early hheld => ?_, h.reading⟩
  by_cases hv : v = w
  · subst hv
    change Function.update s.held v none v = _ at hheld
    rw [Function.update_self] at hheld
    cases hheld
  · change Function.update s.held w none v = _ at hheld
    rw [Function.update_of_ne hv] at hheld
    show Finds s.store o fun e =>
      q.answer (kernel v) garbage (Function.update s.worker w l v) e = early
    rw [Function.update_of_ne hv]
    exact h.held v q o early hheld

omit [DecidableEq W] in
/-- An entry is added, at an address that nobody holds. -/
theorem ClientsInv.add (h : ClientsInv kernel garbage s xs ys) {key : CString} {e : ObjEntry}
    (he : e.key = key) (hservable : ServableEntry e) :
    ∃ xs', ClientsInv kernel garbage
      { s with store := obj_add key e.sWhat e.obj e.len s.store } xs' ys := by
  subst he
  have hentries := entryAt_obj_add e.key e.sWhat e.obj e.len s.store
  have hstays : ∀ a e', s.store.entryAt a = some e' →
      (obj_add e.key e.sWhat e.obj e.len s.store).entryAt a = some e' := by
    intro a e' he'
    rw [hentries, Function.update_of_ne, he']
    rintro rfl
    rw [entryAt_top] at he'
    cases he'
  refine ⟨_, h.rep.obj_add e.key _ _ _, h.pool, fun a e' he' => ?_,
    fun w q o early hheld => ?_, fun g hg => ?_⟩
  · change (obj_add e.key _ _ _ s.store).entryAt a = some e' at he'
    rw [hentries] at he'
    by_cases ha : a = s.store.heap.top
    · subst ha
      rw [Function.update_self] at he'
      obtain rfl := Option.some.inj he'
      exact hservable
    · rw [Function.update_of_ne ha] at he'
      exact h.servable a e' he'
  · exact h.of_entries (fun a e' _ he' => ⟨e', hstays a e' he', Or.inl rfl⟩) hheld
  · exact (h.reading g hg).of_entries fun a e' _ he' hP => ⟨e', hstays a e' he', hP⟩

omit [DecidableEq W] in
/-- An entry is looked up or removed. What is removed is written down. -/
theorem ClientsInv.obj_get (h : ClientsInv kernel garbage s xs ys) {key : CString} {rm : Bool}
    {o : Ptr} {store : Objects} (hget : Obj.obj_get key rm s.store = some (o, store))
    {removed : List Addr} (hremoved : s.removed ⊆ removed)
    (ho : rm = true → ∀ a, o = some a → a ∈ removed) {reading : Option Reading}
    (hreading : ∀ g, reading = some g →
      Finds store g.o fun e => resultOf g.session g.use_sfs e = g.early) :
    ∃ xs' ys', ClientsInv kernel garbage
      { s with store := store, removed := removed, reading := reading } xs' ys' := by
  obtain ⟨hsame, -, xs', ys', hrep, hpool⟩ := entries_obj_get h.rep hget
  refine ⟨xs', ys', hrep, fun a ha => ?_, fun a e he => ?_, fun w q o' early hheld => ?_,
    hreading⟩
  · obtain ha | ⟨hrm, hoa⟩ := hpool a ha
    · exact hremoved (h.pool a ha)
    · exact ho hrm a hoa
  · exact h.servable a e (hsame ▸ he)
  · exact (h.held w q o' early hheld).of_eq hsame

omit [DecidableEq W] in
/-- `C_get` ends. The entry it has found may have got a value. -/
theorem ClientsInv.finish (h : ClientsInv kernel garbage s xs ys) {g : Reading}
    (hg : s.reading = some g) {result : Option SEXP} {store : Objects}
    (hfin : finishGet valueObjects g.session id g.o g.use_sfs g.rm s.store
      = some (result, store)) (results : List (Option SEXP)) :
    ∃ xs' ys', ClientsInv kernel garbage
      { s with store := store, reading := none, results := results } xs' ys' := by
  have hfinds := h.reading g hg
  cases ho : g.o with
  | none =>
    rw [ho] at hfin
    obtain ⟨-, rfl⟩ := Prod.mk.inj (Option.some.inj hfin)
    exact ⟨xs, ys, h.rep, h.pool, h.servable, h.held, fun g' hg' => by cases hg'⟩
  | some a =>
    rw [ho] at hfin hfinds
    obtain ⟨e, he, -⟩ := hfinds
    obtain ⟨⟨xs', ys', hrep, haddrs⟩, hentries⟩ := entries_finishGet h.rep he hfin
    refine ⟨xs', ys', hrep, fun b hb => h.pool b (haddrs ▸ hb), fun b e' he' => ?_,
      fun w q o early hheld => ?_, fun g' hg' => by cases hg'⟩
    · change store.entryAt b = some e' at he'
      obtain hsame | ⟨hnone, v, hkept⟩ := hentries
      · exact h.servable b e' (hsame ▸ he')
      · rw [hkept] at he'
        by_cases hb : b = a
        · subst hb
          rw [Function.update_self] at he'
          obtain rfl := Option.some.inj he'
          exact Or.inr (Option.some_ne_none v)
        · rw [Function.update_of_ne hb] at he'
          exact h.servable b e' he'
    · refine h.of_entries (fun b e' _ he' => ?_) hheld
      obtain hsame | ⟨hnone, v, hkept⟩ := hentries
      · exact ⟨e', by rw [hsame, he'], Or.inl rfl⟩
      · by_cases hb : b = a
        · subst hb
          obtain rfl := Option.some.inj (he.symm.trans he')
          exact ⟨_, by rw [hkept, Function.update_self], Or.inr ⟨hnone, v, rfl⟩⟩
        · exact ⟨e', by rw [hkept, Function.update_of_ne hb, he'], Or.inl rfl⟩

omit [DecidableEq W] in
/-- The pool is emptied while nobody holds what is in it. -/
theorem ClientsInv.clean (h : ClientsInv kernel garbage s xs ys) (hidle : s.reading = none)
    (hclean : ¬ s.HoldsRemoved) {store : Objects} (hgc : obj_gc s.store = some store) :
    ClientsInv kernel garbage { s with store := store } xs [] := by
  obtain ⟨store', hgc', hrep, -⟩ := h.rep.obj_gc
  obtain rfl : store = store' := Option.some.inj (hgc.symm.trans hgc')
  have hentries := h.rep.entryAt_gc hrep
  refine ⟨hrep, fun a ha => absurd ha List.not_mem_nil, fun a e he => ?_,
    fun w q o early hheld => ?_, fun g hg => ?_⟩
  · change store.entryAt a = some e at he
    rw [hentries] at he
    split at he
    · cases he
    · exact h.servable a e he
  -- what a worker holds is not in the pool
  · refine h.of_entries (fun a e hhelds he => ⟨e, ?_, Or.inl rfl⟩) hheld
    obtain ⟨w', q', early', hheld'⟩ := hhelds
    rw [hentries, if_neg, he]
    exact fun ha => hclean ⟨w', q', a, early', hheld', h.pool a ha⟩
  · change s.reading = some g at hg
    rw [hidle] at hg
    cases hg

/-- **One step** keeps the invariant. -/
theorem ClientsInv.step (h : ClientsInv kernel garbage s xs ys) {act : ClientAct W}
    (hclean : s.Collects act) (hs : s.step kernel garbage true act = some s') :
    ∃ xs' ys', ClientsInv kernel garbage s' xs' ys' := by
  cases act with
  | lookup w q =>
    simp only [Clients.step] at hs
    split at hs
    · obtain ⟨⟨o, store⟩, hget, hs⟩ := Option.bind_eq_some_iff.mp hs
      obtain rfl := Option.some.inj hs
      exact ⟨xs, ys, h.lookup hget⟩
    · cases hs
  | respond w =>
    obtain ⟨found, -, hs⟩ := Option.bind_eq_some_iff.mp hs
    obtain ⟨l, -, hs⟩ := Option.bind_eq_some_iff.mp hs
    obtain rfl := Option.some.inj hs
    exact ⟨xs, ys, h.respond w l⟩
  | add key c =>
    obtain rfl := Option.some.inj hs
    obtain ⟨xs', h'⟩ := h.add (e := c.entry key) (by cases c <;> rfl) (c.servable key)
    exact ⟨xs', ys, h'⟩
  | remove key =>
    obtain ⟨⟨o, store⟩, hget, hs⟩ := Option.bind_eq_some_iff.mp hs
    obtain rfl := Option.some.inj hs
    obtain ⟨hsame, -⟩ := entries_obj_get h.rep hget
    refine h.obj_get hget (List.subset_append_right _ _) (fun _ a ho => ?_)
      fun g hg => (h.reading g hg).of_eq hsame
    subst ho
    exact List.mem_append_left _ (List.mem_singleton_self a)
  | read r key use_sfs rm =>
    simp only [Clients.step] at hs
    split at hs
    · obtain ⟨⟨o, store⟩, hget, hs⟩ := Option.bind_eq_some_iff.mp hs
      obtain rfl := Option.some.inj hs
      refine h.obj_get hget ?_ (fun hrm a ho => ?_) fun g hg => ?_
      · split
        · exact List.subset_append_right _ _
        · exact List.Subset.refl _
      · subst ho
        rw [if_pos hrm]
        exact List.mem_append_left _ (List.mem_singleton_self a)
      · obtain rfl := Option.some.inj hg
        exact finds_read h.rep hget
    · cases hs
  | finish =>
    obtain ⟨g, hg, hs⟩ := Option.bind_eq_some_iff.mp hs
    obtain ⟨⟨result, store⟩, hfin, hs⟩ := Option.bind_eq_some_iff.mp hs
    obtain rfl := Option.some.inj (show some { s with
      store := store, reading := none, results := s.results ++ [result] } = some s' from hs)
    exact h.finish hg hfin _
  | clean =>
    simp only [Clients.step] at hs
    split at hs
    · next hidle =>
      obtain ⟨store, hgc, hs⟩ := Option.bind_eq_some_iff.mp hs
      obtain rfl := Option.some.inj hs
      exact ⟨xs, [], h.clean hidle (hclean rfl) hgc⟩
    · cases hs

/-! ### The result -/

variable (kernel garbage) in
/-- **Lookups take effect at once.** Whatever the order of the steps, and as long as R does not
collect while a worker is about to send an entry that has been removed, all workers send what
they would have sent had their requests been performed as a whole at their lookups, and all
calls of `C_get` return what they would have returned then. -/
theorem gets_linearize (worker : W → Worker) (acts : List (ClientAct W))
    (hclean : Run.Guarded (Clients.step kernel garbage true) (Clients.init worker)
      Clients.Collects acts) :
    Run.run (Clients.step kernel garbage true) (Clients.init worker) acts
      = Run.run (Clients.step kernel garbage false) (Clients.init worker) acts :=
  Run.congr_guarded (P := fun s => ∃ xs ys, ClientsInv kernel garbage s xs ys)
    ⟨[], [], ClientsInv.init worker⟩ (fun _ _ _ ⟨_, _, h⟩ hact hs => h.step hact hs)
    (fun _ act ⟨_, _, h⟩ => h.same act) hclean

/-- The entry that is being sent is removed, and another one gets its key. -/
def overtaken : List (ClientAct Unit) :=
  [.add CString.empty (.bytes [7] none), .lookup () (.tcp CString.empty), .remove CString.empty,
    .add CString.empty (.value .NULL), .respond (), .clean]

/-- A worker that has sent nothing yet. -/
def Worker.fresh : Worker := ⟨⟨0, []⟩, 0, false, .again⟩

theorem gets_linearize_overtaken :
    Run.run (Clients.step (fun _ => .whole) (fun _ => none) true)
        (Clients.init fun _ => .fresh) overtaken
      = Run.run (Clients.step (fun _ => .whole) (fun _ => none) false)
        (Clients.init fun _ => .fresh) overtaken := by
  refine gets_linearize _ _ (fun _ => .fresh) overtaken ?_
  refine .cons nofun fun _ _ => .cons nofun fun _ _ => .cons nofun fun _ _ => .cons nofun
    fun s _ => .cons nofun fun s' hs => .cons (fun _ => ?_) fun _ _ => Run.guarded_nil _
  -- the worker has answered
  obtain ⟨found, -, hs⟩ := Option.bind_eq_some_iff.mp hs
  obtain ⟨l, -, hs⟩ := Option.bind_eq_some_iff.mp hs
  obtain rfl := Option.some.inj hs
  rintro ⟨⟨⟩, q, a, early, hheld, -⟩
  change Function.update s.held () none () = _ at hheld
  rw [Function.update_self] at hheld
  cases hheld

end Fronts
end Osrv
