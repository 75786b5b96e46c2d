import Osrv.Client.Values
import Osrv.Tcp.Put

/-!
# Sessions over TCP

Any number of workers are in `do_process`, each with a connection of its own on which
requests come in one behind the other, and share the store. `pass` is what a worker does in
one pass of its loop, and a worker alone is `do_process` (`do_process_refines`).

The specification knows a list of entries, in front of which a `PUT` puts its entry and
from which a `DEL` takes the first with the key, and for each connection the requests that
are still to come and what has been replied. It performs a request at a time.
`sessions_refine` says that this is what the workers do, in whatever order they take
their turns. A request that is not refused has its reply, with one exception: of a `PUT`
whose payload is not there with its lines nothing is stored and nothing said, and the
reply to the next request takes its place.
-/

namespace Osrv
namespace Client

open Bytes Net Obj Sfs Tcp Fronts

/-! ### Requests -/

/-- A request as it comes in: its lines in one piece, which may have the first bytes of the
payload behind them, and the rest of the payload. -/
inductive Arriving
  | line (q : Tcp.Query) (key : CString)
  | put (key : CString) (first : List UInt8) (rest : List Segment)

/-- The piece with the lines. -/
def Arriving.first : Arriving → List UInt8
  | .line q key => lineOf q.word key ++ [10]
  | .put key first rest => putHead key (first ++ joined rest).length ++ first

/-- The pieces behind it. -/
def Arriving.rest : Arriving → List Segment
  | .line _ _ => []
  | .put _ _ rest => rest

theorem Arriving.first_ne_nil (r : Arriving) : r.first ≠ [] := by
  cases r with
  | line q key => exact List.append_ne_nil_of_right_ne_nil _ (List.cons_ne_nil _ _)
  | put key first rest => exact putHead_append_ne_nil _ _ _

def Arriving.segments (r : Arriving) : List Segment := ⟨r.first, r.first_ne_nil⟩ :: r.rest

/-- The lines can be told from what is around them and fit the buffer, and a payload is one
that memory can be asked for. -/
def Arriving.Fits (r : Arriving) : Prop :=
  r.first.length < MAX_BUF ∧
    match r with
    | .line _ key => Nameable key
    | .put key first rest => Plain key ∧ 0 < (first ++ joined rest).length ∧
        (first ++ joined rest).length ≤ PTRDIFF_MAX

/-! ### The specification -/

/-- The call of `obj.c` that a request leads to. There is none if the payload of a `PUT` is
not there with its lines. -/
def Arriving.call : Arriving → Option (Obj.Op (Option (List UInt8)) SEXP)
  | .line q key => some (.get key (q = .del))
  | .put key first [] => some (.add key none (some first) first.length)
  | .put _ _ (_ :: _) => none

/-- The entry that is found under a key. -/
def visible (key : CString) (es : List ObjEntry) : Option ObjEntry := es.find? fun e => e.key = key

/-- The value that is sent behind the reply, if the entry has no bytes. -/
def Arriving.value (es : List ObjEntry) : Arriving → Option SEXP
  | .line .get key => (visible key es).bind fun e => if e.obj = none then e.sWhat else none
  | _ => none

def Arriving.reply (es : List ObjEntry) : Arriving → List UInt8
  | .line .get key =>
    match visible key es with
    | none => NF
    | some e => e.obj.elim serialisedLine rawReply
  | .line _ key => if (visible key es).isSome then OK else NF
  | .put _ _ [] => OK
  | .put _ _ (_ :: _) => []

/-- A connection: the requests that are still to come, the replies, and the value that has
been sent behind them, after which there are no replies any more. -/
structure Session where
  todo : List Arriving
  replies : List UInt8
  streamed : Option SEXP

/-- What the server is for. -/
structure Service (W : Type) where
  entries : List ObjEntry
  session : W → Session

/-- The next request of a connection is performed. -/
def Service.step {W : Type} [DecidableEq W] (t : Service W) (w : W) : Service W :=
  match (t.session w).streamed, (t.session w).todo with
  | none, r :: todo =>
    { entries := (r.call.map (listStep t.entries)).getD t.entries
      session := Function.update t.session w
        ⟨todo, (t.session w).replies ++ r.reply t.entries, r.value t.entries⟩ }
  | _, _ => t

/-! ### The workers -/

/-- What a round leaves of a worker, if it ends. -/
def Flow.status : Flow → Option Status
  | .again => none
  | .leave => some .closed
  | .blocked => some .waiting
  | .jumped => some .jumped

section Pass

variable (send : SendFn) (malloc : Malloc)

/-- A pass of the loop of `do_process`. -/
def pass (buf : Memory) (w : World) : Option (Option Status × Memory × World) :=
  let (r, input) := recv (MAX_BUF - 1) w.input
  let w := { w with input := input }
  match r with
  | .blocked => some (some .waiting, buf, w)
  | .closed | .failed => some (some .closed, buf, w)
  | .data bs =>
    if bs.length < 1 then some (some .closed, buf, w)
    else (request send malloc buf bs w).map fun (buf, flow, w) => (Flow.status flow, buf, w)

/-- **The loop is a series of passes**, up to the first that ends it. -/
theorem loop_pass (n : ℕ) (buf : Memory) (w : World) :
    loop send malloc (n + 1) buf w = (pass send malloc buf w).bind fun (status, buf', w') =>
      match status with
      | none => loop send malloc n buf' w'
      | some status => some (status, w') := by
  rw [loop, pass]
  generalize recv (MAX_BUF - 1) w.input = r
  obtain ⟨r, input⟩ := r
  cases r with
  | blocked => rfl
  | closed => rfl
  | failed => rfl
  | data bs =>
    dsimp only
    by_cases hnil : bs.length < 1
    · rw [if_pos hnil, if_pos hnil]
      rfl
    · rw [if_neg hnil, if_neg hnil]
      cases request send malloc buf bs { w with input := input } with
      | none => rfl
      | some r =>
        obtain ⟨buf', flow, w'⟩ := r
        cases flow <;> rfl

end Pass

/-- A worker in `do_process`: what it has apart from the store, and whether it is through. -/
structure Worker where
  buf : Memory
  input : Input
  conn : Conn
  mallocs : ℕ
  status : Option Status

def Worker.world (l : Worker) (s : Objects) : World := ⟨l.input, l.conn, s, l.mallocs⟩

/-- A worker with a connection on which requests will come in. -/
def Worker.start (rs : List Arriving) : Worker where
  buf := fun _ => 0
  input := ⟨rs.flatMap Arriving.segments, .waiting⟩
  conn := ⟨0, []⟩
  mallocs := 0
  status := none

structure Workers (W : Type) where
  store : Objects
  worker : W → Worker

section Workers

variable {W : Type} [DecidableEq W] (kernel : W → SendFn) (malloc : W → Malloc)

/-- A worker takes its turn. One that waits for a request receives again. -/
def Workers.step (t : Workers W) (w : W) : Option (Workers W) :=
  match (t.worker w).status with
  | some .closed | some .jumped => some t
  | _ => (pass (kernel w) (malloc w) (t.worker w).buf ((t.worker w).world t.store)).map
      fun (status, buf, v) => ⟨v.store, Function.update t.worker w
        ⟨buf, v.input, v.conn, v.mallocs, status⟩⟩

end Workers

/-! ### Lookups -/

/-- The store holds these entries. -/
def Stacked (es : List ObjEntry) (s : Objects) : Prop := ∃ xs ys, Rep s xs ys ∧ xs.map Prod.snd = es

/-- An entry that can be sent. -/
def Sendable (e : ObjEntry) : Prop := ServableEntry e ∧ Sized e

theorem usual_sendable : Usual Sendable where
  bytes bs sWhat key := ⟨usual_servableEntry.bytes bs sWhat key, usual_sized.bytes bs sWhat key⟩
  value v key := ⟨usual_servableEntry.value v key, usual_sized.value v key⟩
  kept e v h := ⟨usual_servableEntry.kept e v h.1, usual_sized.kept e v h.2⟩

section Stacked

variable {es : List ObjEntry} {s : Objects}

/-- What a lookup comes to. -/
inductive Looked (key : CString) (es : List ObjEntry) (s : Objects) : Prop
  | missing (hnone : visible key es = none) (hget : obj_get key false s = some (none, s))
  | found {e : ObjEntry} {a : Heap.Addr} {next : Heap.Ptr} (hmem : e ∈ es)
      (hsome : visible key es = some e) (hget : obj_get key false s = some (some a, s))
      (hload : s.heap.load a = some ⟨e, next⟩)

theorem Stacked.looked (h : Stacked es s) (key : CString) : Looked key es s := by
  obtain ⟨xs, ys, hrep, rfl⟩ := h
  have hget := hrep.obj_get_find key
  have hvisible : visible key (xs.map Prod.snd) = (xs.find? (hasKey key)).map Prod.snd :=
    List.find?_map ..
  cases hfind : xs.find? (hasKey key) with
  | none =>
    rw [hfind] at hget hvisible
    exact .missing hvisible hget
  | some x =>
    rw [hfind] at hget hvisible
    have hmem := List.mem_of_find?_eq_some hfind
    obtain ⟨next, hload⟩ := hrep.root.cells_of_mem hmem
    exact .found (List.mem_map_of_mem hmem) hvisible hget hload

/-- Removing. -/
theorem Stacked.removed (h : Stacked es s) (key : CString) :
    ∃ o s', obj_get key true s = some (o, s') ∧ o.isSome = (visible key es).isSome ∧
      Stacked (es.eraseP fun e => e.key = key) s' := by
  obtain ⟨xs, ys, hrep, rfl⟩ := h
  obtain ⟨s', hget, hrep', -⟩ := hrep.obj_get_remove key
  have hvisible : visible key (xs.map Prod.snd) = (xs.find? (hasKey key)).map Prod.snd :=
    List.find?_map ..
  refine ⟨_, s', hget, ?_, _, _, hrep', map_eraseP_hasKey key xs⟩
  rw [hvisible, Option.isSome_map, Option.isSome_map]

theorem Stacked.added (h : Stacked es s) (key : CString) (bs : List UInt8) :
    Stacked (⟨bs.length, some bs, none, key⟩ :: es)
      (obj_add key none (some bs) bs.length s) := by
  obtain ⟨xs, ys, hrep, rfl⟩ := h
  exact ⟨_, ys, hrep.obj_add key none (some bs) bs.length, rfl⟩

theorem sendable_listStep (hes : ∀ e ∈ es, Sendable e) {r : Arriving} :
    ∀ e ∈ (r.call.map (listStep es)).getD es, Sendable e := by
  cases r with
  | line q key =>
    cases q with
    | get => exact hes
    | has => exact hes
    | del => exact fun e he => hes e (List.mem_of_mem_eraseP he)
  | put key first rest =>
    cases rest with
    | nil =>
      intro e he
      obtain rfl | he := List.mem_cons.mp he
      · exact ⟨Or.inl ⟨first, rfl, rfl⟩, fun bytes h => by cases h; rfl⟩
      · exact hes e he
    | cons x xs => exact hes

end Stacked

/-! ### A round -/

/-- **What goes out** for a request: its reply, and behind it a value as far as that goes out. -/
inductive Sent (out reply : List UInt8) : Option SEXP → List UInt8 → Flow → Prop
  | replied : Sent out reply none (out ++ reply) .again
  | whole (v : SEXP) : Sent out reply (some v) (out ++ reply ++ emit v) .leave
  | cut (v : SEXP) {front : List UInt8} (hfront : front <+: emit v) (hne : front ≠ emit v) :
      Sent out reply (some v) (out ++ reply ++ front) .jumped

section Round

variable {send : SendFn} {malloc : Malloc} {es : List ObjEntry} {w : World} {more : List Segment}

/-- A line is answered as the entries say. -/
theorem answer_sent (hsend : send.Succeeds) (h : Stacked es w.store)
    (hes : ∀ e ∈ es, Sendable e) (q : Tcp.Query) (key : CString) :
    ∃ flow w', answer send q key w = some (flow, w') ∧ w'.input = w.input ∧
      Stacked (listStep es (.get key (q = .del))) w'.store ∧
      Sent w.conn.out ((Arriving.line q key).reply es) ((Arriving.line q key).value es)
        w'.conn.out flow := by
  cases q with
  | get =>
    cases h.looked key with
    | missing hnone hget =>
      obtain ⟨calls, hreply⟩ := reply_ok hsend w NF
      have hanswer : answer send .get key w = some (reply send w NF) := by
        simp only [answer, Tcp.get, hget, Option.bind_eq_bind, Option.bind_some]
        rfl
      refine ⟨_, _, hanswer.trans (congrArg some hreply), rfl, h, ?_⟩
      simp only [Arriving.reply, Arriving.value, hnone, Option.bind_none]
      exact .replied
    | @found e a next hmem hsome hget hload =>
      obtain ⟨hserv, hsized⟩ := hes e hmem
      cases hobj : e.obj with
      -- bytes behind their length
      | some bs =>
        obtain ⟨calls, hanswer⟩ := get_raw hsend hget hload hobj (hsized bs hobj)
        refine ⟨_, _, hanswer, rfl, h, ?_⟩
        rw [List.append_assoc _ _ bs]
        simp only [Arriving.reply, Arriving.value, hsome, hobj, Option.elim_some,
          Option.bind_some, reduceCtorEq, if_false]
        exact .replied
      -- a value, after which nothing can be sent any more
      | none =>
        obtain ⟨v, hv⟩ := hserv.value hobj
        obtain ⟨flow, conn, bytes, hanswer, hout, hfront, hwhole, hcut⟩ :=
          get_value hsend hget hload hobj hv
        refine ⟨flow, _, hanswer, rfl, h, ?_⟩
        simp only [Arriving.reply, Arriving.value, hsome, hobj, hv, Option.elim_none,
          Option.bind_some, if_true, hout]
        by_cases heq : bytes = emit v
        · rw [hwhole heq, heq]
          exact .whole v
        · rw [hcut heq]
          exact .cut v hfront heq
  | has =>
    cases h.looked key with
    | missing hnone hget =>
      obtain ⟨calls, hreply⟩ := reply_ok hsend w NF
      have hanswer : answer send .has key w = some (reply send w NF) := by
        simp only [answer, Tcp.get, hget, Option.bind_eq_bind, Option.bind_some]
        rfl
      refine ⟨_, _, hanswer.trans (congrArg some hreply), rfl, h, ?_⟩
      simp only [Arriving.reply, Arriving.value, hnone, Option.isSome_none, Bool.false_eq_true,
        if_false]
      exact .replied
    | found hmem hsome hget hload =>
      obtain ⟨calls, hreply⟩ := reply_ok hsend w OK
      have hanswer : answer send .has key w = some (reply send w OK) := by
        simp only [answer, Tcp.get, hget, Option.bind_eq_bind, Option.bind_some, if_true]
        rfl
      refine ⟨_, _, hanswer.trans (congrArg some hreply), rfl, h, ?_⟩
      simp only [Arriving.reply, Arriving.value, hsome, Option.isSome_some, if_true]
      exact .replied
  | del =>
    -- the entry is gone whether or not the reply could be sent
    obtain ⟨o, s', hget, hsome, h'⟩ := h.removed key
    obtain ⟨calls, hreply⟩ := reply_ok hsend { w with store := s' } (if o.isSome then OK else NF)
    have hanswer : answer send .del key w
        = some (reply send { w with store := s' } (if o.isSome then OK else NF)) := by
      simp only [answer, del, hget, Option.bind_eq_bind, Option.bind_some]
      rfl
    refine ⟨_, _, hanswer.trans (congrArg some hreply), rfl, h', ?_⟩
    simp only [Arriving.reply, Arriving.value, hsome]
    exact .replied

/-- **A request** is performed as the entries say. -/
theorem request_sent (hsend : send.Succeeds) (hmalloc : malloc.Succeeds) {r : Arriving}
    (hr : r.Fits) (h : Stacked es w.store) (hes : ∀ e ∈ es, Sendable e)
    (hinput : w.input = ⟨r.rest ++ more, .waiting⟩) (buf : Memory) :
    ∃ buf' flow w', request send malloc buf r.first w = some (buf', flow, w') ∧
      w'.input = ⟨more, .waiting⟩ ∧ Stacked ((r.call.map (listStep es)).getD es) w'.store ∧
      Sent w.conn.out (r.reply es) (r.value es) w'.conn.out flow := by
  obtain ⟨hfit, hr⟩ := hr
  cases r with
  | line q key =>
    have hfit' : (lineOf q.word key).length < MAX_BUF := by
      rw [Arriving.first, List.length_append] at hfit
      omega
    obtain ⟨flow, w', hanswer, hsame, h', hsent⟩ := answer_sent hsend h hes q key
    obtain ⟨buf', hrequest⟩ := request_line send malloc hr hfit' buf
    rw [hanswer] at hrequest
    exact ⟨buf', flow, w', hrequest, hsame.trans hinput, h', hsent⟩
  | put key first rest =>
    obtain ⟨hkey, hpos, hmax⟩ := hr
    obtain ⟨db, hdb⟩ := hmalloc w.mallocs _ hmax
    obtain ⟨buf', hat, hrequest⟩ := request_put send malloc (w := w) hkey hmax hpos hfit buf
    cases rest with
    | nil =>
      have hlen : (first ++ joined []).length = first.length :=
        congrArg List.length (List.append_nil first)
      obtain ⟨calls, hput⟩ := putPayload_whole hsend hdb hat hlen.symm hpos
        (List.length_append.trans (congrArg _ hlen.symm))
      rw [hput] at hrequest
      refine ⟨buf', .again, _, hrequest, hinput, ?_, .replied⟩
      rw [hlen]
      exact h.added key first
    -- what has come in of the payload is behind the lines
    | cons x xs =>
      have hlines : (putHead key (first ++ joined (x :: xs)).length ++ first).length
          - (putHead key (first ++ joined (x :: xs)).length).length = first.length := by
        rw [List.length_append, Nat.add_sub_cancel_left]
      have hrest : joined (x :: xs) ≠ [] := List.append_ne_nil_of_left_ne_nil x.2 _
      have hput := putPayload_drops send key buf' hdb (List.length_append ▸ Nat.le_add_right _ _)
        hinput (by rw [hlines]; exact List.length_append.symm) hrest
      rw [hput] at hrequest
      refine ⟨buf', .again, _, hrequest, rfl, h, ?_⟩
      have hnothing : Sent w.conn.out [] none (w.conn.out ++ []) .again := .replied
      rw [List.append_nil] at hnothing
      exact hnothing

end Round

/-! ### The simulation -/

/-- A worker and what the specification says of its connection. -/
inductive Follows (l : Worker) : Session → Prop
  /-- It goes on with what is still to come. -/
  | serving {todo : List Arriving} (hfit : ∀ r ∈ todo, r.Fits)
      (hinput : l.input = ⟨todo.flatMap Arriving.segments, .waiting⟩)
      (hstatus : l.status = none ∨ l.status = some .waiting) : Follows l ⟨todo, l.conn.out, none⟩
  /-- It has sent a value as a whole and closed the connection. -/
  | closed {todo : List Arriving} {replies : List UInt8} {v : SEXP}
      (hout : l.conn.out = replies ++ emit v) (hstatus : l.status = some .closed) :
      Follows l ⟨todo, replies, some v⟩
  /-- It has been jumped out of, with a value that was cut off. -/
  | jumped {todo : List Arriving} {replies front : List UInt8} {v : SEXP}
      (hfront : front <+: emit v) (hne : front ≠ emit v) (hout : l.conn.out = replies ++ front)
      (hstatus : l.status = some .jumped) : Follows l ⟨todo, replies, some v⟩

/-- What goes out for a request is what the specification says. -/
theorem Sent.follows {l : Worker} {out reply : List UInt8} {v : Option SEXP} {flow : Flow}
    {todo : List Arriving} (h : Sent out reply v l.conn.out flow) (hfit : ∀ r ∈ todo, r.Fits)
    (hinput : l.input = ⟨todo.flatMap Arriving.segments, .waiting⟩)
    (hstatus : l.status = Flow.status flow) : Follows l ⟨todo, out ++ reply, v⟩ := by
  obtain ⟨buf, input, conn, mallocs, status⟩ := l
  obtain ⟨calls, sent⟩ := conn
  cases h with
  | replied => exact .serving hfit hinput (Or.inl hstatus)
  | whole v => exact .closed rfl hstatus
  | cut v hfront hne => exact .jumped hfront hne rfl hstatus

/-- The workers and the specification. -/
structure Refines {W : Type} (t : Workers W) (u : Service W) : Prop where
  stacked : Stacked u.entries t.store
  sendable : ∀ e ∈ u.entries, Sendable e
  follows : ∀ w, Follows (t.worker w) (u.session w)

section Refines

variable {W : Type} [DecidableEq W] {kernel : W → SendFn} {malloc : W → Malloc} {t : Workers W}
  {u : Service W}

/-- A pass with a request to come performs it. -/
theorem pass_sent {send : SendFn} {malloc : Malloc} {es : List ObjEntry} {w : World} {r : Arriving}
    {todo : List Arriving} (hsend : send.Succeeds) (hmalloc : malloc.Succeeds) (hr : r.Fits)
    (h : Stacked es w.store) (hes : ∀ e ∈ es, Sendable e)
    (hinput : w.input = ⟨(r :: todo).flatMap Arriving.segments, .waiting⟩) (buf : Memory) :
    ∃ buf' flow w', pass send malloc buf w = some (Flow.status flow, buf', w') ∧
      w'.input = ⟨todo.flatMap Arriving.segments, .waiting⟩ ∧
      Stacked ((r.call.map (listStep es)).getD es) w'.store ∧
      Sent w.conn.out (r.reply es) (r.value es) w'.conn.out flow := by
  have hfit : r.first.length ≤ MAX_BUF - 1 := Nat.le_pred_of_lt hr.1
  have hne : ¬ r.first.length < 1 :=
    Nat.not_lt.mpr (List.length_pos_of_ne_nil r.first_ne_nil)
  have hrecv : recv (MAX_BUF - 1) w.input
      = (.data r.first, ⟨r.rest ++ todo.flatMap Arriving.segments, .waiting⟩) := by
    rw [hinput]
    exact recv_cons hfit
  obtain ⟨buf', flow, w', hrequest, hinput', h', hsent⟩ := request_sent
    (w := { w with input := ⟨r.rest ++ todo.flatMap Arriving.segments, .waiting⟩ })
    hsend hmalloc hr h hes rfl buf
  refine ⟨buf', flow, w', ?_, hinput', h', hsent⟩
  simp only [pass, hrecv, hne, if_false, hrequest, Option.map_some]

/-- **A turn** of a worker is a step of the specification. -/
theorem Refines.step (h : Refines t u) (hsend : ∀ w, (kernel w).Succeeds)
    (hmalloc : ∀ w, (malloc w).Succeeds) (w : W) :
    ∃ t', Workers.step kernel malloc t w = some t' ∧ Refines t' (u.step w) := by
  have hfollows := h.follows w
  rw [Service.step]
  generalize hsession : u.session w = c at hfollows
  cases hfollows with
  | closed hout hstatus => exact ⟨t, by rw [Workers.step, hstatus], h⟩
  | jumped hfront hne hout hstatus => exact ⟨t, by rw [Workers.step, hstatus], h⟩
  | @serving todo hfit hinput hstatus =>
    have hstep : Workers.step kernel malloc t w
        = (pass (kernel w) (malloc w) (t.worker w).buf ((t.worker w).world t.store)).map
          fun (status, buf, v) => ⟨v.store, Function.update t.worker w
            ⟨buf, v.input, v.conn, v.mallocs, status⟩⟩ := by
      rw [Workers.step]
      obtain hstatus | hstatus := hstatus
      · rw [hstatus]
      · rw [hstatus]
    cases todo with
    -- nothing has come in
    | nil =>
      have hpass : pass (kernel w) (malloc w) (t.worker w).buf ((t.worker w).world t.store)
          = some (some .waiting, (t.worker w).buf, (t.worker w).world t.store) := by
        rw [pass, Worker.world, hinput]
        rfl
      rw [hpass] at hstep
      refine ⟨_, hstep, h.stacked, h.sendable, fun v => ?_⟩
      by_cases hv : v = w
      · subst hv
        rw [hsession]
        change Follows (Function.update t.worker v _ v) _
        rw [Function.update_self]
        exact .serving (l := ⟨_, _, (t.worker v).conn, _, _⟩) hfit hinput (Or.inr rfl)
      · change Follows (Function.update t.worker w _ v) _
        rw [Function.update_of_ne hv]
        exact h.follows v
    | cons r todo =>
      obtain ⟨buf', flow, w', hpass, hinput', hstacked, hsent⟩ := pass_sent (hsend w) (hmalloc w)
        (hfit r List.mem_cons_self) (w := (t.worker w).world t.store) h.stacked h.sendable hinput
        (t.worker w).buf
      rw [hpass] at hstep
      refine ⟨_, hstep, hstacked, sendable_listStep h.sendable, fun v => ?_⟩
      by_cases hv : v = w
      · subst hv
        change Follows (Function.update t.worker v _ v) (Function.update u.session v _ v)
        rw [Function.update_self, Function.update_self]
        exact Sent.follows (l := ⟨_, _, w'.conn, _, _⟩) hsent
          (fun r' hr' => hfit r' (List.mem_cons_of_mem _ hr')) hinput' rfl
      · change Follows (Function.update t.worker w _ v) (Function.update u.session w _ v)
        rw [Function.update_of_ne hv, Function.update_of_ne hv]
        exact h.follows v

end Refines

/-! ### A worker alone -/

/-- After a value nothing is replied. -/
theorem Service.foldl_streamed {W : Type} [DecidableEq W] {u : Service W} {w : W} {v : SEXP}
    (h : (u.session w).streamed = some v) (n : ℕ) :
    (List.replicate n w).foldl Service.step u = u := by
  induction n with
  | zero => rfl
  | succ n ih =>
    rw [List.replicate_succ, List.foldl_cons]
    have hstep : u.step w = u := by rw [Service.step, h]
    rw [hstep]
    exact ih

/-- The loop of `do_process` with requests to come. -/
theorem loop_refines {send : SendFn} {malloc : Malloc} (hsend : send.Succeeds)
    (hmalloc : malloc.Succeeds) {rs : List Arriving} (hfit : ∀ r ∈ rs, r.Fits)
    {es : List ObjEntry} (hes : ∀ e ∈ es, Sendable e) {w : World} (h : Stacked es w.store)
    (hinput : w.input = ⟨rs.flatMap Arriving.segments, .waiting⟩) {n : ℕ} (hn : rs.length < n)
    (buf : Memory) :
    ∃ status l s, loop send malloc n buf w = some (status, Worker.world l s) ∧
      l.status = some status ∧ Refines ⟨s, fun _ => l⟩ ((List.replicate rs.length ()).foldl
        Service.step ⟨es, fun _ => ⟨rs, w.conn.out, none⟩⟩) := by
  induction rs generalizing es w n buf with
  | nil =>
    obtain ⟨n, rfl⟩ := Nat.exists_eq_add_one_of_ne_zero (Nat.ne_of_gt hn)
    refine ⟨.waiting, ⟨buf, w.input, w.conn, w.mallocs, some .waiting⟩, w.store, ?_, rfl, h, hes,
      fun _ => .serving hfit hinput (Or.inr rfl)⟩
    have hrecv : recv (MAX_BUF - 1) w.input = (.blocked, w.input) := by
      rw [hinput]
      rfl
    rw [loop]
    simp only [hrecv]
    rfl
  | cons r rs ih =>
    obtain ⟨n, rfl⟩ := Nat.exists_eq_add_one_of_ne_zero (Nat.ne_of_gt (Nat.zero_lt_of_lt hn))
    have hn' : rs.length < n := Nat.lt_of_succ_lt_succ hn
    have hrest : ∀ r' ∈ rs, r'.Fits := fun r' hr' => hfit r' (List.mem_cons_of_mem _ hr')
    obtain ⟨buf', flow, w', hpass, hinput', h', hsent⟩ :=
      pass_sent hsend hmalloc (hfit r List.mem_cons_self) h hes hinput buf
    have hes' := sendable_listStep hes (r := r)
    have hstep : Service.step ⟨es, fun _ => ⟨r :: rs, w.conn.out, none⟩⟩ ()
        = ⟨(r.call.map (listStep es)).getD es,
          fun _ => ⟨rs, w.conn.out ++ r.reply es, r.value es⟩⟩ := by
      rw [Service.step]
      congr 1
    rw [loop_pass, hpass, List.length_cons, List.replicate_succ, List.foldl_cons, hstep,
      Option.bind_some]
    generalize hvalue : r.value es = v at hsent
    generalize hout : w'.conn.out = out at hsent
    cases hsent with
    | replied =>
      obtain ⟨status, l, s, hloop, hstatus, hrefines⟩ := ih hrest hes' h' hinput' hn' buf'
      rw [hout] at hrefines
      exact ⟨status, l, s, hloop, hstatus, hrefines⟩
    | whole v =>
      refine ⟨.closed, ⟨buf', w'.input, w'.conn, w'.mallocs, some .closed⟩, w'.store, rfl, rfl, ?_⟩
      rw [Service.foldl_streamed rfl]
      exact ⟨h', hes', fun _ => .closed hout rfl⟩
    | cut v hfront hne =>
      refine ⟨.jumped, ⟨buf', w'.input, w'.conn, w'.mallocs, some .jumped⟩, w'.store, rfl, rfl, ?_⟩
      rw [Service.foldl_streamed rfl]
      exact ⟨h', hes', fun _ => .jumped hfront hne hout rfl⟩

/-- **A worker alone is `do_process`.** It answers all requests that come in, up to a value. -/
theorem do_process_refines {send : SendFn} {malloc : Malloc} (hsend : send.Succeeds)
    (hmalloc : malloc.Succeeds) {rs : List Arriving} (hfit : ∀ r ∈ rs, r.Fits)
    {es : List ObjEntry} (hes : ∀ e ∈ es, Sendable e) {s : Objects} (h : Stacked es s) :
    ∃ status l s', do_process send malloc ((Worker.start rs).world s)
        = some (status, Worker.world l s') ∧
      l.status = some status ∧ Refines ⟨s', fun _ => l⟩ ((List.replicate rs.length ()).foldl
        Service.step ⟨es, fun _ => ⟨rs, [], none⟩⟩) := by
  -- each request takes a round, and has a byte at least
  have hlen : rs.length ≤ (joined (rs.flatMap Arriving.segments)).length := by
    clear hfit
    induction rs with
    | nil => exact Nat.le_refl 0
    | cons r rs ih =>
      have hfirst : 0 < r.first.length := List.length_pos_of_ne_nil r.first_ne_nil
      have hsplit : joined ((r :: rs).flatMap Arriving.segments)
          = r.first ++ (joined r.rest ++ joined (rs.flatMap Arriving.segments)) := by
        rw [List.flatMap_cons, Arriving.segments, List.cons_append, joined_cons, joined, joined,
          joined, List.flatMap_append]
      rw [hsplit, List.length_append, List.length_append, List.length_cons]
      omega
  exact loop_refines hsend hmalloc hfit hes (w := (Worker.start rs).world s) h rfl
    (Nat.lt_succ_of_le hlen) _

/-! ### The result -/

/-- **Sessions are served as if there were only the list of entries**, whatever the store has
been through, whatever requests come in on each of the connections and in whatever order the
workers take their turns. The entries can be sent if every `PUT` over HTTP had a body. -/
theorem sessions_refine {ops : List Fronts.Op} {s : Objects} (hrun : Fronts.run ops = some s)
    (hbody : ∀ c, .http c ∈ ops → PutsObject c.req → c.req.body ≠ none) {W : Type} [DecidableEq W]
    {kernel : W → SendFn} {malloc : W → Malloc} (hsend : ∀ w, (kernel w).Succeeds)
    (hmalloc : ∀ w, (malloc w).Succeeds) {requests : W → List Arriving}
    (hfit : ∀ w, ∀ r ∈ requests w, r.Fits) (turns : List W) :
    ∃ es t, Stacked es s ∧
      Run.run (Workers.step kernel malloc) ⟨s, fun w => .start (requests w)⟩ turns = some t ∧
      Refines t (turns.foldl Service.step ⟨es, fun w => ⟨requests w, [], none⟩⟩) := by
  obtain ⟨xs, ys, hrep, hsendable⟩ := Each.run usual_sendable
    (fun c hc hput key => ⟨(servableEntry_putEntry c.passed.announced key).mpr (hbody c hc hput),
      sized_putEntry c.passed.announced key⟩) hrun
  have hstacked : Stacked (xs.map Prod.snd) s := ⟨xs, ys, hrep, rfl⟩
  have hinit : Refines ⟨s, fun w => .start (requests w)⟩
      ⟨xs.map Prod.snd, fun w => ⟨requests w, [], none⟩⟩ := by
    refine ⟨hstacked, fun e he => ?_, fun w => ?_⟩
    · obtain ⟨x, hx, rfl⟩ := List.mem_map.mp he
      exact hsendable x hx
    · exact .serving (l := .start (requests w)) (hfit w) rfl (Or.inl rfl)
  obtain ⟨t, hturns, hrefines⟩ := Run.total (P := fun turns t => Refines t
    (turns.foldl Service.step ⟨xs.map Prod.snd, fun w => ⟨requests w, [], none⟩⟩)) hinit
    (fun turns t w h => by
      rw [List.foldl_append]
      exact h.step hsend hmalloc w) turns
  exact ⟨_, t, hstacked, hturns, hrefines⟩

/-- One connection puts a byte and removes it, and another one reads it in between. -/
def putAndRead : Bool → List Arriving
  | true => [.put (cstr [107]) [7] [], .line .del (cstr [107])]
  | false => [.line .get (cstr [107])]

theorem sessions_refine_read :
    ∃ es t, Stacked es (.init : Objects) ∧
      Run.run (Workers.step (fun _ => .whole) fun _ => .plenty)
        ⟨.init, fun w => .start (putAndRead w)⟩ [true, false, true] = some t ∧
      Refines t ([true, false, true].foldl Service.step
        ⟨es, fun w => ⟨putAndRead w, [], none⟩⟩) := by
  refine sessions_refine (show Fronts.run [] = some .init from rfl)
    (fun c hc => absurd hc List.not_mem_nil)
    (fun _ => SendFn.whole_succeeds) (fun _ => Malloc.plenty_succeeds) (fun w r hr => ?_) _
  have hkey : Plain (cstr [107]) := by decide
  cases w with
  | true =>
    obtain rfl | hr := List.mem_cons.mp hr
    · refine ⟨?_, hkey, by decide, by decide⟩
      rw [Arriving.first, List.length_append, length_putHead, decimal_of_lt (by decide)]
      decide
    · obtain rfl := List.mem_singleton.mp hr
      exact ⟨by decide, hkey.nameable⟩
  | false =>
    obtain rfl := List.mem_singleton.mp hr
    exact ⟨by decide, hkey.nameable⟩

end Client
end Osrv
