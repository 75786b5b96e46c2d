import Osrv.Fronts.History
import Osrv.Http.Received

/-!
# Entries that every front end can serve

An entry is served from its bytes, or from its value if it has none. R and the TCP
server put one of the two into each entry. The HTTP server stores the body of a `PUT`,
and hands over a request without a body as well: one that announces no length, and one
whose connection is closed before the body is expected. Such a request leaves an entry
that has neither. If the connection is closed inside the body, the block that was allocated
for it is stored, although a part of it has never been written.

Those are the only ways, by `servable_iff`: in a history all entries can be served at all
times if and only if every `PUT` of an object that comes to the HTTP handler has a body that
was received to its end, and no recorded head runs over its buffer.
-/

namespace Osrv
namespace Fronts

open Bytes Net Obj Sfs Http

/-! ### Servable entries -/

/-- The bytes with their length, or a value. -/
def ServableEntry (e : ObjEntry) : Prop :=
  (∃ bytes, e.obj = some bytes ∧ bytes.length = e.len) ∨ e.sWhat ≠ none

/-- The length of an entry with bytes is theirs. -/
def Sized (e : ObjEntry) : Prop := ∀ bytes, e.obj = some bytes → bytes.length = e.len

theorem usual_servableEntry : Usual ServableEntry where
  bytes bs _ _ := Or.inl ⟨bs, rfl, rfl⟩
  value _ _ := Or.inr (Option.some_ne_none _)
  kept _ _ _ := Or.inr (Option.some_ne_none _)

theorem usual_sized : Usual Sized where
  bytes bs _ _ bytes h := by
    obtain rfl := Option.some.inj h
    rfl
  value _ _ bytes h := by cases h
  kept _ _ h := h

/-- An entry without bytes has a value. -/
theorem ServableEntry.value {e : ObjEntry} (h : ServableEntry e) (hobj : e.obj = none) :
    ∃ v, e.sWhat = some v := by
  obtain ⟨bytes, hbytes, -⟩ | hvalue := h
  · rw [hobj] at hbytes
    cases hbytes
  · exact Option.ne_none_iff_exists'.mp hvalue

/-- What `PUT` stores has the length of the body. -/
theorem sized_putEntry {req : HttpRequest} (h : Announced req) (key : CString) :
    Sized (putEntry req key) := by
  intro bytes hbytes
  obtain ⟨mem, hmem, rfl⟩ := Option.map_eq_some_iff.mp hbytes
  obtain ⟨hlow, hhigh⟩ := h (hmem ▸ Option.some_ne_none mem)
  rw [length_read]
  change req.content_length.toNat = (req.content_length % 2 ^ 64).toNat
  omega

theorem servableEntry_putEntry {req : HttpRequest} (h : Announced req) (key : CString) :
    ServableEntry (putEntry req key) ↔ req.body ≠ none := by
  constructor
  · rintro (⟨bytes, hbytes, -⟩ | hvalue)
    · intro hnone
      change req.body.map _ = some bytes at hbytes
      rw [hnone] at hbytes
      cases hbytes
    · exact absurd rfl hvalue
  · intro hne
    obtain ⟨mem, hmem⟩ := Option.ne_none_iff_exists'.mp hne
    have hbytes : (putEntry req key).obj = some (read mem req.content_length.toNat) := by
      change req.body.map _ = _
      rw [hmem]
      rfl
    exact Or.inl ⟨_, hbytes, sized_putEntry h key _ hbytes⟩

section Passed

variable {site : Site} {req : HttpRequest} {overrun : Bool}

/-- A request of the connection loop announces the length of its body. -/
theorem Passed.announced (h : Passed site req overrun) : Announced req := by
  obtain ⟨σ, malloc, process, line_buf, input, world, c, c', recorded, hreach, hs, hrun, hlog,
    -⟩ := h
  exact (hreach.step hs hrun).inRange.2 site req recorded (by simp [hlog])

/-- **The body of a call** is what the client has sent if the request has come to its end, and
otherwise a part of it has never been written. -/
theorem Passed.received (h : Passed site req overrun) :
    ∃ malloc stream, BodyReceived malloc stream site req := by
  obtain ⟨σ, malloc, process, line_buf, input, world, c, c', recorded, hreach, hs, hrun, hlog,
    -⟩ := h
  exact ⟨malloc, input.bytes, (hreach.step hs hrun).bodies site req recorded (by simp [hlog])⟩

end Passed

/-! ### Bytes that have been written -/

/-- The store, the entries of which some bytes have never been written, and whether the heap
is intact. -/
structure Marked where
  store : Objects
  torn : Heap.Addr → Bool
  intact : Bool

/-- Whether an operation leaves bytes unwritten in the entry that it adds: a `PUT` whose
connection was closed inside the body. -/
def Op.torn : Op → Bool
  | .http c => decide (PutsObject c.req) && c.req.body.isSome && c.site = .hangup
  | _ => false

/-- Whether an operation has written behind the first header buffer. -/
def Op.overrun : Op → Bool
  | .http c => c.overrun
  | _ => false

def Marked.init : Marked := ⟨.init, fun _ => false, true⟩

/-- Performs an operation. The marks of the entries that it adds are its own. -/
def Marked.step (m : Marked) (op : Op) : Option Marked :=
  (Fronts.step m.store op).map fun s =>
    ⟨s, fun a => if a < m.store.heap.top then m.torn a else op.torn, m.intact && !op.overrun⟩

/-- The store with its marks after a history. -/
def Marked.run (ops : List Op) : Option Marked := Run.run Marked.step .init ops

section Marked

variable {m m' : Marked} {op : Op} {ops : List Op}

theorem Marked.step_eq_some : m.step op = some m' ↔
    Fronts.step m.store op = some m'.store ∧
      m'.torn = (fun a => if a < m.store.heap.top then m.torn a else op.torn) ∧
      m'.intact = (m.intact && !op.overrun) := by
  rw [Marked.step, Option.map_eq_some_iff]
  constructor
  · rintro ⟨s, hstep, rfl⟩
    exact ⟨hstep, rfl, rfl⟩
  · rintro ⟨hstep, htorn, hintact⟩
    exact ⟨m'.store, hstep, by rw [← htorn, ← hintact]⟩

/-- **What the marks say** of a history. -/
theorem Marked.run_spec (h : Marked.run ops = some m) :
    Fronts.run ops = some m.store ∧
      ((∀ op ∈ ops, op.torn = false) → ∀ a, m.torn a = false) ∧
      (m.intact = true ↔ ∀ op ∈ ops, op.overrun = false) := by
  refine Run.induction (P := fun l m => Fronts.run l = some m.store ∧
    ((∀ op ∈ l, op.torn = false) → ∀ a, m.torn a = false) ∧
    (m.intact = true ↔ ∀ op ∈ l, op.overrun = false)) ?_ ?_ h
  · exact ⟨rfl, fun _ _ => rfl, iff_of_true rfl fun _ hop => absurd hop List.not_mem_nil⟩
  · rintro l m op m' ⟨hrun, htorn, hintact⟩ hstep
    obtain ⟨hstore, htorn', hintact'⟩ := Marked.step_eq_some.mp hstep
    refine ⟨Run.run_snoc_eq_some.mpr ⟨m.store, hrun, hstore⟩, fun hops a => ?_, ?_⟩
    · rw [htorn']
      dsimp only
      split
      · exact htorn (fun op' hop => hops op' (List.mem_append_left _ hop)) a
      · exact hops op (List.mem_append_right _ (List.mem_singleton_self _))
    · rw [hintact', Bool.and_eq_true, Bool.not_eq_true', hintact, List.forall_mem_append,
        List.forall_mem_singleton]

end Marked

/-- **In every history** the length of an entry with bytes is theirs. -/
theorem run_sized {ops : List Op} {s : Objects} (hrun : run ops = some s) : Each Sized s :=
  Each.run usual_sized (fun c _ _ key => sized_putEntry c.passed.announced key) hrun

/-! ### What the front ends do with an entry -/

section Reads

variable {s : Objects}

/-- A lookup that leaves the entries alone. -/
theorem Each.lookup {P : ObjEntry → Prop} (h : Each P s) (key : CString) :
    ∃ o, Obj.obj_get key false s = some (o, s) ∧
      ∀ a, o = some a → ∃ cell, s.heap.load a = some cell ∧ P cell.val := by
  obtain ⟨xs, ys, hrep, hxs⟩ := h
  have hfind := hrep.obj_get_find key
  exact ⟨_, hfind, (Each.obj_get ⟨xs, ys, hrep, hxs⟩ hfind).2⟩

/-- The TCP server follows no null pointer. -/
theorem get_ne_none (hserv : Each ServableEntry s) (hsized : Each Sized s) (send : SendFn)
    (has : Bool) (key : CString) (w : Tcp.World) (hw : w.store = s) :
    Tcp.get send has key w ≠ none := by
  subst hw
  obtain ⟨o, hget, hserv⟩ := hserv.lookup key
  obtain ⟨o', hget', hsized⟩ := hsized.lookup key
  obtain rfl := (Prod.mk.inj (Option.some.inj (hget.symm.trans hget'))).1
  simp only [Tcp.get, hget, Option.bind_eq_bind, Option.bind_some]
  cases o with
  | none => exact Option.some_ne_none _
  | some a =>
    obtain ⟨cell, hload, hentry⟩ := hserv a rfl
    obtain ⟨cell', hload', hlen⟩ := hsized a rfl
    obtain rfl : cell = cell' := Option.some.inj (hload.symm.trans hload')
    dsimp only
    split
    · exact Option.some_ne_none _
    · rw [hload, Option.bind_some]
      split
      · next hobj =>
        obtain ⟨v, hv⟩ := hentry.value hobj
        split
        · exact Option.some_ne_none _
        · rw [hv, Option.bind_some]
          split <;> exact Option.some_ne_none _
      · next obj hobj =>
        have hle := hlen obj hobj
        split
        · exact Option.some_ne_none _
        · rw [if_neg (by omega)]
          exact Option.some_ne_none _

/-- Bytes that are there are sent without a fault. -/
theorem sendObject_fault {send : SendFn} {bytes : List UInt8} {len : ℕ} {w : Server}
    (hlen : bytes.length = len) : (sendObject send (some bytes) len w).fault = w.fault := by
  unfold sendObject
  split
  · rfl
  · dsimp only
    rw [if_neg (by omega)]

/-- The HTTP server follows no null pointer: a fault comes from the buffer through which a
value is streamed. -/
theorem getData_fault (hserv : Each ServableEntry s) (hsized : Each Sized s) {send : SendFn}
    {garbage : ℕ → Option Garbage} {get : Bool} {attr : Attr} {key : CString} {w : Server}
    (hw : w.store = s) (hok : w.fault = false)
    (hfault : (getData send garbage get attr key w).fault = true) :
    ∃ a cell v, obj_get key false s = some (some a, s) ∧ s.heap.load a = some cell ∧
      cell.val.obj = none ∧ cell.val.sWhat = some v := by
  subst hw
  obtain ⟨o, hget, hserv⟩ := hserv.lookup key
  obtain ⟨o', hget', hsized⟩ := hsized.lookup key
  obtain rfl := (Prod.mk.inj (Option.some.inj (hget.symm.trans hget'))).1
  rw [getData] at hfault
  simp only [hget] at hfault
  cases o with
  | none =>
    rw [show (statusOnly send attr 404 _ _).fault = w.fault from rfl, hok] at hfault
    cases hfault
  | some a =>
    obtain ⟨cell, hload, hentry⟩ := hserv a rfl
    obtain ⟨cell', hload', hlen⟩ := hsized a rfl
    obtain rfl : cell = cell' := Option.some.inj (hload.symm.trans hload')
    cases hobj : cell.val.obj with
    | none =>
      obtain ⟨v, hv⟩ := hentry.value hobj
      exact ⟨a, cell, v, hget, hload, hobj, hv⟩
    | some bytes =>
      simp only [hload, hobj] at hfault
      refine absurd hfault ?_
      split
      · rw [sendObject_fault (hlen bytes hobj)]
        exact Bool.eq_false_iff.mp hok
      · exact Bool.eq_false_iff.mp hok

end Reads

/-! ### Every history -/

/-- What the front ends rely on. -/
structure Servable (m : Marked) : Prop where
  /-- No buffer has been overrun. -/
  intact : m.intact = true
  /-- Every entry has its bytes or a value. -/
  entries : Each ServableEntry m.store
  /-- All bytes of the entries have been written. -/
  written : ∀ xs ys, Rep m.store xs ys → ∀ x ∈ xs, m.torn x.1 = false
  /-- A lookup over TCP follows no null pointer and stays in the bytes of the entry. -/
  tcp : ∀ send has key (w : Tcp.World), w.store = m.store → Tcp.get send has key w ≠ none
  /-- One over HTTP, too: what can go wrong is the streaming of a value. -/
  http : ∀ send garbage get attr key (w : Server), w.store = m.store → w.fault = false →
    (getData send garbage get attr key w).fault = true →
    ∃ a cell v, obj_get key false m.store = some (some a, m.store) ∧
      m.store.heap.load a = some cell ∧ cell.val.obj = none ∧ cell.val.sWhat = some v

theorem Servable.of_entries {m : Marked} (hintact : m.intact = true)
    (hserv : Each ServableEntry m.store) (hsized : Each Sized m.store)
    (htorn : ∀ a, m.torn a = false) : Servable m where
  intact := hintact
  entries := hserv
  written _ _ _ x _ := htorn x.1
  tcp := get_ne_none hserv hsized
  http _ _ _ _ _ _ := getData_fault hserv hsized

/-- A `PUT` stores its entry whatever it is. -/
theorem store_putsObject (send : SendFn) (malloc : Malloc) (garbage : ℕ → Option Garbage)
    {req : HttpRequest} (w : Server) (h : PutsObject req) :
    ∃ key, (http_process send malloc garbage req w).2.2.store
      = obj_add key none (bodyBytes req) (toObjLen req.content_length) w.store := by
  obtain ⟨hmethod, path, hpath, hunder⟩ := h
  refine ⟨keyOf path, ?_⟩
  rw [http_process]
  simp only [hpath, hunder, if_true, dataRequest, hmethod]
  rfl

/-- What a `PUT` has put into the store. -/
theorem rep_put {s s' : Objects} {xs ys : Entries (Option (List UInt8)) SEXP}
    (hrep : Rep s xs ys) {c : HttpCall} (hput : PutsObject c.req)
    (hstep : step s (.http c) = some s') :
    ∃ key, Rep s' ((s.heap.top, putEntry c.req key) :: xs) ys := by
  rw [Fronts.step] at hstep
  split at hstep
  · cases hstep
  · obtain rfl := Option.some.inj hstep
    obtain ⟨key, hstore⟩ := store_putsObject c.send c.malloc c.garbage (c.world s) hput
    change (c.after s).store = _ at hstore
    exact ⟨key, hstore ▸ hrep.obj_add key none (bodyBytes c.req) (toObjLen c.req.content_length)⟩

/-- After a `PUT` without a body some entry cannot be served. -/
theorem not_servable_put {s s' : Objects} {xs ys : Entries (Option (List UInt8)) SEXP}
    (hrep : Rep s xs ys) {c : HttpCall} (hput : PutsObject c.req) (hbody : c.req.body = none)
    (hstep : step s (.http c) = some s') : ¬ Each ServableEntry s' := by
  intro h
  obtain ⟨key, hrep'⟩ := rep_put hrep hput hstep
  -- a lookup of the key finds the entry
  obtain ⟨o, hget, hfound⟩ := h.lookup key
  rw [hrep'.obj_get_find, List.find?_cons_of_pos (by simp [hasKey, putEntry])] at hget
  obtain ⟨cell, hload, hentry⟩ := hfound _ (Prod.mk.inj (Option.some.inj hget)).1.symm
  obtain ⟨next, hcell⟩ := hrep'.root.cells_of_mem (List.mem_cons_self ..)
  obtain rfl := Option.some.inj (hcell.symm.trans hload)
  exact (servableEntry_putEntry c.passed.announced key).mp hentry hbody

/-- After a `PUT` that was closed in its body some bytes have not been written. -/
theorem torn_put {m m' : Marked} {xs ys : Entries (Option (List UInt8)) SEXP}
    (hrep : Rep m.store xs ys) {c : HttpCall} (hput : PutsObject c.req)
    (htorn : (Op.http c).torn = true) (hstep : m.step (.http c) = some m') :
    ∃ xs', Rep m'.store xs' ys ∧ ∃ x ∈ xs', m'.torn x.1 = true := by
  obtain ⟨hstore, hmarks, -⟩ := Marked.step_eq_some.mp hstep
  obtain ⟨key, hrep'⟩ := rep_put hrep hput hstore
  refine ⟨_, hrep', _, List.mem_cons_self .., ?_⟩
  rw [hmarks]
  dsimp only
  rw [if_neg (lt_irrefl _)]
  exact htorn

/-- **Servable entries.** In a history all entries can be served at all times if and only if
every `PUT` of an object that the HTTP handler is called with has a body and is called at the
end of the request, and no recorded head has run over its buffer. At the end of the request
all bytes of the body have been received from the client, and at the end of the stream some
have not. -/
theorem servable_iff {ops : List Op} {m : Marked} (hrun : Marked.run ops = some m) :
    (∀ c, .http c ∈ ops → ∃ malloc stream, BodyReceived malloc stream c.site c.req) ∧
      ((∀ l m', l <+: ops → Marked.run l = some m' → Servable m') ↔
        ∀ c, .http c ∈ ops → c.overrun = false ∧
          (PutsObject c.req → c.req.body ≠ none ∧ c.site = .complete)) := by
  refine ⟨fun c _ => c.passed.received, ?_⟩
  constructor
  · intro h c hc
    obtain ⟨l, r, rfl⟩ := List.append_of_mem hc
    rw [List.append_cons] at hrun h
    obtain ⟨m₂, hl, -⟩ := Run.run_append_eq_some.mp hrun
    obtain ⟨m₁, hm₁, hstep⟩ := Run.run_snoc_eq_some.mp hl
    have hserv := h _ m₂ (List.prefix_append _ r) hl
    obtain ⟨xs, ys, hrep, -⟩ := run_sized (Marked.run_spec hm₁).1
    refine ⟨?_, fun hput => ⟨fun hbody => ?_, ?_⟩⟩
    · exact (Marked.run_spec hl).2.2.mp hserv.intact (.http c)
        (List.mem_append_right _ (List.mem_singleton_self _))
    · exact not_servable_put hrep hput hbody (Marked.step_eq_some.mp hstep).1 hserv.entries
    · by_contra hsite
      have hbody : c.req.body ≠ none := fun hbody =>
        not_servable_put hrep hput hbody (Marked.step_eq_some.mp hstep).1 hserv.entries
      have hhangup : c.site = .hangup := by
        cases hs : c.site with
        | complete => exact absurd hs hsite
        | hangup => rfl
      have htorn : (Op.http c).torn = true := by
        rw [Op.torn, hhangup, Option.isSome_iff_ne_none.mpr hbody, decide_eq_true hput]
        rfl
      obtain ⟨xs', hrep', x, hx, hmark⟩ := torn_put hrep hput htorn hstep
      rw [hserv.written xs' ys hrep' x hx] at hmark
      cases hmark
  · rintro h l m' hl hm'
    obtain ⟨hstore, htorn, hintact⟩ := Marked.run_spec hm'
    have hcalls : ∀ c, .http c ∈ l → c.overrun = false ∧
        (PutsObject c.req → c.req.body ≠ none ∧ c.site = .complete) := fun c hc =>
      h c (hl.subset hc)
    refine Servable.of_entries (hintact.mpr fun op hop => ?_)
      (Each.run usual_servableEntry (fun c hc hput key => ?_) hstore) (run_sized hstore) ?_
    · cases op with
      | http c => exact (hcalls c hop).1
      | _ => rfl
    · exact (servableEntry_putEntry c.passed.announced key).mpr ((hcalls c hc).2 hput).1
    · refine htorn fun op hop => ?_
      cases op with
      | http c =>
        rw [Op.torn]
        by_cases hput : PutsObject c.req
        · rw [((hcalls c hop).2 hput).2]
          exact Bool.and_false _
        · rw [decide_eq_false hput]
          rfl
      | _ => rfl

/-! ### Requests without a body -/

/-- A `GET` or a `PUT` that announces no length. -/
def bareLine (get : Bool) : List UInt8 :=
  (if get then ascii "GET" else ascii "PUT") ++ ascii " /data/k HTTP/1.0"

/-- What the handler is called with. -/
def bareRequest (get : Bool) : HttpRequest := { HttpRequest.cleared with
  path := some (cstr (ascii "/data/k"))
  method := some (if get then .GET else .PUT)
  attr := { Attr.zero with HTTP_1_0 := true }
  headers := some ⟨20, fun _ => 0⟩ }

/-- What is recorded of it. -/
def bareHeader (get : Bool) : List UInt8 :=
  ascii "Request-Method: " ++ (if get then ascii "GET" else ascii "PUT") ++ [10]

theorem bareLine_line {room : ℕ → Bool} (hroom : ∀ n ≤ 2000, room n = true) (get : Bool) :
    line room (cstr (bareLine get)) .fresh
      = .next ⟨{ bareRequest get with headers := none }, .HEADER, [⟨1024, bareHeader get⟩]⟩ := by
  have hstart : Chain.start room [] = [⟨1024, []⟩] := by
    rw [Chain.start, hroom _ (by decide)]
    rfl
  have hpath : strdup room (cstr (ascii "/data/k")) = some (cstr (ascii "/data/k")) := by
    rw [strdup, hroom _ (by decide)]
    rfl
  have htarget : cstr (((cstr (bareLine get)).bytes.set ((cstr (bareLine get)).length - 9) 0).drop
      ((cstr (bareLine get)).bytes.idxOf 32 + 1)) = cstr (ascii "/data/k") := by
    cases get <;> decide
  change requestLine room (cstr (bareLine get)) .fresh = _
  rw [requestLine, if_neg (by cases get <;> decide), show Reading.fresh.headers = [] from rfl]
  simp only [hstart]
  rw [htarget, hpath]
  cases get <;> rfl

theorem passed_bareRequest (get : Bool) : Passed .complete (bareRequest get) false := by
  have hroom : ∀ n ≤ 2000, (Malloc.plenty.alloc 0 n).isSome = true := by
    intro n hn
    have hmax : n ≤ PTRDIFF_MAX := le_trans hn (by decide)
    rw [show Malloc.plenty.alloc 0 n = some fun _ => 0 from if_pos hmax]
    rfl
  have hne : bareLine get ++ ascii "\r\n\r\n" ≠ [] := by cases get <;> decide
  have hfit : (bareLine get ++ ascii "\r\n\r\n").length ≤ LINE_BUF_SIZE - 0 - 1 := by
    cases get <;> decide
  have hscan : scan (fun n => (Malloc.plenty.alloc 0 n).isSome) .fresh
      (bareLine get ++ ascii "\r\n\r\n") = .blank ⟨{ bareRequest get with headers := none },
        .HEADER, [⟨1024, bareHeader get⟩]⟩ [] := by
    have htail : afterEol (tailOf (bareLine get ++ ascii "\r\n\r\n")) = some (ascii "\r\n") := by
      cases get <;> decide
    have hline : lineOf (bareLine get ++ ascii "\r\n\r\n") = bareLine get := by
      cases get <;> decide
    rw [scan_line (by cases get <;> decide) htail, hline, bareLine_line hroom]
    exact scan_blank (by decide)
  obtain ⟨buf, -, hrun⟩ := iteration_processed .plenty (fun req w => (false, req, w))
    (c := Connection.init (fun _ => 0) ⟨[⟨_, hne⟩], .waiting⟩ ()) (fun h => by cases h)
    (show 0 < LINE_BUF_SIZE by decide) (recv_cons hfit) hscan (by cases get <;> rfl)
  refine ⟨Unit, .plenty, _, _, _, _, _, _, bareHeader get, .start, rfl, hrun _, ?_, ?_⟩
  · rw [passed, finish_log, process_request_log]
    cases get <;> rfl
  · rw [passed, finish_overrun, process_request_overrun]
    cases get <;> rfl

/-- A call of the handler with it. -/
def bareCall (get : Bool) : HttpCall :=
  ⟨.whole, .plenty, fun _ => none, .complete, bareRequest get, false, passed_bareRequest get,
    ⟨0, []⟩, none, 0⟩

/-! ### Requests with a body -/

/-- The one call that a log consists of. -/
def onlyCall (log : List Event) : Option (Site × HttpRequest) :=
  match log with
  | [.process site req _] => some (site, req)
  | _ => none

theorem onlyCall_eq_some {log : List Event} {site : Site} {req : HttpRequest}
    (h : onlyCall log = some (site, req)) : ∃ recorded, log = [.process site req recorded] := by
  unfold onlyCall at h
  split at h
  · obtain ⟨rfl, rfl⟩ := Prod.mk.inj (Option.some.inj h)
    exact ⟨_, rfl⟩
  · cases h

/-- What the handler is called with for the bytes that are received first. -/
def firstCall (input : Input) : Site × HttpRequest :=
  (onlyCall (iterated (.init (fun _ => 0) input 0)).log).getD (.hangup, .cleared)

theorem passed_firstCall (input : Input) (h : returns (.init (fun _ => 0) input 0) = true ∧
      (onlyCall (iterated (.init (fun _ => 0) input 0)).log).isSome = true ∧
      (iterated (.init (fun _ => 0) input 0)).overrun = false) :
    Passed (firstCall input).1 (firstCall input).2 false := by
  obtain ⟨hreturns, hcall, hover⟩ := h
  obtain ⟨⟨site, req⟩, hsome⟩ := Option.isSome_iff_exists.mp hcall
  obtain ⟨recorded, hlog⟩ := onlyCall_eq_some hsome
  refine ⟨ℕ, .plenty, counting, _, input, 0, _, _, recorded, .start, rfl, iterated_eq hreturns,
    ?_, hover⟩
  rw [hlog, firstCall, hsome]
  rfl

/-- A `PUT` whose body is received. -/
def putCall : HttpCall :=
  ⟨.whole, .plenty, fun _ => none, _, _, false,
    passed_firstCall putInput (by decide +kernel), ⟨0, []⟩, none, 0⟩

/-- A `PUT` whose connection is closed inside the body. -/
def tornCall : HttpCall :=
  ⟨.whole, .plenty, fun _ => none, _, _, false,
    passed_firstCall truncated (by decide +kernel), ⟨0, []⟩, none, 0⟩

/-- R puts a value, and a client bytes. -/
def putBoth : List Op := [.put (cstr [108]) .NULL true, .http putCall]

theorem servable_iff_put : ∃ m, Marked.run putBoth = some m ∧
    ∀ l m', l <+: putBoth → Marked.run l = some m' → Servable m' := by
  have hsome : (Marked.run putBoth).isSome = true := by decide +kernel
  obtain ⟨m, hrun⟩ := Option.isSome_iff_exists.mp hsome
  refine ⟨m, hrun, (servable_iff hrun).2.mpr fun c hc => ?_⟩
  obtain hc | hc := List.mem_cons.mp hc
  · cases hc
  · obtain rfl : c = putCall := Op.http.inj (List.mem_singleton.mp hc)
    have hwhole : putCall.req.body.isSome = true ∧ putCall.site = .complete := by decide +kernel
    exact ⟨rfl, fun _ => ⟨Option.isSome_iff_ne_none.mp hwhole.1, hwhole.2⟩⟩

/-- **Entries that cannot be served** are left by a `PUT` without a length, and by one whose
connection is closed inside the body. -/
theorem barePut_stored :
    (∃ s, run [.http (bareCall false)] = some s ∧ ¬ Each ServableEntry s) ∧
      ∃ m, Marked.run [.http tornCall] = some m ∧ ¬ Servable m := by
  constructor
  · have hput : PutsObject (bareRequest false) := ⟨rfl, _, rfl, by decide⟩
    have hstep : step .init (.http (bareCall false))
        = some ((bareCall false).after .init).store := by
      rw [Fronts.step, show ((bareCall false).after .init).fault = false from rfl]
      rfl
    refine ⟨_, Run.run_snoc_eq_some (l := []).mpr ⟨.init, rfl, hstep⟩, ?_⟩
    exact not_servable_put Rep.init hput rfl hstep
  · have hruns : (Marked.init.step (.http tornCall)).isSome = true ∧ PutsObject tornCall.req ∧
        (Op.http tornCall).torn = true := by
      decide +kernel
    obtain ⟨hsome, hput, htorn⟩ := hruns
    obtain ⟨m, hstep⟩ := Option.isSome_iff_exists.mp hsome
    refine ⟨m, Run.run_snoc_eq_some (l := []).mpr ⟨.init, rfl, hstep⟩, fun hserv => ?_⟩
    obtain ⟨xs, hrep, x, hx, hmark⟩ := torn_put Rep.init hput htorn hstep
    rw [hserv.written xs [] hrep x hx] at hmark
    cases hmark

end Fronts
end Osrv
