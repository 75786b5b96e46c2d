import Osrv.Http.Process
import Osrv.Obj.Robj
import Osrv.Queue.Frame
import Osrv.Tcp.DoProcess

/-!
# The memory of payloads

What clients send is received into blocks from `malloc`: the buffer `db` of a TCP worker,
and the body of an HTTP request. A block is passed on by its pointer. Here are the pieces
of the servers that allocate, pass on or free such a block, over one memory: the end of
the headers and `clear_http_request` of `http.c`, `http_process` of `ohsrv.c`, the payload
of a `PUT` in `osrv.c`, `obj.c`, and the event queues. There are any number of workers.

A step of the system is such a piece. What else a worker does between two of them touches
no block, and when it comes to the next one is left open, so that a client may stay away
or be cut off anywhere. `Allowed` is what is known of a step: where the worker is, that
`malloc` returns memory that is not in use, and that `recv` returns no more than it was
asked for. Freeing or using what is not allocated gives `none`.

The mutexes work, so that `ev_push` succeeds. That a worker sends, and the memory it needs
for that, is left out.
-/

namespace Osrv
namespace Remote

open Bytes Net
open Heap (Addr Ptr Seg)
open Obj (Store obj_add obj_get obj_gc)
open Revq (Process)
open Http (Method Attr Part HttpRequest Reading)
open Sfs (SEXP)

/-! ### The state -/

/-- The pointer `obj` of an entry. -/
inductive Payload
  | null
  /-- It leads into the raw vector of the entry. -/
  | raw (bytes : List UInt8)
  | block (b : Addr)

/-- A pointer to a block, or null. -/
def Payload.ofPtr : Ptr → Payload
  | none => .null
  | some b => .block b

/-- The block of a payload. -/
def Payload.toPtr : Payload → Ptr
  | .block b => some b
  | _ => none

@[simp] theorem Payload.toPtr_ofPtr (p : Ptr) : (Payload.ofPtr p).toPtr = p := by
  cases p <;> rfl

/-- The object store. -/
abbrev Objects : Type := Store Payload SEXP

/-- The loop of a TCP worker that receives the rest of a payload: the variables `db`, `len`
and `pos`. -/
structure Fetch where
  db : Addr
  len : ℕ
  pos : ℕ

/-- What `http_request_t` has to do with the body. -/
structure Request where
  path : Option CString
  method : Option Method
  attr : Attr
  content_length : ℤ
  body : Ptr

/-- What `calloc` makes of a request, and `clear_http_request`. -/
def Request.cleared : Request := ⟨none, none, .zero, 0, none⟩

/-- A connection of an HTTP worker. -/
structure Connection where
  part : Part
  request : Request
  body_pos : ℕ

def Connection.init : Connection := ⟨.REQUEST, .cleared, 0⟩

/-- The process: the event queues and the blocks, the store, the TCP workers that receive
the rest of a payload, and the connections of the HTTP workers. -/
structure State (T H : Type) where
  process : Process
  store : Objects
  tcp : T → Option Fetch
  http : H → Connection

variable {T H : Type}

def State.init : State T H := ⟨.init, .init, fun _ => none, fun _ => .init⟩

/-! ### Blocks -/

/-- `malloc`, with what is in the memory. -/
def malloc (b : Addr) (junk : List UInt8) (p : Process) : Option Process :=
  if p.blocks b = none then some { p with blocks := Function.update p.blocks b (some junk) }
  else none

/-- Bytes put over others. -/
def overlay (pos : ℕ) (bs mem : List UInt8) : List UInt8 :=
  mem.take pos ++ bs ++ mem.drop (pos + bs.length)

/-- Writes into a block. -/
def fill (b : Addr) (pos : ℕ) (bs : List UInt8) (p : Process) : Option Process := do
  let mem ← p.blocks b
  if pos + bs.length ≤ mem.length then
    some { p with blocks := Function.update p.blocks b (some (overlay pos bs mem)) }
  else none

/-! ### The TCP server -/

/-- The test of the receive loop. Behind the loop nothing leads to the block. -/
def fetch (db : Addr) (len pos : ℕ) : Option Fetch :=
  if pos < len then some ⟨db, len, pos⟩ else none

/-- How much the receive loop asks for. -/
def Fetch.need (x : Fetch) : ℕ :=
  if x.len - x.pos > Tcp.FETCH_SIZE then Tcp.FETCH_SIZE else x.len - x.pos

section Tcp

variable [DecidableEq T]

def State.setTcp (t : T) (x : Option Fetch) (s : State T H) : State T H :=
  { s with tcp := Function.update s.tcp t x }

/-- The payload of a `PUT` of `len` bytes. `rest` is what was received behind the size
line. -/
def putPayload (t : T) (a : CString) (len : ℕ) (rest : List UInt8) (found : Ptr) (junk : Memory)
    (s : State T H) : Option (State T H) :=
  match found with
  | none => some s
  | some db => do
    let p ← malloc db (read junk len) s.process
    if rest = [] then pure ({ s with process := p }.setTcp t (fetch db len 0))
    else if len ≤ rest.length then
      let p ← fill db 0 (rest.take len) p
      let s := { s with process := p, store := obj_add a none (.block db) len s.store }
      -- more than was announced closes the connection
      if len < rest.length then pure s
      else
        let p ← fill db 0 rest s.process
        pure ({ s with process := p }.setTcp t (fetch db len rest.length))
    else
      let p ← fill db 0 rest p
      pure ({ s with process := p }.setTcp t (fetch db len rest.length))

/-- A round of the receive loop. -/
def recvPayload (t : T) (r : RecvResult) (s : State T H) : Option (State T H) :=
  match s.tcp t with
  | none => some s
  | some x =>
    match r with
    | .blocked => some s
    | .closed | .failed => some (s.setTcp t none)
    | .data bs =>
      if bs.length < 1 then some (s.setTcp t none)
      else do
        let p ← fill x.db x.pos bs s.process
        pure ({ s with process := p }.setTcp t (fetch x.db x.len (x.pos + bs.length)))

end Tcp

/-! ### The HTTP server -/

/-- A body was announced. -/
def Request.announced (req : Request) : Bool := req.attr.CONTENT_LENGTH && req.content_length ≠ 0

section Http

variable [DecidableEq H]

def State.setHttp (h : H) (c : Connection) (s : State T H) : State T H :=
  { s with http := Function.update s.http h c }

/-- Lines of a request have been processed. -/
def readLines (h : H) (rd : Reading) (s : State T H) : State T H :=
  s.setHttp h { s.http h with
    part := rd.part
    request := ⟨rd.request.path, rd.request.method, rd.request.attr, rd.request.content_length,
      (s.http h).request.body⟩ }

/-- The blank line, with `rest` behind it. A request that is refused is left as it is, and
its connection is closed. -/
def endHeaders (h : H) (rest : List UInt8) (found : Ptr) (junk : Memory) (s : State T H) :
    Option (State T H) :=
  let c := s.http h
  if ¬ c.request.attr.HTTP_1_0 ∧ ¬ c.request.attr.HOST_HEADER then some s
  else if c.request.announced then
    if c.request.content_length < 0 ∨ c.request.content_length > 2147483640 then some s
    else
      match found with
      | none => some s
      | some b => do
        -- the byte for a terminator is left out, it is not used
        let p ← malloc b (read junk c.request.content_length.toNat) s.process
        let n :=
          if c.request.method = some .GET ∨ c.request.method = some .HEAD then 0
          else min c.request.content_length.toNat rest.length
        let p ← fill b 0 (rest.take n) p
        pure ({ s with process := p }.setHttp h
          ⟨.BODY, { c.request with body := some b }, n⟩)
  else some (s.setHttp h { c with part := .BODY, body_pos := 0 })

/-- Receives a part of a body. -/
def recvBody (h : H) (r : RecvResult) (s : State T H) : Option (State T H) :=
  let c := s.http h
  match r with
  | .data bs =>
    match c.request.body with
    | none => none
    | some b => do
      let p ← fill b c.body_pos bs s.process
      pure ({ s with process := p }.setHttp h { c with body_pos := c.body_pos + bs.length })
  | _ => some s

/-- A `POST` to the work interface. `entry` is what `ev_create` gets from `calloc`. -/
def pushWork (queue : Option ℕ) (entry : Ptr) (req : Request) (s : Process × Objects) :
    Option (Request × Process × Objects) :=
  match entry with
  -- there is no event, and the body stays with the request
  | none => some (req, s)
  | some a => do
    let (_, work, p) ← Revq.postWork queue a ⟨req.body, req.content_length.toNat⟩ s.1
    pure ({ req with body := work.body }, p, s.2)

def otherRequest (queue : Option ℕ) (entry : Ptr) (path : CString) (req : Request)
    (s : Process × Objects) : Option (Request × Process × Objects) :=
  if Http.under Http.workPrefix path ∧ req.method = some .POST then pushWork queue entry req s
  else some (req, s)

/-- A request for an object. The path has been ended behind the key. -/
def dataRequest (queue : Option ℕ) (entry : Ptr) (key : CString) (req : Request)
    (s : Process × Objects) : Option (Request × Process × Objects) :=
  match req.method with
  | some .GET | some .HEAD => do
    let (_, store) ← obj_get key false s.2
    pure (req, s.1, store)
  | some .DELETE => do
    let (_, store) ← obj_get key true s.2
    pure (req, s.1, store)
  | some .PUT =>
    -- the store takes the body over
    some ({ req with body := none }, s.1,
      obj_add key none (.ofPtr req.body) (Http.toObjLen req.content_length) s.2)
  | _ => otherRequest queue entry (cstr (Http.dataPrefix ++ key.bytes)) req s

/-- The request handler. -/
def http_process (queue : Option ℕ) (entry : Ptr) (req : Request) (s : Process × Objects) :
    Option (Request × Process × Objects) :=
  match req.path with
  | none => none
  | some path =>
    if Http.under Http.dataPrefix path then
      let key := Http.keyOf path
      dataRequest queue entry key
        { req with path := some (cstr (Http.dataPrefix ++ key.bytes)) } s
    else otherRequest queue entry path req s

/-- Calls the handler. -/
def process_request (queue : Option ℕ) (h : H) (entry : Ptr) (s : State T H) :
    Option (State T H) := do
  let (req, p, store) ← http_process queue entry (s.http h).request (s.process, s.store)
  pure ({ s with process := p, store := store }.setHttp h { s.http h with request := req })

/-- The end of a request, or of its connection. -/
def clear_http_request (h : H) (s : State T H) : Option (State T H) := do
  let p ← match (s.http h).request.body with
    | some b => Revq.freeBlock b s.process
    | none => some s.process
  pure ({ s with process := p }.setHttp h .init)

end Http

/-! ### The system -/

/-- The steps. -/
inductive Act (T H : Type)
  | put (t : T) (a : CString) (len : ℕ) (rest : List UInt8) (found : Ptr) (junk : Memory)
  | recvPayload (t : T) (r : RecvResult)
  | lines (h : H) (rd : Reading)
  | endHeaders (h : H) (rest : List UInt8) (found : Ptr) (junk : Memory)
  | recvBody (h : H) (r : RecvResult)
  | process (h : H) (entry : Ptr)
  | clear (h : H)
  /-- `DEL`, or `C_get` with `rm`. -/
  | remove (key : CString)
  | C_put (key : CString) (sWhat : SEXP) (use_sfs : Bool)
  /-- A call of R to the event queues, or an event from `deps.c`. -/
  | call (act : Revq.Act)
  | obj_gc

variable [DecidableEq T] [DecidableEq H]

/-- Performs a step. -/
def step (queue : Option ℕ) (s : State T H) : Act T H → Option (State T H)
  | .put t a len rest found junk => putPayload t a len rest found junk s
  | .recvPayload t r => Remote.recvPayload t r s
  | .lines h rd => some (readLines h rd s)
  | .endHeaders h rest found junk => Remote.endHeaders h rest found junk s
  | .recvBody h r => Remote.recvBody h r s
  | .process h entry => process_request queue h entry s
  | .clear h => clear_http_request h s
  | .remove key => do
    let (_, store) ← obj_get key true s.store
    pure { s with store := store }
  -- an entry of R has the value, and without `use_sfs` the bytes of the raw vector as well
  | .C_put key sWhat use_sfs =>
    if use_sfs then some { s with store := obj_add key (some sWhat) .null 0 s.store }
    else
      match Obj.RAW sWhat with
      | none => some s
      | some bytes =>
        some { s with store := obj_add key (some sWhat) (.raw bytes) bytes.length s.store }
  | .call act => do
    let (_, p) ← Revq.perform s.process act
    pure { s with process := p }
  | .obj_gc => do
    let store ← obj_gc s.store
    pure { s with store := store }

/-- What is known of a step: where the worker is, what `recv` returns at most, and that the
allocator returns memory that is not in use. A handler that is called without a path
follows a null pointer, and requests to the work interface come from the workers. -/
def Allowed (s : State T H) : Act T H → Prop
  | .put t _ len _ found _ => s.tcp t = none ∧ 0 < len ∧ ∀ b ∈ found, s.process.blocks b = none
  | .recvPayload t r => ∃ x, s.tcp t = some x ∧ ∀ bs, r = .data bs → bs.length ≤ x.need
  | .lines h rd => (s.http h).part ≠ .BODY ∧ rd.part ≠ .BODY
  | .endHeaders h _ found _ =>
    (s.http h).part ≠ .BODY ∧ ∀ b ∈ found, s.process.blocks b = none
  | .recvBody h r => (s.http h).request.body ≠ none ∧ ∀ bs, r = .data bs →
    bs.length ≤ (s.http h).request.content_length.toNat - (s.http h).body_pos
  | .process h entry =>
    (s.http h).request.path ≠ none ∧ ∀ a ∈ entry, s.process.events.mem a = none
  | .call act => act.isPost = false ∧ Revq.Fresh ([], s.process) act
  | .clear _ | .remove _ | .C_put _ _ _ | .obj_gc => True

/-- The system after a list of steps. -/
def run (queue : Option ℕ) (acts : List (Act T H)) : Option (State T H) :=
  Run.run (step queue) .init acts

end Remote
end Osrv
