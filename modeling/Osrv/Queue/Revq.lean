import Osrv.Lib.Bytes
import Osrv.Queue.EvQueue

/-!
# Events and who owns them

What is on the queues. The payload of an event is in the entry itself, for a raw
vector that R has pushed and for a message of `deps.c`, or it is a block from
`malloc`, for the body of a request to the work interface. The functions of `revq.c`
hand entries to R as external pointers, which own them until they are pushed again or
finalised, and copy payloads into raw vectors.

Each function is one step here. The mutexes work and `ev_create` gets its memory.
Freeing what is not allocated, and using it, gives `none`.
-/

namespace Osrv
namespace Revq

open Bytes Links Queue

/-! ### Events -/

/-- The functions that release payloads. -/
inductive FreeFn
  | ev_free_data

/-- The pointer `data` of an entry. -/
inductive Data
  | null
  /-- It leads into the entry. -/
  | inStruct (bytes : List UInt8)
  | block (b : Addr)

/-- `ev_entry_t`, without its links. -/
structure Event where
  data : Data
  len : ℕ
  free_fn : Option FreeFn

/-- What `ev_create` puts into an entry. -/
def Event.new (data : Option Addr) (len : ℕ) (free_fn : Option FreeFn) : Event where
  data :=
    match data with
    | some b => .block b
    | none => if 0 < len then .inStruct (List.replicate len 0) else .null
  len := len
  free_fn := free_fn

/-- A copy to the payload. -/
def Data.fill (bytes : List UInt8) : Data → Option Data
  | .null => if bytes = [] then some .null else none
  | .inStruct mem =>
    if bytes.length ≤ mem.length then some (.inStruct (bytes ++ mem.drop bytes.length)) else none
  | .block _ => none

/-- The queues and entries, the external pointers that R has been given, each with its
address, and the blocks from `malloc` that are payloads. -/
structure Process where
  events : State Event
  refs : List Ptr
  blocks : Addr → Option (List UInt8)

def Process.init : Process := ⟨.init, [], fun _ => none⟩

/-- `memcpy` to `e->data`. -/
def fillData (a : Addr) (bytes : List UInt8) (s : State Event) : Option (State Event) := do
  let n ← s.mem a
  let data ← n.val.data.fill bytes
  pure { s with
    mem := Function.update s.mem a (some { n with val := { n.val with data := data } }) }

/-- `free` of a block. -/
def freeBlock (b : Addr) (p : Process) : Option Process :=
  if p.blocks b ≠ none then some { p with blocks := Function.update p.blocks b none } else none

/-- What `ev_free` does before it frees the entry. -/
def releaseData (e : Event) (p : Process) : Option Process :=
  match e.data, e.free_fn with
  | .block b, some .ev_free_data => freeBlock b p
  | _, _ => some p

def ev_free (a : Addr) (p : Process) : Option Process := do
  let n ← p.events.mem a
  let p ← releaseData n.val p
  let events ← Queue.ev_free a p.events
  pure { p with events := events }

/-! ### The interface of R -/

/-- What a call returns. -/
inductive Outcome
  /-- It has not returned yet. -/
  | waiting
  /-- `R_NilValue` -/
  | null
  | raw (bytes : List UInt8)
  /-- An external pointer, by number. -/
  | ref (i : ℕ)
  /-- An error of R. -/
  | error
  /-- A response of the HTTP server. -/
  | code (n : ℕ)
  | done

/-- The finaliser of an external pointer. -/
def eventry_R_free (i : ℕ) (p : Process) : Option Process :=
  match p.refs[i]? with
  | some (some e) => do
    let p ← ev_free e p
    pure { p with refs := p.refs.set i none }
  | _ => some p

/-- A new external pointer with the finaliser. -/
def entry2R (e : Addr) (p : Process) : ℕ × Process :=
  (p.refs.length, { p with refs := p.refs ++ [some e] })

/-- The bytes that `C_evq_pop` copies to the new vector, which holds `fresh` before. -/
def payload (fresh : Memory) (e : Event) (p : Process) : Option (List UInt8) :=
  if e.len = 0 then some []
  else
    match e.data with
    | .null => some (read fresh e.len)
    | .inStruct mem => if mem.length < e.len then none else some (mem.take e.len)
    | .block b => do
      let mem ← p.blocks b
      if mem.length < e.len then none else some (mem.take e.len)

/-- `C_evq_pop`, behind the pop. `room` says whether the vector can be allocated. If it
cannot, the reference is left to the finaliser. -/
def takeEntry (e : Addr) (ref room : Bool) (fresh : Memory) (p : Process) :
    Option (Outcome × Process) := do
  let (i, p) := entry2R e p
  if ref then pure (.ref i, p)
  else if room then
    let n ← p.events.mem e
    let bytes ← payload fresh n.val p
    let p ← ev_free e p
    pure (.raw bytes, { p with refs := p.refs.set i none })
  else pure (.error, p)

/-- `C_evq_pop`. `timer` is what the timer says if the call may wait. -/
def C_evq_pop (q : ℕ) (timer : Option Bool) (ref room : Bool) (fresh : Memory) (p : Process) :
    Option (Outcome × Process) := do
  let w ← match timer with
    | none => (ev_pop q p.events).map .over
    | some timedOut => ev_pop_wait q timedOut p.events
  match w with
  | .waiting => pure (.waiting, p)
  | .over (none, events) => pure (.null, { p with events := events })
  | .over (some e, events) => takeEntry e ref room fresh { p with events := events }

/-- `C_evq_push` of an external pointer. -/
def pushRef (q i : ℕ) (front : Bool) (p : Process) : Option (Outcome × Process) :=
  match p.refs[i]? with
  | some (some e) => do
    let (_, events) ← ev_push q (some e) front p.events
    -- the queue owns the entry from here on
    pure (.done, { p with events := events, refs := p.refs.set i none })
  | _ => pure (.error, p)

/-- `C_evq_push` of a raw vector, with the entry at `a`. -/
def pushRaw (q : ℕ) (a : Addr) (bytes : List UInt8) (front : Bool) (p : Process) :
    Option (Outcome × Process) := do
  let events ← ev_create a (.new none bytes.length none) p.events
  let events ← fillData a bytes events
  let (_, events) ← ev_push q (some a) front events
  pure (.done, { p with events := events })

/-! ### Other sources of events -/

/-- `ev_resolved_t`: the message and the name. -/
def resolvedBytes (msg : ℤ) (name : CString) : List UInt8 :=
  le 4 (msg % 2 ^ 32).toNat ++ name.terminated

/-- What `deps_complete` does for a request that is resolved. -/
def notifyResolved (dep_queue : ℕ) (a : Addr) (msg : ℤ) (name : CString) (p : Process) :
    Option (Outcome × Process) := do
  let events ← ev_create a (.new none (name.length + 4 + 4) none) p.events
  let events ← fillData a (resolvedBytes msg name) events
  let (_, events) ← ev_push dep_queue (some a) false events
  pure (.done, { p with events := events })

/-- What the work interface uses of a request. -/
structure WorkRequest where
  body : Option Addr
  content_length : ℕ

/-- The work interface for a `POST`, with the entry at `a`. -/
def postWork (queue : Option ℕ) (a : Addr) (req : WorkRequest) (p : Process) :
    Option (Outcome × WorkRequest × Process) :=
  match queue with
  | none => some (.code 404, req, p)
  | some q =>
    match req.body with
    | none => some (.code 403, req, p)
    | some b =>
      if req.content_length < 1 then some (.code 403, req, p)
      else do
        let events ← ev_create a (.new (some b) req.content_length (some .ev_free_data)) p.events
        -- the queue owns the body from here on
        let req := { req with body := none }
        let (_, events) ← ev_push q (some a) false events
        pure (.code 200, req, { p with events := events })

/-- The part of `clear_http_request` for the body. -/
def clear_http_request (req : WorkRequest) (p : Process) : Option Process :=
  match req.body with
  | some b => freeBlock b p
  | none => some p

/-- A request to the work interface from its body to its end. -/
def post (queue : Option ℕ) (a : Addr) (body : Option (Addr × List UInt8)) (p : Process) :
    Option (Outcome × Process) := do
  let (req, p) : WorkRequest × Process :=
    match body with
    | some (b, bytes) =>
      (⟨some b, bytes.length⟩, { p with blocks := Function.update p.blocks b (some bytes) })
    | none => (⟨none, 0⟩, p)
  let (outcome, req, p) ← postWork queue a req p
  let p ← clear_http_request req p
  pure (outcome, p)

/-! ### Sequences of calls -/

/-- The calls. `a` is where `calloc` puts a new entry. -/
inductive Act
  | pushRaw (q : ℕ) (a : Addr) (bytes : List UInt8) (front : Bool)
  | pushRef (q i : ℕ) (front : Bool)
  | pop (q : ℕ) (timer : Option Bool) (ref room : Bool) (fresh : Memory)
  | finalize (i : ℕ)
  | post (queue : Option ℕ) (a : Addr) (body : Option (Addr × List UInt8))
  | resolved (dep_queue : ℕ) (a : Addr) (msg : ℤ) (name : CString)

/-- Performs a call. -/
def perform (p : Process) : Act → Option (Outcome × Process)
  | .pushRaw q a bytes front => Revq.pushRaw q a bytes front p
  | .pushRef q i front => Revq.pushRef q i front p
  | .pop q timer ref room fresh => C_evq_pop q timer ref room fresh p
  | .finalize i => (eventry_R_free i p).map fun p => (.done, p)
  | .post queue a body => Revq.post queue a body p
  | .resolved q a msg name => notifyResolved q a msg name p

/-- Performs a call and takes its outcome down. -/
def step (s : List Outcome × Process) (a : Act) : Option (List Outcome × Process) :=
  (perform s.2 a).map fun r => (s.1 ++ [r.1], r.2)

end Revq
end Osrv
