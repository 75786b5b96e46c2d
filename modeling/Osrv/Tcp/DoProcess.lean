import Osrv.Lib.Scan
import Osrv.Obj.Refine
import Osrv.Tcp.FdStore

/-!
# The TCP server

`do_process` of `osrv.c`. A round of its loop receives into `w->buf`, ends the
bytes with a NUL, takes the command and its argument from the first line and acts
on them. Pointers into the buffer are offsets, and where a pointer moves on the
bytes are read through `peek`, so that `none` stands for an access outside of the
buffer, a null pointer that is followed or a loop that does not end.

A request that does not fit what was received is not resumed: a round that comes
to an end starts over with a fresh buffer. Only the payload of a PUT is received
by further calls.
-/

namespace Osrv
namespace Tcp

open Bytes Net Obj Sfs

def MAX_BUF : ℕ := 65536
def MAX_SEND : ℕ := 1024 * 1024
def FETCH_SIZE : ℕ := 512 * 1024

/-! ### The state -/

/-- What a worker acts on: its connection, the store and the calls of `malloc`. -/
structure World where
  input : Input
  conn : Conn
  store : Store (Option (List UInt8)) SEXP
  mallocs : ℕ

/-- How a round ends: at the end of the loop's body, by a `break`, in a call of `recv`
that does not return or by a jump out of the function. -/
inductive Flow
  | again
  | leave
  | blocked
  | jumped

/-- Where `do_process` has got to. -/
inductive Status
  | waiting
  | closed
  | jumped
  deriving DecidableEq

variable (send : SendFn) (malloc : Malloc)

/-- Sends a buffer. -/
def send_buf (w : World) (buf : List UInt8) : ℤ × World :=
  let (res, conn) := sendAll send MAX_SEND w.conn buf
  (res, { w with conn := conn })

/-- Sends a reply and leaves the loop if that fails. -/
def reply (w : World) (buf : List UInt8) : Flow × World :=
  let (res, w) := send_buf send w buf
  (if res ≠ 0 then .leave else .again, w)

/-- Sends a reply and leaves the loop. -/
def refuse (w : World) (buf : List UInt8) : Flow × World := (.leave, (send_buf send w buf).2)

def OK : List UInt8 := ascii "OK\n"
def NF : List UInt8 := ascii "NF\n"
def INV : List UInt8 := ascii "INV\n"
def ERR : List UInt8 := ascii "ERR\n"
def UNSUPP : List UInt8 := ascii "UNSUPP\n"

/-! ### The command line -/

def isEol (b : UInt8) : Bool := b == 13 || b == 10
def isBlank (b : UInt8) : Bool := b == 32 || b == 9
def isUpper (b : UInt8) : Bool := 65 ≤ b && b ≤ 90

/-- The first newline of the string in the buffer, or null. -/
def findNewline (buf : Memory) : Option (Option ℕ) := do
  let d ← skipWhile MAX_BUF (fun b => b != 10 && b != 0) buf 0
  let b ← peek MAX_BUF buf d
  pure (if b = 10 then some d else none)

/-- The end of the line whose line end reaches up to `i`: the loop goes back over the
line end and the step after it is behind the last byte it stops at. -/
def lineEnd (buf : Memory) : ℕ → ℕ
  | 0 => 0
  | i + 1 => if isEol (buf i) then lineEnd buf i else i + 1

/-- What the first line comes to: the end `d` of the line, null if it has none, the
command and its argument. -/
structure Command where
  d : Option ℕ
  cmd : CString
  arg : CString

/-- Ends the line and the command in it with a NUL each. There is nothing if the
command reaches up to the end of the line. -/
def commandLine (buf : Memory) : Option (Memory × Option Command) := do
  let newline ← findNewline buf
  let d := newline.map fun d => lineEnd buf (d + 1)
  let buf := match d with
    | some d => write buf d [0]
    | none => buf
  let e ← skipWhile MAX_BUF isUpper buf 0
  if (← peek MAX_BUF buf e) = 0 then pure (buf, none)
  else
    let a ← skipWhile MAX_BUF isBlank buf e
    let buf := write buf e [0]
    pure (buf, some ⟨d, stringAt MAX_BUF buf 0, stringAt MAX_BUF buf a⟩)

/-! ### The commands -/

/-- `GET` and `HAS`. -/
def get (has : Bool) (a : CString) (w : World) : Option (Flow × World) := do
  let (o, store) ← obj_get a false w.store
  let w := { w with store := store }
  match o with
  | none => pure (reply send w NF)
  | some o =>
    if has then pure (reply send w OK)
    else
      let cell ← store.heap.load o
      match cell.val.obj with
      | none =>
        -- a null pointer says that the object has to be serialised
        let (res, w) := send_buf send w (ascii "OK ?\n")
        if res ≠ 0 then pure (.leave, w)
        else
          let sWhat ← cell.val.sWhat
          match fd_store send w.conn sWhat with
          | .ok conn => pure (.leave, { w with conn := conn })
          | .error conn => pure (.jumped, { w with conn := conn })
      | some obj =>
        let (res, w) := send_buf send w (ascii "OK " ++ decimal cell.val.len ++ [10])
        if res ≠ 0 then pure (.leave, w)
        else if obj.length < cell.val.len then none
        else pure (reply send w (obj.take cell.val.len))

/-- `DEL` -/
def del (a : CString) (w : World) : Option (Flow × World) := do
  let (o, store) ← obj_get a true w.store
  let w := { w with store := store }
  pure (reply send w (if o.isSome then OK else NF))

/-- Moves `d` behind the line end it is at. -/
def skipEol (buf : Memory) (d : ℕ) : Option ℕ := do
  if (← peek MAX_BUF buf d) = 13 then
    if (← peek MAX_BUF buf (d + 1)) = 10 then pure (d + 2) else pure (d + 1)
  else pure (d + 1)

/-- The size line at `d`: the size, negative if it is unknown, and what is behind it.
There is nothing if the size is not valid. -/
def putSize (buf : Memory) (d : ℕ) : Option (Option (ℤ × ℕ)) := do
  let b ← peek MAX_BUF buf d
  -- `?`, an unknown size
  if b = 63 then
    if isEol (← peek MAX_BUF buf (d + 1)) then
      let d ← skipEol buf (d + 1)
      pure (some (-1, d))
    else pure none
  -- a number, and the end of the line behind it
  else if isDigit b then
    let len := atol (stringAt MAX_BUF buf d)
    let d ← skipWhile MAX_BUF isDigit buf d
    if len < 0 ∨ ¬ isEol (← peek MAX_BUF buf d) then pure none
    else
      let d ← skipEol buf d
      pure (some (len, d))
  else pure none

/-- The loop that receives the rest of a payload. The call that fails ends the loop and
the request. -/
def fetchLoop (len : ℕ) (db : Memory) (pos : ℕ) (w : World) : Flow × World :=
  if pos < len then
    let need := if len - pos > FETCH_SIZE then FETCH_SIZE else len - pos
    let (r, input) := recv need w.input
    let w := { w with input := input }
    match r with
    | .data bs =>
      if bs.length < 1 then (.again, w) else fetchLoop len (write db pos bs) (pos + bs.length) w
    | .closed | .failed => (.again, w)
    | .blocked => (.blocked, w)
  else (.again, w)
termination_by len - pos

/-- Takes the payload of `len` bytes that starts at `d`. Only one that is already in the
buffer is added to the store. -/
def putPayload (a : CString) (len d be : ℕ) (buf : Memory) (w : World) : Flow × World :=
  let found := malloc.alloc w.mallocs len
  let w := { w with mallocs := w.mallocs + 1 }
  match found with
  | none => refuse send w ERR
  | some db =>
    if d < be then
      let pos := be - d
      let w :=
        if len ≤ be - d then
          let data := read (fun j => buf (d + j)) len
          (send_buf send { w with store := obj_add a none (some data) len w.store } OK).2
        else w
      if len < be - d then (.leave, w)
      -- here an entry that was added is filled a second time, with the same bytes
      else fetchLoop len (write db 0 (read (fun j => buf (d + j)) pos)) pos w
    else fetchLoop len db 0 w

/-- `PUT` -/
def put (a : CString) (d : Option ℕ) (be : ℕ) (buf : Memory) (w : World) :
    Option (Flow × World) := do
  -- a null pointer is less than `be` and is followed
  let d ← d
  if d < be then
    let d ← skipWhile MAX_BUF isEol buf (d + 1)
    match ← putSize buf d with
    | none => pure (refuse send w INV)
    | some (len, d) =>
      if len > 0 then pure (putPayload send malloc a len.toNat d be buf w)
      else pure (reply send w UNSUPP)
  else pure (refuse send w INV)

def GET : List UInt8 := ascii "GET"
def HAS : List UInt8 := ascii "HAS"
def DEL : List UInt8 := ascii "DEL"
def PUT : List UInt8 := ascii "PUT"

/-- Acts on a command. -/
def perform (c : Command) (be : ℕ) (buf : Memory) (w : World) : Option (Flow × World) :=
  if c.cmd.bytes = GET ∨ c.cmd.bytes = HAS then get send (c.cmd.bytes = HAS) c.arg w
  else if c.cmd.bytes = DEL then del send c.arg w
  else if c.cmd.bytes = PUT then put send malloc c.arg c.d be buf w
  else some (reply send w UNSUPP)

/-! ### The loop -/

/-- A round, on what was received. -/
def request (buf : Memory) (bs : List UInt8) (w : World) : Option (Memory × Flow × World) := do
  let buf := write buf 0 (bs ++ [0])
  let (buf, c) ← commandLine buf
  match c with
  | none => pure (buf, .leave, w)
  | some c =>
    let (flow, w) ← perform send malloc c bs.length buf w
    pure (buf, flow, w)

/-- The loop of `do_process`. -/
def loop : ℕ → Memory → World → Option (Status × World)
  | 0, _, _ => none
  | n + 1, buf, w =>
    let (r, input) := recv (MAX_BUF - 1) w.input
    let w := { w with input := input }
    match r with
    | .blocked => some (.waiting, w)
    | .closed | .failed => some (.closed, w)
    | .data bs =>
      if bs.length < 1 then some (.closed, w)
      else do
        let (buf, flow, w) ← request send malloc buf bs w
        match flow with
        | .again => loop n buf w
        | .leave => pure (.closed, w)
        | .blocked => pure (.waiting, w)
        | .jumped => pure (.jumped, w)

/-- Serves a connection. Each round receives something, which bounds their number. -/
def do_process (w : World) : Option (Status × World) :=
  loop send malloc (w.input.bytes.length + 1) (fun _ => 0) w

end Tcp
end Osrv
