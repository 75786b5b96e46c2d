import Osrv.Http.Request
import Osrv.Net.Socket

/-!
# The connection loop

`http_input_iteration` of `http.c` and the loop around it. An iteration receives
into the line buffer behind what is left there from before, and processes the
complete lines. At the blank line it starts with the body or, if there is none,
calls the handler. Pointers into the line buffer are offsets; a byte is read
through `peek` and a position that would become negative is an error, so that
`none` stands for an access outside of the buffer or a loop that does not end.
Writes over the end of a header buffer are made by `collect_buffers` alone. They
do not end the run but set `overrun`: as long as it is `false` the heap is intact,
and what the theorems say of a connection they say of the code.

The handler is a parameter. It gets the request and its own world, returns what
it made of both, and says whether it has called `http_abort`. The log holds its
calls and the responses of the parser itself, whose sending is not checked.
`current` is not part of the program. It is what has been received for the
request that is being read.
-/

namespace Osrv
namespace Http

open Bytes Net

/-! ### The state -/

def LINE_BUF_SIZE : ℕ := 32768

/-- Why the handler is called: at the end of a request or at the end of the stream. -/
inductive Site
  | complete
  | hangup
  deriving DecidableEq

/-- What the parser does that can be seen: it calls the handler with a request, whose
header lines have been recorded, or sends a response. -/
inductive Event
  | process (site : Site) (req : HttpRequest) (recorded : List UInt8)
  | respond (buf : List UInt8)

/-- `struct http_connection` -/
structure Connection (σ : Type) extends Reading where
  /-- Whether the socket is still open. -/
  s : Bool
  line_buf : Memory
  line_pos : ℕ
  body_pos : ℕ
  /-- Whether `collect_buffers` has written behind the first buffer. -/
  overrun : Bool
  input : Input
  current : List UInt8
  world : σ
  log : List Event

/-- The handler. The first component says whether it has aborted the connection. -/
abbrev Handler (σ : Type) : Type := HttpRequest → σ → Bool × HttpRequest × σ

/-- How an iteration ends: it returns, or it waits in a call of `recv`. -/
inductive Iteration (α : Type)
  | ret (c : α)
  | blocked (c : α)

/-- How the scan of the line buffer ends: the function returns, or it goes on with the
body. -/
inductive Scanned (α : Type)
  | ret (c : α)
  | body (c : α)

variable {σ : Type} (malloc : Malloc) (process : Handler σ)

/-- Whether there is memory for a small object. -/
def Connection.room (c : Connection σ) (n : ℕ) : Bool := (malloc.alloc c.log.length n).isSome

/-! ### Responses -/

def http_close (c : Connection σ) : Connection σ := { c with s := false }

/-- Sends a response and closes the connection. -/
def refuse (c : Connection σ) (response : List UInt8) : Connection σ :=
  http_close { c with log := c.log ++ [.respond response] }

/-- The same, with the version in front. The text is short enough for one send. -/
def refuse_http (c : Connection σ) (text : List UInt8) : Connection σ :=
  refuse c (HTTP_SIG c.request.attr ++ text)

/-! ### Calling the handler -/

def sizeof_raw : ℕ := 16

/-- `collect_buffers`, and whether it writes behind the first buffer. All that the
buffers hold is copied to the data of the first one, and nothing to the result. The
structure has room for eight bytes more than its size says. -/
def collect_buffers (c : Connection σ) : Option Raw × Bool :=
  let len := c.headers.bytes.length
  match malloc.alloc c.log.length (sizeof_raw + len) with
  | none => (none, false)
  | some mem =>
    (some ⟨len, fun i => mem (i + 8)⟩,
      match c.headers with
      | [] => false
      | root :: _ => root.size + 8 < len)

/-- For HTTP/1.0 the connection is closed after the response. -/
def fin_request (req : HttpRequest) : HttpRequest :=
  if req.attr.HTTP_1_0 then { req with attr := { req.attr with CONNECTION_CLOSE := true } }
  else req

/-- The request as it is passed to the handler. -/
def passedRequest (c : Connection σ) : HttpRequest :=
  if c.headers.isEmpty then c.request
  else { c.request with headers := (collect_buffers malloc c).1 }

/-- Calls the handler. -/
def process_request (site : Site) (c : Connection σ) : Connection σ :=
  let req := passedRequest malloc c
  let (aborted, req', world) := process req c.world
  { c with
    request := fin_request req'
    s := c.s && !aborted
    overrun := c.overrun || (collect_buffers malloc c).2
    world := world
    log := c.log ++ [.process site req c.headers.bytes] }

/-- After a request the connection is kept open for the next one, unless either side
does not want that. `double` says that there is something left in the line buffer that
does not belong there. What is left is the start of the next request. -/
def finish (double : Bool) (c : Connection σ) : Connection σ :=
  if c.request.attr.CONNECTION_CLOSE || double then http_close c
  else { c with
    request := .cleared
    headers := []
    body_pos := 0
    part := .REQUEST
    current := read c.line_buf c.line_pos }

/-! ### The body -/

/-- Whether a line end is at the start of the line buffer. -/
def blankAt (c : Connection σ) : Bool :=
  c.line_buf 0 = 10 || c.line_buf 0 = 13 && c.line_buf 1 = 10

def lengthRequired : List UInt8 :=
  ascii " 411 length is required for non-empty body\r\nConnection: close\r\n\r\n"

/-- The last part of the function, for a request that has left the headers without a
body. -/
def emptyBody (c : Connection σ) : Option (Iteration (Connection σ)) :=
  if c.line_pos > 0 then
    -- only the end of a line may be there in place of a body
    if ¬ blankAt c then some (.ret (refuse_http c lengthRequired))
    else
      let c := process_request malloc process .complete c
      -- it is taken out of the buffer
      let sh := if c.line_buf 0 = 13 then 2 else 1
      let moved :=
        if c.line_pos ≤ sh then { c with line_pos := 0 }
        else { c with
          line_buf := write c.line_buf 0 (read (fun i => c.line_buf (i + sh)) (c.line_pos - sh))
          line_pos := c.line_pos - sh }
      some (.ret (if c.request.attr.CONNECTION_CLOSE then http_close c else finish false moved))
  -- nothing is there: one more call receives
  else if LINE_BUF_SIZE < c.line_pos + 1 then none
  else
    let (r, input) := recv (LINE_BUF_SIZE - c.line_pos - 1) c.input
    let c := { c with input := input }
    match r with
    | .blocked => some (.blocked c)
    | .failed => some (.ret (http_close c))
    | .closed => some (.ret (http_close (process_request malloc process .hangup c)))
    | .data bs =>
      let c := { c with line_buf := write c.line_buf c.line_pos bs, current := c.current ++ bs }
      some (.ret (if blankAt c then c else refuse_http c lengthRequired))

/-- The body is there as soon as it has the announced length. -/
def finishBody (c : Connection σ) : Connection σ :=
  if (c.body_pos : ℤ) = c.request.content_length then
    let c := process_request malloc process .complete c
    finish (c.line_pos ≠ 0) c
  else c

/-- The part of the function behind the line buffer. `rest` is what it ends with. -/
def bodyPart (rest : Connection σ → Option (Iteration (Connection σ))) (c : Connection σ) :
    Option (Iteration (Connection σ)) :=
  match c.part, c.request.body with
  | .BODY, some body =>
    if (c.body_pos : ℤ) < c.request.content_length then
      let (r, input) := recv (c.request.content_length - c.body_pos).toNat c.input
      let c := { c with input := input }
      match r with
      | .blocked => some (.blocked c)
      | .failed => some (.ret (http_close c))
      | .closed => some (.ret (http_close (process_request malloc process .hangup c)))
      | .data bs =>
        let c := { c with
          request := { c.request with body := some (write body c.body_pos bs) }
          -- the line buffer is not used in the body
          line_pos := 0
          body_pos := c.body_pos + bs.length
          current := c.current ++ bs }
        some (.ret (finishBody malloc process c))
    else some (.ret (finishBody malloc process c))
  | .BODY, none => rest c
  | _, _ => some (.ret c)

/-! ### The lines -/

def hostMissing : List UInt8 :=
  ascii " 400 Bad Request (Host: missing)\r\nConnection: close\r\n\r\n"

def bodyTooBig : List UInt8 :=
  ascii " 413 Request Entity Too Large (request body too big)\r\nConnection: close\r\n\r\n"

def getWithBody : List UInt8 := ascii " 400 Bad Request (GET/HEAD with body)\r\n\r\n"

def lineTooLong : List UInt8 := ascii " 413 Request entity too large\r\nConnection: close\r\n\r\n"

/-- Whether a body was announced. -/
def announced (req : HttpRequest) : Bool := req.attr.CONTENT_LENGTH && req.content_length ≠ 0

/-- Whether the request ends with the blank line. -/
def bodyless (req : HttpRequest) : Bool :=
  req.method = some .GET || req.method = some .HEAD || !req.attr.CONTENT_LENGTH
    || req.content_length = 0

/-- The memory for an announced body, with room for a terminator. A length out of range
gets none. -/
def allocBody (alloc : ℕ → Option Memory) (req : HttpRequest) : Option (Option Memory) :=
  if announced req then
    if req.content_length < 0 ∨ req.content_length > 2147483640 then none
    else (alloc (req.content_length.toNat + 1)).map some
  else some req.body

/-- Takes what follows the blank line, which ends at `s`. -/
def afterHeaders (s : ℕ) (c : Connection σ) : Option (Scanned (Connection σ)) :=
  if c.line_pos < s then none
  else
    -- the body part moves to the beginning of the buffer
    let c := { c with
      body_pos := 0
      part := .BODY
      line_buf := write c.line_buf 0 (read (fun i => c.line_buf (s + i)) (c.line_pos - s))
      line_pos := c.line_pos - s }
    if bodyless c.request then
      if c.request.attr.CONTENT_LENGTH ∧ c.request.content_length > 0 then
        some (.ret (refuse_http c getWithBody))
      else some (.ret (finish false (process_request malloc process .complete c)))
    else
      match c.request.body with
      | none => none
      | some body =>
        let n := if c.request.content_length < c.line_pos then c.request.content_length.toNat
          else c.line_pos
        some (.body { c with
          request := { c.request with body := some (write body 0 (read c.line_buf n)) }
          body_pos := n
          -- what is left over is not moved, it leads to a close
          line_pos := c.line_pos - n })

/-- The blank line, which ends at `s`. -/
def endHeaders (s : ℕ) (c : Connection σ) : Option (Scanned (Connection σ)) :=
  if ¬ c.request.attr.HTTP_1_0 ∧ ¬ c.request.attr.HOST_HEADER then
    some (.ret (refuse_http c hostMissing))
  else
    match allocBody (malloc.alloc c.log.length) c.request with
    | none => some (.ret (refuse_http c bodyTooBig))
    | some body =>
      afterHeaders malloc process s { c with request := { c.request with body := body } }

/-- A byte of a line. -/
def isText (b : UInt8) : Bool := b != 0 && b != 13 && b != 10

/-- A line that has not been received to its end moves to the beginning of the buffer. -/
def keepLine (bol : ℕ) (c : Connection σ) : Option (Connection σ) :=
  if bol = 0 then
    if c.line_pos < LINE_BUF_SIZE then some c else some (refuse_http c lineTooLong)
  else if c.line_pos < bol then none
  else some { c with
    line_buf := write c.line_buf 0 (read (fun i => c.line_buf (bol + i)) (c.line_pos - bol))
    line_pos := c.line_pos - bol }

/-- Ends a line with a NUL in the place of each byte of the line end. -/
def endLine (s : ℕ) (c : Connection σ) : Connection σ × ℕ :=
  let (c, s) :=
    if c.line_buf s = 13 then ({ c with line_buf := write c.line_buf s [0] }, s + 1) else (c, s)
  if c.line_buf s = 10 then ({ c with line_buf := write c.line_buf s [0] }, s + 1) else (c, s)

/-- The loop over the line buffer. -/
def scanLoop : ℕ → ℕ → Connection σ → Option (Scanned (Connection σ))
  | 0, _, _ => none
  | n + 1, s, c => do
    let b ← peek LINE_BUF_SIZE c.line_buf s
    if b = 0 then
      -- a buffer of complete lines only
      pure (.ret { c with line_pos := 0 })
    else if b = 10 then endHeaders malloc process (s + 1) c
    else if b = 13 && (← peek LINE_BUF_SIZE c.line_buf (s + 1)) = 10 then
      endHeaders malloc process (s + 2) c
    else
      let bol := s
      let s ← skipWhile LINE_BUF_SIZE isText c.line_buf s
      if (← peek LINE_BUF_SIZE c.line_buf s) = 0 then
        let c ← keepLine bol c
        pure (.ret c)
      else
        let (c, s) := endLine s c
        match line (c.room malloc) (stringAt LINE_BUF_SIZE c.line_buf bol) c.toReading with
        | .crash => none
        | .refuse response => pure (.ret (refuse c response))
        | .next rd => scanLoop n s { c with toReading := rd }

/-! ### An iteration -/

/-- Receives into the line buffer and scans it. -/
def linePart (c : Connection σ) : Option (Iteration (Connection σ) ⊕ Connection σ) :=
  if LINE_BUF_SIZE < c.line_pos + 1 then none
  else
    let (r, input) := recv (LINE_BUF_SIZE - c.line_pos - 1) c.input
    let c := { c with input := input }
    match r with
    | .blocked => some (.inl (.blocked c))
    | .failed => some (.inl (.ret (http_close c)))
    | .closed =>
      -- it makes sense only if there is the request line at least
      let c := if c.request.path.isSome then process_request malloc process .hangup c else c
      some (.inl (.ret (http_close c)))
    | .data bs => do
      let c := { c with
        line_buf := write c.line_buf c.line_pos (bs ++ [0])
        line_pos := c.line_pos + bs.length
        current := c.current ++ bs }
      match ← scanLoop malloc process LINE_BUF_SIZE 0 c with
      | .ret c => pure (.inl (.ret c))
      | .body c => pure (.inr c)

/-- An iteration with another last part. -/
def iterationWith (rest : Connection σ → Option (Iteration (Connection σ))) (c : Connection σ) :
    Option (Iteration (Connection σ)) :=
  if c.part = .BODY then bodyPart malloc process rest c
  else do
    match ← linePart malloc process c with
    | .inl r => pure r
    | .inr c => bodyPart malloc process rest c

/-- Receives data and processes it. -/
def http_input_iteration (c : Connection σ) : Option (Iteration (Connection σ)) :=
  iterationWith malloc process (emptyBody malloc process) c

/-- The state of a connection that was just accepted. The line buffer holds anything. -/
def Connection.init (line_buf : Memory) (input : Input) (world : σ) : Connection σ where
  toReading := .fresh
  s := true
  line_buf := line_buf
  line_pos := 0
  body_pos := 0
  overrun := false
  input := input
  current := []
  world := world
  log := []

/-- The states between two iterations. -/
inductive Reachable (c₀ : Connection σ) : Connection σ → Prop
  | start : Reachable c₀ c₀
  | step {c c' : Connection σ} (h : Reachable c₀ c) (hs : c.s = true)
      (hc : http_input_iteration malloc process c = some (.ret c')) : Reachable c₀ c'

/-- The loop of `http_connected`, with the state in which it waits or has ended. -/
def connectedLoop : ℕ → Connection σ → Option (Connection σ)
  | 0, _ => none
  | n + 1, c =>
    if c.s then
      match http_input_iteration malloc process c with
      | none => none
      | some (.blocked c) => some c
      | some (.ret c) => connectedLoop n c
    else some c

/-- Serves a connection. Each iteration receives something or closes the connection,
which bounds their number. -/
def http_connected (c : Connection σ) : Option (Connection σ) :=
  connectedLoop malloc process (c.input.bytes.length + 2) c

end Http
end Osrv
