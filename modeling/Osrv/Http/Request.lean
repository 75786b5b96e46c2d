import Osrv.Lib.Scan

/-!
# Requests and their lines

`requestLine` and `headerLine` are the two parts of `http_input_iteration` that
process a complete line. What they change is a `Reading`: the request, the part
of it that comes next and the buffers in which its header lines are recorded.
They work on the line as a string of its own. The code changes it in place, but
does not come back to a line once it has been processed.

Allocations can fail: `room n` says whether there is memory for `n` bytes. The
buffers are kept as what has been put into them.
-/

namespace Osrv
namespace Http

open Bytes

/-! ### The request -/

inductive Method
  | POST
  | GET
  | HEAD
  | PUT
  | DELETE
  | OTHER
  deriving DecidableEq

/-- The flags of `attr` that the parser sets. -/
structure Attr where
  CONNECTION_CLOSE : Bool
  HOST_HEADER : Bool
  HTTP_1_0 : Bool
  CONTENT_LENGTH : Bool
  CONTENT_TYPE : Bool
  CONTENT_FORM_UENC : Bool
  WS_UPGRADE : Bool
  deriving DecidableEq

def Attr.zero : Attr := ⟨false, false, false, false, false, false, false⟩

/-- `raw_t` -/
structure Raw where
  length : ℕ
  data : Memory

/-- `http_request_t` -/
structure HttpRequest where
  path : Option CString
  body : Option Memory
  content_type : Option CString
  content_length : ℤ
  method : Option Method
  attr : Attr
  ws_protocol : Option CString
  ws_version : Option CString
  ws_key : Option CString
  headers : Option Raw

/-- What `calloc` makes of a request, and `clear_http_request`. -/
def HttpRequest.cleared : HttpRequest :=
  ⟨none, none, none, 0, none, Attr.zero, none, none, none, none⟩

/-- The version that responses to a request start with. -/
def HTTP_SIG (attr : Attr) : List UInt8 :=
  if attr.HTTP_1_0 then ascii "HTTP/1.0" else ascii "HTTP/1.1"

/-! ### The header buffers -/

/-- A `struct buffer`: its size and what it holds. -/
structure Buffer where
  size : ℕ
  data : List UInt8

/-- The size of the structure itself. -/
def sizeof_buffer : ℕ := 32

/-- The chain of buffers, from the root to the tail that `c->headers` points to. -/
abbrev Chain : Type := List Buffer

/-- What the buffers hold together. -/
def Chain.bytes (hs : Chain) : List UInt8 := hs.flatMap Buffer.data

/-- Puts bytes behind what the tail holds. -/
def Chain.append (hs : Chain) (bs : List UInt8) : Chain :=
  match hs.getLast? with
  | some tail => hs.dropLast ++ [{ tail with data := tail.data ++ bs }]
  | none => hs

/-- The first buffer, if there is none yet. -/
def Chain.start (room : ℕ → Bool) (hs : Chain) : Chain :=
  if hs.isEmpty && room (sizeof_buffer + 1024) then [⟨1024, []⟩] else hs

/-- The loop that doubles the size of a new buffer. -/
def growTo (n needs : ℕ) : ℕ :=
  if 0 < needs ∧ needs ≤ n then growTo n (2 * needs) else needs
termination_by n + 1 - needs

/-- Records a header line. One that does not fit is continued in a new buffer. -/
def Chain.record (room : ℕ → Bool) (hs : Chain) (bol : List UInt8) : Chain :=
  match hs.getLast? with
  | none => hs
  | some tail =>
    let l := bol.length
    if l = 0 then hs
    else if tail.data.length + l + 1 > tail.size then
      let fits := tail.size - tail.data.length
      let needs := growTo (l + 1 - fits) 2048
      let hs := hs.append (bol.take fits)
      if room (sizeof_buffer + needs) then hs ++ [⟨needs, bol.drop fits ++ [10]⟩] else hs
    else hs.append (bol ++ [10])

/-! ### Processing a line -/

inductive Part
  | REQUEST
  | HEADER
  | BODY
  deriving DecidableEq

/-- What the lines of a request change. -/
structure Reading where
  request : HttpRequest
  part : Part
  headers : Chain

/-- The state before the first line. -/
def Reading.fresh : Reading := ⟨.cleared, .REQUEST, []⟩

/-- What a line comes to: the next line, or a response after which the connection is
closed, or a null pointer that is followed. -/
inductive LineResult
  | next (rd : Reading)
  | refuse (response : List UInt8)
  | crash

variable (room : ℕ → Bool)

/-- A copy of a string, or null. -/
def strdup (s : CString) : Option CString := if room (s.length + 1) then some s else none

/-- The method a request line starts with. -/
def methodOf (bol : List UInt8) : Option Method :=
  if (ascii "GET ").isPrefixOf bol then some .GET
  else if (ascii "PUT ").isPrefixOf bol then some .PUT
  else if (ascii "POST ").isPrefixOf bol then some .POST
  else if (ascii "HEAD ").isPrefixOf bol then some .HEAD
  else if (ascii "DELETE ").isPrefixOf bol then some .DELETE
  else none

/-- The request line. -/
def requestLine (bol : CString) (rd : Reading) : LineResult :=
  let line := bol.bytes
  let rll := bol.length
  if 32 ∉ line ∨ rll < 14 ∨ (line.drop (rll - 9)).take 8 ≠ ascii " HTTP/1." then
    .refuse (ascii "HTTP/1.0 400 Bad Request\r\n\r\n")
  else
    let mend := line.idxOf 32
    let attr := { rd.request.attr with
      HTTP_1_0 := rd.request.attr.HTTP_1_0 || line.drop (rll - 3) = ascii "1.0" }
    let method := (methodOf line).or rd.request.method
    let headers := rd.headers.start room
    match headers.getLast? with
    -- the buffer is used without a check
    | none => .crash
    | some tail =>
      -- a method of another name is known only if the buffer has room for the name
      let fits : Bool := tail.data.length + 18 + mend ≤ tail.size
      let method := if fits then method.or (some .OTHER) else method
      let headers :=
        if fits then headers.append (ascii "Request-Method: " ++ line.take mend ++ [10])
        else headers
      match method with
      | none => .refuse (HTTP_SIG attr ++ ascii " 501 Invalid or unimplemented method\r\n\r\n")
      | some method =>
        -- the NUL goes in front of the version, which the target may be part of
        let path := cstr ((line.set (rll - 9) 0).drop (mend + 1))
        .next ⟨{ rd.request with
          attr := attr
          method := some method
          path := strdup room path }, .HEADER, headers⟩

/-- The fields the parser looks at. -/
def headerField (name value : List UInt8) (req : HttpRequest) : HttpRequest :=
  if name = ascii "upgrade" then
    if value = ascii "websocket" then { req with attr := { req.attr with WS_UPGRADE := true } }
    else req
  else if name = ascii "content-length" then
    { req with
      attr := { req.attr with CONTENT_LENGTH := true }
      content_length := atol (cstr value) }
  else if name = ascii "content-type" then
    -- lower case up to the first semicolon
    let value := (value.takeWhile (· ≠ 59)).map lower ++ value.dropWhile (· ≠ 59)
    { req with
      attr := { req.attr with
        CONTENT_TYPE := true
        CONTENT_FORM_UENC := req.attr.CONTENT_FORM_UENC
          || (ascii "application/x-www-form-urlencoded").isPrefixOf value }
      content_type := strdup room (cstr value) }
  else if name = ascii "host" then { req with attr := { req.attr with HOST_HEADER := true } }
  else if name = ascii "connection" then
    { req with attr := { req.attr with
      CONNECTION_CLOSE := req.attr.CONNECTION_CLOSE
        || (ascii "close").isPrefixOf (value.map lower) } }
  else if name = ascii "sec-websocket-key" then
    { req with ws_key := strdup room (cstr value) }
  else if name = ascii "sec-websocket-protocol" then
    { req with ws_protocol := strdup room (cstr value) }
  else if name = ascii "sec-websocket-version" then
    { req with ws_version := strdup room (cstr value) }
  else req

/-- A header line. One without a colon is only recorded. -/
def headerLine (bol : CString) (rd : Reading) : LineResult :=
  let line := bol.bytes
  let headers := (rd.headers.start room).record room line
  let name := (line.takeWhile (· ≠ 58)).map lower
  match line.dropWhile (· ≠ 58) with
  | [] => .next { rd with headers := headers }
  | _ :: k =>
    let value := k.dropWhile fun b => b = 32 ∨ b = 9
    .next { rd with headers := headers, request := headerField room name value rd.request }

/-- A complete line, in the part of the request it belongs to. -/
def line (bol : CString) (rd : Reading) : LineResult :=
  match rd.part with
  | .REQUEST => requestLine room bol rd
  | .HEADER => headerLine room bol rd
  | .BODY => .next rd

end Http
end Osrv
