import Osrv.Http.Hcstore
import Osrv.Http.Input
import Osrv.Obj.Refine

/-!
# The request handler

`http_process` of `ohsrv.c`, the handler that the HTTP server passes to the
connection loop, and `http_response` of `http.c`. The handler answers from the
object store, changes it, or puts the body of a request on the work queue.

A null pointer that is followed, a string that is read beyond its end and a copy
that leaves its buffer set `fault`; what the real program does from there on is
not defined. The results of the sends are not looked at.
-/

namespace Osrv
namespace Http

open Bytes Net Obj Sfs

/-! ### The state -/

/-- What the handler acts on: the connection, the object store, the queue of the work
interface if there is one, and the calls of the allocator. -/
structure Server where
  conn : Conn
  store : Obj.Store (Option (List UInt8)) SEXP
  queue : Option (List (List UInt8))
  allocs : ℕ
  fault : Bool

/-- An access that the memory does not allow. -/
def Server.crash (w : Server) : Server := { w with fault := true }

variable (send : SendFn) (malloc : Malloc) (garbage : ℕ → Option Garbage)

/-! ### Responses -/

/-- The conversion of an unsigned number to `int`. -/
def toInt (n : ℕ) : ℤ := (BitVec.ofNat 32 n).toInt

/-- The conversion of a `long` to `obj_len_t`. -/
def toObjLen (n : ℤ) : ℕ := (n % 2 ^ 64).toNat

/-- The text of a response up to the blank line. A negative length is left out. -/
def responseText (attr : Attr) (code : ℕ) (txt content_type : List UInt8) (content_length : ℤ)
    (headers : List UInt8) : List UInt8 :=
  HTTP_SIG attr ++ 32 :: decimal code ++ 32 :: txt ++ ascii "\r\nContent-type: " ++ content_type
    ++ ascii "\r\n"
    ++ (if content_length < 0 then []
      else ascii "Content-length: " ++ decimal content_length.toNat ++ ascii "\r\n")
    ++ headers ++ ascii "\r\n"

/-- The longest text that fits the buffer of `http_response`. -/
def MAX_RESPONSE : ℕ := 511

/-- Sends a response up to the blank line. -/
def http_response (attr : Attr) (code : ℕ) (txt content_type : List UInt8) (content_length : ℤ)
    (headers : List UInt8) (w : Server) : Server :=
  { w with conn := (http_send send w.conn
      ((responseText attr code txt content_type content_length headers).take MAX_RESPONSE)).2 }

def textPlain : List UInt8 := ascii "text/plain"
def octetStream : List UInt8 := ascii "application/octet-stream"
def transferEncoding : List UInt8 := ascii "Transfer-Encoding: chunked\r\n"

/-- A response without a body. -/
def statusOnly (attr : Attr) (code : ℕ) (txt : List UInt8) (w : Server) : Server :=
  http_response send attr code txt textPlain 0 [] w

/-! ### Objects -/

/-- The bytes of a request body, if there is one. -/
def bodyBytes (req : HttpRequest) : Option (List UInt8) :=
  req.body.map fun mem => read mem req.content_length.toNat

/-- `http_send` of `len` bytes of an object. -/
def sendObject (obj : Option (List UInt8)) (len : ℕ) (w : Server) : Server :=
  if len = 0 then w
  else
    match obj with
    | none => w.crash
    | some bytes =>
      if bytes.length < len then w.crash
      else { w with conn := (http_send send w.conn (bytes.take len)).2 }

/-- Streams an R object as a chunked body. -/
def streamObject (sWhat : SEXP) (w : Server) : Server :=
  let (_, api, conn) := http_store send w.conn (garbage w.allocs) sWhat
  { w with
    conn := conn
    allocs := w.allocs + 1
    fault := w.fault || api.any StoreApi.overrun }

/-- `GET` and `HEAD`. -/
def getData (get : Bool) (attr : Attr) (key : CString) (w : Server) : Server :=
  match obj_get key false w.store with
  | none => w.crash
  | some (none, store) =>
    statusOnly send attr 404 (ascii "Object Not Found") { w with store := store }
  | some (some a, store) =>
    let w := { w with store := store }
    match store.heap.load a with
    | none => w.crash
    | some cell =>
      match get, cell.val.obj, cell.val.sWhat with
      | true, none, some sWhat =>
        streamObject send garbage sWhat
          (http_response send attr 200 (ascii "OK") octetStream (-1) transferEncoding w)
      | get, obj, _ =>
        -- the length is converted to `obj_len_t` by the other branch of the conditional
        let len := if obj.isSome then cell.val.len else toObjLen (-1)
        let w := http_response send attr 200 (ascii "OK") octetStream (toInt len) [] w
        if get then sendObject send obj cell.val.len w else w

/-- `DELETE` -/
def deleteData (attr : Attr) (key : CString) (w : Server) : Server :=
  match obj_get key true w.store with
  | none => w.crash
  | some (o, store) =>
    let w := { w with store := store }
    if o.isSome then statusOnly send attr 200 (ascii "OK") w
    else statusOnly send attr 404 (ascii "Object Not Found") w

/-- `PUT` takes the body over. -/
def putData (key : CString) (req : HttpRequest) (w : Server) : HttpRequest × Server :=
  let w := { w with
    store := obj_add key none (bodyBytes req) (toObjLen req.content_length) w.store }
  ({ req with body := none }, statusOnly send req.attr 200 (ascii "OK") w)

/-! ### The work queue -/

/-- The size of an entry of the queue. -/
def sizeof_ev_entry : ℕ := 48

/-- Puts the body of a request on the queue. -/
def pushWork (req : HttpRequest) (w : Server) : HttpRequest × Server :=
  match w.queue with
  | none => (req, statusOnly send req.attr 404 (ascii "No Queue") w)
  | some events =>
    match bodyBytes req with
    | none => (req, statusOnly send req.attr 403 (ascii "Invalid payload") w)
    | some payload =>
      if req.content_length < 1 then
        (req, statusOnly send req.attr 403 (ascii "Invalid payload") w)
      else
        let room := (malloc.alloc w.allocs sizeof_ev_entry).isSome
        let w := { w with allocs := w.allocs + 1 }
        -- the event takes the body over
        if room then
          ({ req with body := none },
            statusOnly send req.attr 200 (ascii "OK")
              { w with queue := some (events ++ [payload]) })
        else (req, statusOnly send req.attr 501 (ascii "Queue Push Failed") w)

/-! ### The handler -/

def dataPrefix : List UInt8 := ascii "/data/"
def workPrefix : List UInt8 := ascii "/work/"

/-- Whether the path of a request starts with the name of an interface. -/
def under (api : List UInt8) (path : CString) : Bool := api.isPrefixOf path.bytes

/-- The key ends at a slash or a question mark. -/
def keyOf (path : CString) : CString :=
  cstr ((path.bytes.drop 6).takeWhile fun c => c != 47 && c != 63)

/-- What is done for any other request. -/
def otherRequest (path : CString) (req : HttpRequest) (w : Server) : HttpRequest × Server :=
  if under workPrefix path then
    if req.method = some .POST then pushWork send malloc req w
    else (req, statusOnly send req.attr 405 (ascii "Method Not Allowed") w)
  else (req, statusOnly send req.attr 404 (ascii "Invalid API Path") w)

/-- What is done for an object. The path has been ended behind the key. -/
def dataRequest (key : CString) (req : HttpRequest) (w : Server) : HttpRequest × Server :=
  match req.method with
  | some .GET => (req, getData send garbage true req.attr key w)
  | some .HEAD => (req, getData send garbage false req.attr key w)
  | some .DELETE => (req, deleteData send req.attr key w)
  | some .PUT => putData send key req w
  | _ => otherRequest send malloc (cstr (dataPrefix ++ key.bytes)) req w

/-- The handler. It never aborts a connection. -/
def http_process : Handler Server := fun req w =>
  match req.path with
  | none => (false, req, w.crash)
  | some path =>
    if under dataPrefix path then
      let key := keyOf path
      (false, dataRequest send malloc garbage key
        { req with path := some (cstr (dataPrefix ++ key.bytes)) } w)
    else (false, otherRequest send malloc path req w)

end Http
end Osrv
