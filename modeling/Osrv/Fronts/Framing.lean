import Osrv.Fronts.Servable
import Osrv.Http.Response
import Osrv.Http.Stream

/-!
# Responses that end where the client expects it

A response is framed if a client that knows the request and whether the connection is
kept open finds its end, and nothing behind it. Most responses have no body and say so.
The others carry an entry: its bytes with their number, which `http_response` gets as an
`int`, or its value in the chunked coding, which is sent to clients of either version, or
nothing at all if it has neither.

`response_framed_iff` says for which entries this comes out well.
-/

namespace Osrv
namespace Fronts

open Bytes Net Obj Sfs Http

/-! ### Responses -/

/-- What the client knows of the response to a request. -/
def exchange (closes : Bool) (req : HttpRequest) : Message.Exchange :=
  ⟨req.method = some .HEAD, req.attr.HTTP_1_0, closes⟩

/-- Nothing went wrong, and what has been sent since `c` is one response with the body
`body`. -/
def Responds (x : Message.Exchange) (c : Conn) (w : Server) (body : List UInt8) : Prop :=
  w.fault = false ∧ ∃ response, w.conn.out = c.out ++ response ∧
    Message.readResponse x response = some (body, [])

/-- What has been sent decides. -/
theorem responds_iff {x : Message.Exchange} {c : Conn} {w : Server} {response body : List UInt8}
    (hout : w.conn.out = c.out ++ response) (hok : w.fault = false) :
    Responds x c w body ↔ Message.readResponse x response = some (body, []) := by
  constructor
  · rintro ⟨-, response', hout', hread⟩
    obtain rfl := List.append_cancel_left (hout.symm.trans hout')
    exact hread
  · exact fun h => ⟨hok, response, hout, h⟩

section Responses

variable {send : SendFn} {malloc : Malloc} {garbage : ℕ → Option Garbage} {attr : Attr}
  {w : Server}

theorem text_plain : Text textPlain := ⟨by decide, by decide⟩

theorem text_octet : Text octetStream := ⟨by decide, by decide⟩

theorem writable_status {code : ℕ} {txt : List UInt8} (hcode : code < 1000) (htxt : Text txt) :
    Writable code txt textPlain 0 [] :=
  ⟨hcode, htxt, text_plain, by decide, fun _ h => absurd h List.not_mem_nil, by decide⟩

theorem statusOnly_sends (hs : send.Succeeds) {code : ℕ} {txt : List UInt8} (hcode : code < 1000)
    (htxt : Text txt) (attr : Attr) (w : Server) :
    ∃ k, statusOnly send attr code txt w = { w with
      conn := ⟨k, w.conn.out ++ Message.writeHead
        (statusLine attr code txt :: fields textPlain 0 [])⟩ } :=
  http_response_sends hs (writable_status hcode htxt) attr w

/-- The head of a response without a body says so. -/
theorem readBody_status (x : Message.Exchange) (rest : List UInt8) :
    Message.readBody x (fields textPlain 0 []) rest = some ([], rest) := by
  cases hx : x.head with
  | true => exact Message.readBody_head hx rest
  | false =>
    obtain ⟨hplain, hlength⟩ := fields_length textPlain (by decide)
      (show ¬ (0 : ℤ) < 0 by decide)
    exact (Message.readBody_length hx hplain hlength rest).trans (if_pos (Nat.zero_le _))

/-- A response without a body ends with its head. -/
theorem statusOnly_responds (hs : send.Succeeds) (hok : w.fault = false) (attr : Attr)
    {code : ℕ} {txt : List UInt8} (hcode : code < 1000) (htxt : Text txt)
    (x : Message.Exchange) : Responds x w.conn (statusOnly send attr code txt w) [] := by
  obtain ⟨k, hk⟩ := statusOnly_sends hs hcode htxt attr w
  rw [hk]
  refine ⟨hok, _, rfl, ?_⟩
  have hread := (writable_status hcode htxt).read attr x []
  rw [List.append_nil] at hread
  rw [hread, readBody_status]

theorem pushWork_responds (hs : send.Succeeds) (hok : w.fault = false) (req : HttpRequest)
    (x : Message.Exchange) : Responds x w.conn (pushWork send malloc req w).2 [] := by
  unfold pushWork
  split
  · exact statusOnly_responds hs hok _ (by decide) ⟨by decide, by decide⟩ x
  · split
    · exact statusOnly_responds hs hok _ (by decide) ⟨by decide, by decide⟩ x
    · split
      · exact statusOnly_responds hs hok _ (by decide) ⟨by decide, by decide⟩ x
      · dsimp only
        split
        · exact statusOnly_responds (w := { w with allocs := w.allocs + 1, queue := _ }) hs hok _
            (by decide) ⟨by decide, by decide⟩ x
        · exact statusOnly_responds (w := { w with allocs := w.allocs + 1 }) hs hok _
            (by decide) ⟨by decide, by decide⟩ x

theorem otherRequest_responds (hs : send.Succeeds) (hok : w.fault = false) (path : CString)
    (req : HttpRequest) (x : Message.Exchange) :
    Responds x w.conn (otherRequest send malloc path req w).2 [] := by
  unfold otherRequest
  split
  · split
    · exact pushWork_responds hs hok req x
    · exact statusOnly_responds hs hok _ (by decide) ⟨by decide, by decide⟩ x
  · exact statusOnly_responds hs hok _ (by decide) ⟨by decide, by decide⟩ x

theorem putData_responds (hs : send.Succeeds) (hok : w.fault = false) (key : CString)
    (req : HttpRequest) (x : Message.Exchange) :
    Responds x w.conn (putData send key req w).2 [] :=
  statusOnly_responds (w := { w with store := _ }) hs hok _ (by decide) ⟨by decide, by decide⟩ x

theorem deleteData_responds (hs : send.Succeeds) (hok : w.fault = false) {key : CString}
    {o : Heap.Ptr} {store : Objects} (hget : obj_get key true w.store = some (o, store))
    (x : Message.Exchange) : Responds x w.conn (deleteData send attr key w) [] := by
  simp only [deleteData, hget]
  split
  · exact statusOnly_responds (w := { w with store := store }) hs hok _ (by decide)
      ⟨by decide, by decide⟩ x
  · exact statusOnly_responds (w := { w with store := store }) hs hok _ (by decide)
      ⟨by decide, by decide⟩ x

/-! ### Entries -/

/-- **The length as an `int`** is the length below 2^31, and not negative above if its
low half is not. -/
theorem toInt_eq (n : ℕ) :
    toInt n = if n % 2 ^ 32 < 2 ^ 31 then ((n % 2 ^ 32 : ℕ) : ℤ)
      else ((n % 2 ^ 32 : ℕ) : ℤ) - 2 ^ 32 := by
  rw [toInt, BitVec.toInt_eq_toNat_cond, BitVec.toNat_ofNat]
  split <;> split <;> omega

/-- The head in front of an entry. -/
def objectHead (attr : Attr) (content_length : ℤ) (headers : List (List UInt8)) : List UInt8 :=
  Message.writeHead (statusLine attr 200 (ascii "OK")
    :: fields octetStream content_length headers)

theorem writable_object (n : ℕ) : Writable 200 (ascii "OK") octetStream (toInt n) [] := by
  refine ⟨by decide, ⟨by decide, by decide⟩, text_octet, ?_, fun _ h => absurd h List.not_mem_nil,
    by decide⟩
  rw [toInt_eq]
  split <;> omega

theorem writable_chunked : Writable 200 (ascii "OK") octetStream (-1) [chunkedLine] := by
  refine ⟨by decide, ⟨by decide, by decide⟩, text_octet, by decide, fun line h => ?_, by decide⟩
  obtain rfl := List.mem_singleton.mp h
  exact ⟨by decide, by decide, by decide⟩

theorem sendObject_sends (hs : send.Succeeds) {bytes : List UInt8} {len : ℕ}
    (hlen : bytes.length = len) (w : Server) :
    ∃ k, sendObject send (some bytes) len w
      = { w with conn := ⟨k, w.conn.out ++ bytes⟩ } := by
  subst hlen
  unfold sendObject
  split
  · next hzero =>
    rw [List.length_eq_zero_iff.mp hzero, List.append_nil]
    exact ⟨w.conn.calls, rfl⟩
  · obtain ⟨k, hk⟩ := http_send_ok hs w.conn bytes
    refine ⟨k, ?_⟩
    dsimp only
    rw [if_neg (Nat.lt_irrefl _), List.take_length, hk]

section Found

variable {key : CString} {a : Heap.Addr} {cell : Heap.Cell ObjEntry} {closes : Bool}
  {req : HttpRequest} {body : List UInt8}

variable (garbage) in
/-- Bytes are sent with their number. -/
theorem getData_raw (hs : send.Succeeds)
    (hget : obj_get key false w.store = some (some a, w.store))
    (hload : w.store.heap.load a = some cell) {bytes : List UInt8}
    (hobj : cell.val.obj = some bytes) (hlen : bytes.length = cell.val.len) (attr : Attr) :
    ∃ k, getData send garbage true attr key w = { w with
      conn := ⟨k, w.conn.out ++ (objectHead attr (toInt bytes.length) [] ++ bytes)⟩ } := by
  obtain ⟨k, hk⟩ := http_response_sends hs (writable_object cell.val.len) attr w
  change http_response send attr 200 (ascii "OK") octetStream (toInt cell.val.len) [] w = _ at hk
  obtain ⟨k', hk'⟩ := sendObject_sends hs hlen
    { w with conn := ⟨k, w.conn.out ++ objectHead attr (toInt cell.val.len) []⟩ }
  refine ⟨k', ?_⟩
  simp only [getData, hget, hload, hobj, Option.isSome_some, if_true, hk]
  rw [hlen, ← List.append_assoc]
  exact hk'

/-- The client takes as many bytes as the head says. -/
theorem read_raw {x : Message.Exchange} (hx : x.head = false) (attr : Attr)
    (bytes : List UInt8) :
    Message.readResponse x (objectHead attr (toInt bytes.length) [] ++ bytes) = some (body, []) ↔
      body = bytes ∧ (bytes.length < 2 ^ 31 ∨
        x.closes = true ∧ 2 ^ 31 ≤ bytes.length % 2 ^ 32) := by
  rw [objectHead, (writable_object bytes.length).read]
  have hint := toInt_eq bytes.length
  by_cases hneg : toInt bytes.length < 0
  · obtain ⟨hplain, hnone⟩ := fields_open octetStream (by decide) hneg
    rw [Message.readBody_open hx hplain hnone]
    have hlow : 2 ^ 31 ≤ bytes.length % 2 ^ 32 := by
      split at hint <;> omega
    have hge : ¬ bytes.length < 2 ^ 31 := by omega
    by_cases hcloses : x.closes = true
    · rw [if_pos hcloses, Option.some.injEq, Prod.mk.injEq]
      exact ⟨fun h => ⟨h.1.symm, Or.inr ⟨hcloses, hlow⟩⟩, fun h => ⟨h.1.symm, rfl⟩⟩
    · rw [if_neg hcloses]
      refine ⟨fun h => (by cases h), ?_⟩
      rintro ⟨-, hsmall | ⟨hopen, -⟩⟩
      · exact absurd hsmall hge
      · exact absurd hopen hcloses
  · obtain ⟨hplain, hlength⟩ := fields_length octetStream (by decide) hneg
    rw [Message.readBody_length hx hplain hlength]
    have hnum : (toInt bytes.length).toNat = bytes.length % 2 ^ 32 ∧
        bytes.length % 2 ^ 32 < 2 ^ 31 := by
      split at hint <;> omega
    have hle : bytes.length % 2 ^ 32 ≤ bytes.length := Nat.mod_le _ _
    rw [hnum.1, if_pos hle, Option.some.injEq, Prod.mk.injEq, List.drop_eq_nil_iff]
    constructor
    · rintro ⟨rfl, hdrop⟩
      have heq : bytes.length % 2 ^ 32 = bytes.length := Nat.le_antisymm hle hdrop
      exact ⟨by rw [heq, List.take_length], Or.inl (by omega)⟩
    · rintro ⟨hbody, hsmall | ⟨-, hlow⟩⟩
      · have heq : bytes.length % 2 ^ 32 = bytes.length := Nat.mod_eq_of_lt (by omega)
        exact ⟨by rw [heq, List.take_length, hbody], Nat.le_of_eq heq.symm⟩
      · omega

variable (garbage) in
/-- A value is streamed behind its head. -/
theorem getData_stream (hs : send.Succeeds)
    (hget : obj_get key false w.store = some (some a, w.store))
    (hload : w.store.heap.load a = some cell) {v : SEXP} (hobj : cell.val.obj = none)
    (hvalue : cell.val.sWhat = some v) (attr : Attr) :
    ∃ k, getData send garbage true attr key w = streamObject send garbage v { w with
      conn := ⟨k, w.conn.out ++ objectHead attr (-1) [chunkedLine]⟩ } := by
  obtain ⟨k, hk⟩ := http_response_sends hs writable_chunked attr w
  rw [joinLines_chunked] at hk
  refine ⟨k, ?_⟩
  simp only [getData, hget, hload, hobj, hvalue]
  rw [hk]
  rfl

/-- Streaming is what it is on a fresh connection. -/
theorem streamObject_eq (send : SendFn) (garbage : ℕ → Option Garbage) (v : SEXP) (w : Server) :
    streamObject send garbage v w = { w with
      conn := w.conn.behind
        (http_store (send.from w.conn.calls) ⟨0, []⟩ (garbage w.allocs) v).2.2
      allocs := w.allocs + 1
      fault := w.fault || (http_store (send.from w.conn.calls) ⟨0, []⟩
        (garbage w.allocs) v).2.1.any StoreApi.overrun } := by
  rw [streamObject, http_store_behind]
  simp only [Option.any_map]
  rfl

variable (garbage) in
/-- **A streamed value** is framed for version 1.1, if there is memory in which it does
not overrun the buffer. -/
theorem stream_responds_iff (hs : send.Succeeds) (hok : w.fault = false) (v : SEXP)
    {x : Message.Exchange} (hx : x.head = false) (attr : Attr) (k : ℕ) :
    (∃ body, Responds x w.conn (streamObject send garbage v { w with
      conn := ⟨k, w.conn.out ++ objectHead attr (-1) [chunkedLine]⟩ }) body) ↔
      x.http10 = false ∧
        ∃ g, garbage w.allocs = some g ∧ Fits g.len g.pos (pieces v) = true := by
  have hread : ∀ rest, Message.readResponse x (objectHead attr (-1) [chunkedLine] ++ rest)
      = if x.http10 = false then (Chunked.decode rest).map fun r => (r.1.flatten, r.2)
        else none := fun rest => by
    rw [objectHead, writable_chunked.read,
      Message.readBody_chunked hx (fields_chunked octetStream (by decide))]
  rw [streamObject_eq]
  dsimp only
  have hout : ∀ c : Conn, (Conn.behind ⟨k, w.conn.out ++ objectHead attr (-1) [chunkedLine]⟩ c).out
      = w.conn.out ++ (objectHead attr (-1) [chunkedLine] ++ c.out) := fun c => by
    rw [Conn.behind, List.append_assoc]
  cases hg : garbage w.allocs with
  | none =>
    -- no memory, and no body
    constructor
    · rintro ⟨body, hresponds⟩
      have hresponse := ((responds_iff (hout _) (by rw [hok]; rfl)).mp hresponds)
      rw [hread] at hresponse
      split at hresponse
      · have hnil : Chunked.decode [] = none := by
          rw [Chunked.decode]
          rfl
        change (Chunked.decode []).map _ = _ at hresponse
        rw [hnil] at hresponse
        cases hresponse
      · cases hresponse
    · rintro ⟨-, g, hsome, -⟩
      cases hsome
  | some g =>
    have hover := sfs_store_overrun (hs.from k) ⟨0, []⟩ g v
    by_cases hfits : Fits g.len g.pos (pieces v) = true
    · obtain ⟨api, conn, chunks, hrun, hinside, hdecode, -⟩ :=
        http_store_sends (hs.from k) (hover.mpr hfits)
      -- the body is one chunk for each flush, so that the peer reads it back
      rw [hrun]
      have hfault : (w.fault || (some api).any StoreApi.overrun) = false := by
        rw [hok, Option.any_some, hinside]
        rfl
      constructor
      · rintro ⟨body, hresponds⟩
        have hresponse := (responds_iff (hout conn) hfault).mp hresponds
        rw [hread] at hresponse
        split at hresponse
        · next h11 => exact ⟨h11, g, rfl, hfits⟩
        · cases hresponse
      · rintro ⟨h11, -⟩
        refine ⟨chunks.flatten, (responds_iff (hout conn) hfault).mpr ?_⟩
        rw [hread, if_pos h11, hdecode]
        rfl
    · constructor
      · -- a copy, or what was sent, has gone past the buffer
        rintro ⟨body, hfault, -⟩
        rw [http_store_api, Option.any_some, Bool.or_eq_false_iff] at hfault
        exact absurd (hover.mp hfault.2) hfits
      · rintro ⟨-, g', hg', hfits'⟩
        obtain rfl := Option.some.inj hg'
        exact absurd hfits' hfits

variable (garbage) in
/-- An entry with neither is announced without a length, and a null pointer is not
followed for no bytes. -/
theorem bare_responds_iff (hs : send.Succeeds) (hok : w.fault = false)
    (hget : obj_get key false w.store = some (some a, w.store))
    (hload : w.store.heap.load a = some cell) (hobj : cell.val.obj = none)
    (hvalue : cell.val.sWhat = none) {x : Message.Exchange} (hx : x.head = false) (attr : Attr) :
    (∃ body, Responds x w.conn (getData send garbage true attr key w) body) ↔
      cell.val.len = 0 ∧ x.closes = true := by
  have hminus : toInt (toObjLen (-1)) = -1 := by
    rw [toInt_eq, toObjLen]
    rfl
  obtain ⟨k, hk⟩ := http_response_sends hs (writable_object (toObjLen (-1))) attr w
  rw [hminus] at hk
  change http_response send attr 200 (ascii "OK") octetStream (-1) [] w = _ at hk
  -- the head is sent with a length of -1, and then what `len` says
  have hrun : getData send garbage true attr key w = sendObject send none cell.val.len { w with
      conn := ⟨k, w.conn.out ++ objectHead attr (-1) []⟩ } := by
    simp only [getData, hget, hload, hobj, hvalue, Option.isSome_none, Bool.false_eq_true, if_false,
      if_true, hminus]
    rw [hk]
    rfl
  -- a head without a length is read up to the end of the connection
  have hread : Message.readResponse x (objectHead attr (-1) [])
      = if x.closes then some ([], []) else none := by
    have hwritable := writable_object (toObjLen (-1))
    rw [hminus] at hwritable
    obtain ⟨hplain, hnone⟩ := fields_open octetStream (by decide) (show (-1 : ℤ) < 0 by decide)
    have hbody := hwritable.read attr x []
    rw [List.append_nil, Message.readBody_open hx hplain hnone] at hbody
    exact hbody
  obtain ⟨w', hw', hout, hok'⟩ : ∃ w' : Server, w' = { w with
      conn := ⟨k, w.conn.out ++ objectHead attr (-1) []⟩ } ∧
      w'.conn.out = w.conn.out ++ objectHead attr (-1) [] ∧ w'.fault = false := ⟨_, rfl, rfl, hok⟩
  rw [hrun, ← hw']
  unfold sendObject
  by_cases hlen : cell.val.len = 0
  -- nothing is sent behind it
  · rw [if_pos hlen]
    constructor
    · rintro ⟨body, hresponds⟩
      have hresponse := (responds_iff hout hok').mp hresponds
      rw [hread] at hresponse
      split at hresponse
      · next hcloses => exact ⟨hlen, hcloses⟩
      · cases hresponse
    · rintro ⟨-, hcloses⟩
      exact ⟨[], (responds_iff hout hok').mpr (by rw [hread, if_pos hcloses])⟩
  -- the null pointer is followed
  · rw [if_neg hlen]
    constructor
    · rintro ⟨body, hfault, -⟩
      cases hfault
    · exact fun h => absurd h.1 hlen

variable (garbage) in
/-- For `HEAD` the head goes out alone. -/
theorem getData_head (hs : send.Succeeds)
    (hget : obj_get key false w.store = some (some a, w.store))
    (hload : w.store.heap.load a = some cell) (attr : Attr) :
    ∃ n k, getData send garbage false attr key w
      = { w with conn := ⟨k, w.conn.out ++ objectHead attr (toInt n) []⟩ } := by
  have hlen : ∃ n, getData send garbage false attr key w
      = http_response send attr 200 (ascii "OK") octetStream (toInt n) [] w := by
    refine ⟨if cell.val.obj.isSome then cell.val.len else toObjLen (-1), ?_⟩
    cases hobj : cell.val.obj <;> simp only [getData, hget, hload, hobj] <;> rfl
  obtain ⟨n, hrun⟩ := hlen
  obtain ⟨k, hk⟩ := http_response_sends hs (writable_object n) attr w
  exact ⟨n, k, hrun.trans hk⟩

variable (garbage) in
/-- `HEAD` is answered without a body. -/
theorem head_responds (hs : send.Succeeds) (hok : w.fault = false)
    (hget : obj_get key false w.store = some (some a, w.store))
    (hload : w.store.heap.load a = some cell) {x : Message.Exchange} (hx : x.head = true)
    (attr : Attr) : Responds x w.conn (getData send garbage false attr key w) [] := by
  obtain ⟨n, k, hrun⟩ := getData_head garbage hs hget hload attr
  rw [hrun]
  refine ⟨hok, _, rfl, ?_⟩
  have hread := (writable_object n).read attr x []
  rw [List.append_nil, Message.readBody_head hx] at hread
  exact hread

variable (garbage) in
/-- A missing object is answered without a body. -/
theorem missing_responds (hs : send.Succeeds) (hok : w.fault = false) (get : Bool)
    (hget : obj_get key false w.store = some (none, w.store)) (x : Message.Exchange)
    (attr : Attr) : Responds x w.conn (getData send garbage get attr key w) [] := by
  simp only [getData, hget]
  exact statusOnly_responds hs hok attr (by decide) ⟨by decide, by decide⟩ x

end Found

end Responses

/-! ### Every request -/

/-- The request is a `GET` of the entry with the given contents. -/
def Gets (req : HttpRequest) (s : Objects) (e : ObjEntry) : Prop :=
  req.method = some .GET ∧ ∃ path, req.path = some path ∧ under dataPrefix path = true ∧
    ∃ a cell, obj_get (keyOf path) false s = some (some a, s) ∧
      s.heap.load a = some cell ∧ cell.val = e

/-- **A framed response.** What the handler sends is one response, whose end the client
finds, and with the bytes of an entry as its body. `closes` says whether the server closes
the connection behind it. -/
def Answered (closes : Bool) (c : HttpCall) (s : Objects) : Prop :=
  ∃ body, Responds (exchange closes c.req) c.conn (c.after s) body ∧
    ∀ e, Gets c.req s e → ∀ bytes, e.obj = some bytes → body = bytes

/-- The entries that a `GET` can be answered with: bytes whose number is positive as an
`int`, or looks negative on a connection that is closed; for a client of version 1.1 a
value that is streamed out of good memory; nothing on a connection that is closed. -/
def Answerable (closes : Bool) (c : HttpCall) (e : ObjEntry) : Prop :=
  match e.obj, e.sWhat with
  | some _, _ => e.len < 2 ^ 31 ∨ closes = true ∧ 2 ^ 31 ≤ e.len % 2 ^ 32
  | none, some v => c.req.attr.HTTP_1_0 = false ∧
      ∃ g, c.garbage c.allocs = some g ∧ Fits g.len g.pos (pieces v) = true
  | none, none => e.len = 0 ∧ closes = true

section KeptOpen

variable (send : SendFn) (malloc : Malloc) (garbage : ℕ → Option Garbage)

theorem pushWork_attr (req : HttpRequest) (w : Server) :
    (pushWork send malloc req w).1.attr = req.attr := by
  unfold pushWork
  split
  · rfl
  · split
    · rfl
    · split
      · rfl
      · dsimp only
        split <;> rfl

theorem otherRequest_attr (path : CString) (req : HttpRequest) (w : Server) :
    (otherRequest send malloc path req w).1.attr = req.attr := by
  unfold otherRequest
  split
  · split
    · exact pushWork_attr send malloc req w
    · rfl
  · rfl

/-- The handler does not touch what decides on the connection. -/
theorem http_process_frame (req : HttpRequest) (w : Server) :
    (http_process send malloc garbage req w).1 = false ∧
      (http_process send malloc garbage req w).2.1.attr = req.attr := by
  unfold http_process
  split
  · exact ⟨rfl, rfl⟩
  · split
    · refine ⟨rfl, ?_⟩
      dsimp only [dataRequest]
      split
      · rfl
      · rfl
      · rfl
      · rfl
      · rw [otherRequest_attr]
    · exact ⟨rfl, otherRequest_attr ..⟩

/-- **The server closes the connection** if the request says so or is of version 1.0, and
if something is left in the line buffer behind a body. The handler has no part in that. -/
theorem kept_open_iff (site : Site) (double : Bool) {c : Connection Server} (hs : c.s = true) :
    (finish double (process_request malloc (http_process send malloc garbage) site c)).s = true ↔
      c.request.attr.CONNECTION_CLOSE = false ∧ c.request.attr.HTTP_1_0 = false ∧
        double = false := by
  obtain ⟨raw, hraw⟩ := passedRequest_frame malloc c
  obtain ⟨habort, hattr⟩ := http_process_frame send malloc garbage (passedRequest malloc c) c.world
  have hopen : (process_request malloc (http_process send malloc garbage) site c).s = true := by
    change (c.s && !(http_process send malloc garbage _ _).1) = true
    rw [hs, habort]
    rfl
  have hclose : (process_request malloc (http_process send malloc garbage) site
      c).request.attr.CONNECTION_CLOSE
      = (c.request.attr.CONNECTION_CLOSE || c.request.attr.HTTP_1_0) := by
    change (fin_request (http_process send malloc garbage _ _).2.1).attr.CONNECTION_CLOSE = _
    rw [hraw] at hattr ⊢
    unfold fin_request
    rw [hattr]
    cases c.request.attr.HTTP_1_0 with
    | true => simp
    | false => simp [hattr]
  unfold finish
  rw [hclose]
  cases c.request.attr.CONNECTION_CLOSE <;> cases c.request.attr.HTTP_1_0 <;> cases double <;>
    simp [hopen, http_close]

end KeptOpen

section Every

variable {c : HttpCall} {s : Objects} {closes : Bool}

/-- A `GET` of an entry is answered if the entry can be. -/
theorem get_answered_iff (hs : c.send.Succeeds) {path : CString} {a : Heap.Addr}
    {cell : Heap.Cell ObjEntry} (hsized : Sized cell.val)
    (hpath : c.req.path = some path) (hunder : under dataPrefix path = true)
    (hmethod : c.req.method = some .GET)
    (hget : obj_get (keyOf path) false s = some (some a, s)) (hload : s.heap.load a = some cell) :
    Answered closes c s ↔ Answerable closes c cell.val := by
  -- a `GET` has a body in its answer
  have hx : (exchange closes c.req).head = false := by
    rw [exchange, hmethod]
    rfl
  -- the entry that it gets is the one that is stored
  have hgets : ∀ e, Gets c.req s e ↔ e = cell.val := by
    intro e
    constructor
    · rintro ⟨-, path', hpath', -, a', cell', hget', hload', rfl⟩
      obtain rfl := Option.some.inj (hpath.symm.trans hpath')
      obtain rfl : a = a' := Option.some.inj (Prod.mk.inj (Option.some.inj
        (hget.symm.trans hget'))).1
      rw [Option.some.inj (hload.symm.trans hload')]
    · rintro rfl
      exact ⟨hmethod, path, hpath, hunder, a, cell, hget, hload, rfl⟩
  -- the front hands the call to `getData`
  have hafter : c.after s = getData c.send c.garbage true c.req.attr (keyOf path) (c.world s) := by
    rw [HttpCall.after, http_process]
    simp only [hpath, hunder, if_true, dataRequest, hmethod]
  rw [Answered, hafter]
  simp only [hgets, forall_eq]
  cases hobj : cell.val.obj with
  -- an entry with bytes: they are the body
  | some bytes =>
    have hlen := hsized bytes hobj
    obtain ⟨k, hrun⟩ := getData_raw c.garbage (w := c.world s) hs hget hload hobj hlen
      c.req.attr
    obtain ⟨w', hw', hout, hok⟩ : ∃ w', w' = getData c.send c.garbage true c.req.attr
        (keyOf path) (c.world s) ∧ w'.conn.out = c.conn.out ++
          (objectHead c.req.attr (toInt bytes.length) [] ++ bytes) ∧ w'.fault = false :=
      ⟨_, rfl, by rw [hrun]; rfl, by rw [hrun]; rfl⟩
    rw [← hw']
    simp only [responds_iff hout hok, read_raw hx, Answerable, hobj, ← hlen, Option.some.injEq,
      forall_eq']
    constructor
    · rintro ⟨body, ⟨-, h⟩, -⟩
      exact h
    · exact fun h => ⟨bytes, ⟨rfl, h⟩, rfl⟩
  -- an entry with a value, which is streamed, or without one
  | none =>
    simp only [reduceCtorEq, IsEmpty.forall_iff, implies_true, and_true]
    cases hvalue : cell.val.sWhat with
    | some v =>
      obtain ⟨k, hrun⟩ := getData_stream c.garbage (w := c.world s) hs hget hload hobj
        hvalue c.req.attr
      rw [hrun]
      have hiff := stream_responds_iff c.garbage (w := c.world s) hs rfl v hx
        c.req.attr k
      rw [Answerable]
      simp only [hobj, hvalue]
      exact hiff
    | none =>
      have hiff := bare_responds_iff c.garbage (w := c.world s) hs rfl hget hload hobj
        hvalue hx c.req.attr
      rw [Answerable]
      simp only [hobj, hvalue]
      exact hiff

/-- A request that gets no entry is answered by a response without a body. -/
theorem answered_of_responds (hno : ∀ e, ¬ Gets c.req s e)
    (h : Responds (exchange closes c.req) c.conn (c.after s) []) :
    Answered closes c s ↔ ∀ e, Gets c.req s e → Answerable closes c e :=
  iff_of_true ⟨[], h, fun e he => absurd he (hno e)⟩ fun e he => absurd he (hno e)

/-- Any request but a `GET` of an object. -/
theorem other_responds {xs ys : Entries (Option (List UInt8)) SEXP} (hrep : Rep s xs ys)
    (hs : c.send.Succeeds) {path : CString} (hpath : c.req.path = some path)
    (hother : ¬ (c.req.method = some .GET ∧ under dataPrefix path = true)) :
    Responds (exchange closes c.req) c.conn (c.after s) [] := by
  have hfind := hrep.obj_get_find (keyOf path)
  rw [HttpCall.after, http_process]
  simp only [hpath]
  by_cases hunder : under dataPrefix path = true
  · rw [if_pos hunder]
    dsimp only [dataRequest]
    split
    · next hmethod => exact absurd ⟨hmethod, hunder⟩ hother
    · next hmethod =>
      have hx : (exchange closes c.req).head = true := decide_eq_true hmethod
      cases ho : (xs.find? (hasKey (keyOf path))).map Prod.fst with
      | none =>
        rw [ho] at hfind
        exact missing_responds c.garbage (w := c.world s) hs rfl false hfind _ _
      | some a =>
        obtain ⟨pre, e, post, next, -, -, hcell⟩ := hrep.exists_found ho
        rw [ho] at hfind
        exact head_responds c.garbage (w := c.world s) hs rfl hfind hcell hx _
    · obtain ⟨store, hremove, -⟩ := hrep.obj_get_remove (keyOf path)
      exact deleteData_responds (w := c.world s) hs rfl hremove _
    · exact putData_responds (w := c.world s) hs rfl _ _ _
    · exact otherRequest_responds (w := c.world s) hs rfl _ _ _
  · rw [if_neg hunder]
    exact otherRequest_responds (w := c.world s) hs rfl _ _ _

/-- **Framed responses.** After every history of the store and for every request that the
connection loop passes to the handler, every send succeeding: the response is framed if
and only if the request has a path and, where it is a `GET` of an entry, the entry can be
answered. -/
theorem response_framed_iff {ops : List Op} (hrun : run ops = some s) (hs : c.send.Succeeds)
    (closes : Bool) : Answered closes c s ↔
      c.req.path ≠ none ∧ ∀ e, Gets c.req s e → Answerable closes c e := by
  have hsized := run_sized hrun
  cases hpath : c.req.path with
  | none =>
    -- the null pointer is followed
    refine iff_of_false ?_ fun h => h.1 rfl
    rintro ⟨body, ⟨hfault, -⟩, -⟩
    rw [HttpCall.after, http_process] at hfault
    simp only [hpath] at hfault
    cases hfault
  | some path =>
    refine Iff.trans ?_ (and_iff_right (Option.some_ne_none _)).symm
    by_cases hget : c.req.method = some .GET ∧ under dataPrefix path = true
    · obtain ⟨hmethod, hunder⟩ := hget
      obtain ⟨o, hfind, hentry⟩ := hsized.lookup (keyOf path)
      cases o with
      | some a =>
        obtain ⟨cell, hload, hlen⟩ := hentry a rfl
        rw [get_answered_iff hs hlen hpath hunder hmethod hfind hload]
        constructor
        · rintro h e ⟨-, path', hpath', -, a', cell', hfind', hload', rfl⟩
          obtain rfl := Option.some.inj (hpath.symm.trans hpath')
          obtain rfl : a = a' := Option.some.inj (Prod.mk.inj (Option.some.inj
            (hfind.symm.trans hfind'))).1
          rwa [← Option.some.inj (hload.symm.trans hload')]
        · exact fun h => h _ ⟨hmethod, path, hpath, hunder, a, cell, hfind, hload, rfl⟩
      | none =>
        refine answered_of_responds ?_ ?_
        · rintro e ⟨-, path', hpath', -, a', cell', hfind', -, -⟩
          obtain rfl := Option.some.inj (hpath.symm.trans hpath')
          cases hfind.symm.trans hfind'
        · have hresponds := missing_responds c.garbage (w := c.world s) hs rfl true hfind
            (exchange closes c.req) c.req.attr
          rw [HttpCall.after, http_process]
          simp only [hpath, hunder, if_true, dataRequest, hmethod]
          exact hresponds
    · obtain ⟨xs, ys, hrep, -⟩ := hsized
      refine answered_of_responds ?_ (other_responds hrep hs hpath hget)
      rintro e ⟨hmethod, path', hpath', hunder, -⟩
      obtain rfl := Option.some.inj (hpath.symm.trans hpath')
      exact hget ⟨hmethod, hunder⟩

end Every

/-- A store in which R has put three bytes. -/
def withBytes : Objects := C_put (cstr [107]) (rawVector [1, 2, 3]) false .init

/-- A response to a `GET` of them. -/
theorem response_framed_get : Answered true (bareCall true) withBytes ↔
    (bareRequest true).path ≠ none ∧
      ∀ e, Gets (bareRequest true) withBytes e → Answerable true (bareCall true) e := by
  have hrun : run [.put (cstr [107]) (rawVector [1, 2, 3]) false] = some withBytes := rfl
  exact response_framed_iff (c := bareCall true) hrun SendFn.whole_succeeds true

/-- A store in which R has put a value. -/
def withNull : Objects := C_put (cstr [107]) .NULL true .init

/-- **A coded body for version 1.0.** The value is streamed to a client that does not know
the coding. -/
theorem value_for_old_client :
    run [.put (cstr [107]) .NULL true] = some withNull ∧ (bareCall true).send.Succeeds ∧
      ¬ Answered true (bareCall true) withNull := by
  have hrun : run [.put (cstr [107]) .NULL true] = some withNull := rfl
  refine ⟨hrun, SendFn.whole_succeeds, fun h => ?_⟩
  have hload : withNull.heap.load 0 = some ⟨⟨0, none, some .NULL, cstr [107]⟩, none⟩ := rfl
  have hsized : Sized ⟨0, none, some .NULL, cstr [107]⟩ := fun bytes h => by cases h
  have hanswerable := (get_answered_iff (c := bareCall true) SendFn.whole_succeeds hsized rfl
    (by decide) rfl rfl hload).mp h
  cases hanswerable.1

end Fronts
end Osrv
