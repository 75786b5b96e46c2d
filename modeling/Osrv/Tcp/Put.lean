import Osrv.Tcp.Lines

/-!
# A PUT over TCP

What happens to a PUT whose command and size line are in the first piece
received. `request_put` follows the parser up to the start of the payload. From
there on there are two ways: a payload that has come in with the lines is added to
the store and acknowledged (`putPayload_whole`), and one that has not is received
to its end, but then neither added nor acknowledged (`putPayload_split`).
-/

namespace Osrv
namespace Tcp

open Bytes Net Obj Sfs

/-! ### The lines -/

/-- The command line and the size line. -/
def putHead (key : CString) (len : ℕ) : List UInt8 :=
  PUT ++ 32 :: (key.bytes ++ 10 :: (decimal len ++ [10]))

/-! ### The payload -/

section Payload

variable {send : SendFn} {malloc : Malloc} {key : CString} {buf db : Memory} {w : World}
  {len pos d be : ℕ} {payload : List UInt8}

/-- A payload that was received with the lines is added and acknowledged. -/
theorem putPayload_whole (hsend : send.Succeeds) (halloc : malloc.alloc w.mallocs len = some db)
    (hat : At buf d payload) (hlen : payload.length = len) (hpos : 0 < len) (hbe : be = d + len) :
    ∃ calls, putPayload send malloc key len d be buf w = (.again, { w with
      conn := ⟨calls, w.conn.out ++ OK⟩
      store := obj_add key none (some payload) len w.store
      mallocs := w.mallocs + 1 }) := by
  obtain ⟨calls, hcalls⟩ := sendAll_ok hsend (show 0 < MAX_SEND by decide) w.conn OK
  have hdata : read (fun j => buf (d + j)) len = payload := hlen ▸ hat.read_eq
  have hd : d < be := by omega
  have hroom : be - d = len := by omega
  refine ⟨calls, ?_⟩
  simp only [putPayload, halloc, hd, if_true, hroom, Nat.le_refl, hdata, send_buf, hcalls,
    Nat.lt_irrefl, if_false]
  rw [fetchLoop, if_neg (Nat.lt_irrefl _)]

/-- A payload that has come in is added whatever becomes of the reply, and whatever has come
in behind it. -/
theorem store_putPayload (send : SendFn) (halloc : malloc.alloc w.mallocs len = some db)
    {more : List UInt8} (hat : At buf d (payload ++ more)) (hlen : payload.length = len)
    (hpos : 0 < len) (hbe : d + len ≤ be) :
    (putPayload send malloc key len d be buf w).2.store
      = obj_add key none (some payload) len w.store := by
  have hdata : read (fun j => buf (d + j)) len = payload := hlen ▸ (at_append.mp hat).1.read_eq
  have hd : d < be := by omega
  have hroom : len ≤ be - d := by omega
  simp only [putPayload, halloc, hd, if_true, hroom, hdata, send_buf]
  split
  · rfl
  · next hover =>
    rw [fetchLoop, if_neg (by omega)]

/-- The loop receives the rest of a payload, and that is all it does: what comes in behind
the payload stays. -/
theorem fetchLoop_takes (rest : List Segment) {more : List Segment} {ending : Ending}
    (hinput : w.input = ⟨rest ++ more, ending⟩)
    (hbytes : (rest.flatMap Subtype.val).length = len - pos) :
    fetchLoop len db pos w = (.again, { w with input := ⟨more, ending⟩ }) := by
  induction hn : len - pos using Nat.strong_induction_on generalizing db pos w rest with
  | _ n ih =>
    rw [fetchLoop]
    split
    · next hlt =>
      have hneed : 0 < (if len - pos > FETCH_SIZE then FETCH_SIZE else len - pos) := by
        split
        · decide
        · omega
      have hmore : (⟨rest, ending⟩ : Input).bytes ≠ [] := List.ne_nil_of_length_pos (by
        change 0 < (rest.flatMap Subtype.val).length
        omega)
      have hrest : rest ≠ [] := by
        rintro rfl
        exact hmore rfl
      obtain ⟨bs, ⟨rest', ending'⟩, hrecv⟩ := recv_data hneed hmore
      obtain ⟨hne, -, hsplit, hending⟩ := recv_spec hrecv
      have hall := recv_append (if len - pos > FETCH_SIZE then FETCH_SIZE else len - pos) more
        ending hrest
      rw [hrecv] at hall
      have hbs : 0 < bs.length := List.length_pos_of_ne_nil hne
      have hrest' : (rest'.flatMap Subtype.val).length = len - (pos + bs.length) := by
        have hlen := congrArg List.length hsplit
        change (bs ++ rest'.flatMap Subtype.val).length = (rest.flatMap Subtype.val).length at hlen
        rw [List.length_append] at hlen
        omega
      simp only [hinput, hall, show ¬ bs.length < 1 by omega, if_false]
      rw [ih (len - (pos + bs.length)) (by omega) (w := { w with input := ⟨rest' ++ more, ending⟩ })
        rest' rfl hrest' rfl]
    · next hge =>
      have hnil : rest.flatMap Subtype.val = [] := List.length_eq_zero_iff.mp (by omega)
      obtain rfl : rest = [] := @Input.bytes_eq_nil ⟨rest, ending⟩ hnil
      rw [List.nil_append] at hinput
      rw [← hinput]

/-- A payload that was not received with the lines is dropped. -/
theorem putPayload_drops (send : SendFn) (key : CString) (buf : Memory)
    (halloc : malloc.alloc w.mallocs len = some db) (hd : d ≤ be) {rest more : List Segment}
    {ending : Ending} (hinput : w.input = ⟨rest ++ more, ending⟩)
    (hbytes : be - d + (rest.flatMap Subtype.val).length = len)
    (hrest : rest.flatMap Subtype.val ≠ []) :
    putPayload send malloc key len d be buf w = (.again, { w with
      input := ⟨more, ending⟩
      mallocs := w.mallocs + 1 }) := by
  have hpos : 0 < (rest.flatMap Subtype.val).length := List.length_pos_of_ne_nil hrest
  have hshort : ¬ len ≤ be - d := by omega
  have hover : ¬ len < be - d := by omega
  simp only [putPayload, halloc, hshort, hover, if_false]
  split
  · exact fetchLoop_takes rest (w := { w with mallocs := w.mallocs + 1 }) hinput (by omega)
  · exact fetchLoop_takes rest (w := { w with mallocs := w.mallocs + 1 }) hinput (by omega)

/-- With nothing behind it. -/
theorem putPayload_split (send : SendFn) (key : CString) (buf : Memory)
    (halloc : malloc.alloc w.mallocs len = some db)
    (hd : d ≤ be) (hbytes : be - d + w.input.bytes.length = len) (hmore : w.input.bytes ≠ []) :
    putPayload send malloc key len d be buf w = (.again, { w with
      input := ⟨[], w.input.ending⟩
      mallocs := w.mallocs + 1 }) := by
  have hinput : w.input = ⟨w.input.segments ++ [], w.input.ending⟩ := by rw [List.append_nil]
  exact putPayload_drops send key buf halloc hd hinput hbytes hmore

end Payload

/-! ### The request -/

section Request

variable (send : SendFn) (malloc : Malloc) {key : CString} {w : World} {len : ℕ}
  {first : List UInt8}

/-- The offset of the payload. -/
theorem length_putHead (key : CString) (len : ℕ) :
    (putHead key len).length = 3 + 1 + key.length + 1 + (decimal len).length + 1 := by
  have hPUT : PUT.length = 3 := rfl
  simp [putHead, hPUT, CString.length]
  omega

/-- **The lines of a PUT** lead to its payload. -/
theorem request_put (hkey : Plain key) (hlen : len ≤ LONG_MAX) (hpos : 0 < len)
    (hfit : (putHead key len ++ first).length < MAX_BUF) (buf : Memory) :
    ∃ buf', At buf' (putHead key len).length first ∧
      request send malloc buf (putHead key len ++ first) w = some (buf',
        putPayload send malloc key len (putHead key len).length (putHead key len ++ first).length
          buf' w) := by
  have hhead := length_putHead key len
  have hmem : At (write buf 0 (putHead key len ++ first ++ [0])) 0
      (lineOf (cstr PUT) key ++ 10 :: (decimal len ++ 10 :: (first ++ [0]))) := by
    have hshape : lineOf (cstr PUT) key ++ 10 :: (decimal len ++ 10 :: (first ++ [0]))
        = putHead key len ++ first ++ [0] := by
      simp [putHead, lineOf, show (cstr PUT).bytes = PUT from rfl]
    rw [hshape]
    exact at_write _ _ _
  have hfit' := hfit
  rw [List.length_append, hhead] at hfit'
  have hPUT : (cstr PUT).length = 3 := rfl
  have hupper : ∀ b ∈ (cstr PUT).bytes, isUpper b = true :=
    List.all_eq_true.mp (by decide : PUT.all isUpper = true)
  obtain ⟨buf', hline, hrest⟩ := commandLine_eq hmem hupper hkey.nameable (by
    rw [hPUT]
    omega)
  rw [hPUT] at hline hrest
  have hpayload : At buf' (putHead key len).length first := by
    have := (at_cons.mp (at_append.mp hrest).2).2
    rw [hhead]
    exact (at_append.mp this).1
  -- the digits follow the newline at once
  have hskip : skipWhile MAX_BUF isEol buf' (3 + 1 + key.length + 1)
      = some (3 + 1 + key.length + 1) := by
    obtain ⟨b, bs, hb⟩ := List.exists_cons_of_ne_nil (decimal_ne_nil len)
    have hdigit : isDigit b = true := isDigit_of_mem_decimal (hb ▸ List.mem_cons_self ..)
    rw [hb] at hrest
    have hat : At buf' (3 + 1 + key.length + 1) ([] ++ [b]) :=
      at_cons.mpr ⟨(at_cons.mp hrest).1, at_nil _ _⟩
    exact skipWhile_eq hat (by simp) (isEol_of_isDigit hdigit) (by simp; omega)
  have hsize := putSize_eq hrest hlen (by omega)
  have hlt : 3 + 1 + key.length < (putHead key len ++ first).length := by
    rw [List.length_append, hhead]
    omega
  have hlen' : (len : ℤ) > 0 := by omega
  refine ⟨buf', hpayload, ?_⟩
  have hput : put send malloc key (some (3 + 1 + key.length)) (putHead key len ++ first).length
      buf' w = some (putPayload send malloc key len (putHead key len).length
          (putHead key len ++ first).length buf' w) := by
    simp only [put, Option.bind_eq_bind, Option.bind_some, hlt, if_true, hskip, hsize, hlen',
      Int.toNat_natCast, ← hhead]
    rfl
  have hperform : perform send malloc ⟨some (3 + 1 + key.length), cstr PUT, key⟩
      (putHead key len ++ first).length buf' w
      = put send malloc key (some (3 + 1 + key.length)) (putHead key len ++ first).length buf' w :=
    rfl
  simp only [request, hline, Option.bind_eq_bind, Option.bind_some, hperform, hput]
  rfl

end Request

/-! ### The acknowledgement -/

/-- A key that was just added is found. -/
theorem lookup_obj_add {D R : Type} {s : Store D R} {xs ys : Entries D R} (h : Rep s xs ys)
    (key : CString) (sWhat : Option R) (data : D) (len : ℕ) :
    lookup key (obj_add key sWhat data len s) = some (some ⟨len, data, sWhat, key⟩) := by
  rw [lookup_of_rep (h.obj_add key sWhat data len)]
  simp [ofKey]

/-- What the client of a PUT waits for: a single reply, `OK`, after which the payload
is found under its key. -/
def Acknowledged (key : CString) (payload : List UInt8) (w : World) : Prop :=
  w.conn.out = OK ∧
    ∃ e, lookup key w.store = some (some e) ∧ e.len = payload.length ∧ e.obj = some payload

theorem putHead_append_ne_nil (key : CString) (len : ℕ) (first : List UInt8) :
    putHead key len ++ first ≠ [] :=
  List.append_ne_nil_of_left_ne_nil (List.append_ne_nil_of_left_ne_nil (by decide) _) _

/-- A connection on which a PUT comes in: the lines with the first bytes of the
payload, then the pieces of the rest, and nothing more. -/
def putWorld (key : CString) (len : ℕ) (first : List UInt8) (rest : List Segment)
    (store : Store (Option (List UInt8)) SEXP) : World where
  input := ⟨⟨putHead key len ++ first, putHead_append_ne_nil key len first⟩ :: rest, .waiting⟩
  conn := ⟨0, []⟩
  store := store
  mallocs := 0

section Acknowledge

variable {send : SendFn} {malloc : Malloc} {key : CString} {len : ℕ} {first : List UInt8}
  {rest : List Segment} {store : Store (Option (List UInt8)) SEXP}

/-- If the request takes up all of the input, the server is left waiting. -/
theorem do_process_put {P : World → Prop} (hkey : Plain key) (hlen : len ≤ LONG_MAX)
    (hpos : 0 < len) (hfit : (putHead key len ++ first).length < MAX_BUF)
    (hpayload : ∀ buf', At buf' (putHead key len).length first →
      ∃ w', putPayload send malloc key len (putHead key len).length
          (putHead key len ++ first).length buf'
          { putWorld key len first rest store with input := ⟨rest, .waiting⟩ } = (.again, w') ∧
        w'.input = ⟨[], .waiting⟩ ∧ P w') :
    ∃ w', do_process send malloc (putWorld key len first rest store) = some (.waiting, w') ∧
      P w' := by
  obtain ⟨buf', hat, hrequest⟩ := request_put send malloc
    (w := { putWorld key len first rest store with input := ⟨rest, .waiting⟩ }) hkey hlen hpos hfit
    (fun _ => 0)
  obtain ⟨w', hput, hdone, hP⟩ := hpayload buf' hat
  rw [hput] at hrequest
  have hne : 0 < (putHead key len ++ first).length :=
    List.length_pos_of_ne_nil (putHead_append_ne_nil key len first)
  have hrecv : recv (MAX_BUF - 1) (putWorld key len first rest store).input
      = (.data (putHead key len ++ first), ⟨rest, .waiting⟩) := recv_cons (by
    change (putHead key len ++ first).length ≤ MAX_BUF - 1
    omega)
  have hone : ¬ (putHead key len ++ first).length < 1 := by omega
  -- the first round is the request, and the second one waits
  obtain ⟨n, hn⟩ : ∃ n, (putWorld key len first rest store).input.bytes.length = n + 1 := by
    refine Nat.exists_eq_add_one_of_ne_zero (Nat.ne_of_gt ?_)
    change 0 < ((putHead key len ++ first) ++ rest.flatMap Subtype.val).length
    rw [List.length_append]
    omega
  refine ⟨w', ?_, hP⟩
  rw [do_process, hn, loop, hrecv]
  simp only [hone, if_false, hrequest, Option.bind_eq_bind, Option.bind_some]
  rw [loop, hdone]
  simp only [recv]
  rw [← hdone]

/-- **The whole payload at once** is added and acknowledged. -/
theorem do_process_whole (store : Store (Option (List UInt8)) SEXP) (hsend : send.Succeeds)
    (hkey : Plain key) (hlen : first.length = len) (hpos : 0 < len)
    (hfit : (putHead key len ++ first).length < MAX_BUF)
    (halloc : ∃ db, malloc.alloc 0 len = some db) :
    ∃ w', do_process send malloc (putWorld key len first [] store) = some (.waiting, w') ∧
      w'.conn.out = OK ∧ w'.store = obj_add key none (some first) len store := by
  obtain ⟨db, hdb⟩ := halloc
  refine do_process_put hkey (malloc.le_max _ _ _ hdb) hpos hfit fun buf' hat => ?_
  have hbe : (putHead key len ++ first).length = (putHead key len).length + len := by
    rw [List.length_append, hlen]
  obtain ⟨calls, hput⟩ := putPayload_whole hsend hdb hat hlen hpos hbe
    (w := { putWorld key len first [] store with input := ⟨[], .waiting⟩ })
  exact ⟨_, hput, rfl, rfl, rfl⟩

/-- **A payload in several pieces** is neither added nor acknowledged. -/
theorem do_process_split (send : SendFn) (store : Store (Option (List UInt8)) SEXP)
    (hkey : Plain key) (hpos : 0 < len)
    (hlen : (first ++ rest.flatMap Subtype.val).length = len) (hrest : rest ≠ [])
    (hfit : (putHead key len ++ first).length < MAX_BUF)
    (halloc : ∃ db, malloc.alloc 0 len = some db) :
    ∃ w', do_process send malloc (putWorld key len first rest store) = some (.waiting, w') ∧
      w'.conn.out = [] ∧ w'.store = store := by
  obtain ⟨db, hdb⟩ := halloc
  refine do_process_put hkey (malloc.le_max _ _ _ hdb) hpos hfit fun buf' _ => ?_
  have hmore : (⟨rest, .waiting⟩ : Input).bytes ≠ [] := fun hnil =>
    hrest (Input.bytes_eq_nil hnil)
  rw [List.length_append] at hlen
  have hbytes : (putHead key len ++ first).length - (putHead key len).length
      + (⟨rest, .waiting⟩ : Input).bytes.length = len := by
    rw [List.length_append, Nat.add_sub_cancel_left]
    exact hlen
  have hput := putPayload_split send key buf'
    (w := { putWorld key len first rest store with input := ⟨rest, .waiting⟩ }) hdb
    (Nat.le_of_lt_succ (by rw [List.length_append]; omega)) hbytes hmore
  exact ⟨_, hput, rfl, rfl, rfl⟩

end Acknowledge

/-- **A PUT is acknowledged and stored exactly if its payload comes with its lines.**
The key has no white space, the payload is not empty, the lines and the first part of
the payload fit the buffer, and there is memory for the payload. Otherwise the server
goes back to waiting for a request and the client for its reply. -/
theorem put_acknowledged_iff {send : SendFn} {malloc : Malloc} {key : CString}
    (payload : List UInt8) {first : List UInt8} {rest : List Segment}
    (ops : List (Op (Option (List UInt8)) SEXP)) {store : Store (Option (List UInt8)) SEXP}
    (hsend : send.Succeeds) (hkey : Plain key) (hpayload : payload ≠ [])
    (halloc : ∃ db, malloc.alloc 0 payload.length = some db)
    (hsplit : first ++ rest.flatMap Subtype.val = payload)
    (hfit : (putHead key payload.length ++ first).length < MAX_BUF) (hrun : run ops = some store) :
    ∃ w', do_process send malloc (putWorld key payload.length first rest store)
        = some (.waiting, w') ∧
      (Acknowledged key payload w' ↔ rest = []) := by
  have hpos : 0 < payload.length := List.length_pos_of_ne_nil hpayload
  by_cases hrest : rest = []
  · subst hrest
    obtain rfl : first = payload := by simpa using hsplit
    obtain ⟨w', hdo, hout, hstore⟩ := do_process_whole store hsend hkey rfl hpos hfit halloc
    obtain ⟨s, hs, xs, ys, hrep, -⟩ := run_entries ops
    obtain rfl : s = store := Option.some.inj (hs.symm.trans hrun)
    refine ⟨w', hdo, iff_of_true ⟨hout, ?_⟩ rfl⟩
    rw [hstore]
    exact ⟨_, lookup_obj_add hrep key none (some first) first.length, rfl, rfl⟩
  · obtain ⟨w', hdo, hout, -⟩ := do_process_split send store hkey hpos (by rw [hsplit]) hrest
      hfit halloc
    refine ⟨w', hdo, iff_of_false ?_ hrest⟩
    -- there is no reply at all
    rintro ⟨hok, -⟩
    rw [hout] at hok
    exact absurd hok (by decide)

/-- Three bytes, received together with the lines. -/
theorem put_acknowledged_together :
    ∃ w', do_process SendFn.whole .plenty (putWorld (cstr [107]) 3 [1, 0, 10] [] Store.init)
        = some (.waiting, w') ∧
      (Acknowledged (cstr [107]) [1, 0, 10] w' ↔ ([] : List Segment) = []) :=
  put_acknowledged_iff [1, 0, 10] [] SendFn.whole_succeeds (by decide)
    (by decide) ⟨_, rfl⟩ rfl
    (by rw [List.length_append, length_putHead, decimal_of_lt (by decide)]; decide) rfl

/-- The same bytes, the last one received later: the server waits with nothing sent
and the store as it was. -/
theorem put_dropped : ∃ w',
    do_process SendFn.whole .plenty (putWorld (cstr [107]) 3 [1, 0] [⟨[10], by decide⟩] Store.init)
        = some (.waiting, w') ∧
      w'.conn.out = [] ∧ w'.store = Store.init ∧ ¬ Acknowledged (cstr [107]) [1, 0, 10] w' := by
  have hfit : (putHead (cstr [107]) 3 ++ [1, 0]).length < MAX_BUF := by
    rw [List.length_append, length_putHead, decimal_of_lt (by decide)]
    decide
  have halloc : ∃ db, Malloc.plenty.alloc 0 3 = some db := ⟨_, rfl⟩
  obtain ⟨w', hdo, hout, hstore⟩ := do_process_split SendFn.whole Store.init
    (show Plain (cstr [107]) by decide) (show 0 < 3 by decide)
    (show ([1, 0] ++ [(⟨[10], by decide⟩ : Segment)].flatMap Subtype.val).length = 3 from rfl)
    (List.cons_ne_nil _ _) hfit halloc
  refine ⟨w', hdo, hout, hstore, ?_⟩
  rintro ⟨hok, -⟩
  rw [hout] at hok
  exact absurd hok (by decide)

end Tcp
end Osrv
