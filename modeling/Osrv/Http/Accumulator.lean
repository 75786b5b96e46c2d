import Osrv.Http.Hcstore

/-!
# The chunk accumulator, record by record

Where `Hcstore.lean` asks what comes out when every send succeeds, here a send may come out in
any way. `addedChunks` lists the arguments with which the records make `buf_add` call
`http_send_chunk`, and `Sent` says that each of them was sent when those before it had gone
out.

A header is smaller than any of the sizes at which something is sent, so it is always
collected. The buffer is therefore not empty when the payload behind it makes it go out, and
an empty chunk, which would end the body, is never sent (`accumulator_step`).
-/

namespace Osrv
namespace Http

open Net Bytes Sfs StoreApi

/-! ### The chunks that are sent -/

section Chunks

variable (send : SendFn)

/-- The chunk sent by `buf_place`. -/
def placedChunks (api : StoreApi) (what : List UInt8) : List (List UInt8) :=
  if api.pos = 0 ∧ what.length ≥ MIN_INPLACE_SIZE then [what] else []

/-- The chunks sent by `buf_add`. -/
def bufferedChunks (api : StoreApi) (what : List UInt8) : List (List UInt8) :=
  if api.res ≠ 0 then []
  else if mustFlush api what.length then
    let flushed := api.flush send
    api.pending ::
      if flushed.res ≠ 0 then [] else placedChunks { flushed with pos := 0 } what
  else placedChunks api what

/-- The chunks sent by `add`. -/
def recordChunks (api : StoreApi) (r : Record) : List (List UInt8) :=
  bufferedChunks send api (le 8 r.hdr) ++
    match r.buf with
    | some _ => bufferedChunks send (buf_add send api (le 8 r.hdr)) r.payload
    | none => []

/-- The chunks sent for a sequence of records. -/
def addedChunks (api : StoreApi) : List Record → List (List UInt8)
  | [] => []
  | r :: rs => recordChunks send api r ++ addedChunks (add send api r) rs

/-- The chunks `cs` were passed to `http_send_chunk` one after another, each of them when all
before it had gone out. The last call has returned `res`. -/
inductive Sent (conn : Conn) : List (List UInt8) → ℤ → Conn → Prop
  | nothing : Sent conn [] 0 conn
  | chunk {cs : List (List UInt8)} {conn' : Conn} (before : Sent conn cs 0 conn')
      (c : List UInt8) :
      Sent conn (cs ++ [c]) (http_send_chunk send conn' c).1 (http_send_chunk send conn' c).2

/-- An empty buffer of `MAX_CHUNK_SIZE` bytes. -/
def StoreApi.empty (conn : Conn) (buf : Memory) : StoreApi :=
  StoreApi.start conn ⟨UInt64.ofNat MAX_CHUNK_SIZE, 0, buf⟩

end Chunks

variable {send : SendFn} {conn : Conn} {api : StoreApi} {cs : List (List UInt8)}
  {done what : List UInt8}

theorem toNat_empty_len (conn : Conn) (buf : Memory) :
    (StoreApi.empty conn buf).len.toNat = MAX_CHUNK_SIZE := UInt64.toNat_ofNat_of_lt (by decide)

theorem Within.empty (conn : Conn) (buf : Memory) : Within (StoreApi.empty conn buf) where
  low := by
    rw [toNat_empty_len]
    decide
  high := (toNat_empty_len conn buf).le
  pos := Nat.zero_le _
  overrun := rfl

/-! ### The invariant -/

/-- **The accumulator after the bytes `done`**, when the chunks `cs` have been sent. -/
structure Accumulated (send : SendFn) (conn : Conn) (api : StoreApi) (cs : List (List UInt8))
    (done : List UInt8) : Prop extends Within api where
  /-- Nothing has been sent after a failure. -/
  sent : Sent send conn cs api.res api.conn
  /-- No chunk was empty. -/
  nonempty : ∀ c ∈ cs, c ≠ []
  /-- Nothing is lost until a send fails. -/
  bytes : api.res = 0 → cs.flatten ++ api.pending = done

namespace Accumulated

theorem empty (conn : Conn) (buf : Memory) :
    Accumulated send conn (StoreApi.empty conn buf) [] [] where
  toWithin := Within.empty conn buf
  sent := .nothing
  nonempty := by simp
  bytes _ := rfl

/-- Once a send has failed, records are ignored. -/
theorem failed (h : Accumulated send conn api cs done) (hres : api.res ≠ 0) (more : List UInt8) :
    Accumulated send conn api cs (done ++ more) where
  toWithin := h.toWithin
  sent := h.sent
  nonempty := h.nonempty
  bytes h0 := absurd h0 hres

/-- **Sending a chunk**: what it leaves in the buffer must be the rest of the bytes. -/
theorem sendChunk (h : Accumulated send conn api cs done) (hres : api.res = 0) {c : List UInt8}
    (hc : c ≠ []) {pos : UInt64} (hpos : pos ≤ api.len)
    (hbytes : cs.flatten ++ c ++ read api.buf pos.toNat = what) :
    Accumulated send conn { api.sendChunk send c with pos := pos } (cs ++ [c]) what where
  toWithin := ⟨h.low, h.high, UInt64.le_iff_toNat_le.mp hpos, h.overrun⟩
  sent := by
    have hsent := h.sent
    rw [hres] at hsent
    exact hsent.chunk c
  nonempty := by
    intro d hd
    obtain hd | hd := List.mem_append.mp hd
    · exact h.nonempty d hd
    · rw [List.mem_singleton.mp hd]
      exact hc
  bytes _ := by
    rw [← hbytes, List.flatten_append, List.flatten_singleton]
    rfl

/-- Sending what has been collected. -/
theorem flush (h : Accumulated send conn api cs done) (hres : api.res = 0) (hpos : api.pos ≠ 0) :
    Accumulated send conn { api.flush send with pos := 0 } (cs ++ [api.pending]) done := by
  have hne : api.pending ≠ [] := by
    intro hnil
    have hlen := congrArg List.length hnil
    rw [pending, length_read, List.length_nil] at hlen
    exact hpos (UInt64.toNat_inj.mp hlen)
  have hrest : cs.flatten ++ api.pending ++ read api.buf (0 : UInt64).toNat = done := by
    rw [h.bytes hres]
    exact List.append_nil done
  have hsent := h.sendChunk hres hne (UInt64.zero_le ..) hrest
  have hover : (api.flush send).overrun = false := h.toWithin.flush.overrun
  exact { hsent with overrun := hover }

/-- A big record goes out at once, a small one is collected. -/
theorem place (h : Accumulated send conn api cs done) (hres : api.res = 0)
    (hin : Within (buf_place send api what)) :
    Accumulated send conn (buf_place send api what) (cs ++ placedChunks api what)
      (done ++ what) := by
  by_cases hbig : api.pos = 0 ∧ what.length ≥ MIN_INPLACE_SIZE
  · have hne : what ≠ [] := by
      intro hnil
      rw [hnil] at hbig
      exact absurd hbig.2 (by decide)
    have hpend : api.pending = [] := by
      rw [pending, hbig.1]
      rfl
    have hrest : cs.flatten ++ what ++ read api.buf api.pos.toNat = done ++ what := by
      rw [← h.bytes hres, hpend, List.append_nil, hbig.1]
      exact List.append_nil _
    rw [buf_place, placedChunks, if_pos hbig, if_pos hbig]
    exact h.sendChunk hres hne (UInt64.le_iff_toNat_le.mpr h.pos) hrest
  · rw [buf_place, if_neg hbig] at hin
    rw [buf_place, placedChunks, if_neg hbig, if_neg hbig, List.append_nil]
    refine ⟨hin, h.sent, h.nonempty, fun h0 => ?_⟩
    rw [copy_pending hin.overrun, ← List.append_assoc, h.bytes h0]

variable (what) in
/-- **One call of `buf_add`.** The buffer may not be empty if it has to go out. -/
theorem buf_add (h : Accumulated send conn api cs done)
    (hflush : api.res = 0 → mustFlush api what.length → api.pos ≠ 0) :
    Accumulated send conn (buf_add send api what) (cs ++ bufferedChunks send api what)
      (done ++ what) := by
  have hin : Within (Http.buf_add send api what) := h.toWithin.buf_add what
  rw [Http.buf_add] at hin
  rw [Http.buf_add, bufferedChunks]
  by_cases hres : api.res = 0
  · rw [if_neg (not_not.mpr hres)] at hin
    rw [if_neg (not_not.mpr hres), if_neg (not_not.mpr hres)]
    by_cases hf : mustFlush api what.length
    · have hsent := h.flush hres (hflush hres hf)
      rw [if_pos hf] at hin
      rw [if_pos hf, if_pos hf]
      dsimp only at hin ⊢
      by_cases hres' : (api.flush send).res = 0
      · rw [if_neg (not_not.mpr hres')] at hin
        rw [if_neg (not_not.mpr hres'), if_neg (not_not.mpr hres')]
        have hplaced := hsent.place hres' hin
        rwa [List.append_assoc] at hplaced
      · -- the buffer did not go out: `pos` stays, and the record is dropped
        rw [if_pos hres'] at hin
        rw [if_pos hres', if_pos hres']
        exact ⟨hin, hsent.sent, hsent.nonempty, fun h0 => absurd h0 hres'⟩
    -- the record fits behind what is in the buffer
    · rw [if_neg hf] at hin
      rw [if_neg hf, if_neg hf]
      exact h.place hres hin
  -- an earlier call has failed
  · rw [if_pos hres, if_pos hres, List.append_nil]
    exact h.failed hres what

/-- Few bytes are always collected. -/
theorem pos_of_small (h : Accumulated send conn api cs done) (hne : what ≠ [])
    (hsmall : what.length < MIN_INPLACE_SIZE) (hres : (Http.buf_add send api what).res = 0) :
    (Http.buf_add send api what).pos ≠ 0 := by
  have hin : Within (Http.buf_add send api what) := h.toWithin.buf_add what
  -- wherever it ends, a copy is the last thing that happens
  have hplace : ∀ a : StoreApi, Within (buf_place send a what) →
      (buf_place send a what).pos ≠ 0 := by
    intro a ha hzero
    rw [buf_place, if_neg fun hbig => absurd hsmall (Nat.not_lt.mpr hbig.2)] at ha hzero
    have hpend := congrArg List.length (copy_pending ha.overrun)
    rw [pending, length_read, hzero, List.length_append] at hpend
    have hpos := List.length_pos_of_ne_nil hne
    change 0 = _ at hpend
    omega
  rw [Http.buf_add] at hin hres ⊢
  by_cases h0 : api.res = 0
  · rw [if_neg (not_not.mpr h0)] at hin hres ⊢
    by_cases hf : mustFlush api what.length
    · rw [if_pos hf] at hin hres ⊢
      dsimp only at hin hres ⊢
      by_cases h0' : (api.flush send).res = 0
      · rw [if_neg (not_not.mpr h0')] at hin ⊢
        exact hplace _ hin
      · rw [if_pos h0'] at hres
        exact absurd hres h0'
    · rw [if_neg hf] at hin ⊢
      exact hplace _ hin
  · rw [if_pos h0] at hres
    exact absurd hres h0

/-- **One record**: the header, and the payload behind it. -/
theorem add (h : Accumulated send conn api cs done) (r : Record) :
    Accumulated send conn (add send api r) (cs ++ recordChunks send api r)
      (done ++ r.bytes) := by
  have hsmall : (le 8 r.hdr).length < MIN_INPLACE_SIZE := by
    rw [length_le]
    decide
  have hne : le 8 r.hdr ≠ [] := by
    apply List.ne_nil_of_length_pos
    rw [length_le]
    decide
  have hhdr := h.buf_add (le 8 r.hdr) fun _ hf hzero => by
    -- a header makes only a full buffer go out
    obtain hpos | hlen := hf.2
    · rw [hzero] at hpos
      exact absurd hpos (by decide)
    · exact absurd hsmall (Nat.not_lt.mpr hlen)
  rw [Http.add, recordChunks, Record.bytes]
  cases hbuf : r.buf with
  | some b =>
    have hpay := hhdr.buf_add r.payload fun hres _ => h.pos_of_small hne hsmall hres
    rwa [List.append_assoc, List.append_assoc] at hpay
  | none =>
    rw [Record.payload, hbuf, List.append_nil, List.append_nil]
    exact hhdr

/-- **A sequence of records.** -/
theorem foldl (h : Accumulated send conn api cs done) (rs : List Record) :
    Accumulated send conn (rs.foldl (Http.add send) api) (cs ++ addedChunks send api rs)
      (done ++ wire rs) := by
  induction rs generalizing api cs done with
  | nil =>
    rw [addedChunks, List.append_nil, wire_nil, List.append_nil]
    exact h
  | cons r rs ih =>
    have hrest := ih (h.add r)
    rwa [List.append_assoc, List.append_assoc] at hrest

end Accumulated

/-! ### After a failure -/

theorem add_of_failed (hres : api.res ≠ 0) (r : Record) : add send api r = api := by
  have hskip : ∀ what, buf_add send api what = api := fun what => if_pos hres
  rw [add, hskip]
  cases r.buf with
  | some b => exact hskip r.payload
  | none => rfl

theorem recordChunks_of_failed (hres : api.res ≠ 0) (r : Record) :
    recordChunks send api r = [] := by
  have hskip : ∀ what, buf_add send api what = api := fun what => if_pos hres
  have hnone : ∀ what, bufferedChunks send api what = [] := fun what => if_pos hres
  rw [recordChunks, hskip, hnone]
  cases r.buf with
  | some b => exact hnone r.payload
  | none => rfl

/-- A send that has failed is the last one, and the sink is left as it is. -/
theorem foldl_of_failed (hres : api.res ≠ 0) (rs : List Record) :
    rs.foldl (add send) api = api ∧ addedChunks send api rs = [] := by
  induction rs with
  | nil => exact ⟨rfl, rfl⟩
  | cons r rs ih =>
    rw [List.foldl_cons, addedChunks, add_of_failed hres, recordChunks_of_failed hres]
    exact ih

/-- Nothing sets `len`. -/
theorem buf_add_len (what : List UInt8) : (buf_add send api what).len = api.len := by
  have hplace : ∀ a : StoreApi, (buf_place send a what).len = a.len := by
    intro a
    rw [buf_place]
    split <;> rfl
  rw [buf_add]
  split
  · rfl
  · split
    · dsimp only
      split
      · rfl
      · exact hplace _
    · exact hplace _

theorem foldl_len (rs : List Record) : (rs.foldl (add send) api).len = api.len := by
  induction rs generalizing api with
  | nil => rfl
  | cons r rs ih =>
    rw [List.foldl_cons, ih, add]
    split
    · rw [buf_add_len, buf_add_len]
    · exact buf_add_len _

/-- **The accumulator step.** Records of any sizes are added to an empty buffer, and the sends
come out in any way. The position stays within the buffer and so does every copy; no empty
chunk is sent; as long as every send has succeeded, the chunks and the bytes in the buffer are
those of the records, in order; and a send that has failed is the last one. -/
theorem accumulator_step (send : SendFn) (conn : Conn) (buf : Memory) (rs : List Record) :
    let api := rs.foldl (add send) (StoreApi.empty conn buf)
    let cs := addedChunks send (StoreApi.empty conn buf) rs
    api.len.toNat = MAX_CHUNK_SIZE ∧ api.pos.toNat ≤ MAX_CHUNK_SIZE ∧ api.overrun = false ∧
      (∀ c ∈ cs, c ≠ []) ∧ Sent send conn cs api.res api.conn ∧
      (api.res = 0 → cs.flatten ++ api.pending = wire rs) ∧
      (api.res ≠ 0 →
        ∀ more, more.foldl (add send) api = api ∧ addedChunks send api more = []) := by
  intro api cs
  have h : Accumulated send conn api cs (wire rs) := (Accumulated.empty conn buf).foldl rs
  have hlen : api.len.toNat = MAX_CHUNK_SIZE := by
    rw [show api.len = (StoreApi.empty conn buf).len from foldl_len rs]
    exact toNat_empty_len conn buf
  exact ⟨hlen, h.pos.trans h.high, h.overrun, h.nonempty, h.sent, h.bytes,
    fun hres more => foldl_of_failed hres more⟩

end Http
end Osrv
