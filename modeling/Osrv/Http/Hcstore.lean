import Osrv.Http.Send
import Osrv.Sfs.Store

/-!
# Streaming a serialised value

`hcstore.c` is the sink that writes the records of `sfs_store` into a chunked
body. Small records are collected in a buffer; a record that does not fit makes
the buffer go out first, and a record of at least `MIN_INPLACE_SIZE` bytes that
finds the buffer empty is sent from where it lies.

`http_store` gets the buffer from `malloc` and sets neither `len` nor `pos`, so
both are parameters here, together with the bytes of the buffer.
-/

namespace Osrv
namespace Http

open Net Bytes Sfs

/-- The space behind `store_api`. -/
def MAX_CHUNK_SIZE : ℕ := 1024 * 1024 * 16

/-- The size from which a record is worth a chunk of its own. -/
def MIN_INPLACE_SIZE : ℕ := 1024 * 1024 * 2

/-! ### The sink -/

/-- `struct store_api`. `overrun` records whether a copy to `buf`, or what was sent of it, has
gone past its `MAX_CHUNK_SIZE` bytes. -/
structure StoreApi where
  conn : Conn
  res : ℤ
  len : UInt64
  pos : UInt64
  buf : Memory
  overrun : Bool

namespace StoreApi

/-- The bytes collected so far. -/
def pending (api : StoreApi) : List UInt8 := read api.buf api.pos.toNat

/-- Sends `what` as a chunk and keeps the result. -/
def sendChunk (send : SendFn) (api : StoreApi) (what : List UInt8) : StoreApi :=
  let (r, conn) := http_send_chunk send api.conn what
  { api with conn := conn, res := r }

/-- Sends the collected bytes. They lie in the buffer if `pos` does. -/
def flush (send : SendFn) (api : StoreApi) : StoreApi :=
  { api.sendChunk send api.pending with
    overrun := api.overrun || decide (MAX_CHUNK_SIZE < api.pos.toNat) }

/-- `memcpy` behind the collected bytes, and the step of `pos`. -/
def copy (api : StoreApi) (what : List UInt8) : StoreApi :=
  { api with
    buf := write api.buf api.pos.toNat what
    pos := api.pos + UInt64.ofNat what.length
    overrun := api.overrun
      || decide (what ≠ [] ∧ MAX_CHUNK_SIZE < api.pos.toNat + what.length) }

end StoreApi

variable (send : SendFn)

/-- Whether a record of `len` bytes makes the buffer go out first. -/
def mustFlush (api : StoreApi) (len : ℕ) : Prop :=
  len > (api.len - api.pos).toNat ∧
    (api.pos.toNat ≥ MIN_INPLACE_SIZE ∨ len ≥ MIN_INPLACE_SIZE)

instance (api : StoreApi) (len : ℕ) : Decidable (mustFlush api len) :=
  inferInstanceAs (Decidable (_ ∧ _))

/-- The end of `buf_add`: a big record meets an empty buffer, or it is copied. -/
def buf_place (api : StoreApi) (what : List UInt8) : StoreApi :=
  if api.pos = 0 ∧ what.length ≥ MIN_INPLACE_SIZE then api.sendChunk send what
  else api.copy what

def buf_add (api : StoreApi) (what : List UInt8) : StoreApi :=
  if api.res ≠ 0 then api
  else if mustFlush api what.length then
    let api := api.flush send
    if api.res ≠ 0 then api else buf_place send { api with pos := 0 } what
  else buf_place send api what

/-- The callback: the header, and the payload if there is one. -/
def add (api : StoreApi) (r : Record) : StoreApi :=
  let api := buf_add send api (le 8 r.hdr)
  match r.buf with
  | some _ => buf_add send api r.payload
  | none => api

/-- What `malloc` left in the fields that `http_store` does not set. -/
structure Garbage where
  len : UInt64
  pos : UInt64
  buf : Memory

/-- The sink as `http_store` starts it. -/
def StoreApi.start (conn : Conn) (g : Garbage) : StoreApi :=
  ⟨conn, 0, g.len, g.pos, g.buf, false⟩

/-- The serialiser with this sink. -/
def sfs_store (api : StoreApi) (sWhat : SEXP) : StoreApi := (store sWhat).foldl (add send) api

/-- The bytes left in the buffer go out as the last non-empty chunk. -/
def StoreApi.sendLast (api : StoreApi) : StoreApi :=
  if api.res = 0 ∧ api.pos ≠ 0 then api.flush send else api

/-- Streams a value. The result is `0` if everything went out. `api` is the
memory from `malloc`, if it had any. -/
def http_store (conn : Conn) (api : Option Garbage) (sWhat : SEXP) :
    ℤ × Option StoreApi × Conn :=
  match api with
  | none => (-1, none, conn)
  | some g =>
    let api := (sfs_store send (StoreApi.start conn g) sWhat).sendLast send
    if api.res = 0 then
      let (r, conn) := http_send_chunk send api.conn []
      (r, some api, conn)
    else (api.res, some api, api.conn)

/-- **Faithful streaming** of a value into a fresh connection. -/
structure Streams (g : Garbage) (v : SEXP) : Prop where
  /-- `http_store` reports success. -/
  res : (http_store send ⟨0, []⟩ (some g) v).1 = 0
  /-- Nothing has been written or read past the buffer. -/
  inside : ∀ api ∈ (http_store send ⟨0, []⟩ (some g) v).2.1, api.overrun = false
  /-- What went out is a chunked body, with nothing behind its final chunk, whose
  payload is the serialised stream of the value. -/
  body : ∃ chunks, Chunked.decode (http_store send ⟨0, []⟩ (some g) v).2.2.out
    = some (chunks, []) ∧ chunks.flatten = emit v

/-! ### What one step does -/

variable {send}

namespace StoreApi

@[simp] theorem copy_res (api : StoreApi) (what : List UInt8) : (api.copy what).res = api.res :=
  rfl

@[simp] theorem copy_len (api : StoreApi) (what : List UInt8) : (api.copy what).len = api.len :=
  rfl

@[simp] theorem copy_conn (api : StoreApi) (what : List UInt8) :
    (api.copy what).conn = api.conn := rfl

@[simp] theorem sendChunk_len (api : StoreApi) (what : List UInt8) :
    (api.sendChunk send what).len = api.len := rfl

@[simp] theorem sendChunk_pos (api : StoreApi) (what : List UInt8) :
    (api.sendChunk send what).pos = api.pos := rfl

@[simp] theorem sendChunk_buf (api : StoreApi) (what : List UInt8) :
    (api.sendChunk send what).buf = api.buf := rfl

@[simp] theorem sendChunk_overrun (api : StoreApi) (what : List UInt8) :
    (api.sendChunk send what).overrun = api.overrun := rfl

@[simp] theorem flush_pos (api : StoreApi) : (api.flush send).pos = api.pos := rfl

@[simp] theorem flush_buf (api : StoreApi) : (api.flush send).buf = api.buf := rfl

theorem flush_overrun {api : StoreApi} :
    (api.flush send).overrun = false ↔ api.overrun = false ∧ api.pos.toNat ≤ MAX_CHUNK_SIZE := by
  rw [flush, Bool.or_eq_false_iff, decide_eq_false_iff_not, Nat.not_lt]

theorem sendChunk_ok (hs : send.Succeeds) (api : StoreApi) {what : List UInt8} (h : what ≠ []) :
    (api.sendChunk send what).res = 0 ∧
      (api.sendChunk send what).conn.out = api.conn.out ++ Chunked.encodeChunk what := by
  obtain ⟨k, hk⟩ := http_send_chunk_ok hs api.conn what
  simp [sendChunk, hk, h]

theorem copy_pos {api : StoreApi} {what : List UInt8}
    (h : api.pos.toNat + what.length < 2 ^ 64) :
    (api.copy what).pos.toNat = api.pos.toNat + what.length := by
  simp only [copy, UInt64.toNat_add, UInt64.toNat_ofNat']
  omega

/-- A copy that stays in the buffer. -/
theorem copy_inside {api : StoreApi} {what : List UInt8} (h : (api.copy what).overrun = false) :
    what = [] ∨ api.pos.toNat + what.length ≤ MAX_CHUNK_SIZE := by
  simp only [copy, Bool.or_eq_false_iff, decide_eq_false_iff_not] at h
  by_cases hw : what = []
  · exact .inl hw
  · exact .inr (Nat.not_lt.mp fun hlt => h.2 ⟨hw, hlt⟩)

theorem copy_pending {api : StoreApi} {what : List UInt8}
    (h : (api.copy what).overrun = false) :
    (api.copy what).pending = api.pending ++ what := by
  have hlt : api.pos.toNat + what.length < 2 ^ 64 := by
    rcases copy_inside h with rfl | hle
    · exact api.pos.toNat_lt
    · exact Nat.lt_of_le_of_lt hle (by decide)
  rw [pending, copy_pos hlt]
  exact read_write _ _ _

end StoreApi

open StoreApi

theorem buf_place_overrun {api : StoreApi} {what : List UInt8}
    (h : (buf_place send api what).overrun = false) : api.overrun = false := by
  unfold buf_place at h
  split at h
  · exact h
  · exact (Bool.or_eq_false_iff.mp h).1

/-- An overrun is not undone. -/
theorem buf_add_overrun {api : StoreApi} {what : List UInt8}
    (h : (buf_add send api what).overrun = false) : api.overrun = false := by
  unfold buf_add at h
  split at h
  · exact h
  · split at h
    · dsimp only at h
      split at h
      · exact (flush_overrun.mp h).1
      · have hplace := buf_place_overrun h
        have hflush : (api.flush send).overrun = false := hplace
        exact (flush_overrun.mp hflush).1
    · exact buf_place_overrun h

theorem add_overrun {api : StoreApi} {r : Record} (h : (add send api r).overrun = false) :
    api.overrun = false := by
  unfold add at h
  split at h
  · exact buf_add_overrun (buf_add_overrun h)
  · exact buf_add_overrun h

theorem foldl_overrun {api : StoreApi} (rs : List Record)
    (h : (rs.foldl (add send) api).overrun = false) : api.overrun = false := by
  induction rs generalizing api with
  | nil => exact h
  | cons r rs ih => exact add_overrun (ih h)

/-! ### The payload so far -/

/-- **The accumulator's invariant.** The chunks sent and the bytes collected make
up the bytes collected at the beginning followed by what has been added. -/
structure Collected (start : List UInt8) (api : StoreApi) (done : List UInt8) : Prop where
  /-- No send has failed. -/
  res : api.res = 0
  /-- Only whole chunks have been sent, none of them empty. -/
  chunks : ∃ cs : List (List UInt8), (∀ c ∈ cs, c ≠ []) ∧
    api.conn.out = cs.flatMap Chunked.encodeChunk ∧ cs.flatten ++ api.pending = start ++ done

namespace Collected

variable {start done what : List UInt8} {api : StoreApi}

/-- Sending the collected bytes. -/
theorem flush (hs : send.Succeeds) (h : Collected start api done) (hpos : api.pos ≠ 0) :
    Collected start { api.flush send with pos := 0 } done := by
  have hne : api.pending ≠ [] := by
    intro hnil
    have hlen := congrArg List.length hnil
    rw [pending, length_read, List.length_nil] at hlen
    exact hpos (UInt64.toNat_inj.mp hlen)
  obtain ⟨hres, hout⟩ := sendChunk_ok hs api hne
  obtain ⟨cs, hcs, hsent, hsum⟩ := h.chunks
  refine ⟨hres, cs ++ [api.pending], ?_, ?_, ?_⟩
  · simpa [or_imp, forall_and] using ⟨hcs, hne⟩
  · rw [List.flatMap_append, ← hsent]
    exact hout.trans (by simp)
  · simpa [pending] using hsum

theorem place (hs : send.Succeeds) (h : Collected start api done)
    (hover : (buf_place send api what).overrun = false) :
    Collected start (buf_place send api what) (done ++ what) := by
  obtain ⟨cs, hcs, hsent, hsum⟩ := h.chunks
  unfold buf_place at hover ⊢
  split at hover
  · next hbig =>
    have hne : what ≠ [] := fun h => by
      rw [h] at hbig
      exact absurd hbig.2 (by decide)
    have hpend : api.pending = [] := by
      rw [pending, hbig.1]
      rfl
    obtain ⟨hres, hout⟩ := sendChunk_ok hs api hne
    rw [if_pos hbig]
    refine ⟨hres, cs ++ [what], ?_, ?_, ?_⟩
    · simpa [or_imp, forall_and] using ⟨hcs, hne⟩
    · simp [hout, hsent]
    · rw [hpend, List.append_nil] at hsum
      have hpend' : (api.sendChunk send what).pending = [] := hpend
      simp [hpend', hsum]
  · next hbig =>
    rw [if_neg hbig]
    refine ⟨h.res, cs, hcs, hsent, ?_⟩
    rw [copy_pending hover, ← List.append_assoc, hsum, List.append_assoc]

/-- One call of `buf_add`. The buffer must not go out empty: that would be the
final chunk. -/
theorem buf_add (hs : send.Succeeds) (h : Collected start api done)
    (hpos : mustFlush api what.length → api.pos ≠ 0)
    (hover : (buf_add send api what).overrun = false) :
    Collected start (buf_add send api what) (done ++ what) := by
  unfold Http.buf_add at hover ⊢
  rw [if_neg (by simp [h.res])] at hover ⊢
  split at hover
  · next hf =>
    have hflush := h.flush hs (hpos hf)
    have hres : (api.flush send).res = 0 := hflush.res
    rw [if_pos hf]
    dsimp only at hover ⊢
    rw [if_neg (not_not.mpr hres)] at hover ⊢
    exact hflush.place hs hover
  · next hf =>
    rw [if_neg hf]
    exact h.place hs hover

/-- A header is always collected. -/
theorem header_pos (h : Collected start api done) (hlen : what.length = 8)
    (hs : send.Succeeds) (hover : (Http.buf_add send api what).overrun = false) :
    (Http.buf_add send api what).pos ≠ 0 := by
  have hcopy : ∀ {a : StoreApi}, (a.copy what).overrun = false → (a.copy what).pos ≠ 0 := by
    intro a ha hzero
    have hpend := congrArg List.length (copy_pending ha)
    rw [pending, hzero, List.length_append, hlen] at hpend
    simp at hpend
  have hplace : ∀ {a : StoreApi}, (buf_place send a what).overrun = false →
      (buf_place send a what).pos ≠ 0 := by
    intro a ha
    have hsmall : ¬ (a.pos = 0 ∧ what.length ≥ MIN_INPLACE_SIZE) := by
      rw [hlen]
      exact fun h => absurd h.2 (by decide)
    rw [buf_place, if_neg hsmall] at ha ⊢
    exact hcopy ha
  unfold Http.buf_add at hover ⊢
  rw [if_neg (by simp [h.res])] at hover ⊢
  split at hover
  · next hf =>
    rw [if_pos hf]
    have hflushed : api.pos ≠ 0 := by
      rintro h0
      have := hf.2
      rw [h0, hlen] at this
      exact absurd this (by decide)
    have hres : (api.flush send).res = 0 := (h.flush hs hflushed).res
    dsimp only at hover ⊢
    rw [if_neg (not_not.mpr hres)] at hover ⊢
    exact hplace hover
  · next hf =>
    rw [if_neg hf]
    exact hplace hover

/-- **One record.** -/
theorem add {r : Record} (hs : send.Succeeds) (h : Collected start api done)
    (hover : (add send api r).overrun = false) :
    Collected start (add send api r) (done ++ r.bytes) := by
  have hflush : mustFlush api (le 8 r.hdr).length → api.pos ≠ 0 := by
    rintro ⟨-, hbig⟩ h0
    rw [h0, length_le] at hbig
    exact absurd hbig (by decide)
  unfold Http.add at hover ⊢
  cases hbuf : r.buf with
  | some b =>
    simp only [hbuf] at hover ⊢
    have hover' := buf_add_overrun hover
    have hhdr := h.buf_add hs hflush hover'
    have hpos := h.header_pos (length_le _ _) hs hover'
    have hpay := hhdr.buf_add hs (fun _ => hpos) hover
    rwa [List.append_assoc] at hpay
  | none =>
    simp only [hbuf] at hover ⊢
    have hpay : r.payload = [] := by rw [Record.payload, hbuf]
    rw [Record.bytes, hpay, List.append_nil]
    exact h.buf_add hs hflush hover

/-- **A run of records.** -/
theorem foldl (hs : send.Succeeds) (rs : List Record) (h : Collected start api done)
    (hover : (rs.foldl (Http.add send) api).overrun = false) :
    Collected start (rs.foldl (Http.add send) api) (done ++ wire rs) := by
  induction rs generalizing api done with
  | nil => simpa using h
  | cons r rs ih =>
    have hrun := ih (h.add hs (foldl_overrun rs hover)) hover
    rwa [List.append_assoc] at hrun

end Collected

/-- The sink after the records of a value. -/
theorem collected (hs : send.Succeeds) {g : Garbage} {v : SEXP}
    (hover : (sfs_store send (StoreApi.start ⟨0, []⟩ g) v).overrun = false) :
    Collected (read g.buf g.pos.toNat) (sfs_store send (StoreApi.start ⟨0, []⟩ g) v) (emit v) := by
  have h : Collected (read g.buf g.pos.toNat) (StoreApi.start ⟨0, []⟩ g) [] :=
    ⟨rfl, [], by simp, rfl, by simp [pending, StoreApi.start]⟩
  exact h.foldl hs (store v) hover

/-- After the last data chunk, chunks alone carry the payload. -/
theorem Collected.sendLast {start done : List UInt8} {api : StoreApi} (hs : send.Succeeds)
    (h : Collected start api done) :
    (api.sendLast send).res = 0 ∧ ∃ cs : List (List UInt8), (∀ c ∈ cs, c ≠ []) ∧
      (api.sendLast send).conn.out = cs.flatMap Chunked.encodeChunk ∧
      cs.flatten = start ++ done := by
  by_cases hpos : api.pos = 0
  · obtain ⟨cs, hcs, hsent, hsum⟩ := h.chunks
    rw [StoreApi.sendLast, if_neg fun h => h.2 hpos]
    exact ⟨h.res, cs, hcs, hsent, by simpa [pending, hpos] using hsum⟩
  · obtain ⟨hres, cs, hcs, hsent, hsum⟩ := h.flush hs hpos
    rw [StoreApi.sendLast, if_pos ⟨h.res, hpos⟩]
    exact ⟨hres, cs, hcs, hsent, by simpa [pending] using hsum⟩

theorem sendLast_overrun {api : StoreApi} (h : (api.sendLast send).overrun = false) :
    api.overrun = false := by
  unfold StoreApi.sendLast at h
  split at h
  · exact (flush_overrun.mp h).1
  · exact h

theorem http_store_api (conn : Conn) (g : Garbage) (v : SEXP) :
    (http_store send conn (some g) v).2.1
      = some ((sfs_store send (StoreApi.start conn g) v).sendLast send) := by
  simp only [http_store]
  split <;> rfl

/-- What `http_store` sends is one chunked body around the bytes that lay in the
buffer and the stream of the value, unless it goes past the buffer. -/
theorem http_store_encodes (hs : send.Succeeds) {g : Garbage} {v : SEXP}
    (hover : ((sfs_store send (StoreApi.start ⟨0, []⟩ g) v).sendLast send).overrun = false) :
    ∃ api k chunks, http_store send ⟨0, []⟩ (some g) v
        = (0, some api, ⟨k, Chunked.encode chunks⟩) ∧
      api.overrun = false ∧ (∀ c ∈ chunks, c ≠ []) ∧
      chunks.flatten = read g.buf g.pos.toNat ++ emit v := by
  obtain ⟨hres, cs, hcs, hsent, hsum⟩ := (collected hs (sendLast_overrun hover)).sendLast hs
  obtain ⟨k, hk⟩ := http_send_chunk_ok hs
    ((sfs_store send (StoreApi.start ⟨0, []⟩ g) v).sendLast send).conn []
  refine ⟨_, k, cs, ?_, hover, hcs, hsum⟩
  rw [Chunked.encode, ← hsent]
  simp only [http_store, if_pos hres, hk, if_true]

/-- A client decodes it. -/
theorem http_store_sends (hs : send.Succeeds) {g : Garbage} {v : SEXP}
    (hover : ((sfs_store send (StoreApi.start ⟨0, []⟩ g) v).sendLast send).overrun = false) :
    ∃ api conn chunks, http_store send ⟨0, []⟩ (some g) v = (0, some api, conn) ∧
      api.overrun = false ∧ Chunked.decode conn.out = some (chunks, []) ∧
      chunks.flatten = read g.buf g.pos.toNat ++ emit v := by
  obtain ⟨api, k, cs, hrun, hinside, hcs, hsum⟩ := http_store_encodes hs hover
  have hdec := Chunked.decode_encode hcs []
  rw [List.append_nil] at hdec
  exact ⟨api, _, cs, hrun, hinside, hdec, hsum⟩

/-- **Streaming one value.** It is faithful exactly if the position in the buffer
happened to be zero and nothing goes past the buffer. -/
theorem streams_iff (hs : send.Succeeds) (g : Garbage) (v : SEXP) : Streams send g v ↔
    g.pos = 0 ∧
      ((sfs_store send (StoreApi.start ⟨0, []⟩ g) v).sendLast send).overrun = false := by
  by_cases hover :
      ((sfs_store send (StoreApi.start ⟨0, []⟩ g) v).sendLast send).overrun = false
  · obtain ⟨api, conn, chunks, hrun, hov, hdec, hsum⟩ := http_store_sends hs hover
    constructor
    · rintro ⟨-, -, cs, hcs, hflat⟩
      rw [hrun, hdec] at hcs
      obtain rfl : chunks = cs := by simpa using hcs
      have hlen := congrArg List.length (hsum.symm.trans hflat)
      rw [List.length_append, length_read] at hlen
      exact ⟨UInt64.toNat_inj.mp (by simpa using hlen), hover⟩
    · rintro ⟨hpos, -⟩
      refine ⟨by rw [hrun], ?_, chunks, by rw [hrun, hdec], by simpa [hpos] using hsum⟩
      rw [hrun]
      simpa using hov
  · refine iff_of_false (fun h => hover ?_) fun h => hover h.2
    exact h.inside _ (http_store_api _ _ _)

/-! ### The sizes that keep every copy inside -/

/-- The bounds under which no copy goes past the buffer. -/
structure Within (api : StoreApi) : Prop where
  /-- The length field is at least what two small records can take. -/
  low : 2 * MIN_INPLACE_SIZE - 2 ≤ api.len.toNat
  /-- It is at most the space there is. -/
  high : api.len.toNat ≤ MAX_CHUNK_SIZE
  /-- The collected bytes are within it. -/
  pos : api.pos.toNat ≤ api.len.toNat
  /-- Nothing has gone past the buffer. -/
  overrun : api.overrun = false

namespace Within

variable {api : StoreApi} {what : List UInt8}

/-- The space left, as `buf_add` computes it. -/
theorem toNat_space (h : Within api) :
    (api.len - api.pos).toNat = api.len.toNat - api.pos.toNat :=
  UInt64.toNat_sub_of_le _ _ (UInt64.le_iff_toNat_le.mpr h.pos)

theorem copy (h : Within api) (hfit : api.pos.toNat + what.length ≤ api.len.toNat) :
    Within (api.copy what) where
  low := h.low
  high := h.high
  pos := by
    have hlt : api.len.toNat < 2 ^ 64 := api.len.toNat_lt
    rw [copy_pos (by omega)]
    exact hfit
  overrun := by
    have hin : ¬ MAX_CHUNK_SIZE < api.pos.toNat + what.length :=
      Nat.not_lt.mpr (hfit.trans h.high)
    simp [StoreApi.copy, h.overrun, hin]

/-- The collected bytes lie in the buffer. -/
theorem pos_le (h : Within api) : api.pos.toNat ≤ MAX_CHUNK_SIZE := h.pos.trans h.high

theorem flush (h : Within api) : Within (api.flush send) where
  low := h.low
  high := h.high
  pos := h.pos
  overrun := flush_overrun.mpr ⟨h.overrun, h.pos_le⟩

theorem sendLast (h : Within api) : Within (api.sendLast send) := by
  unfold StoreApi.sendLast
  split
  · exact h.flush
  · exact h

theorem place (h : Within api) (hfit : ¬ (api.pos = 0 ∧ what.length ≥ MIN_INPLACE_SIZE) →
    api.pos.toNat + what.length ≤ api.len.toNat) : Within (buf_place send api what) := by
  unfold buf_place
  split
  · exact ⟨h.low, h.high, h.pos, h.overrun⟩
  · next hsmall => exact h.copy (hfit hsmall)

/-- Whatever is added, the bounds hold afterwards. -/
theorem buf_add (h : Within api) (what : List UInt8) : Within (buf_add send api what) := by
  have hlow := h.low
  unfold Http.buf_add
  split
  · exact h
  · split
    · next hf =>
      dsimp only
      split
      · exact h.flush
      · have hover : (api.flush send).overrun = false := h.flush.overrun
        refine place ⟨h.low, h.high, Nat.zero_le _, hover⟩ fun hsmall => ?_
        -- an empty buffer takes whatever is too small for a chunk of its own
        have hlen : what.length < MIN_INPLACE_SIZE := Nat.not_le.mp fun hge => hsmall ⟨rfl, hge⟩
        change 0 + what.length ≤ api.len.toNat
        simp only [MIN_INPLACE_SIZE] at hlow hlen
        omega
    · next hf =>
      refine h.place fun _ => ?_
      have hpos := h.pos
      simp only [mustFlush, h.toNat_space, MIN_INPLACE_SIZE] at hf hlow
      omega

theorem add (h : Within api) (r : Record) : Within (add send api r) := by
  unfold Http.add
  split
  · exact (h.buf_add _).buf_add _
  · exact h.buf_add _

theorem foldl (h : Within api) (rs : List Record) : Within (rs.foldl (Http.add send) api) := by
  induction rs generalizing api with
  | nil => exact h
  | cons r rs ih => exact ih (h.add r)

end Within

/-! ### The sizes that do not -/

/-- A raw vector of `n` zero bytes. -/
def rawZeros (n : ℕ) : SEXP := (Datum.atoms .RAWSXP (List.replicate n 0)).fresh

/-- The record of such a vector. -/
def rawRecord (n : ℕ) : Record :=
  ⟨.RAWSXP, 1, n, some (unblocks (List.replicate n (0 : BitVec (8 * 1))))⟩

theorem length_rawRecord_payload {n : ℕ} (h : n < 2 ^ 56) :
    (rawRecord n).payload.length = n := by
  have hlen : (List.replicate n (0 : BitVec (8 * AtomType.RAWSXP.el))).length < 2 ^ 56 := by
    simpa using h
  simpa [rawRecord, AtomType.type, AtomType.el] using congrArg List.length (payload_atoms hlen).1

theorem store_rawZeros (n : ℕ) : store (rawZeros n) = [rawRecord n] := by
  simp [rawZeros, rawRecord, Datum.fresh, store, storeDatum, Cells.length, AtomType.type,
    AtomType.el]

/-- Two small records are copied whatever the length field says. -/
theorem buf_add_small {api : StoreApi} {what : List UInt8} (hres : api.res = 0)
    (hpos : api.pos.toNat < MIN_INPLACE_SIZE) (hlen : what.length < MIN_INPLACE_SIZE) :
    buf_add send api what = api.copy what := by
  have hf : ¬ mustFlush api what.length := by
    rintro ⟨-, h | h⟩ <;> omega
  rw [buf_add, if_neg (not_not.mpr hres), if_neg hf, buf_place, if_neg fun h => ?_]
  exact absurd hlen (Nat.not_lt.mpr h.2)

/-- A record is copied behind other bytes when the space seems to suffice. -/
theorem buf_add_fits {api : StoreApi} {what : List UInt8} (hres : api.res = 0)
    (hpos : api.pos ≠ 0) (hlen : what.length ≤ (api.len - api.pos).toNat) :
    buf_add send api what = api.copy what := by
  have hf : ¬ mustFlush api what.length := fun h => absurd h.1 (Nat.not_lt.mpr hlen)
  rw [buf_add, if_neg (not_not.mpr hres), if_neg hf, buf_place, if_neg fun h => hpos h.1]

theorem copy_overruns {api : StoreApi} {what : List UInt8} (hne : what ≠ [])
    (h : MAX_CHUNK_SIZE < api.pos.toNat + what.length) : (api.copy what).overrun = true := by
  simp [StoreApi.copy, hne, h]

/-- Below the length field the subtraction wraps around. -/
theorem toNat_space_of_lt {api : StoreApi} (h : api.len.toNat < api.pos.toNat) :
    (api.len - api.pos).toNat = 2 ^ 64 + api.len.toNat - api.pos.toNat := by
  have hpos := api.pos.toNat_lt
  rw [UInt64.toNat_sub]
  omega

variable (send) in
/-- A small raw vector behind few bytes is copied. -/
theorem add_rawRecord_small {api : StoreApi} {n : ℕ} (hres : api.res = 0)
    (hpos : api.pos.toNat + 8 < MIN_INPLACE_SIZE) (hn : n < MIN_INPLACE_SIZE) :
    (add send api (rawRecord n)).res = 0 ∧ (add send api (rawRecord n)).len = api.len ∧
      (add send api (rawRecord n)).pos.toNat = api.pos.toNat + 8 + n := by
  have hpay : (rawRecord n).payload.length = n :=
    length_rawRecord_payload (by simp only [MIN_INPLACE_SIZE] at hn; omega)
  have hhdr : buf_add send api (le 8 (rawRecord n).hdr) = api.copy (le 8 (rawRecord n).hdr) :=
    buf_add_small hres (by omega) (by rw [length_le]; decide)
  have hlt : MIN_INPLACE_SIZE < 2 ^ 63 := by decide
  have hpos₁ : (api.copy (le 8 (rawRecord n).hdr)).pos.toNat = api.pos.toNat + 8 := by
    rw [copy_pos (by rw [length_le]; omega), length_le]
  have hadd : add send api (rawRecord n)
      = (api.copy (le 8 (rawRecord n).hdr)).copy (rawRecord n).payload := by
    change buf_add send (buf_add send api (le 8 (rawRecord n).hdr)) (rawRecord n).payload = _
    rw [hhdr]
    exact buf_add_small hres (by omega) (by omega)
  rw [hadd]
  refine ⟨hres, rfl, ?_⟩
  rw [copy_pos (by omega), hpos₁, hpay]

/-- A raw vector that seems to fit is copied, past the buffer if it must be. -/
theorem add_rawRecord_overruns {api : StoreApi} {n : ℕ} (hres : api.res = 0)
    (hhdr : buf_add send api (le 8 (rawRecord n).hdr) = api.copy (le 8 (rawRecord n).hdr))
    (hpos : api.pos.toNat + 8 < 2 ^ 64) (hn : n < 2 ^ 56) (hbig : MAX_CHUNK_SIZE < n + 8)
    (hspace : n ≤ (api.len - (api.pos + 8)).toNat) :
    (add send api (rawRecord n)).overrun = true := by
  have hpay : (rawRecord n).payload.length = n := length_rawRecord_payload hn
  have hpos₁ : (api.copy (le 8 (rawRecord n).hdr)).pos = api.pos + 8 := by
    simp only [StoreApi.copy, length_le]
    rfl
  have hnat : (api.pos + 8).toNat = api.pos.toNat + 8 := by
    rw [UInt64.toNat_add]
    exact Nat.mod_eq_of_lt hpos
  have hne : api.pos + 8 ≠ 0 := by
    intro h
    rw [h] at hnat
    simp at hnat
  have hfit : buf_add send (api.copy (le 8 (rawRecord n).hdr)) (rawRecord n).payload
      = (api.copy (le 8 (rawRecord n).hdr)).copy (rawRecord n).payload :=
    buf_add_fits hres (by rwa [hpos₁]) (by rwa [hpay, hpos₁])
  change (buf_add send (buf_add send api (le 8 (rawRecord n).hdr))
    (rawRecord n).payload).overrun = true
  rw [hhdr, hfit]
  refine copy_overruns (List.ne_nil_of_length_pos ?_) ?_
  · rw [hpay]
    simp only [MAX_CHUNK_SIZE] at hbig
    omega
  · rw [hpos₁, hnat, hpay]
    omega

variable (send) in
/-- One vector that seems to fit behind its header and does not. -/
theorem overrun_of_rawZeros {g : Garbage} {n : ℕ} (conn : Conn) (hpos : g.pos = 0)
    (hn : n < 2 ^ 56) (hbig : MAX_CHUNK_SIZE < n + 8) (hspace : n ≤ (g.len - 8).toNat) :
    (sfs_store send (StoreApi.start conn g) (rawZeros n)).overrun = true := by
  have hstart : (StoreApi.start conn g).pos = 0 := hpos
  rw [sfs_store, store_rawZeros]
  refine add_rawRecord_overruns rfl ?_ (by simp [hstart]) hn hbig ?_
  · exact buf_add_small rfl (by rw [hstart]; decide) (by rw [length_le]; decide)
  · rw [hstart, UInt64.zero_add]
    exact hspace

/-- A field that promises more than there is. -/
theorem overrun_of_long {g : Garbage} (conn : Conn) (hpos : g.pos = 0)
    (h : MAX_CHUNK_SIZE < g.len.toNat) :
    (sfs_store send (StoreApi.start conn g) (rawZeros (MAX_CHUNK_SIZE - 7))).overrun = true := by
  have hle : (8 : UInt64) ≤ g.len := by
    rw [UInt64.le_iff_toNat_le]
    exact (Nat.le_of_lt (by decide : 8 < MAX_CHUNK_SIZE)).trans h.le
  refine overrun_of_rawZeros send conn hpos (by decide) (by decide) ?_
  rw [UInt64.toNat_sub_of_le _ _ hle]
  simp only [MAX_CHUNK_SIZE] at h ⊢
  change _ ≤ _ - 8
  omega

/-- Three raw vectors: the first two take the buffer up to the most that small
records can fill, and the third one is large. -/
def threeVectors : SEXP :=
  (Datum.generic [rawZeros (MIN_INPLACE_SIZE - 25), rawZeros (MIN_INPLACE_SIZE - 1),
    rawZeros MAX_CHUNK_SIZE]).fresh

theorem store_threeVectors : store threeVectors =
    [⟨.VECSXP, 0, 3, none⟩, rawRecord (MIN_INPLACE_SIZE - 25), rawRecord (MIN_INPLACE_SIZE - 1),
      rawRecord MAX_CHUNK_SIZE] := by
  simp [threeVectors, Datum.fresh, store, storeDatum, storeElts, Cells.length, store_rawZeros]

/-- A field that promises too little: once the position is past it, everything
seems to fit. -/
theorem overrun_of_short {g : Garbage} (conn : Conn) (hpos : g.pos = 0)
    (h : g.len.toNat < 2 * MIN_INPLACE_SIZE - 2) :
    (sfs_store send (StoreApi.start conn g) threeVectors).overrun = true := by
  have hstart : (StoreApi.start conn g).pos = 0 := hpos
  rw [sfs_store, store_threeVectors]
  simp only [List.foldl_cons, List.foldl_nil]
  -- the header of the list
  obtain ⟨a₀, ha₀, hres₀, hlen₀, hpos₀⟩ : ∃ a₀,
      add send (StoreApi.start conn g) ⟨.VECSXP, 0, 3, none⟩ = a₀ ∧ a₀.res = 0 ∧
        a₀.len = g.len ∧ a₀.pos.toNat = 8 := by
    refine ⟨_, buf_add_small rfl (by rw [hstart]; decide) (by rw [length_le]; decide),
      rfl, rfl, ?_⟩
    rw [copy_pos (by simp [hstart]), hstart, length_le]
    rfl
  rw [ha₀]
  -- the two small vectors
  obtain ⟨hres₁, hlen₁, hpos₁⟩ := add_rawRecord_small send hres₀
    (by rw [hpos₀]; decide) (by decide : MIN_INPLACE_SIZE - 25 < MIN_INPLACE_SIZE)
  obtain ⟨hres₂, hlen₂, hpos₂⟩ := add_rawRecord_small send hres₁
    (by rw [hpos₁, hpos₀]; decide) (by decide : MIN_INPLACE_SIZE - 1 < MIN_INPLACE_SIZE)
  generalize add send (add send a₀ (rawRecord (MIN_INPLACE_SIZE - 25)))
    (rawRecord (MIN_INPLACE_SIZE - 1)) = a₂ at hres₂ hlen₂ hpos₂ ⊢
  replace hpos₂ : a₂.pos.toNat = 2 * MIN_INPLACE_SIZE - 2 := by
    rw [hpos₂, hpos₁, hpos₀]
    decide
  have hlen : a₂.len = g.len := by rw [hlen₂, hlen₁, hlen₀]
  have hspace : (a₂.len - a₂.pos).toNat = 2 ^ 64 + g.len.toNat - (2 * MIN_INPLACE_SIZE - 2) := by
    rw [toNat_space_of_lt (by rw [hlen, hpos₂]; exact h), hlen, hpos₂]
  have hne : a₂.pos ≠ 0 := by
    intro h0
    rw [h0] at hpos₂
    exact absurd hpos₂ (by decide)
  -- the large vector: its header and its payload are copied behind them
  refine add_rawRecord_overruns hres₂ ?_ ?_ (by decide) (by decide) ?_
  · refine buf_add_fits hres₂ hne ?_
    rw [hspace, length_le]
    simp only [MIN_INPLACE_SIZE]
    omega
  · rw [hpos₂]
    decide
  · have hsub : (a₂.len - (a₂.pos + 8)).toNat
        = 2 ^ 64 + g.len.toNat - (2 * MIN_INPLACE_SIZE + 6) := by
      have hnext : (a₂.pos + 8).toNat = 2 * MIN_INPLACE_SIZE + 6 := by
        rw [UInt64.toNat_add, hpos₂]
        decide
      rw [UInt64.toNat_sub, hnext, hlen]
      simp only [MIN_INPLACE_SIZE] at h ⊢
      omega
    rw [hsub]
    simp only [MAX_CHUNK_SIZE, MIN_INPLACE_SIZE]
    omega

/-! ### Which memory will do -/

/-- **Streaming out of uninitialised memory.** Every value is streamed faithfully
exactly if `malloc` happened to leave zero in the position and, in the length, a
number between what two small records can take and the size of the buffer. With
any other position no value is. -/
theorem http_store_faithful_iff (hs : send.Succeeds) (g : Garbage) :
    ((∀ v, Streams send g v) ↔ g.pos = 0 ∧ 2 * MIN_INPLACE_SIZE - 2 ≤ g.len.toNat ∧
      g.len.toNat ≤ MAX_CHUNK_SIZE) ∧ (g.pos ≠ 0 → ∀ v, ¬ Streams send g v) := by
  refine ⟨⟨fun h => ?_, ?_⟩, fun hpos v h => hpos ((streams_iff hs g v).mp h).1⟩
  · have hpos : g.pos = 0 := ((streams_iff hs g .NULL).mp (h .NULL)).1
    refine ⟨hpos, Nat.not_lt.mp fun hshort => ?_, Nat.not_lt.mp fun hlong => ?_⟩
    · have hin := sendLast_overrun ((streams_iff hs g _).mp (h threeVectors)).2
      exact absurd (overrun_of_short ⟨0, []⟩ hpos hshort) (by rw [hin]; decide)
    · have hin := sendLast_overrun ((streams_iff hs g _).mp (h (rawZeros (MAX_CHUNK_SIZE - 7)))).2
      exact absurd (overrun_of_long ⟨0, []⟩ hpos hlong) (by rw [hin]; decide)
  · rintro ⟨hpos, hlow, hhigh⟩ v
    refine (streams_iff hs g v).mpr ⟨hpos, ?_⟩
    have hstart : Within (StoreApi.start ⟨0, []⟩ g) :=
      ⟨hlow, hhigh, by rw [show (StoreApi.start ⟨0, []⟩ g).pos = 0 from hpos]; exact Nat.zero_le _,
        rfl⟩
    exact (hstart.foldl (store v)).sendLast.overrun

theorem http_store_faithful_threeVectors :
    Streams .whole ⟨UInt64.ofNat MAX_CHUNK_SIZE, 0, fun _ => 0⟩ threeVectors :=
  (http_store_faithful_iff SendFn.whole_succeeds _).1.mpr (by decide) threeVectors

/-- In zeroed memory the subtraction wraps as soon as a header is in the buffer,
and a raw vector of `MAX_CHUNK_SIZE` bytes is copied behind it. -/
theorem http_store_zeroed_memory :
    ¬ Streams .whole ⟨0, 0, fun _ => 0⟩ (rawZeros MAX_CHUNK_SIZE) := by
  have hover := overrun_of_rawZeros (n := MAX_CHUNK_SIZE) (g := ⟨0, 0, fun _ => 0⟩) .whole
    ⟨0, []⟩ rfl (by decide) (by decide) (by decide)
  intro h
  rw [sendLast_overrun ((streams_iff SendFn.whole_succeeds _ _).mp h).2] at hover
  exact absurd hover (by decide)

end Http
end Osrv
