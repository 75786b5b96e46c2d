import Osrv.Http.Hcstore

/-!
# Streaming behind a response

`http_store` is called when the head of the response has gone out. What it sends does not
depend on that: on a connection that has been used it sends what it sends on a fresh one,
to the kernel that answers from there on (`http_store_behind`).

Nor does it depend on the kernel where the buffer overruns, as long as every send
succeeds. That is decided by the sizes of what is copied alone (`Fits`).
-/

namespace Osrv
namespace Net

/-! ### A connection that has been used -/

/-- The kernel from the `k`-th call on. -/
def SendFn.from (send : SendFn) (k : ℕ) : SendFn := fun i ts => send (k + i) ts

theorem SendFn.Succeeds.from {send : SendFn} (h : send.Succeeds) (k : ℕ) :
    (send.from k).Succeeds := fun i ts hts => h (k + i) ts hts

/-- What has been sent on `c`, behind what has been sent on `c₀`. -/
def Conn.behind (c₀ c : Conn) : Conn := ⟨c₀.calls + c.calls, c₀.out ++ c.out⟩

theorem Conn.behind_fresh (c : Conn) : c.behind ⟨0, []⟩ = c := by
  rw [Conn.behind, Nat.add_zero, List.append_nil]

theorem sendAll_behind (send : SendFn) (max : ℕ) (c₀ c : Conn) (buf : List UInt8) :
    sendAll send max (c₀.behind c) buf
      = ((sendAll (send.from c₀.calls) max c buf).1,
        c₀.behind (sendAll (send.from c₀.calls) max c buf).2) := by
  induction hlen : buf.length using Nat.strong_induction_on generalizing c buf with
  | _ len ih =>
    rw [sendAll.eq_def send, sendAll.eq_def (send.from c₀.calls)]
    split
    · rfl
    · next hne =>
      simp only [SendFn.from, Conn.behind]
      generalize (if buf.length > max then max else buf.length) = ts
      cases send (c₀.calls + c.calls) ts with
      | accepted n pos le =>
        have hpos : 0 < buf.length := List.length_pos_of_ne_nil hne
        have hdrop : (buf.drop n).length < len := by
          rw [List.length_drop]
          omega
        have hnext := ih _ hdrop ⟨c.calls + 1, c.out ++ buf.take n⟩ (buf.drop n) rfl
        rw [Conn.behind, ← Nat.add_assoc, ← List.append_assoc] at hnext
        exact hnext
      | closed => rfl
      | failed => rfl

end Net

namespace Http

open Net Bytes Sfs

section Behind

variable (send : SendFn) (c₀ : Conn)

theorem http_send_chunk_behind (c : Conn) (buf : List UInt8) :
    http_send_chunk send (c₀.behind c) buf
      = ((http_send_chunk (send.from c₀.calls) c buf).1,
        c₀.behind (http_send_chunk (send.from c₀.calls) c buf).2) := by
  unfold http_send_chunk http_send
  split
  · simp only [sendAll_behind]
    by_cases h₁ : (sendAll (send.from c₀.calls) MAX_SEND c (sizeLine buf.length [13, 10])).1 ≠ 0
    · simp only [if_pos h₁]
    · simp only [if_neg h₁]
      split <;> rfl
  · exact sendAll_behind ..

/-- The sink on a connection that has been used. -/
def StoreApi.behind (api : StoreApi) : StoreApi := { api with conn := c₀.behind api.conn }

namespace StoreApi

variable (api : StoreApi)

@[simp] theorem behind_res : (api.behind c₀).res = api.res := rfl

@[simp] theorem behind_pos : (api.behind c₀).pos = api.pos := rfl

@[simp] theorem behind_pending : (api.behind c₀).pending = api.pending := rfl

theorem sendChunk_behind (what : List UInt8) :
    (api.behind c₀).sendChunk send what = (api.sendChunk (send.from c₀.calls) what).behind c₀ := by
  simp only [sendChunk, behind, http_send_chunk_behind]

theorem flush_behind :
    (api.behind c₀).flush send = (api.flush (send.from c₀.calls)).behind c₀ := by
  simp only [flush, behind_pending, sendChunk_behind]
  rfl

theorem buf_place_behind (what : List UInt8) :
    buf_place send (api.behind c₀) what
      = (buf_place (send.from c₀.calls) api what).behind c₀ := by
  simp only [buf_place, behind_pos, sendChunk_behind]
  split <;> rfl

theorem buf_add_behind (what : List UInt8) :
    buf_add send (api.behind c₀) what = (buf_add (send.from c₀.calls) api what).behind c₀ := by
  have hflush : mustFlush (api.behind c₀) what.length ↔ mustFlush api what.length := Iff.rfl
  simp only [buf_add, behind_res, hflush, flush_behind]
  split
  · rfl
  · split
    · split
      · rfl
      · -- the buffer is empty now
        exact buf_place_behind send c₀
          { api.flush (send.from c₀.calls) with pos := 0 } what
    · exact buf_place_behind send c₀ api what

theorem add_behind (r : Record) :
    add send (api.behind c₀) r = (add (send.from c₀.calls) api r).behind c₀ := by
  unfold add
  rw [buf_add_behind]
  cases r.buf with
  | none => rfl
  | some b => exact buf_add_behind ..

theorem foldl_behind (rs : List Record) :
    rs.foldl (add send) (api.behind c₀)
      = (rs.foldl (add (send.from c₀.calls)) api).behind c₀ := by
  induction rs generalizing api with
  | nil => rfl
  | cons r rs ih => rw [List.foldl_cons, List.foldl_cons, add_behind, ih]

theorem sendLast_behind :
    (api.behind c₀).sendLast send = (api.sendLast (send.from c₀.calls)).behind c₀ := by
  simp only [sendLast, behind_res, behind_pos, flush_behind]
  split <;> rfl

end StoreApi

/-- **Streaming on a connection that has been used** sends what it sends on a fresh one. -/
theorem http_store_behind (api : Option Garbage) (v : SEXP) :
    http_store send c₀ api v
      = ((http_store (send.from c₀.calls) ⟨0, []⟩ api v).1,
        (http_store (send.from c₀.calls) ⟨0, []⟩ api v).2.1.map (StoreApi.behind c₀),
        c₀.behind (http_store (send.from c₀.calls) ⟨0, []⟩ api v).2.2) := by
  cases api with
  | none => rw [http_store, http_store, Option.map_none, Conn.behind_fresh]
  | some g =>
    have hstart : StoreApi.start c₀ g = (StoreApi.start ⟨0, []⟩ g).behind c₀ := by
      rw [StoreApi.behind]
      change _ = { StoreApi.start ⟨0, []⟩ g with conn := c₀.behind ⟨0, []⟩ }
      rw [Conn.behind_fresh]
      rfl
    have hrun : (sfs_store send (StoreApi.start c₀ g) v).sendLast send
        = ((sfs_store (send.from c₀.calls) (StoreApi.start ⟨0, []⟩ g) v).sendLast
          (send.from c₀.calls)).behind c₀ := by
      rw [sfs_store, hstart, StoreApi.foldl_behind, StoreApi.sendLast_behind]
      rfl
    simp only [http_store, hrun, StoreApi.behind_res]
    split
    · rw [StoreApi.behind, http_send_chunk_behind]
      rfl
    · rfl

end Behind

/-! ### The sizes decide -/

/-- What is put into the buffer for a record. -/
def copies (r : Record) : List (List UInt8) :=
  match r.buf with
  | some _ => [le 8 r.hdr, r.payload]
  | none => [le 8 r.hdr]

/-- The sizes of what is put into the buffer for a value. -/
def pieces (v : SEXP) : List ℕ := ((store v).flatMap copies).map List.length

/-- The position in the buffer at which a piece of `n` bytes is put, and whether what is sent
to make room for it lies in the buffer. -/
def flushed (len pos : UInt64) (n : ℕ) : UInt64 × Bool :=
  if n > (len - pos).toNat ∧ (pos.toNat ≥ MIN_INPLACE_SIZE ∨ n ≥ MIN_INPLACE_SIZE) then
    (0, decide (pos.toNat ≤ MAX_CHUNK_SIZE))
  else (pos, true)

/-- The position behind a piece that is put at `pos`, and whether it stays in the buffer. -/
def placed (pos : UInt64) (n : ℕ) : UInt64 × Bool :=
  if pos = 0 ∧ n ≥ MIN_INPLACE_SIZE then (pos, true)
  else (pos + UInt64.ofNat n, decide (n = 0 ∨ pos.toNat + n ≤ MAX_CHUNK_SIZE))

/-- Nothing leaves the buffer, if its length and position are `len` and `pos` at first. At the
end what is in the buffer is sent. -/
def Fits (len pos : UInt64) : List ℕ → Bool
  | [] => decide (pos.toNat ≤ MAX_CHUNK_SIZE)
  | n :: ns =>
    (flushed len pos n).2 && (placed (flushed len pos n).1 n).2 &&
      Fits len (placed (flushed len pos n).1 n).1 ns

section Sizes

variable {send : SendFn} {api : StoreApi}

/-- What a copy does to the fields, by the size of what is copied. -/
structure Copied (api api' : StoreApi) (p : UInt64 × Bool) : Prop where
  res : api'.res = 0
  len : api'.len = api.len
  pos : api'.pos = p.1
  overrun : api'.overrun = false ↔ api.overrun = false ∧ p.2 = true

theorem sendChunk_res (hs : send.Succeeds) (api : StoreApi) (what : List UInt8) :
    (api.sendChunk send what).res = 0 := by
  obtain ⟨k, hk⟩ := http_send_chunk_ok hs api.conn what
  rw [StoreApi.sendChunk, hk]

theorem buf_place_copied (hs : send.Succeeds) (hres : api.res = 0) (what : List UInt8) :
    Copied api (buf_place send api what) (placed api.pos what.length) := by
  unfold buf_place placed
  by_cases hbig : api.pos = 0 ∧ what.length ≥ MIN_INPLACE_SIZE
  · simp only [if_pos hbig]
    exact ⟨sendChunk_res hs api what, rfl, rfl, by simp⟩
  · simp only [if_neg hbig]
    refine ⟨hres, rfl, rfl, ?_⟩
    simp only [StoreApi.copy, Bool.or_eq_false_iff, decide_eq_false_iff_not, not_and, not_lt,
      decide_eq_true_eq, List.length_eq_zero_iff, or_iff_not_imp_left]

theorem buf_add_copied (hs : send.Succeeds) (hres : api.res = 0) (what : List UInt8) :
    Copied api (buf_add send api what)
      ((placed (flushed api.len api.pos what.length).1 what.length).1,
        (flushed api.len api.pos what.length).2 &&
          (placed (flushed api.len api.pos what.length).1 what.length).2) := by
  unfold buf_add flushed
  rw [if_neg (not_not.mpr hres)]
  by_cases hflush : mustFlush api what.length
  · have hsent : (api.flush send).res = 0 := sendChunk_res hs api api.pending
    have hempty : ({ api.flush send with pos := 0 } : StoreApi).res = 0 := hsent
    have hplace := buf_place_copied hs hempty what
    have hover : (api.flush send).overrun = false ↔ _ := StoreApi.flush_overrun
    rw [if_pos hflush, if_pos (show _ ∧ _ from hflush)]
    simp only [if_neg (not_not.mpr hsent)]
    refine ⟨hplace.res, hplace.len, hplace.pos, hplace.overrun.trans ?_⟩
    rw [Bool.and_eq_true, decide_eq_true_eq, ← and_assoc]
    exact and_congr_left' hover
  · rw [if_neg hflush, if_neg (show ¬ (_ ∧ _) from hflush)]
    exact buf_place_copied hs hres what

theorem foldl_buf_add (hs : send.Succeeds) (hres : api.res = 0) (whats : List (List UInt8)) :
    (whats.foldl (buf_add send) api).res = 0 ∧
      (((whats.foldl (buf_add send) api).sendLast send).overrun = false ↔
        api.overrun = false ∧ Fits api.len api.pos (whats.map List.length) = true) := by
  induction whats generalizing api with
  | nil =>
    refine ⟨hres, ?_⟩
    rw [List.map_nil, Fits, decide_eq_true_eq, List.foldl_nil, StoreApi.sendLast]
    by_cases hpos : api.pos = 0
    · -- an empty buffer is not sent
      rw [if_neg fun h => h.2 hpos, hpos]
      exact (and_iff_left (Nat.zero_le _)).symm
    · rw [if_pos ⟨hres, hpos⟩]
      exact StoreApi.flush_overrun
  | cons what whats ih =>
    have hcopied := buf_add_copied hs hres what
    obtain ⟨hres', hover⟩ := ih hcopied.res
    refine ⟨hres', hover.trans ?_⟩
    rw [hcopied.overrun, hcopied.len, hcopied.pos, List.map_cons, Fits, Bool.and_eq_true,
      Bool.and_eq_true, Bool.and_eq_true, and_assoc]

theorem add_eq_foldl (api : StoreApi) (r : Record) :
    add send api r = (copies r).foldl (buf_add send) api := by
  unfold add copies
  cases r.buf <;> rfl

theorem sfs_store_eq_foldl (api : StoreApi) (v : SEXP) :
    sfs_store send api v = ((store v).flatMap copies).foldl (buf_add send) api := by
  rw [sfs_store, List.foldl_flatMap]
  congr 1
  funext api r
  exact add_eq_foldl api r

/-- **The sizes decide** whether the buffer overruns. -/
theorem sfs_store_overrun (hs : send.Succeeds) (conn : Conn) (g : Garbage) (v : SEXP) :
    ((sfs_store send (StoreApi.start conn g) v).sendLast send).overrun = false ↔
      Fits g.len g.pos (pieces v) = true := by
  rw [sfs_store_eq_foldl, (foldl_buf_add hs (show (StoreApi.start conn g).res = 0 from rfl) _).2]
  exact and_iff_right rfl

end Sizes

end Http
end Osrv
