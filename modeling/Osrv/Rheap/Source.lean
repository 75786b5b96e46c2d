import Osrv.Sfs.Transport

/-!
# What a call of `fetch` receives

`recv` and `read` deliver the bytes in pieces. When nothing has arrived yet they return
`EAGAIN`, and `fetch` calls `R_CheckUserInterrupt` before it tries again. For what R does
in the meantime it matters where between the bytes these calls are. A `Source` is an
implementation of `fetch` that shows them, with what every implementation has in
common: it writes no more than it was asked for, all of it when it returns, and it only
tries again while bytes are missing.

Without the calls, a source is a callback of the decoder (`Source.plain`). Those of
`mem_restore.c`, `fd_restore.c` and `sock_restore.c` come to the callbacks that load
from memory and from a descriptor.
-/

namespace Osrv
namespace Rheap

open Bytes Sfs

/-! ### Pieces -/

/-- What a call of `fetch` does in turn: it writes bytes, or it calls
`R_CheckUserInterrupt`. -/
inductive Piece
  | bytes (bs : List UInt8)
  | check
  deriving DecidableEq

/-- The bytes that are written in all. -/
def received : List Piece → List UInt8
  | [] => []
  | .bytes bs :: ps => bs ++ received ps
  | .check :: ps => received ps

/-- Bytes are written in pieces. -/
theorem exists_bytes {ps : List Piece} (h : received ps ≠ []) : ∃ bs, Piece.bytes bs ∈ ps := by
  induction ps with
  | nil => exact absurd rfl h
  | cons p ps ih =>
    cases p with
    | bytes bs => exact ⟨bs, List.mem_cons_self ..⟩
    | check =>
      obtain ⟨bs, hbs⟩ := ih h
      exact ⟨bs, List.mem_cons_of_mem _ hbs⟩

/-- A call of `fetch`, with the error it ends in. -/
structure Answer (σ : Type) where
  pieces : List Piece
  error : Option RError
  state : σ

/-- An implementation of `fetch`. -/
structure Source (σ : Type) where
  fetch : σ → ℕ → Answer σ
  /-- The bytes fit where they are to be written. -/
  fits : ∀ s n, (received (fetch s n).pieces).length ≤ n
  /-- All of them are there when it returns. -/
  full : ∀ s n, (fetch s n).error = none → (received (fetch s n).pieces).length = n
  /-- It tries again for bytes that are missing. -/
  waits : ∀ s n ps qs, (fetch s n).error = none → (fetch s n).pieces = ps ++ .check :: qs →
    received qs ≠ []

/-- The callback, when nobody looks at the calls of `R_CheckUserInterrupt`. -/
def Source.plain {σ : Type} (src : Source σ) : FetchApi σ where
  fetch s n :=
    match (src.fetch s n).error with
    | none => .got (received (src.fetch s n).pieces) (src.fetch s n).state
    | some e => .failed (received (src.fetch s n).pieces) e (src.fetch s n).state

theorem Source.plain_none {σ : Type} {src : Source σ} {s : σ} {n : ℕ}
    (h : (src.fetch s n).error = none) :
    src.plain.fetch s n = .got (received (src.fetch s n).pieces) (src.fetch s n).state := by
  simp only [plain, h]

theorem Source.plain_some {σ : Type} {src : Source σ} {s : σ} {n : ℕ} {e : RError}
    (h : (src.fetch s n).error = some e) :
    src.plain.fetch s n = .failed (received (src.fetch s n).pieces) e (src.fetch s n).state := by
  simp only [plain, h]

/-! ### Memory -/

namespace Mem

/-- `fetch_buf` of `mem_restore.c`. -/
def answer (s : List UInt8) (n : ℕ) : Answer (List UInt8) :=
  if s.length < n then ⟨[], some (.readShort n s.length), s⟩
  else ⟨[.bytes (s.take n)], none, s.drop n⟩

theorem answer_short {s : List UInt8} {n : ℕ} (h : s.length < n) :
    answer s n = ⟨[], some (.readShort n s.length), s⟩ := if_pos h

theorem answer_full {s : List UInt8} {n : ℕ} (h : n ≤ s.length) :
    answer s n = ⟨[.bytes (s.take n)], none, s.drop n⟩ := if_neg (Nat.not_lt.mpr h)

theorem length_received_answer {s : List UInt8} {n : ℕ} (h : n ≤ s.length) :
    (received (answer s n).pieces).length = n := by
  rw [answer_full h]
  show (s.take n ++ []).length = n
  rw [List.append_nil, List.length_take_of_le h]

def fetch : Source (List UInt8) where
  fetch := answer
  fits s n := by
    obtain h | h := Nat.lt_or_ge s.length n
    · rw [answer_short h]
      exact Nat.zero_le n
    · exact (length_received_answer h).le
  full s n he := by
    obtain h | h := Nat.lt_or_ge s.length n
    · rw [answer_short h] at he
      cases he
    · exact length_received_answer h
  waits s n ps qs he hp := by
    obtain h | h := Nat.lt_or_ge s.length n
    · rw [answer_short h] at he
      cases he
    · have hmem : Piece.check ∈ (answer s n).pieces := hp ▸ List.mem_append_right ps
        (List.mem_cons_self ..)
      rw [answer_full h, List.mem_singleton] at hmem
      cases hmem

theorem plain_fetch : fetch.plain = fetch_buf := by
  unfold Source.plain fetch fetch_buf
  congr 1
  funext s n
  obtain h | h := Nat.lt_or_ge s.length n
  · simp only [answer_short h, if_pos h]
    rfl
  · simp only [answer_full h, if_neg (Nat.not_lt.mpr h)]
    show Fetched.got (s.take n ++ []) _ = _
    rw [List.append_nil]

end Mem

/-! ### Descriptors -/

/-- Puts a piece in front of a call. -/
def Answer.cons {σ : Type} (p : Piece) (a : Answer σ) : Answer σ :=
  ⟨p :: a.pieces, a.error, a.state⟩

/-- The loop of `fetch` over a descriptor, with `i` bytes written of `len`. -/
def recvAnswer (max i len : ℕ) (arrivals : List Arrival) : Answer Descriptor :=
  if _hlen : len ≤ i then ⟨[], none, ⟨arrivals, false⟩⟩
  else
    match arrivals with
    | [] => ⟨[], some .connectionClosed, ⟨[], true⟩⟩
    | .again :: rest => (recvAnswer max i len rest).cons .check
    | .failed strerror :: rest => ⟨[], some (.readFailed strerror), ⟨rest, true⟩⟩
    | .data seg :: rest =>
      let got := seg.1.take (need max (len - i))
      if _hgot : got = [] then
        -- n == 0
        ⟨[], some .connectionClosed, ⟨.data seg :: rest, true⟩⟩
      else
        (recvAnswer max (i + got.length) len
          (putBack (seg.1.drop (need max (len - i))) rest)).cons (.bytes got)
termination_by len - i + arrivals.length
decreasing_by
  · simp
  · have hpos : 0 < (seg.1.take (need max (len - i))).length := List.length_pos_of_ne_nil _hgot
    have hback := length_putBack_le (seg.1.drop (need max (len - i))) rest
    rw [List.length_cons]
    omega

section Descriptor

variable {max : ℕ}

theorem length_take_need (i len : ℕ) (seg : List UInt8) :
    (seg.take (need max (len - i))).length ≤ len - i := by
  refine (List.length_take_le _ _).trans ?_
  unfold need
  split <;> omega

/-- The loop receives what `recvLoop` does. -/
theorem recvLoop_eq (buf : List UInt8) (len : ℕ) (arrivals : List Arrival) :
    recvLoop max buf len arrivals =
      match (recvAnswer max buf.length len arrivals).error with
      | none => .got (buf ++ received (recvAnswer max buf.length len arrivals).pieces)
          (recvAnswer max buf.length len arrivals).state
      | some e => .failed (buf ++ received (recvAnswer max buf.length len arrivals).pieces) e
          (recvAnswer max buf.length len arrivals).state := by
  induction buf, arrivals using recvLoop.induct max len with
  -- nothing is missing
  | case1 buf arrivals hlen =>
    rw [recvLoop.eq_def, recvAnswer.eq_def, dif_pos hlen, dif_pos hlen]
    simp only [received, List.append_nil]
  -- nothing arrives any more
  | case2 buf hlen =>
    rw [recvLoop.eq_def, recvAnswer.eq_def, dif_neg hlen, dif_neg hlen]
    simp only [received, List.append_nil]
  -- a retry
  | case3 buf hlen rest ih =>
    rw [recvLoop.eq_def, recvAnswer.eq_def, dif_neg hlen, dif_neg hlen]
    exact ih
  -- an error
  | case4 buf hlen strerror rest =>
    rw [recvLoop.eq_def, recvAnswer.eq_def, dif_neg hlen, dif_neg hlen]
    simp only [received, List.append_nil]
  -- an empty piece
  | case5 buf hlen seg rest got hgot =>
    rw [recvLoop.eq_def, recvAnswer.eq_def, dif_neg hlen, dif_neg hlen]
    simp only [got] at hgot
    simp only [dif_pos hgot, received, List.append_nil]
  -- a piece
  | case6 buf hlen seg rest got hgot ih =>
    rw [recvLoop.eq_def, recvAnswer.eq_def, dif_neg hlen, dif_neg hlen]
    simp only [got] at hgot ih
    simp only [dif_neg hgot, Answer.cons, received, ← List.append_assoc]
    rw [List.length_append] at ih
    exact ih

/-- What the loop writes. -/
theorem recvAnswer_spec (i len : ℕ) (arrivals : List Arrival) :
    (received (recvAnswer max i len arrivals).pieces).length ≤ len - i ∧
      ((recvAnswer max i len arrivals).error = none →
        (received (recvAnswer max i len arrivals).pieces).length = len - i ∧
          ∀ ps qs, (recvAnswer max i len arrivals).pieces = ps ++ .check :: qs →
            received qs ≠ []) := by
  induction i, arrivals using recvAnswer.induct max len with
  -- nothing is missing
  | case1 i arrivals hlen =>
    rw [recvAnswer.eq_def, dif_pos hlen]
    refine ⟨Nat.zero_le _, fun _ => ⟨(Nat.sub_eq_zero_of_le hlen).symm, fun ps qs h => ?_⟩⟩
    simp at h
  -- nothing arrives any more
  | case2 i hlen =>
    rw [recvAnswer.eq_def, dif_neg hlen]
    exact ⟨Nat.zero_le _, fun h => nomatch h⟩
  -- a retry
  | case3 i hlen rest ih =>
    rw [recvAnswer.eq_def, dif_neg hlen]
    obtain ⟨hle, hok⟩ := ih
    refine ⟨hle, fun he => ⟨(hok he).1, fun ps qs h => ?_⟩⟩
    cases ps with
    | nil =>
      -- the call that is first is answered by all that is still missing
      obtain ⟨-, rfl⟩ := List.cons.inj h
      intro hnil
      have hlength := (hok he).1
      rw [hnil] at hlength
      simp only [List.length_nil] at hlength
      omega
    | cons p ps =>
      obtain ⟨-, h⟩ := List.cons.inj h
      exact (hok he).2 ps qs h
  -- an error
  | case4 i hlen strerror rest =>
    rw [recvAnswer.eq_def, dif_neg hlen]
    exact ⟨Nat.zero_le _, fun h => nomatch h⟩
  -- an empty piece
  | case5 i hlen seg rest got hgot =>
    rw [recvAnswer.eq_def, dif_neg hlen]
    simp only [got] at hgot
    simp only [dif_pos hgot]
    exact ⟨Nat.zero_le _, fun h => nomatch h⟩
  -- a piece
  | case6 i hlen seg rest got hgot ih =>
    rw [recvAnswer.eq_def, dif_neg hlen]
    simp only [got] at hgot ih
    simp only [dif_neg hgot, Answer.cons, received, List.length_append]
    have hle : (seg.1.take (need max (len - i))).length ≤ len - i := length_take_need i len seg.1
    obtain ⟨hmore, hok⟩ := ih
    refine ⟨by omega, fun he => ⟨?_, fun ps qs h => ?_⟩⟩
    · have hlength := (hok he).1
      omega
    · cases ps with
      | nil => cases (List.cons.inj h).1
      | cons p ps =>
        obtain ⟨-, h⟩ := List.cons.inj h
        exact (hok he).2 ps qs h

/-- `fetch` over a descriptor, with at most `max` bytes in one call. -/
def recvSource (max : ℕ) : Source Descriptor where
  fetch d len := recvAnswer max 0 len d.arrivals
  fits d len := (recvAnswer_spec 0 len d.arrivals).1
  full d len he := ((recvAnswer_spec 0 len d.arrivals).2 he).1
  waits d len ps qs he hp := ((recvAnswer_spec 0 len d.arrivals).2 he).2 ps qs hp

theorem plain_recvSource :
    (recvSource max).plain = ⟨fun d len => recvLoop max [] len d.arrivals⟩ := by
  unfold Source.plain recvSource
  congr 1
  funext d len
  exact (recvLoop_eq [] len d.arrivals).symm

end Descriptor

namespace Fd

/-- `fetch` of `fd_restore.c`. -/
def fetch : Source Descriptor := recvSource Sfs.Fd.MAX_RECV_SIZE

theorem plain_fetch : fetch.plain = Sfs.Fd.fetch := plain_recvSource

end Fd

namespace Sock

/-- `fetch` of `sock_restore.c`. -/
def fetch : Source Descriptor := recvSource Sfs.Sock.MAX_RECV_SIZE

theorem plain_fetch : fetch.plain = Sfs.Sock.fetch := plain_recvSource

end Sock

end Rheap
end Osrv
