import Osrv.Lib.Chunked
import Osrv.Net.Socket

/-!
# Sending on an HTTP connection

`http_send` offers a buffer to `send` in pieces until all of it is accepted.
`http_send_chunk` puts a size line in front of a buffer and a line end behind
it. When every `send` succeeds, the first puts exactly its buffer on the
connection and the second the chunk of the chunked coding.
-/

namespace Osrv
namespace Http

open Net

/-- The largest offer made to `send`. -/
def MAX_SEND : ℕ := 1024 * 1024

variable (send : SendFn)

/-- Sends a buffer. -/
def http_send (c : Conn) (buf : List UInt8) : ℤ × Conn := sendAll send MAX_SEND c buf

/-- The digits of the size line. -/
def hex : List UInt8 :=
  [48, 49, 50, 51, 52, 53, 54, 55, 56, 57, 97, 98, 99, 100, 101, 102]

/-- The loop that fills the size line from its last digit down. The loop before
it has counted its rounds, so that the first digit comes to stand at the start
of the line. -/
def sizeLine (l : ℕ) (sc : List UInt8) : List UInt8 :=
  if l = 0 then sc else sizeLine (l >>> 4) (hex.getD (l &&& 15) 0 :: sc)
decreasing_by
  rw [Nat.shiftRight_eq_div_pow]
  omega

/-- Sends one chunk, or the final one if there is no data. -/
def http_send_chunk (conn : Conn) (buf : List UInt8) : ℤ × Conn :=
  if buf.length > 0 then
    let (r, conn) := http_send send conn (sizeLine buf.length [13, 10])
    if r ≠ 0 then (r, conn)
    else
      let (r, conn) := http_send send conn buf
      if r ≠ 0 then (r, conn) else http_send send conn [13, 10]
  else
    -- `"0\r\n\r\n"`: the trailer is empty
    http_send send conn [48, 13, 10, 13, 10]

/-! ### When every send succeeds -/

variable {send}

theorem http_send_ok (hs : send.Succeeds) (c : Conn) (buf : List UInt8) :
    ∃ k, http_send send c buf = (0, ⟨k, c.out ++ buf⟩) :=
  sendAll_ok hs (by decide) c buf

theorem hex_eq_digit (d : ℕ) (h : d < 16) : hex.getD d 0 = Chunked.digit d := by
  interval_cases d <;> decide

theorem sizeLine_eq (l : ℕ) (sc : List UInt8) : sizeLine l sc = Chunked.hexDigits l ++ sc := by
  induction l using Nat.strong_induction_on generalizing sc with
  | _ l ih =>
    rw [sizeLine]
    split
    · next h => rw [h, Chunked.hexDigits_zero, List.nil_append]
    · next h =>
      have hshift : l >>> 4 = l / 16 := by rw [Nat.shiftRight_eq_div_pow]
      have hmask : l &&& 15 = l % 16 := Nat.and_two_pow_sub_one_eq_mod l 4
      rw [hshift, hmask, ih (l / 16) (by omega), hex_eq_digit _ (Nat.mod_lt _ (by decide)),
        Chunked.hexDigits_of_pos (n := l) (by omega), List.append_assoc, List.singleton_append]

/-- **A chunk on the wire.** Data goes out as one chunk of the chunked coding, no
data as the final chunk. -/
theorem http_send_chunk_ok (hs : send.Succeeds) (conn : Conn) (buf : List UInt8) :
    ∃ k, http_send_chunk send conn buf
      = (0, ⟨k, conn.out ++ if buf = [] then Chunked.lastChunk else Chunked.encodeChunk buf⟩) := by
  rw [http_send_chunk]
  split
  · next h =>
    have hne : buf ≠ [] := List.ne_nil_of_length_pos h
    obtain ⟨k₁, h₁⟩ := http_send_ok hs conn (sizeLine buf.length [13, 10])
    obtain ⟨k₂, h₂⟩ := http_send_ok hs ⟨k₁, conn.out ++ sizeLine buf.length [13, 10]⟩ buf
    obtain ⟨k₃, h₃⟩ :=
      http_send_ok hs ⟨k₂, conn.out ++ sizeLine buf.length [13, 10] ++ buf⟩ [13, 10]
    refine ⟨k₃, ?_⟩
    simp only [h₁, h₂, h₃, ne_eq, not_true_eq_false, if_false, if_neg hne]
    rw [sizeLine_eq, Chunked.encodeChunk]
    simp
  · next h =>
    have hnil : buf = [] := List.length_eq_zero_iff.mp (by omega)
    obtain ⟨k, hk⟩ := http_send_ok hs conn Chunked.lastChunk
    exact ⟨k, by rw [if_pos hnil]; exact hk⟩

end Http
end Osrv
