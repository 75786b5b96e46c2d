import Osrv.Http.Send
import Osrv.Lib.Scan
import Osrv.Net.Offers

/-!
# The framing of chunks

`http_send_chunk` puts the size line of a chunk together in an array of 20 bytes on its
stack: the digits from the last one down, a line end behind them that serves for the end
of the chunk too. `http_send_chunk_array` is the function with that array. A length of 64
bits fits it (`writeSize_spec`), so that the function does what `http_send_chunk` says
(`http_send_chunk_array_eq`).

A body goes out as a series of such calls with an empty one at the end. Whatever the
schedule of short sends, its bytes are those of the chunked coding, and where a send fails
the call that made it says so (`chunks_framed`).
-/

namespace Osrv
namespace Http

open Bytes Net

/-! ### The array -/

/-- The size of `sz`. -/
def SZ_SIZE : ℕ := 20

/-- The number of digits, counted by the first loop. -/
def digitCount (l : ℕ) : ℕ := if l = 0 then 0 else digitCount (l >>> 4) + 1
decreasing_by
  rw [Nat.shiftRight_eq_div_pow]
  omega

/-- Writes a byte of the array. -/
def poke (sz : Memory) (i : ℕ) (b : UInt8) : Option Memory :=
  if i < SZ_SIZE then some (write sz i [b]) else none

/-- The second loop. `i` is one more than the offset of `sc`, which may come to point in
front of the array when nothing is written any more. -/
def fillDigits (sz : Memory) : ℕ → ℕ → Option Memory
  | 0, l => if l = 0 then some sz else none
  | i + 1, l =>
    if l = 0 then some sz
    else do
      let sz ← poke sz i (hex.getD (l &&& 15) 0)
      fillDigits sz i (l >>> 4)

/-- Writes the size line, and returns the offset behind it. -/
def writeSize (sz : Memory) (len : ℕ) : Option (Memory × ℕ) := do
  let szl := digitCount len
  let sz ← fillDigits sz szl len
  let sz ← poke sz szl 13
  let sz ← poke sz (szl + 1) 10
  pure (sz, szl + 2)

variable (send : SendFn)

/-- `http_send_chunk` with the array, which holds anything at first. -/
def http_send_chunk_array (sz : Memory) (conn : Conn) (buf : List UInt8) : Option (ℤ × Conn) :=
  if buf.length > 0 then do
    let (sz, sc) ← writeSize sz buf.length
    let (r, conn) := http_send send conn (read sz sc)
    if r ≠ 0 then pure (r, conn)
    else
      let (r, conn) := http_send send conn buf
      if r ≠ 0 then pure (r, conn)
      else pure (http_send send conn (read (fun i => sz (sc - 2 + i)) 2))
  else
    -- with the NUL it takes six bytes
    let sz := write sz 0 (ascii "0\r\n\r\n" ++ [0])
    pure (http_send send conn (read sz 5))

/-! ### The size line -/

theorem digitCount_zero : digitCount 0 = 0 := by
  rw [digitCount]
  rfl

theorem digitCount_of_pos {l : ℕ} (h : 0 < l) : digitCount l = digitCount (l / 16) + 1 := by
  rw [digitCount, if_neg (by omega), Nat.shiftRight_eq_div_pow]

theorem digitCount_eq_length (l : ℕ) : digitCount l = (Chunked.hexDigits l).length := by
  induction l using Nat.strong_induction_on with
  | _ l ih =>
    rcases Nat.eq_zero_or_pos l with rfl | hpos
    · rw [digitCount_zero, Chunked.hexDigits_zero]
      rfl
    · rw [digitCount_of_pos hpos, Chunked.hexDigits_of_pos hpos, ih (l / 16) (by omega),
        List.length_append]
      rfl

/-- A number of `k` digits. -/
theorem digitCount_le {k l : ℕ} (h : l < 16 ^ k) : digitCount l ≤ k := by
  induction k generalizing l with
  | zero =>
    obtain rfl : l = 0 := by simpa using h
    rw [digitCount_zero]
  | succ k ih =>
    rcases Nat.eq_zero_or_pos l with rfl | hpos
    · rw [digitCount_zero]
      exact Nat.zero_le _
    · rw [pow_succ] at h
      rw [digitCount_of_pos hpos]
      exact Nat.succ_le_succ (ih (by omega))

/-- A length of 64 bits has at most sixteen digits. -/
theorem digitCount_le_sixteen {l : ℕ} (h : l < 2 ^ 64) : digitCount l ≤ 16 :=
  digitCount_le (k := 16) (by omega)

/-- The second loop fills in the digits and nothing else. -/
theorem fillDigits_spec (sz : Memory) {l : ℕ} (h : digitCount l ≤ SZ_SIZE) :
    ∃ sz', fillDigits sz (digitCount l) l = some sz' ∧ At sz' 0 (Chunked.hexDigits l) ∧
      ∀ j, digitCount l ≤ j → sz' j = sz j := by
  induction l using Nat.strong_induction_on generalizing sz with
  | _ l ih =>
    rcases Nat.eq_zero_or_pos l with rfl | hpos
    · rw [digitCount_zero, Chunked.hexDigits_zero]
      exact ⟨sz, rfl, at_nil _ _, fun _ _ => rfl⟩
    · have hcount := digitCount_of_pos hpos
      have hshift : l >>> 4 = l / 16 := Nat.shiftRight_eq_div_pow l 4
      have hmask : l &&& 15 = l % 16 := Nat.and_two_pow_sub_one_eq_mod l 4
      have hlt : digitCount (l / 16) < SZ_SIZE := by omega
      -- the last digit goes to the end, the others in front of it
      obtain ⟨sz', hfill, hat, hkeep⟩ :=
        ih (l / 16) (by omega) (write sz (digitCount (l / 16)) [Chunked.digit (l % 16)])
          (by omega)
      refine ⟨sz', ?_, ?_, fun j hj => ?_⟩
      · rw [hcount, fillDigits, if_neg (by omega), hmask, hex_eq_digit _ (Nat.mod_lt _ (by decide)),
          poke, if_pos hlt, hshift]
        exact hfill
      · rw [Chunked.hexDigits_of_pos hpos]
        refine at_append.mpr ⟨hat, ?_⟩
        rw [Nat.zero_add, ← digitCount_eq_length]
        refine at_cons.mpr ⟨?_, at_nil _ _⟩
        rw [hkeep _ (Nat.le_refl _)]
        simp [write]
      · rw [hkeep j (by omega)]
        have hpast : 1 ≤ j - digitCount (l / 16) := by omega
        rw [write, if_pos (by omega), List.getElem?_eq_none hpast, Option.getD_none]

/-- **The size line fits** its array. -/
theorem writeSize_spec (sz : Memory) {len : ℕ} (h : len < 2 ^ 64) :
    ∃ sz', writeSize sz len = some (sz', digitCount len + 2) ∧ digitCount len + 2 ≤ SZ_SIZE ∧
      At sz' 0 (Chunked.hexDigits len ++ [13, 10]) := by
  have hle := digitCount_le_sixteen h
  have hsize : SZ_SIZE = 20 := rfl
  obtain ⟨sz', hfill, hat, -⟩ := fillDigits_spec sz (l := len) (by omega)
  refine ⟨write (write sz' (digitCount len) [13]) (digitCount len + 1) [10], ?_, by omega, ?_⟩
  · simp only [writeSize, hfill, poke, Option.bind_eq_bind, Option.bind_some]
    rw [if_pos (by omega), Option.bind_some, if_pos (by omega), Option.bind_some]
    rfl
  · have hlen := digitCount_eq_length len
    refine at_append.mpr ⟨(hat.write_after (by omega)).write_after (by omega), ?_⟩
    rw [Nat.zero_add, ← hlen]
    refine at_cons.mpr ⟨?_, at_cons.mpr ⟨?_, at_nil _ _⟩⟩
    · simp [write]
    · simp [write]

/-- **The array holds what is sent.** The function with the array is the one without. -/
theorem http_send_chunk_array_eq (sz : Memory) (conn : Conn) {buf : List UInt8}
    (h : buf.length < 2 ^ 64) :
    http_send_chunk_array send sz conn buf = some (http_send_chunk send conn buf) := by
  rw [http_send_chunk_array, http_send_chunk]
  split
  · obtain ⟨sz', hwrite, -, hat⟩ := writeSize_spec sz h
    have hline : read sz' (digitCount buf.length + 2) = sizeLine buf.length [13, 10] := by
      rw [sizeLine_eq, ← hat.read_start, List.length_append, digitCount_eq_length]
      rfl
    have hend : read (fun i => sz' (digitCount buf.length + 2 - 2 + i)) 2 = [13, 10] := by
      have htail := (at_append.mp hat).2
      rw [Nat.zero_add, ← digitCount_eq_length] at htail
      rw [Nat.add_sub_cancel]
      exact htail.read_eq
    simp only [hwrite, Option.bind_eq_bind, Option.bind_some, hline, hend]
    split
    · rfl
    · split <;> rfl
  · have hlast : read (write sz 0 (ascii "0\r\n\r\n" ++ [0])) 5 = [48, 13, 10, 13, 10] := by
      have hat : At (write sz 0 (ascii "0\r\n\r\n" ++ [0])) 0 ([48, 13, 10, 13, 10] ++ [0]) :=
        at_write _ _ _
      exact (at_append.mp hat).1.read_eq
    simp only [hlast]
    rfl

/-! ### A series of chunks -/

/-- What one call sends. -/
def chunkParts (buf : List UInt8) : List (List UInt8) :=
  if buf = [] then [Chunked.lastChunk] else [sizeLine buf.length [13, 10], buf, [13, 10]]

theorem http_send_chunk_eq (conn : Conn) (buf : List UInt8) :
    http_send_chunk send conn buf = sendSeq send MAX_SEND conn (chunkParts buf) := by
  rw [http_send_chunk, chunkParts]
  by_cases hnil : buf = []
  · rw [if_pos hnil, if_neg (by simp [hnil]), sendSeq_singleton]
    rfl
  · have hrest : ∀ c, sendSeq send MAX_SEND c [buf, [13, 10]] =
        let (r, c) := sendAll send MAX_SEND c buf
        if r ≠ 0 then (r, c) else sendAll send MAX_SEND c [13, 10] := by
      intro c
      rw [sendSeq]
      simp only [sendSeq_singleton]
    rw [if_neg hnil, if_pos (List.length_pos_of_ne_nil hnil), sendSeq]
    simp only [hrest]
    rfl

/-- The bytes of one call. -/
theorem flatten_chunkParts (buf : List UInt8) : (chunkParts buf).flatten
    = if buf = [] then Chunked.lastChunk else Chunked.encodeChunk buf := by
  rw [chunkParts]
  split
  · exact List.flatten_singleton
  · rw [sizeLine_eq, Chunked.encodeChunk]
    simp

/-- A call of `http_send_chunk`: the calls of `send` that it made and what it returned. -/
structure ChunkCall where
  offers : List Offer
  result : ℤ

/-- Sends buffers in a row, up to the first call that fails. The array holds anything at
the start of a call. -/
def sendChunks (sz : ℕ → Memory) (conn : Conn) :
    List (List UInt8) → Option (List ChunkCall × Conn)
  | [] => some ([], conn)
  | buf :: bufs => do
    let (r, conn') ← http_send_chunk_array send (sz conn.calls) conn buf
    let call : ChunkCall := ⟨seqOffers send MAX_SEND conn (chunkParts buf), r⟩
    if r ≠ 0 then pure ([call], conn')
    else
      let (calls, conn'') ← sendChunks sz conn' bufs
      pure (call :: calls, conn'')

/-- What has come of a series: all its bytes have gone out and every call has returned `0`,
or a call has said that it failed and what has gone out are the first ones of them. -/
inductive Series (conn : Conn) (bytes : List UInt8) (n : ℕ) : List ChunkCall → Conn → Prop
  | sent {calls : List ChunkCall} {conn' : Conn} (length : calls.length = n)
      (ok : ∀ call ∈ calls, call.result = 0 ∧ ∀ o ∈ call.offers, send.Accepts o)
      (out : conn'.out = conn.out ++ bytes) : Series conn bytes n calls conn'
  | stopped {calls : List ChunkCall} {last : ChunkCall} {conn' : Conn} {o : Offer}
      {front : List UInt8}
      (ok : ∀ call ∈ calls, call.result = 0 ∧ ∀ o ∈ call.offers, send.Accepts o)
      (mem : o ∈ last.offers) (refused : ¬ send.Accepts o) (result : last.result ≠ 0)
      (isFront : front <+: bytes) (out : conn'.out = conn.out ++ front) :
      Series conn bytes n (calls ++ [last]) conn'

variable {send}

theorem sendChunks_spec (sz : ℕ → Memory) (conn : Conn) {bufs : List (List UInt8)}
    (h : ∀ buf ∈ bufs, buf.length < 2 ^ 64) :
    ∃ calls conn', sendChunks send sz conn bufs = some (calls, conn') ∧
      Series send conn (bufs.flatMap fun buf => (chunkParts buf).flatten) bufs.length calls
        conn' := by
  induction bufs generalizing conn with
  -- no call is left
  | nil =>
    refine ⟨[], conn, rfl, .sent rfl (fun call hcall => absurd hcall List.not_mem_nil) ?_⟩
    exact (List.append_nil _).symm
  | cons buf bufs ih =>
    -- one call
    have hfirst : Outcome send (seqOffers send MAX_SEND conn (chunkParts buf)) conn
        (chunkParts buf).flatten (sendSeq send MAX_SEND conn (chunkParts buf)) :=
      sendSeq_outcome conn (chunkParts buf)
    have harray := http_send_chunk_array_eq send (sz conn.calls) conn (h buf List.mem_cons_self)
    rw [http_send_chunk_eq] at harray
    rw [sendChunks, harray, List.flatMap_cons]
    generalize sendSeq send MAX_SEND conn (chunkParts buf) = res at hfirst
    generalize seqOffers send MAX_SEND conn (chunkParts buf) = os at hfirst
    cases hfirst with
    -- it is accepted, and the rest comes to what it comes to
    | @sent conn₁ accepted out =>
      obtain ⟨calls, conn', hrun, hseries⟩ := ih conn₁ fun b hb => h b (List.mem_cons_of_mem _ hb)
      have hok : ∀ calls : List ChunkCall,
          (∀ call ∈ calls, call.result = 0 ∧ ∀ o ∈ call.offers, send.Accepts o) →
          ∀ call ∈ (⟨os, 0⟩ : ChunkCall) :: calls,
            call.result = 0 ∧ ∀ o ∈ call.offers, send.Accepts o := by
        intro calls hcalls call hcall
        cases List.mem_cons.mp hcall with
        | inl heq =>
          rw [heq]
          exact ⟨rfl, accepted⟩
        | inr hmem => exact hcalls call hmem
      refine ⟨⟨os, 0⟩ :: calls, conn', ?_, ?_⟩
      · simp only [Option.bind_eq_bind, Option.bind_some, ne_eq, not_true_eq_false, if_false, hrun]
        rfl
      · cases hseries with
        | sent length ok out' =>
          refine .sent ?_ (hok calls ok) ?_
          · rw [List.length_cons, List.length_cons, length]
          · rw [out', out, List.append_assoc]
        | @stopped calls last conn' o front ok mem refused result isFront out' =>
          rw [← List.cons_append]
          refine @Series.stopped _ _ _ _ _ _ _ _ ((chunkParts buf).flatten ++ front)
            (hok calls ok) mem refused result ?_ ?_
          · exact (List.prefix_append_right_inj _).mpr isFront
          · rw [out', out, List.append_assoc]
    -- it is the last
    | @stopped r conn₁ o front mem refused result isFront short out =>
      refine ⟨[⟨os, r⟩], conn₁, ?_, ?_⟩
      · simp only [Option.bind_eq_bind, Option.bind_some, result, ne_eq, not_false_eq_true, if_true]
        rfl
      · rw [← List.nil_append [(⟨os, r⟩ : ChunkCall)]]
        exact .stopped (fun call hcall => absurd hcall List.not_mem_nil) mem refused
          result (isFront.trans (List.prefix_append _ _)) out

/-- The bytes of a series with an empty buffer at its end. -/
theorem encode_eq {blocks : List (List UInt8)} (h : ∀ b ∈ blocks, b ≠ []) :
    ((blocks ++ [[]]).flatMap fun buf => (chunkParts buf).flatten) = Chunked.encode blocks := by
  rw [List.flatMap_append, Chunked.encode, List.flatMap_singleton, flatten_chunkParts, if_pos rfl]
  congr 1
  refine List.flatMap_congr fun b hb => ?_
  rw [flatten_chunkParts, if_neg (h b hb)]

/-- **The framing of a body.** Blocks are sent one after the other and the empty one after
them. If every `send` accepts something, all calls return `0`, and what has gone out is
decoded to exactly these blocks with nothing behind them. The call that makes a `send`
which does not returns something else, and what has gone out until then is the start of
what would have gone out. -/
theorem chunks_framed (send : SendFn) (sz : ℕ → Memory) (conn : Conn)
    {blocks : List (List UInt8)} (h : ∀ b ∈ blocks, b ≠ [] ∧ b.length < 2 ^ 64) :
    ∃ calls conn' sent, sendChunks send sz conn (blocks ++ [[]]) = some (calls, conn') ∧
      conn'.out = conn.out ++ sent ∧
      ((∀ call ∈ calls, ∀ o ∈ call.offers, send.Accepts o) →
        calls.map ChunkCall.result = List.replicate (blocks.length + 1) 0 ∧
        Chunked.decode sent = some (blocks, [])) ∧
      ∀ call ∈ calls, (∃ o ∈ call.offers, ¬ send.Accepts o) →
        call.result ≠ 0 ∧ sent <+: Chunked.encode blocks := by
  have hblocks : ∀ b ∈ blocks, b ≠ [] := fun b hb => (h b hb).1
  have hlengths : ∀ b ∈ blocks ++ [[]], b.length < 2 ^ 64 := by
    intro b hb
    cases List.mem_append.mp hb with
    | inl hmem => exact (h b hmem).2
    | inr hmem =>
      rw [List.mem_singleton.mp hmem]
      exact Nat.two_pow_pos 64
  obtain ⟨calls, conn', hrun, hseries⟩ := @sendChunks_spec send sz conn _ hlengths
  -- what the calls are to send is the encoding of the blocks
  rw [encode_eq hblocks] at hseries
  refine ⟨calls, conn', ?_⟩
  cases hseries with
  -- all calls have been accepted
  | sent length ok out =>
    refine ⟨_, hrun, out, fun _ => ⟨?_, ?_⟩, fun call hcall ⟨o, ho, hnot⟩ => ?_⟩
    · rw [List.length_append, List.length_singleton] at length
      rw [← length]
      exact List.eq_replicate_iff.mpr
        ⟨List.length_map _, fun r hr => by
          obtain ⟨call, hcall, rfl⟩ := List.mem_map.mp hr
          exact (ok call hcall).1⟩
    · have hdecode := Chunked.decode_encode hblocks []
      rwa [List.append_nil] at hdecode
    · exact absurd ((ok call hcall).2 o ho) hnot
  -- the last call has met one that has not
  | @stopped calls last conn' o front ok mem refused result isFront out =>
    refine ⟨_, hrun, out, fun hall => ?_, fun call hcall ⟨o', ho', hnot⟩ => ?_⟩
    · exact absurd (hall last (List.mem_append_right _ (List.mem_singleton_self _)) o mem) refused
    · refine ⟨?_, isFront⟩
      cases List.mem_append.mp hcall with
      | inl hmem => exact absurd ((ok call hmem).2 o' ho') hnot
      | inr hmem =>
        rw [List.mem_singleton.mp hmem]
        exact result

/-- Two blocks, by a kernel that accepts them whole. -/
theorem chunks_framed_two :
    ∃ calls conn' sent, sendChunks .whole (fun _ _ => 0) ⟨0, []⟩ ([[104, 105], [33]] ++ [[]])
        = some (calls, conn') ∧
      conn'.out = [] ++ sent ∧
      ((∀ call ∈ calls, ∀ o ∈ call.offers, SendFn.whole.Accepts o) →
        calls.map ChunkCall.result = List.replicate 3 0 ∧
        Chunked.decode sent = some ([[104, 105], [33]], [])) ∧
      ∀ call ∈ calls, (∃ o ∈ call.offers, ¬ SendFn.whole.Accepts o) →
        call.result ≠ 0 ∧ sent <+: Chunked.encode [[104, 105], [33]] :=
  chunks_framed .whole (fun _ _ => 0) ⟨0, []⟩ (by decide)

end Http
end Osrv
