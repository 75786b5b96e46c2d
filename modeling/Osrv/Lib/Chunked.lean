import Mathlib.Data.List.Basic
import Mathlib.Tactic.IntervalCases

/-!
# The chunked transfer coding

A chunked body is a sequence of non-empty chunks, each preceded by its size in
hexadecimal digits, closed by a chunk of size zero. `encode` writes a sequence of
chunks that way and `decode` reads one back, together with what follows the
final chunk. `decode` is written from the receiver's side: it takes whatever
digits it finds, in either case, and refuses a chunk without a size, without its
line ends or shorter than its size.

`decode_encode` is the round trip.
-/

namespace Chunked

/-! ### Hexadecimal numbers -/

/-- The lower-case digit of a number below sixteen. -/
def digit (d : ℕ) : UInt8 := UInt8.ofNat (if d < 10 then 48 + d else 87 + d)

/-- The value of a digit of either case. -/
def digitVal (b : UInt8) : Option ℕ :=
  if 48 ≤ b ∧ b ≤ 57 then some (b.toNat - 48)
  else if 97 ≤ b ∧ b ≤ 102 then some (b.toNat - 87)
  else if 65 ≤ b ∧ b ≤ 70 then some (b.toNat - 55)
  else none

theorem digitVal_digit {d : ℕ} (h : d < 16) : digitVal (digit d) = some d := by
  interval_cases d <;> decide

/-- The digits of a positive number, the most significant one first. -/
def hexDigits (n : ℕ) : List UInt8 :=
  if n = 0 then [] else hexDigits (n / 16) ++ [digit (n % 16)]
decreasing_by omega

@[simp] theorem hexDigits_zero : hexDigits 0 = [] := by
  rw [hexDigits]
  rfl

theorem hexDigits_of_pos {n : ℕ} (h : 0 < n) :
    hexDigits n = hexDigits (n / 16) ++ [digit (n % 16)] := by
  rw [hexDigits, if_neg (by omega)]

/-- Reads the digits at the start of `bs`, with `acc` as the number so far, and
returns what follows them. -/
def scanHex (acc : ℕ) : List UInt8 → ℕ × List UInt8
  | [] => (acc, [])
  | b :: bs =>
    match digitVal b with
    | some d => scanHex (16 * acc + d) bs
    | none => (acc, b :: bs)

theorem scanHex_length_le (acc : ℕ) (bs : List UInt8) :
    (scanHex acc bs).2.length ≤ bs.length := by
  induction bs generalizing acc with
  | nil => exact le_rfl
  | cons b bs ih =>
    rw [scanHex]
    split
    · exact (ih _).trans (Nat.le_succ _)
    · exact le_rfl

/-- Scanning the digits of `n` appends them to the number so far. -/
theorem scanHex_hexDigits (n : ℕ) (rest : List UInt8) :
    scanHex 0 (hexDigits n ++ rest) = scanHex n rest := by
  induction n using Nat.strong_induction_on generalizing rest with
  | _ n ih =>
    rcases Nat.eq_zero_or_pos n with rfl | hn
    · rw [hexDigits_zero, List.nil_append]
    · have hd : digitVal (digit (n % 16)) = some (n % 16) := digitVal_digit (by omega)
      rw [hexDigits_of_pos hn, List.append_assoc, ih (n / 16) (by omega), List.singleton_append,
        scanHex, hd]
      dsimp only
      rw [Nat.div_add_mod]

theorem digitVal_head_hexDigits {n : ℕ} (h : 0 < n) (rest : List UInt8) :
    ∃ b bs, hexDigits n ++ rest = b :: bs ∧ (digitVal b).isSome := by
  induction n using Nat.strong_induction_on generalizing rest with
  | _ n ih =>
    rw [hexDigits_of_pos h, List.append_assoc]
    rcases Nat.eq_zero_or_pos (n / 16) with h0 | hq
    · refine ⟨_, _, by rw [h0, hexDigits_zero]; rfl, ?_⟩
      rw [digitVal_digit (by omega)]
      rfl
    · exact ih (n / 16) (by omega) hq _

/-! ### Chunks -/

/-- One chunk with its size line. -/
def encodeChunk (data : List UInt8) : List UInt8 :=
  hexDigits data.length ++ 13 :: 10 :: (data ++ [13, 10])

/-- The chunk of size zero, with an empty trailer. -/
def lastChunk : List UInt8 := [48, 13, 10, 13, 10]

/-- A body made of the given chunks. -/
def encode (chunks : List (List UInt8)) : List UInt8 :=
  chunks.flatMap encodeChunk ++ lastChunk

/-- Reads one chunk, and returns its data and what follows it. -/
def readChunk (bs : List UInt8) : Option (List UInt8 × List UInt8) :=
  if (bs.head?.bind digitVal).isSome then
    match scanHex 0 bs with
    | (n, 13 :: 10 :: rest) =>
      if n ≤ rest.length then
        match rest.drop n with
        | 13 :: 10 :: rest' => some (rest.take n, rest')
        | _ => none
      else none
    | _ => none
  else none

theorem readChunk_length_lt {bs data rest : List UInt8} (h : readChunk bs = some (data, rest)) :
    rest.length < bs.length := by
  unfold readChunk at h
  split at h
  · split at h
    · next n r hscan =>
      have hle := scanHex_length_le 0 bs
      rw [hscan] at hle
      split at h
      · split at h
        · next r' hdrop =>
          obtain ⟨-, rfl⟩ : _ ∧ r' = rest := by simpa using h
          have hlen := congrArg List.length hdrop
          simp only [List.length_drop, List.length_cons] at hlen hle
          omega
        · cases h
      · cases h
    · cases h
  · cases h

/-- Reads chunks up to the first one of size zero. Returns the chunks before it
and what follows it. -/
def decode (bs : List UInt8) : Option (List (List UInt8) × List UInt8) :=
  match _h : readChunk bs with
  | none => none
  | some ([], rest) => some ([], rest)
  | some (b :: data, rest) => (decode rest).map fun r => ((b :: data) :: r.1, r.2)
termination_by bs.length
decreasing_by exact readChunk_length_lt _h

theorem readChunk_encodeChunk {data : List UInt8} (hd : data ≠ []) (rest : List UInt8) :
    readChunk (encodeChunk data ++ rest) = some (data, rest) := by
  have hpos : 0 < data.length := List.length_pos_of_ne_nil hd
  have hform : encodeChunk data ++ rest
      = hexDigits data.length ++ 13 :: 10 :: (data ++ 13 :: 10 :: rest) := by
    simp [encodeChunk]
  obtain ⟨b, bs, hcons, hb⟩ :=
    digitVal_head_hexDigits hpos (13 :: 10 :: (data ++ 13 :: 10 :: rest))
  have hhead : ((encodeChunk data ++ rest).head?.bind digitVal).isSome := by
    rw [hform, hcons]
    exact hb
  have hscan : scanHex 0 (encodeChunk data ++ rest)
      = (data.length, 13 :: 10 :: (data ++ 13 :: 10 :: rest)) := by
    rw [hform, scanHex_hexDigits]
    rfl
  rw [readChunk, if_pos hhead, hscan]
  simp

theorem decode_lastChunk (rest : List UInt8) : decode (lastChunk ++ rest) = some ([], rest) := by
  have h : readChunk (lastChunk ++ rest) = some ([], rest) := by
    simp [readChunk, lastChunk, scanHex, digitVal]
  rw [decode]
  split <;> simp_all

theorem decode_encodeChunk {data : List UInt8} (hd : data ≠ []) (rest : List UInt8) :
    decode (encodeChunk data ++ rest) = (decode rest).map fun r => (data :: r.1, r.2) := by
  have h := readChunk_encodeChunk hd rest
  obtain ⟨b, bs, rfl⟩ := List.exists_cons_of_ne_nil hd
  rw [decode]
  split <;> simp_all

/-- **The chunked round trip.** A body written from non-empty chunks is read back
as these chunks, whatever follows it. -/
theorem decode_encode {chunks : List (List UInt8)} (hne : ∀ c ∈ chunks, c ≠ [])
    (rest : List UInt8) : decode (encode chunks ++ rest) = some (chunks, rest) := by
  induction chunks with
  | nil => exact decode_lastChunk rest
  | cons c cs ih =>
    have hform : encode (c :: cs) ++ rest = encodeChunk c ++ (encode cs ++ rest) := by
      simp [encode]
    rw [hform, decode_encodeChunk (hne c (by simp)), ih fun d hd => hne d (by simp [hd])]
    rfl

end Chunked
