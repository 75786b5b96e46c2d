import Osrv.Lib.Chunked

/-!
# The percent-encoding

In a URI a byte may be written as `%` and the two hexadecimal digits of its value, and a
space as `+`. Which of the bytes are written so is up to the encoder, and so is the case of
the digits: `Encodes bs cs` says that `cs` is one of the ways to write `bs`. `encode` is the
standard one, which keeps the unreserved characters and has upper-case digits.

`decode` reads from left to right and takes whatever it finds. An escape is `%` with up to
two characters behind it, and a character that is no digit counts as zero.

What has been written in any of these ways is read back (`decode_of_encodes`), and decoding
never expands (`length_decode_le`).
-/

namespace Percent

open Chunked (digitVal)

/-! ### Decoding -/

/-- The value of a character as a digit. -/
def hexVal (b : UInt8) : ℕ := (digitVal b).getD 0

/-- The byte of an escape. -/
def byte (hi lo : ℕ) : UInt8 := UInt8.ofNat (16 * hi + lo)

/-- The decoder. -/
def decode : List UInt8 → List UInt8
  | [] => []
  | b :: bs =>
    if b = 43 then 32 :: decode bs
    else if b = 37 then
      match bs with
      | [] => [byte 0 0]
      | [x] => [byte (hexVal x) 0]
      | x :: y :: bs => byte (hexVal x) (hexVal y) :: decode bs
    else b :: decode bs

variable {b : UInt8} {bs cs : List UInt8}

theorem hexVal_lt (b : UInt8) : hexVal b < 16 := by
  unfold hexVal digitVal
  split
  · next h =>
    have hle : b.toNat ≤ 57 := h.2
    show b.toNat - 48 < 16
    omega
  split
  · next h =>
    have hle : b.toNat ≤ 102 := h.2
    show b.toNat - 87 < 16
    omega
  split
  · next h =>
    have hle : b.toNat ≤ 70 := h.2
    show b.toNat - 55 < 16
    omega
  · exact Nat.zero_lt_succ _

theorem decode_plus (bs : List UInt8) : decode (43 :: bs) = 32 :: decode bs := by
  rw [decode.eq_def]
  exact if_pos rfl

theorem decode_plain (hplus : b ≠ 43) (hpercent : b ≠ 37) : decode (b :: bs) = b :: decode bs := by
  rw [decode.eq_def]
  simp only [if_neg hplus, if_neg hpercent]

/-- An escape takes what there is of two characters. -/
theorem decode_escape (bs : List UInt8) :
    decode (37 :: bs)
      = byte (hexVal (bs.headD 0)) (hexVal (bs.tail.headD 0)) :: decode (bs.drop 2) := by
  rw [decode.eq_def]
  simp only [if_neg (show ¬ (37 : UInt8) = 43 by decide), if_true]
  cases bs with
  | nil => rfl
  | cons x bs =>
    cases bs with
    | nil => rfl
    | cons y bs => rfl

/-- **Decoding never expands.** -/
theorem length_decode_le (bs : List UInt8) : (decode bs).length ≤ bs.length := by
  induction hn : bs.length using Nat.strong_induction_on generalizing bs with
  | _ n ih =>
    cases bs with
    | nil => exact Nat.zero_le n
    | cons b bs =>
      rw [List.length_cons] at hn
      subst hn
      by_cases hplus : b = 43
      · rw [hplus, decode_plus, List.length_cons]
        exact Nat.succ_le_succ (ih _ (Nat.lt_succ_self _) bs rfl)
      by_cases hpercent : b = 37
      · rw [hpercent, decode_escape, List.length_cons]
        have hdrop : (bs.drop 2).length ≤ bs.length := (List.drop_sublist 2 bs).length_le
        exact Nat.succ_le_succ
          ((ih _ (Nat.lt_succ_of_le hdrop) (bs.drop 2) rfl).trans hdrop)
      · rw [decode_plain hplus hpercent, List.length_cons]
        exact Nat.succ_le_succ (ih _ (Nat.lt_succ_self _) bs rfl)

/-! ### Encoding -/

/-- The ways to write bytes. -/
inductive Encodes : List UInt8 → List UInt8 → Prop
  | nil : Encodes [] []
  | plain {b : UInt8} {bs cs : List UInt8} (hplus : b ≠ 43) (hpercent : b ≠ 37)
      (h : Encodes bs cs) : Encodes (b :: bs) (b :: cs)
  | plus {bs cs : List UInt8} (h : Encodes bs cs) : Encodes (32 :: bs) (43 :: cs)
  | escaped {b x y : UInt8} {bs cs : List UInt8} (hx : digitVal x = some (b.toNat / 16))
      (hy : digitVal y = some (b.toNat % 16)) (h : Encodes bs cs) :
      Encodes (b :: bs) (37 :: x :: y :: cs)

/-- **The round trip**, for every encoder. -/
theorem decode_of_encodes (h : Encodes bs cs) : decode cs = bs := by
  induction h with
  | nil => rfl
  | plain hplus hpercent h ih => rw [decode_plain hplus hpercent, ih]
  | plus h ih => rw [decode_plus, ih]
  | @escaped b x y bs cs hx hy h ih =>
    have hbyte : byte (hexVal x) (hexVal y) = b := by
      rw [hexVal, hexVal, hx, hy, byte, Option.getD_some, Option.getD_some, Nat.div_add_mod,
        UInt8.ofNat_toNat]
    rw [decode_escape]
    show byte (hexVal x) (hexVal y) :: decode cs = b :: bs
    rw [hbyte, ih]

/-- The characters that stand for themselves: letters, digits and `-._~`. -/
def unreserved (b : UInt8) : Bool :=
  (48 ≤ b && b ≤ 57) || (65 ≤ b && b ≤ 90) || (97 ≤ b && b ≤ 122) || b == 45 || b == 46 ||
    b == 95 || b == 126

/-- The upper-case digit of a number below sixteen. -/
def digit (d : ℕ) : UInt8 := UInt8.ofNat (if d < 10 then 48 + d else 55 + d)

def encodeByte (b : UInt8) : List UInt8 :=
  if unreserved b then [b] else [37, digit (b.toNat / 16), digit (b.toNat % 16)]

/-- The standard encoder. -/
def encode (bs : List UInt8) : List UInt8 := bs.flatMap encodeByte

theorem digitVal_digit {d : ℕ} (h : d < 16) : digitVal (digit d) = some d := by
  interval_cases d <;> decide

theorem ne_of_unreserved (h : unreserved b = true) : b ≠ 0 ∧ b ≠ 43 ∧ b ≠ 37 := by
  refine ⟨?_, ?_, ?_⟩
  · rintro rfl
    exact absurd h (by decide)
  · rintro rfl
    exact absurd h (by decide)
  · rintro rfl
    exact absurd h (by decide)

theorem encodes_encode (bs : List UInt8) : Encodes bs (encode bs) := by
  induction bs with
  | nil => exact .nil
  | cons b bs ih =>
    rw [encode, List.flatMap_cons, encodeByte]
    split
    · next h =>
      obtain ⟨-, hplus, hpercent⟩ := ne_of_unreserved h
      exact .plain hplus hpercent ih
    · have hb : b.toNat < 256 := b.toNat_lt
      exact .escaped (digitVal_digit (by omega)) (digitVal_digit (by omega)) ih

/-- What is written has no NUL, whatever the bytes are. -/
theorem zero_notMem_encode (bs : List UInt8) : (0 : UInt8) ∉ encode bs := by
  intro h
  obtain ⟨b, -, hb⟩ := List.mem_flatMap.mp h
  have hdigit : ∀ d < 16, (0 : UInt8) ≠ digit d := by
    intro d hd
    interval_cases d <;> decide
  have hlt : b.toNat < 256 := b.toNat_lt
  rw [encodeByte] at hb
  split at hb
  · next hun => exact (ne_of_unreserved hun).1 (List.mem_singleton.mp hb).symm
  · obtain h0 | h0 | h0 : (0 : UInt8) = 37 ∨ (0 : UInt8) = digit (b.toNat / 16) ∨
        (0 : UInt8) = digit (b.toNat % 16) := by
      simpa only [List.mem_cons, List.not_mem_nil, or_false] using hb
    · exact absurd h0 (by decide)
    · exact hdigit _ (by omega) h0
    · exact hdigit _ (by omega) h0

end Percent
