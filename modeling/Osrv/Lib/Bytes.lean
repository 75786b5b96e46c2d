import Mathlib.Data.List.Basic
import Mathlib.Data.List.TakeWhile
import Mathlib.Tactic.Ring
import Mathlib.Tactic.Linarith

/-!
# Bytes in memory

Readings of a run of bytes that C code relies on.

* **Little-endian numbers.** `le w n` is the `w`-byte memory image of `n` and
  `leVal` reads one back. The two are inverse up to the width (`leVal_le`).
  `unblocks` and `blocks` extend this to arrays of `w`-byte elements.
* **Terminated strings.** A `CString` is a run of bytes without a zero byte.
  `cstr` reads the string at the start of a memory area, and a string followed
  by its terminator is read back whatever comes after it (`cstr_terminated`).
-/

namespace Bytes

/-! ### Little-endian numbers -/

/-- The `w`-byte little-endian image of `n`, reduced to that width. -/
def le : ℕ → ℕ → List UInt8
  | 0, _ => []
  | w + 1, n => UInt8.ofNat (n % 256) :: le w (n / 256)

/-- The number a little-endian run of bytes stands for. -/
def leVal : List UInt8 → ℕ
  | [] => 0
  | b :: bs => b.toNat + 256 * leVal bs

@[simp] theorem length_le (w n : ℕ) : (le w n).length = w := by
  induction w generalizing n with
  | zero => rfl
  | succ w ih => simp [le, ih]

theorem leVal_le (w n : ℕ) : leVal (le w n) = n % 256 ^ w := by
  induction w generalizing n with
  | zero => simp [le, leVal, Nat.mod_one]
  | succ w ih =>
    have hbyte : (UInt8.ofNat (n % 256)).toNat = n % 256 := by
      simp
    rw [le, leVal, ih, hbyte, pow_succ, Nat.mul_comm (256 ^ w) 256, Nat.mod_mul]

/-- A number that fits its width is read back unchanged. -/
theorem leVal_le_of_lt {w n : ℕ} (h : n < 256 ^ w) : leVal (le w n) = n := by
  rw [leVal_le, Nat.mod_eq_of_lt h]

/-- Bytes are the image of the number they stand for. -/
theorem le_leVal (bs : List UInt8) : le bs.length (leVal bs) = bs := by
  induction bs with
  | nil => rfl
  | cons b bs ih =>
    have hb : b.toNat < 256 := b.toNat_lt
    have hmod : (b.toNat + 256 * leVal bs) % 256 = b.toNat := by omega
    have hdiv : (b.toNat + 256 * leVal bs) / 256 = leVal bs := by omega
    rw [leVal, List.length_cons, le, hmod, hdiv, ih, UInt8.ofNat_toNat]

theorem leVal_lt (bs : List UInt8) : leVal bs < 256 ^ bs.length := by
  induction bs with
  | nil => simp [leVal]
  | cons b bs ih =>
    have hb : b.toNat < 256 := b.toNat_lt
    rw [leVal, List.length_cons, pow_succ]
    omega

/-! ### Arrays of fixed-width elements -/

/-- The memory image of an array of `w`-byte elements. -/
def unblocks {w : ℕ} (xs : List (BitVec (8 * w))) : List UInt8 :=
  xs.flatMap fun x => le w x.toNat

/-- The first `n` elements, of `w` bytes each, of a memory area. -/
def blocks (w : ℕ) : ℕ → List UInt8 → List (BitVec (8 * w))
  | 0, _ => []
  | n + 1, bs => BitVec.ofNat (8 * w) (leVal (bs.take w)) :: blocks w n (bs.drop w)

theorem length_blocks (w n : ℕ) (bs : List UInt8) : (blocks w n bs).length = n := by
  induction n generalizing bs with
  | zero => rfl
  | succ n ih => rw [blocks, List.length_cons, ih]

@[simp] theorem length_unblocks {w : ℕ} (xs : List (BitVec (8 * w))) :
    (unblocks xs).length = xs.length * w := by
  induction xs with
  | nil => simp [unblocks]
  | cons x xs ih =>
    change (le w x.toNat ++ unblocks xs).length = _
    rw [List.length_append, ih, length_le, List.length_cons]
    ring

/-- An array written to memory is read back element by element. -/
theorem blocks_unblocks {w : ℕ} (xs : List (BitVec (8 * w))) :
    blocks w xs.length (unblocks xs) = xs := by
  induction xs with
  | nil => rfl
  | cons x xs ih =>
    have hlen : (le w x.toNat).length = w := length_le w _
    have hfit : x.toNat < 256 ^ w := by
      have h := x.isLt
      rwa [Nat.pow_mul] at h
    change BitVec.ofNat (8 * w) (leVal ((le w x.toNat ++ unblocks xs).take w))
      :: blocks w xs.length ((le w x.toNat ++ unblocks xs).drop w) = x :: xs
    rw [List.take_left' hlen, List.drop_left' hlen, leVal_le_of_lt hfit, ih,
      BitVec.ofNat_toNat, BitVec.setWidth_eq]

/-- An array read from memory has the bytes it was read from. -/
theorem unblocks_blocks {w n : ℕ} {bs : List UInt8} (h : bs.length = n * w) :
    unblocks (blocks w n bs) = bs := by
  induction n generalizing bs with
  | zero =>
    rw [Nat.zero_mul, List.length_eq_zero_iff] at h
    rw [h]
    rfl
  | succ n ih =>
    rw [Nat.succ_mul] at h
    have htake : (bs.take w).length = w := List.length_take_of_le (by omega)
    have hdrop : (bs.drop w).length = n * w := by
      rw [List.length_drop]
      omega
    have hlt : leVal (bs.take w) < 2 ^ (8 * w) := by
      rw [Nat.pow_mul]
      have hlt := leVal_lt (bs.take w)
      rwa [htake] at hlt
    change le w (BitVec.ofNat (8 * w) (leVal (bs.take w))).toNat
      ++ unblocks (blocks w n (bs.drop w)) = bs
    have hle : le w (leVal (bs.take w)) = bs.take w := by
      have hle := le_leVal (bs.take w)
      rwa [htake] at hle
    rw [BitVec.toNat_ofNat, Nat.mod_eq_of_lt hlt, hle, ih hdrop, List.take_append_drop]

/-! ### Terminated strings -/

/-- The contents of a C string: bytes none of which is the terminator. -/
def CString : Type := { s : List UInt8 // (0 : UInt8) ∉ s }

namespace CString

instance : DecidableEq CString :=
  inferInstanceAs (DecidableEq { s : List UInt8 // (0 : UInt8) ∉ s })

/-- The bytes before the terminator. -/
def bytes (s : CString) : List UInt8 := s.1

/-- `strlen`. -/
def length (s : CString) : ℕ := s.bytes.length

/-- The string as it lies in memory, terminator included. -/
def terminated (s : CString) : List UInt8 := s.bytes ++ [0]

theorem zero_notMem (s : CString) : (0 : UInt8) ∉ s.bytes := s.2

@[ext] theorem ext {s t : CString} (h : s.bytes = t.bytes) : s = t := Subtype.ext h

@[simp] theorem length_terminated (s : CString) : s.terminated.length = s.length + 1 := by
  simp [terminated, length]

/-- The empty string. -/
def empty : CString := ⟨[], by simp⟩

theorem eq_empty_iff (s : CString) : s = empty ↔ s.bytes = [] :=
  ⟨fun h => by rw [h]; rfl, fun h => ext h⟩

end CString

/-- The string that starts at the beginning of a memory area. -/
def cstr (mem : List UInt8) : CString :=
  ⟨mem.takeWhile (fun b => b != 0), fun h => by simpa using List.mem_takeWhile_imp h⟩

@[simp] theorem cstr_bytes (mem : List UInt8) :
    (cstr mem).bytes = mem.takeWhile (fun b => b != 0) := rfl

theorem takeWhile_ne_zero {s : List UInt8} (hs : (0 : UInt8) ∉ s) (rest : List UInt8) :
    (s ++ 0 :: rest).takeWhile (fun b => b != 0) = s := by
  induction s with
  | nil => simp
  | cons b s ih =>
    have hb : (b != 0) = true := by
      rw [bne_iff_ne]
      exact fun h => hs (by simp [h])
    have hs' : (0 : UInt8) ∉ s := fun h => hs (List.mem_cons_of_mem _ h)
    simp only [List.cons_append, List.takeWhile_cons, hb, if_true, ih hs']

/-- A string that ends inside the first bytes is not changed by further ones. -/
theorem cstr_append_of_mem {s : List UInt8} (hs : (0 : UInt8) ∈ s) (rest : List UInt8) :
    cstr (s ++ rest) = cstr s := by
  apply CString.ext
  show (s ++ rest).takeWhile (fun b => b != 0) = s.takeWhile fun b => b != 0
  induction s with
  | nil => exact absurd hs List.not_mem_nil
  | cons b s ih =>
    rw [List.cons_append, List.takeWhile_cons, List.takeWhile_cons]
    split
    · next hb =>
      have hmem : (0 : UInt8) ∈ s := by
        cases List.mem_cons.mp hs with
        | inl h0 => exact absurd h0.symm (bne_iff_ne.mp hb)
        | inr hmem => exact hmem
      rw [ih hmem]
    · rfl

/-- A string that does not end inside the first bytes goes on behind them. -/
theorem length_cstr_append {s : List UInt8} (hs : (0 : UInt8) ∉ s) (rest : List UInt8) :
    (cstr (s ++ rest)).length = s.length + (cstr rest).length := by
  show ((s ++ rest).takeWhile (fun b => b != 0)).length = _
  rw [List.takeWhile_append_of_pos, List.length_append]
  · rfl
  · exact fun b hb => bne_iff_ne.mpr fun h => hs (h ▸ hb)

/-- **Reading a stored string back.** What lies behind the terminator does not
matter. -/
theorem cstr_terminated (s : CString) (rest : List UInt8) : cstr (s.terminated ++ rest) = s := by
  apply CString.ext
  have h := takeWhile_ne_zero s.zero_notMem rest
  simpa [CString.terminated] using h

/-! ### Memory areas -/

/-- The contents of a memory area, byte by byte. -/
abbrev Memory : Type := ℕ → UInt8

/-- The first `n` bytes of an area. -/
def read (mem : Memory) (n : ℕ) : List UInt8 := (List.range n).map mem

/-- `memcpy` of `bs` to offset `a`. -/
def write (mem : Memory) (a : ℕ) (bs : List UInt8) : Memory :=
  fun i => if a ≤ i then (bs[i - a]?).getD (mem i) else mem i

@[simp] theorem read_zero (mem : Memory) : read mem 0 = [] := rfl

@[simp] theorem length_read (mem : Memory) (n : ℕ) : (read mem n).length = n := by
  simp [read]

@[simp] theorem write_nil (mem : Memory) (a : ℕ) : write mem a [] = mem := by
  funext i
  simp [write]

/-- A single byte is put where it should be. -/
theorem write_self (mem : Memory) (a : ℕ) (b : UInt8) : write mem a [b] a = b := by
  rw [write, if_pos (Nat.le_refl a), Nat.sub_self]
  rfl

/-- A copy of a single byte leaves all others. -/
theorem write_of_ne {i a : ℕ} (h : i ≠ a) (mem : Memory) (b : UInt8) :
    write mem a [b] i = mem i := by
  rw [write]
  split
  · next hle =>
    have hnone : [b][i - a]? = none := List.getElem?_eq_none (by rw [List.length_singleton]; omega)
    rw [hnone]
    rfl
  · rfl

/-- Two copies in a row. -/
theorem write_append (mem : Memory) (a : ℕ) (xs ys : List UInt8) :
    write (write mem a xs) (a + xs.length) ys = write mem a (xs ++ ys) := by
  funext i
  simp only [write]
  by_cases hlo : a ≤ i
  · rw [if_pos hlo, if_pos hlo]
    by_cases hhi : a + xs.length ≤ i
    · have hx : xs[i - a]? = none := List.getElem?_eq_none (by omega)
      have hsub : i - (a + xs.length) = i - a - xs.length := by omega
      rw [if_pos hhi, hx, List.getElem?_append_right (by omega), hsub, Option.getD_none]
    · rw [if_neg hhi, List.getElem?_append_left (by omega)]
  · rw [if_neg hlo, if_neg hlo, if_neg (by omega)]

/-- A copy of the first bytes onto themselves. -/
theorem write_read (mem : Memory) (n : ℕ) : write mem 0 (read mem n) = mem := by
  funext i
  rcases Nat.lt_or_ge i n with h | h
  · simp [write, read, h]
  · have hnone : (read mem n)[i]? = none := List.getElem?_eq_none (by simpa using h)
    simp [write, hnone]

/-- Bytes copied right behind the first `a` extend them. -/
theorem read_write (mem : Memory) (a : ℕ) (bs : List UInt8) :
    read (write mem a bs) (a + bs.length) = read mem a ++ bs := by
  apply List.ext_getElem
  · simp
  · intro i h₁ h₂
    have hi : i < a + bs.length := by simpa using h₁
    rcases Nat.lt_or_ge i a with h | h
    · simp [read, write, List.getElem_append_left, h, Nat.not_le.mpr h]
    · have hb : i - a < bs.length := by omega
      simp [read, write, h, hb, List.getElem_append_right]

/-- The size that no object in memory exceeds. -/
def PTRDIFF_MAX : ℕ := 2 ^ 63 - 1

/-- `malloc`, by the number of the call and the size. The memory holds anything at
first. -/
structure Malloc where
  alloc : ℕ → ℕ → Option Memory
  le_max : ∀ i n mem, alloc i n = some mem → n ≤ PTRDIFF_MAX

/-- A `malloc` with zeroed memory for everything that can be asked for. -/
def Malloc.plenty : Malloc where
  alloc _ n := if n ≤ PTRDIFF_MAX then some fun _ => 0 else none
  le_max i n mem h := by
    by_contra hgt
    rw [if_neg hgt] at h
    exact absurd h (by simp)

/-- There is memory whenever it is asked for. -/
def Malloc.Succeeds (malloc : Malloc) : Prop :=
  ∀ i n, n ≤ PTRDIFF_MAX → ∃ mem, malloc.alloc i n = some mem

theorem Malloc.plenty_succeeds : Malloc.plenty.Succeeds := fun _ _ h => ⟨_, if_pos h⟩

/-- A `malloc` behind its first `k` calls. -/
def Malloc.from (malloc : Malloc) (k : ℕ) : Malloc where
  alloc i n := malloc.alloc (k + i) n
  le_max i n mem h := malloc.le_max (k + i) n mem h

end Bytes
