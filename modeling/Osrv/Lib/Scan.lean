import Mathlib.Tactic.IntervalCases
import Osrv.Lib.Bytes

/-!
# Scanning text in memory

C code parses text by moving a pointer through a memory area. `At mem i bs` says
that the bytes from offset `i` on are `bs`; it splits along `++` (`at_append`) and
survives writes elsewhere (`At.write_before`, `At.write_after`). `peek` reads one
byte of an area of a given size and fails outside of it, and `skipWhile` moves an
offset as long as the bytes satisfy a predicate.

`ascii` is a text as bytes. `decimal` writes a number in decimal digits and `atol`
reads one, the way the C function does.
-/

namespace Bytes

/-! ### The bytes at an offset -/

/-- The area holds `bs` from offset `i` on. -/
def At (mem : Memory) (i : ℕ) (bs : List UInt8) : Prop :=
  ∀ j (h : j < bs.length), mem (i + j) = bs[j]

section At

variable {mem : Memory} {i : ℕ} {as bs : List UInt8}

theorem at_nil (mem : Memory) (i : ℕ) : At mem i [] := fun j h => absurd h (Nat.not_lt_zero j)

theorem at_cons {b : UInt8} : At mem i (b :: bs) ↔ mem i = b ∧ At mem (i + 1) bs := by
  constructor
  · intro h
    refine ⟨h 0 (Nat.succ_pos _), fun j hj => ?_⟩
    have := h (j + 1) (Nat.succ_lt_succ hj)
    rwa [← Nat.add_assoc, Nat.add_right_comm] at this
  · rintro ⟨h₀, h⟩ j hj
    cases j with
    | zero => exact h₀
    | succ j =>
      have := h j (Nat.lt_of_succ_lt_succ hj)
      rwa [Nat.add_right_comm, Nat.add_assoc] at this

theorem at_append : At mem i (as ++ bs) ↔ At mem i as ∧ At mem (i + as.length) bs := by
  induction as generalizing i with
  | nil => simp [at_nil]
  | cons a as ih =>
    rw [List.cons_append, at_cons, at_cons, ih, and_assoc, List.length_cons, Nat.add_assoc,
      Nat.add_comm 1]

/-- A copy puts its bytes where it should. -/
theorem at_write (mem : Memory) (i : ℕ) (bs : List UInt8) : At (write mem i bs) i bs := by
  intro j hj
  simp [write, hj]

/-- What is read from an area is there. -/
theorem at_read (mem : Memory) (n : ℕ) : At mem 0 (read mem n) := by
  intro j hj
  simp [read]

/-- Bytes depend only on where they are. -/
theorem At.congr {mem' : Memory} (h : At mem i bs)
    (hmem : ∀ j, i ≤ j → j < i + bs.length → mem' j = mem j) : At mem' i bs := by
  intro j hj
  rw [hmem (i + j) (Nat.le_add_right ..) (Nat.add_lt_add_left hj i), h j hj]

/-- A write changes nothing outside of its bytes. -/
theorem write_outside {j : ℕ} (mem : Memory) (h : j < i ∨ i + bs.length ≤ j) :
    write mem i bs j = mem j := by
  obtain h | h := h
  · exact if_neg (Nat.not_le.mpr h)
  · have hnone : bs[j - i]? = none := List.getElem?_eq_none (by omega)
    rw [write, hnone, Option.getD_none, ite_self]

/-- A write in front of the bytes. -/
theorem At.write_before {k : ℕ} (h : At mem i bs) (hk : k + as.length ≤ i) :
    At (write mem k as) i bs := by
  intro j hj
  have hnone : as[i + j - k]? = none := List.getElem?_eq_none (by omega)
  rw [← h j hj]
  simp [write, hnone]

/-- A write behind the bytes. -/
theorem At.write_after {k : ℕ} (h : At mem i bs) (hk : i + bs.length ≤ k) :
    At (write mem k as) i bs := by
  intro j hj
  have hlt : ¬ k ≤ i + j := by omega
  rw [← h j hj]
  simp [write, hlt]

/-- A write right behind the bytes extends them. -/
theorem At.write_end {k : ℕ} (h : At mem i bs) (hk : k = i + bs.length) (as : List UInt8) :
    At (write mem k as) i (bs ++ as) := by
  subst hk
  exact at_append.mpr ⟨h.write_after (Nat.le_refl _), at_write _ _ _⟩

/-- A write of a single byte puts it in the place of another. -/
theorem At.replace {b : UInt8} {k : ℕ} (h : At mem i (as ++ b :: bs)) (hk : k = i + as.length)
    (b' : UInt8) : At (write mem k [b']) i (as ++ b' :: bs) := by
  subst hk
  obtain ⟨hfront, htail⟩ := at_append.mp h
  refine at_append.mpr ⟨hfront.write_after (Nat.le_refl _), at_cons.mpr ⟨write_self .., ?_⟩⟩
  exact (at_cons.mp htail).2.write_before (Nat.le_refl _)

/-- The first bytes of an area. -/
theorem At.read_eq (h : At mem i bs) : read (fun j => mem (i + j)) bs.length = bs := by
  apply List.ext_getElem
  · simp
  · intro j h₁ h₂
    simp [read, h j h₂]

/-- The first of the bytes. -/
theorem At.read_take {n : ℕ} (h : At mem i bs) (hn : n ≤ bs.length) :
    read (fun j => mem (i + j)) n = bs.take n := by
  have hsplit : bs.take n ++ bs.drop n = bs := List.take_append_drop n bs
  have htake : (bs.take n).length = n := List.length_take_of_le hn
  have hread := (at_append.mp (hsplit.symm ▸ h)).1.read_eq
  rwa [htake] at hread

theorem At.read_start (h : At mem 0 bs) : read mem bs.length = bs := by
  have hread := h.read_eq
  simp only [Nat.zero_add] at hread
  exact hread

end At

/-! ### Moving an offset -/

/-- Reads a byte of an area of `size` bytes. -/
def peek (size : ℕ) (mem : Memory) (i : ℕ) : Option UInt8 :=
  if i < size then some (mem i) else none

/-- The loop of `skipWhile`. -/
def skipLoop (size : ℕ) (p : UInt8 → Bool) (mem : Memory) : ℕ → ℕ → Option ℕ
  | 0, _ => none
  | n + 1, i => do
    let b ← peek size mem i
    if p b then skipLoop size p mem n (i + 1) else some i

/-- The first offset from `i` on whose byte does not satisfy `p`. -/
def skipWhile (size : ℕ) (p : UInt8 → Bool) (mem : Memory) (i : ℕ) : Option ℕ :=
  skipLoop size p mem (size + 1) i

section Skip

variable {size i : ℕ} {p : UInt8 → Bool} {mem : Memory} {bs : List UInt8} {b : UInt8}

theorem peek_eq (h : At mem i (b :: bs)) (hi : i < size) : peek size mem i = some b := by
  rw [peek, if_pos hi, (at_cons.mp h).1]

theorem skipLoop_eq {n : ℕ} (h : At mem i (bs ++ [b])) (hbs : ∀ c ∈ bs, p c = true)
    (hb : p b = false) (hi : i + bs.length < size) (hn : bs.length < n) :
    skipLoop size p mem n i = some (i + bs.length) := by
  induction bs generalizing i n with
  | nil =>
    obtain ⟨n, rfl⟩ : ∃ k, n = k + 1 := ⟨n - 1, by omega⟩
    simp [skipLoop, peek_eq h hi, hb]
  | cons c bs ih =>
    obtain ⟨n, rfl⟩ : ∃ k, n = k + 1 := ⟨n - 1, by omega⟩
    have hlen : (c :: bs).length = bs.length + 1 := rfl
    have hc : p c = true := hbs c (List.mem_cons_self ..)
    have hrest := ih (n := n) (at_cons.mp h).2 (fun d hd => hbs d (List.mem_cons_of_mem _ hd))
      (by omega) (by omega)
    have hpeek : peek size mem i = some c := peek_eq h (by omega)
    simp only [skipLoop, hpeek, Option.bind_eq_bind, Option.bind_some, hc, if_true, hrest, hlen]
    rw [Nat.add_assoc, Nat.add_comm 1]

/-- **Skipping a run of bytes** that ends inside the area. -/
theorem skipWhile_eq (h : At mem i (bs ++ [b])) (hbs : ∀ c ∈ bs, p c = true) (hb : p b = false)
    (hi : i + bs.length < size) : skipWhile size p mem i = some (i + bs.length) :=
  skipLoop_eq h hbs hb hi (by omega)

/-- A run at the start of the area, and the byte that stops it. -/
theorem skipWhile_start (h : At mem 0 (bs ++ [b])) (hbs : ∀ c ∈ bs, p c = true) (hb : p b = false)
    (hi : bs.length < size) :
    skipWhile size p mem 0 = some bs.length ∧ peek size mem bs.length = some b := by
  have hskip := skipWhile_eq h hbs hb (by rwa [Nat.zero_add])
  have hstop := (at_append.mp h).2
  rw [Nat.zero_add] at hskip hstop
  exact ⟨hskip, peek_eq hstop hi⟩

/-- **Where a run of bytes ends.** A byte inside the area that does not satisfy `p` stops it. -/
theorem skipLoop_stops {j n : ℕ} (hij : i ≤ j) (hj : j < size) (hp : p (mem j) = false)
    (hn : j - i < n) :
    ∃ k, skipLoop size p mem n i = some k ∧ i ≤ k ∧ k ≤ j ∧ p (mem k) = false ∧
      ∀ l, i ≤ l → l < k → p (mem l) = true := by
  induction n generalizing i with
  | zero => exact absurd hn (Nat.not_lt_zero _)
  | succ n ih =>
    have hpeek : peek size mem i = some (mem i) := if_pos (Nat.lt_of_le_of_lt hij hj)
    rw [skipLoop, hpeek]
    cases hi : p (mem i) with
    | false =>
      refine ⟨i, ?_, Nat.le_refl i, hij, hi, fun l hil hli => absurd hli (Nat.not_lt.mpr hil)⟩
      simp [hi]
    | true =>
      have hne : i ≠ j := by
        rintro rfl
        exact Bool.noConfusion (hp.symm.trans hi)
      obtain ⟨k, hk, hik, hkj, hstop, hrun⟩ := ih (i := i + 1) (by omega) (by omega)
      refine ⟨k, ?_, Nat.le_of_succ_le hik, hkj, hstop, fun l hil hlk => ?_⟩
      · simp [hi, hk]
      · rcases Nat.eq_or_lt_of_le hil with rfl | hlt
        · exact hi
        · exact hrun l hlt hlk

theorem skipWhile_stops (p : UInt8 → Bool) (mem : Memory) {j : ℕ} (hij : i ≤ j) (hj : j < size)
    (hp : p (mem j) = false) :
    ∃ k, skipWhile size p mem i = some k ∧ i ≤ k ∧ k ≤ j ∧ p (mem k) = false ∧
      ∀ l, i ≤ l → l < k → p (mem l) = true :=
  skipLoop_stops hij hj hp (by omega)

end Skip

/-- The C string at offset `i` of an area of `size` bytes. -/
def stringAt (size : ℕ) (mem : Memory) (i : ℕ) : CString :=
  cstr (read (fun j => mem (i + j)) (size - i))

/-- The rest of an area starts with the bytes that are there. -/
theorem read_at (size : ℕ) {i : ℕ} {mem : Memory} {bs : List UInt8} (h : At mem i bs)
    (hi : i + bs.length ≤ size) :
    ∃ rest, read (fun j => mem (i + j)) (size - i) = bs ++ rest := by
  obtain ⟨k, hk⟩ : ∃ k, size - i = bs.length + k := ⟨size - i - bs.length, by omega⟩
  refine ⟨(read (fun j => mem (i + j)) (size - i)).drop bs.length, ?_⟩
  conv_lhs => rw [← List.take_append_drop bs.length (read (fun j => mem (i + j)) (size - i))]
  congr 1
  conv_rhs => rw [← h.read_eq]
  rw [hk, read, read, ← List.map_take, List.take_range, Nat.min_eq_left (Nat.le_add_right _ _)]

theorem stringAt_eq {size i : ℕ} {mem : Memory} {s : CString} (h : At mem i s.terminated)
    (hi : i + s.length < size) : stringAt size mem i = s := by
  obtain ⟨rest, hrest⟩ := read_at size h (by rw [CString.length_terminated]; omega)
  rw [stringAt, hrest, cstr_terminated]

/-- Bytes without a NUL are the start of the string. -/
theorem bytes_stringAt (size : ℕ) {i : ℕ} {mem : Memory} {bs : List UInt8} (h : At mem i bs)
    (hi : i + bs.length ≤ size) (hbs : (0 : UInt8) ∉ bs) :
    ∃ tail, (stringAt size mem i).bytes = bs ++ tail := by
  obtain ⟨rest, hrest⟩ := read_at size h hi
  have hne : ∀ b ∈ bs, (b != 0) = true := fun b hb => bne_iff_ne.mpr fun heq => hbs (heq ▸ hb)
  exact ⟨_, by rw [stringAt, hrest, cstr_bytes, List.takeWhile_append_of_pos hne]⟩

/-! ### Text -/

/-- The bytes of a text in ASCII. -/
def ascii (s : String) : List UInt8 := s.toList.map fun c => UInt8.ofNat c.toNat

/-- The bytes of a line neither end it nor the string. -/
theorem line_inner {bs : List UInt8} (hnewline : (10 : UInt8) ∉ bs) (hnul : (0 : UInt8) ∉ bs) :
    ∀ b ∈ bs, (b != 10 && b != 0) = true := by
  intro b hb
  rw [Bool.and_eq_true, bne_iff_ne, bne_iff_ne]
  constructor
  · rintro rfl
    exact hnewline hb
  · rintro rfl
    exact hnul hb

/-- A capital is made small, by setting a bit. -/
def lower (b : UInt8) : UInt8 := if 65 ≤ b ∧ b ≤ 90 then b ||| 32 else b

/-! ### Decimal numbers -/

def isDigit (b : UInt8) : Bool := 48 ≤ b && b ≤ 57

/-- The decimal digits of a number. -/
def decimal (n : ℕ) : List UInt8 :=
  if n < 10 then [UInt8.ofNat (48 + n)] else decimal (n / 10) ++ [UInt8.ofNat (48 + n % 10)]
decreasing_by omega

theorem decimal_of_lt {n : ℕ} (h : n < 10) : decimal n = [UInt8.ofNat (48 + n)] := by
  rw [decimal, if_pos h]

/-- The number that a run of digits stands for. -/
def decVal (bs : List UInt8) : ℕ := bs.foldl (fun n b => 10 * n + (b.toNat - 48)) 0

theorem digit_spec {d : ℕ} (h : d < 10) :
    isDigit (UInt8.ofNat (48 + d)) = true ∧ (UInt8.ofNat (48 + d)).toNat - 48 = d := by
  interval_cases d <;> decide

theorem isDigit_of_mem_decimal {n : ℕ} {b : UInt8} (hb : b ∈ decimal n) : isDigit b = true := by
  induction n using Nat.strong_induction_on with
  | _ n ih =>
    rw [decimal] at hb
    split at hb
    · next hn =>
      obtain rfl := List.mem_singleton.mp hb
      exact (digit_spec hn).1
    · next hn =>
      rcases List.mem_append.mp hb with hb | hb
      · exact ih (n / 10) (by omega) hb
      · obtain rfl := List.mem_singleton.mp hb
        exact (digit_spec (Nat.mod_lt _ (by decide))).1

theorem decimal_ne_nil (n : ℕ) : decimal n ≠ [] := by
  rw [decimal]
  split <;> simp

/-- **The digits of a number are read back.** -/
theorem decVal_decimal (n : ℕ) : decVal (decimal n) = n := by
  induction n using Nat.strong_induction_on with
  | _ n ih =>
    rw [decimal]
    split
    · next hn =>
      have h := (digit_spec hn).2
      simpa [decVal] using h
    · next hn =>
      have h := (digit_spec (Nat.mod_lt n (by decide : 0 < 10))).2
      have hrec := ih (n / 10) (by omega)
      rw [decVal, List.foldl_append]
      change 10 * decVal (decimal (n / 10)) + ((UInt8.ofNat (48 + n % 10)).toNat - 48) = n
      rw [hrec, h, Nat.div_add_mod]

/-- A number below a power of ten has no more digits than its exponent. -/
theorem length_decimal_le {n k : ℕ} (hk : 0 < k) (h : n < 10 ^ k) : (decimal n).length ≤ k := by
  induction k generalizing n with
  | zero => exact absurd hk (Nat.lt_irrefl 0)
  | succ k ih =>
    rw [decimal]
    split
    · exact Nat.succ_le_succ (Nat.zero_le k)
    · next hn =>
      have hpos : 0 < k := by
        by_contra h0
        obtain rfl : k = 0 := by omega
        omega
      have hdiv : n / 10 < 10 ^ k := Nat.div_lt_of_lt_mul (by rw [← Nat.pow_succ']; exact h)
      rw [List.length_append]
      exact Nat.succ_le_succ (ih hpos hdiv)

/-! ### `atol` -/

def isSpace (b : UInt8) : Bool := b == 32 || (9 ≤ b && b ≤ 13)

def LONG_MAX : ℕ := 2 ^ 63 - 1

/-- The number at the start of a string, behind spaces and a sign, kept within the
range of `long`. -/
def atol (s : CString) : ℤ :=
  match s.bytes.dropWhile isSpace with
  | 45 :: bs => -(min (decVal (bs.takeWhile isDigit)) (LONG_MAX + 1) : ℕ)
  | 43 :: bs => (min (decVal (bs.takeWhile isDigit)) LONG_MAX : ℕ)
  | bs => (min (decVal (bs.takeWhile isDigit)) LONG_MAX : ℕ)

theorem takeWhile_append_stop {p : UInt8 → Bool} {as : List UInt8} {b : UInt8} (bs : List UInt8)
    (has : ∀ a ∈ as, p a = true) (hb : p b = false) : (as ++ b :: bs).takeWhile p = as := by
  induction as with
  | nil => simp [hb]
  | cons a as ih =>
    rw [List.cons_append, List.takeWhile_cons, has a (List.mem_cons_self ..), if_pos rfl,
      ih fun c hc => has c (List.mem_cons_of_mem _ hc)]

theorem isSpace_of_isDigit {b : UInt8} (h : isDigit b = true) : isSpace b = false := by
  have hrange : 48 ≤ b ∧ b ≤ 57 := by simpa [isDigit] using h
  rw [isSpace, Bool.or_eq_false_iff]
  constructor
  · simp only [beq_eq_false_iff_ne, ne_eq]
    rintro rfl
    exact absurd hrange.1 (by decide)
  · simp only [Bool.and_eq_false_iff, decide_eq_false_iff_not]
    right
    intro hle
    exact absurd (UInt8.le_trans hrange.1 hle) (by decide)

/-- A string that starts with a digit has no sign. -/
theorem atol_digit {s : CString} {b : UInt8} {bs : List UInt8} (hs : s.bytes = b :: bs)
    (hb : isDigit b = true) : atol s = (min (decVal (s.bytes.takeWhile isDigit)) LONG_MAX : ℕ) := by
  have hrange : 48 ≤ b ∧ b ≤ 57 := by simpa [isDigit] using hb
  have hdrop : s.bytes.dropWhile isSpace = s.bytes := by
    rw [hs, List.dropWhile_cons, isSpace_of_isDigit hb]
    rfl
  rw [atol, hdrop]
  split
  · next heq =>
    obtain rfl : b = 45 := (List.cons.inj (hs.symm.trans heq)).1
    exact absurd hrange.1 (by decide)
  · next heq =>
    obtain rfl : b = 43 := (List.cons.inj (hs.symm.trans heq)).1
    exact absurd hrange.1 (by decide)
  · rfl

theorem atol_nonneg {s : CString} {b : UInt8} {bs : List UInt8} (hs : s.bytes = b :: bs)
    (hb : isDigit b = true) : ¬ atol s < 0 := by
  rw [atol_digit hs hb]
  exact Int.not_lt.mpr (Int.natCast_nonneg _)

/-- The number is in range and its digits are the first ones of the string. -/
theorem atol_of_takeWhile {s : CString} {n : ℕ} (hs : s.bytes.takeWhile isDigit = decimal n)
    (hn : n ≤ LONG_MAX) : atol s = n := by
  obtain ⟨d, ds, hd⟩ := List.exists_cons_of_ne_nil (decimal_ne_nil n)
  have hdigit : isDigit d = true := isDigit_of_mem_decimal (hd ▸ List.mem_cons_self ..)
  obtain ⟨bs, hbs⟩ : ∃ bs, s.bytes = d :: bs := by
    have hprefix := List.takeWhile_prefix (l := s.bytes) isDigit
    rw [hs, hd] at hprefix
    obtain ⟨t, ht⟩ := hprefix
    exact ⟨ds ++ t, ht.symm⟩
  rw [atol_digit hbs hdigit, hs, decVal_decimal, Nat.min_eq_left hn]

/-- A string that starts with the digits of a number in range. -/
theorem atol_decimal {s : CString} {n : ℕ} {b : UInt8} {bs : List UInt8}
    (hs : s.bytes = decimal n ++ b :: bs) (hb : isDigit b = false) (hn : n ≤ LONG_MAX) :
    atol s = n := by
  refine atol_of_takeWhile ?_ hn
  rw [hs]
  exact takeWhile_append_stop bs (fun a ha => isDigit_of_mem_decimal ha) hb

/-- A string that consists of them. -/
theorem atol_decimal_self {s : CString} {n : ℕ} (hs : s.bytes = decimal n) (hn : n ≤ LONG_MAX) :
    atol s = n := by
  refine atol_of_takeWhile ?_ hn
  rw [hs, List.takeWhile_eq_self_iff]
  exact fun a ha => isDigit_of_mem_decimal ha

end Bytes
