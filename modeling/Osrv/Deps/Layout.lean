import Osrv.Deps.Model
import Osrv.Lib.Scan

/-!
# The memory of a request

A request is a single block of memory. `deps_add` computes its size and the places of the
name, the pointers to the keys, the status bytes and the keys in it, each on its own, with the
arithmetic of `int` and `size_t`. Here the block is an area of bytes from `calloc`, and a write
outside of it gives `none`.

`Entry` says what the block holds, which is the request of the model. `deps_add` makes one
(`deps_add_layout`), and marking a key keeps it one (`Entry.statusLoop`).
-/

namespace Osrv
namespace Deps
namespace Layout

open Bytes

/-! ### Numbers and blocks -/

/-- What an `int` makes of a number. -/
def int (n : ℤ) : ℤ := Int.bmod n (2 ^ 32)

/-- What a `size_t` makes of it. -/
def size_t (n : ℤ) : ℕ := (n % 2 ^ 64).toNat

/-- `calloc`, by the number of the call and the size: the address of zeroed memory. No object
is larger than `PTRDIFF_MAX` or goes past the end of the address space. -/
structure Calloc where
  addr : ℕ → ℕ → Option ℕ
  le_max : ∀ i n a, addr i n = some a → n ≤ PTRDIFF_MAX ∧ a + n ≤ 2 ^ 64

/-- A block of memory. -/
structure Block where
  base : ℕ
  size : ℕ
  mem : Memory

def Calloc.alloc (calloc : Calloc) (i n : ℕ) : Option Block :=
  (calloc.addr i n).map fun a => ⟨a, n, fun _ => 0⟩

/-- A write to a block. -/
def Block.put (b : Block) (i : ℕ) (bs : List UInt8) : Option Block :=
  if i + bs.length ≤ b.size then some { b with mem := write b.mem i bs } else none

/-- `memcpy` of `n` bytes of `src` to a block. -/
def Block.memcpy (b : Block) (i : ℕ) (src : List UInt8) (n : ℕ) : Option Block :=
  if n ≤ src.length then b.put i (src.take n) else none

/-- The C string at an offset. -/
def Block.string (b : Block) (i : ℕ) : CString := stringAt b.size b.mem i

/-- The pointer at an offset, as an offset of its own. -/
def Block.ptr (b : Block) (i : ℕ) : ℕ := leVal (read (fun j => b.mem (i + j)) 8) - b.base

/-! ### `deps_add` -/

/-- The size of `depent_t`, and where its name starts. -/
def sizeof_depent : ℤ := 40
def offsetof_name : ℤ := 32

/-- The loop that adds up the lengths of the keys. -/
def sumLengths (slen : ℤ) : List CString → ℤ
  | [] => slen
  | k :: ks => sumLengths (int (slen + (k.length + 1))) ks

/-- The size of the block. -/
def blockSize (nlen n slen : ℤ) : ℕ :=
  size_t (sizeof_depent + nlen + 8 * int (n + 1) + int (n + 1) + slen + 1)

/-- `e->keys`, `e->status` and the place of the first key. -/
def keysAt (nlen : ℤ) : ℕ := size_t (offsetof_name + nlen + 1)
def statusAt (nlen n : ℤ) : ℕ := size_t (offsetof_name + nlen + 1 + 8 * int (n + 1))
def stringsAt (nlen n : ℤ) : ℕ :=
  size_t (offsetof_name + nlen + 1 + 8 * int (n + 1) + int (n + 1))

/-- A status byte. -/
def flag (st : Bool) : UInt8 := if st then 1 else 0

/-- The loop over the keys. `p`, `s` and `d` are the places of the pointer, the status byte and
the key itself. What the `i`-th look-up finds is not up to the key alone: between two of them the
store may change. -/
def keyLoop (found : ℕ → CString → Bool) :
    ℕ → List CString → ℕ → ℕ → ℕ → Block → Option Block
  | _, [], _, _, _, b => some b
  | i, k :: ks, p, s, d, b => do
    let l := int k.length
    let b ← b.memcpy d k.terminated (size_t l)
    let b ← b.put p (le 8 (b.base + d))
    -- the key is looked up where it has been copied to
    let b ← b.put s [flag (found i (b.string d))]
    keyLoop found (i + 1) ks (p + 8) (s + 1) (size_t (d + l + 1)) b

/-- What `deps_add` puts into the block. -/
def fillBlock (found : ℕ → CString → Bool) (name : CString) (keys : List CString) (n msg : ℤ)
    (b : Block) : Option Block := do
  let nlen := int name.length
  let b ← b.put 8 (le 4 n.toNat)
  let b ← b.put 12 (le 4 (msg % 2 ^ 32).toNat)
  let b ← b.put offsetof_name.toNat name.terminated
  let b ← b.put 16 (le 8 (b.base + keysAt nlen))
  let b ← b.put 24 (le 8 (b.base + statusAt nlen n))
  keyLoop found 0 keys (keysAt nlen) (statusAt nlen n) (stringsAt nlen n) b

/-- `deps_add` up to the critical section. Without memory there is no block. -/
def deps_add (calloc : Calloc) (i : ℕ) (found : ℕ → CString → Bool) (name : CString)
    (keys : List CString) (n msg : ℤ) : Option (Option Block) :=
  let n := if n < 0 then 0 else n
  let keys := keys.take n.toNat
  match calloc.alloc i (blockSize (int name.length) n (sumLengths 0 keys)) with
  | none => some none
  | some b => (fillBlock found name keys n msg b).map some

/-! ### `deps_complete` -/

/-- Sets a status byte if the key is the one. -/
def markByte (key : Option CString) (k : CString) (s : ℕ) (b : Block) : Option Block :=
  if key = some k then b.put s [1] else some b

/-- The loop over the keys of a request, and the sum of the status bytes. -/
def statusLoop (key : Option CString) : ℕ → ℕ → ℕ → Block → Option (Block × ℕ)
  | 0, _, _, b => some (b, 0)
  | n + 1, p, s, b => do
    let b ← markByte key (b.string (b.ptr p)) s b
    let (b', sat) ← statusLoop key n (p + 8) (s + 1) b
    some (b', (b.mem s).toNat + sat)

/-- `e->keys` and `e->status` are read from the block. -/
def markBlock (key : Option CString) (b : Block) : Option (Block × ℕ) :=
  statusLoop key (leVal (read (fun j => b.mem (8 + j)) 4)) (b.ptr 16) (b.ptr 24) b

/-- An `ev_entry_t` with its data, which start eight bytes before the end of the structure. -/
structure Event where
  len : ℕ
  block : Block

def sizeof_ev_entry : ℕ := 48
def offsetof_res : ℕ := 40

/-- `ev_create(NULL, len, NULL)` -/
def ev_create (calloc : Calloc) (i len : ℕ) : Option Event :=
  (calloc.alloc i (sizeof_ev_entry + if len < 3 then 0 else len)).map (Event.mk len)

/-- A write to the `len` bytes of data of an event. -/
def Event.put (ev : Event) (i : ℕ) (bs : List UInt8) : Option Event :=
  if i + bs.length ≤ ev.len then (ev.block.put (offsetof_res + i) bs).map (Event.mk ev.len)
  else none

/-- The message for a request. -/
def message (calloc : Calloc) (i : ℕ) (b : Block) : Option (Option Event) :=
  let name := b.string offsetof_name.toNat
  match ev_create calloc i (name.length + 4 + 4) with
  | none => some none
  | some ev => do
    let ev ← ev.put 0 (read (fun j => b.mem (12 + j)) 4)
    let ev ← ev.put 4 name.terminated
    some (some ev)

/-! ### What a block holds -/

/-- The keys with their terminators. -/
def textLength (ks : List CString) : ℕ := (ks.map fun k => k.length + 1).sum

/-- The pointers, status bytes and keys. -/
def Slots (base : ℕ) (mem : Memory) : ℕ → ℕ → ℕ → List (CString × Bool) → Prop
  | _, _, _, [] => True
  | p, s, d, (k, st) :: ks => At mem p (le 8 (base + d)) ∧ mem s = flag st ∧
    At mem d k.terminated ∧ Slots base mem (p + 8) (s + 1) (d + (k.length + 1)) ks

/-- Where the keys are. -/
def keyRegions : ℕ → List CString → List (ℕ × ℕ)
  | _, [] => []
  | d, k :: ks => (d, k.length + 1) :: keyRegions (d + (k.length + 1)) ks

/-- **The regions** of a block, with their lengths: the fields of the structure, the name, the
pointers, the status bytes, and the keys. -/
def regions (nlen : ℕ) (ks : List CString) : List (ℕ × ℕ) :=
  let p := 32 + (nlen + 1)
  let s := p + 8 * (ks.length + 1)
  let d := s + (ks.length + 1)
  (0, 32) :: (32, nlen + 1) :: (p, 8 * ks.length) :: (s, ks.length) :: keyRegions d ks

/-- **A request in memory.** -/
structure Entry (b : Block) (name : CString) (ks : List (CString × Bool)) (msg : ℤ) : Prop where
  /-- The block is as large as it has to be. -/
  size : b.size = 40 + name.length + 9 * (ks.length + 1) + textLength (ks.map Prod.fst) + 1
  /-- It does not go past the end of the address space. -/
  space : b.base + b.size ≤ 2 ^ 64
  /-- The number of keys is an `int`. -/
  count : ks.length < 2 ^ 31
  nreq_at : At b.mem 8 (le 4 ks.length)
  msg_at : At b.mem 12 (le 4 (msg % 2 ^ 32).toNat)
  keys_at : At b.mem 16 (le 8 (b.base + (32 + (name.length + 1))))
  status_at : At b.mem 24 (le 8 (b.base + (32 + (name.length + 1) + 8 * (ks.length + 1))))
  name_at : At b.mem 32 name.terminated
  slots : Slots b.base b.mem (32 + (name.length + 1))
    (32 + (name.length + 1) + 8 * (ks.length + 1))
    (32 + (name.length + 1) + 8 * (ks.length + 1) + (ks.length + 1)) ks

/-- What the record and the name hold. -/
structure Fields (base : ℕ) (mem : Memory) (name : CString) (n : ℕ) (msg : ℤ) : Prop where
  nreq_at : At mem 8 (le 4 n)
  msg_at : At mem 12 (le 4 (msg % 2 ^ 32).toNat)
  keys_at : At mem 16 (le 8 (base + (32 + (name.length + 1))))
  status_at : At mem 24 (le 8 (base + (32 + (name.length + 1) + 8 * (n + 1))))
  name_at : At mem 32 name.terminated

theorem Entry.fields {b : Block} {name : CString} {ks : List (CString × Bool)} {msg : ℤ}
    (h : Entry b name ks msg) : Fields b.base b.mem name ks.length msg :=
  ⟨h.nreq_at, h.msg_at, h.keys_at, h.status_at, h.name_at⟩

/-- They depend only on the bytes in front of the pointers. -/
theorem Fields.congr {base n : ℕ} {mem mem' : Memory} {name : CString} {msg : ℤ}
    (h : Fields base mem name n msg) (hsame : ∀ j, j < 32 + (name.length + 1) → mem' j = mem j) :
    Fields base mem' name n msg where
  nreq_at := h.nreq_at.congr fun j _ hj => hsame j (by
    rw [length_le] at hj
    omega)
  msg_at := h.msg_at.congr fun j _ hj => hsame j (by
    rw [length_le] at hj
    omega)
  keys_at := h.keys_at.congr fun j _ hj => hsame j (by
    rw [length_le] at hj
    omega)
  status_at := h.status_at.congr fun j _ hj => hsame j (by
    rw [length_le] at hj
    omega)
  name_at := h.name_at.congr fun j _ hj => hsame j (by rwa [CString.length_terminated] at hj)

/-- The keys with what the look-ups have found, from the `i`-th on. -/
def lookedUp (found : ℕ → CString → Bool) (i : ℕ) (ks : List CString) : List (CString × Bool) :=
  (ks.zipIdx i).map fun x => (x.1, found x.2 x.1)

theorem length_lookedUp (found : ℕ → CString → Bool) (i : ℕ) (ks : List CString) :
    (lookedUp found i ks).length = ks.length := by
  rw [lookedUp, List.length_map, List.length_zipIdx]

theorem map_fst_lookedUp (found : ℕ → CString → Bool) (i : ℕ) (ks : List CString) :
    (lookedUp found i ks).map Prod.fst = ks := by
  rw [lookedUp, List.map_map]
  exact List.zipIdx_map_fst i ks

/-! ### The regions -/

theorem keyRegions_spec (d : ℕ) (ks : List CString) :
    (keyRegions d ks).Pairwise (fun r r' => r.1 + r.2 ≤ r'.1) ∧
      ∀ r ∈ keyRegions d ks, d ≤ r.1 ∧ r.1 + r.2 ≤ d + textLength ks := by
  induction ks generalizing d with
  | nil => exact ⟨List.Pairwise.nil, fun r hr => absurd hr List.not_mem_nil⟩
  | cons k ks ih =>
    obtain ⟨hpair, hin⟩ := ih (d + (k.length + 1))
    have htext : textLength (k :: ks) = (k.length + 1) + textLength ks := rfl
    refine ⟨List.Pairwise.cons (fun r hr => (hin r hr).1) hpair, fun r hr => ?_⟩
    obtain rfl | hr := List.mem_cons.mp hr
    · exact ⟨le_refl _, by rw [htext]; exact Nat.add_le_add_left (Nat.le_add_right ..) d⟩
    · obtain ⟨hlow, hhigh⟩ := hin r hr
      exact ⟨(Nat.le_add_right ..).trans hlow, by rw [htext, ← Nat.add_assoc]; exact hhigh⟩

/-- **No region touches another one, and all are inside.** -/
theorem regions_spec (nlen : ℕ) (ks : List CString) :
    (regions nlen ks).Pairwise (fun r r' => r.1 + r.2 ≤ r'.1) ∧
      ∀ r ∈ regions nlen ks,
        r.1 + r.2 ≤ 40 + nlen + 9 * (ks.length + 1) + textLength ks + 1 := by
  obtain ⟨hpair, hin⟩ := keyRegions_spec
    (32 + (nlen + 1) + 8 * (ks.length + 1) + (ks.length + 1)) ks
  constructor
  -- each region ends before those behind it: the record, the name, the pointers, the status bytes
  · refine .cons ?_ (.cons ?_ (.cons ?_ (.cons ?_ hpair)))
    · intro r hr
      obtain rfl | rfl | rfl | hr := by simpa only [List.mem_cons] using hr
      · exact le_refl _
      · show 0 + 32 ≤ 32 + (nlen + 1)
        omega
      · show 0 + 32 ≤ 32 + (nlen + 1) + 8 * (ks.length + 1)
        omega
      · have hlow := (hin r hr).1
        show 0 + 32 ≤ r.1
        omega
    · intro r hr
      obtain rfl | rfl | hr := by simpa only [List.mem_cons] using hr
      · exact le_refl _
      · exact Nat.le_add_right ..
      · have hlow := (hin r hr).1
        show 32 + (nlen + 1) ≤ r.1
        omega
    · intro r hr
      obtain rfl | hr := by simpa only [List.mem_cons] using hr
      · exact Nat.add_le_add_left (Nat.mul_le_mul_left 8 (Nat.le_succ _)) _
      · have hlow := (hin r hr).1
        show 32 + (nlen + 1) + 8 * ks.length ≤ r.1
        omega
    · intro r hr
      exact (Nat.add_le_add_left (Nat.le_succ _) _).trans (hin r hr).1
  · intro r hr
    obtain rfl | rfl | rfl | rfl | hr := by simpa only [regions, List.mem_cons] using hr
    · show 0 + 32 ≤ _
      omega
    · show 32 + (nlen + 1) ≤ _
      omega
    · show 32 + (nlen + 1) + 8 * ks.length ≤ _
      omega
    · show 32 + (nlen + 1) + 8 * (ks.length + 1) + ks.length ≤ _
      omega
    · have hhigh := (hin r hr).2
      omega

/-! ### The sizes -/

theorem int_eq {n : ℤ} (h₀ : 0 ≤ n) (h : n < 2 ^ 31) : int n = n := by
  have hmod : n % ((2 ^ 32 : ℕ) : ℤ) = n := Int.emod_eq_of_lt h₀ (by omega)
  rw [int, Int.bmod_eq_emod_of_lt, hmod]
  rw [hmod]
  omega

theorem size_t_natCast {n : ℕ} (h : n < 2 ^ 64) : size_t n = n := by
  rw [size_t, Int.emod_eq_of_lt (Int.natCast_nonneg n) (by omega), Int.toNat_natCast]

theorem sumLengths_eq {slen : ℕ} (ks : List CString) (h : slen + textLength ks < 2 ^ 31) :
    sumLengths slen ks = (slen + textLength ks : ℕ) := by
  induction ks generalizing slen with
  | nil => rfl
  | cons k ks ih =>
    have htext : textLength (k :: ks) = (k.length + 1) + textLength ks := rfl
    have hstep : int ((slen : ℤ) + (k.length + 1)) = (slen + (k.length + 1) : ℕ) := by
      rw [int_eq (by omega) (by omega)]
      push_cast
      rfl
    rw [sumLengths, hstep, ih (by omega), htext, Nat.add_assoc]

section Sizes

variable {nlen n slen : ℕ}

/-- `n + 1` does not overflow if there is memory for the block: it would be of almost
the whole address space. -/
theorem succ_lt_of_blockSize (hlen : nlen < 2 ^ 31) (hn : n < 2 ^ 31) (hs : slen < 2 ^ 31)
    (hmax : blockSize nlen n slen ≤ PTRDIFF_MAX) : n + 1 < 2 ^ 31 := by
  by_contra hover
  obtain rfl : n = 2 ^ 31 - 1 := by omega
  have hint : int (((2 ^ 31 - 1 : ℕ) : ℤ) + 1) = -2 ^ 31 := by decide
  rw [blockSize, hint, size_t, sizeof_depent, PTRDIFF_MAX] at hmax
  omega

theorem blockSize_eq (hlen : nlen < 2 ^ 31) (hn : n + 1 < 2 ^ 31) (hs : slen < 2 ^ 31) :
    blockSize nlen n slen = 40 + nlen + 9 * (n + 1) + slen + 1 := by
  have hint : int ((n : ℤ) + 1) = n + 1 := int_eq (by omega) (by omega)
  have hcast : sizeof_depent + nlen + 8 * ((n : ℤ) + 1) + (n + 1) + slen + 1
      = (40 + nlen + 9 * (n + 1) + slen + 1 : ℕ) := by
    rw [sizeof_depent]
    push_cast
    ring
  rw [blockSize, hint, hcast, size_t_natCast (by omega)]

theorem keysAt_eq (hlen : nlen < 2 ^ 31) : keysAt nlen = 32 + (nlen + 1) := by
  have hcast : offsetof_name + (nlen : ℤ) + 1 = (32 + (nlen + 1) : ℕ) := by
    rw [offsetof_name]
    push_cast
    ring
  rw [keysAt, hcast, size_t_natCast (by omega)]

theorem statusAt_eq (hlen : nlen < 2 ^ 31) (hn : n + 1 < 2 ^ 31) :
    statusAt nlen n = 32 + (nlen + 1) + 8 * (n + 1) := by
  have hint : int ((n : ℤ) + 1) = n + 1 := int_eq (by omega) (by omega)
  have hcast : offsetof_name + (nlen : ℤ) + 1 + 8 * (n + 1)
      = (32 + (nlen + 1) + 8 * (n + 1) : ℕ) := by
    rw [offsetof_name]
    push_cast
    ring
  rw [statusAt, hint, hcast, size_t_natCast (by omega)]

theorem stringsAt_eq (hlen : nlen < 2 ^ 31) (hn : n + 1 < 2 ^ 31) :
    stringsAt nlen n = 32 + (nlen + 1) + 8 * (n + 1) + (n + 1) := by
  have hint : int ((n : ℤ) + 1) = n + 1 := int_eq (by omega) (by omega)
  have hcast : offsetof_name + (nlen : ℤ) + 1 + 8 * (n + 1) + (n + 1)
      = (32 + (nlen + 1) + 8 * (n + 1) + (n + 1) : ℕ) := by
    rw [offsetof_name]
    push_cast
    ring
  rw [stringsAt, hint, hcast, size_t_natCast (by omega)]

end Sizes

/-! ### Filling the block -/

theorem Block.put_eq {b : Block} {i : ℕ} {bs : List UInt8} (h : i + bs.length ≤ b.size) :
    b.put i bs = some { b with mem := write b.mem i bs } := if_pos h

theorem textLength_cons (k : CString) (ks : List CString) :
    textLength (k :: ks) = (k.length + 1) + textLength ks := rfl

/-- Bytes in front of zeros form a string. -/
theorem at_terminated {mem : Memory} {d : ℕ} {k : CString} (h : At mem d k.bytes)
    (h0 : mem (d + k.length) = 0) : At mem d k.terminated :=
  at_append.mpr ⟨h, at_cons.mpr ⟨h0, at_nil _ _⟩⟩

/-- **The loop over the keys** fills the slots, and writes nowhere else. -/
theorem keyLoop_eq (found : ℕ → CString → Bool) (i : ℕ) (ks : List CString) {p s d : ℕ}
    {b : Block} (hp : p + 8 * ks.length ≤ s) (hs : s + ks.length ≤ d)
    (hd : d + textLength ks ≤ b.size) (hsize : b.size ≤ PTRDIFF_MAX)
    (htext : textLength ks < 2 ^ 31) (hzero : ∀ j, d ≤ j → b.mem j = 0) :
    ∃ mem, keyLoop found i ks p s d b = some { b with mem := mem } ∧
      Slots b.base mem p s d (lookedUp found i ks) ∧
      ∀ j, (j < p ∨ p + 8 * ks.length ≤ j) → (j < s ∨ s + ks.length ≤ j) →
        (j < d ∨ d + textLength ks ≤ j) → mem j = b.mem j := by
  induction ks generalizing i p s d b with
  | nil => exact ⟨b.mem, rfl, trivial, fun _ _ _ _ => rfl⟩
  | cons k ks ih =>
    rw [textLength_cons] at hd htext
    rw [List.length_cons] at hp hs
    have hk : k.bytes.length = k.length := rfl
    have hint : int (k.length : ℤ) = k.length := int_eq (by omega) (by omega)
    have hl : size_t (k.length : ℤ) = k.length := size_t_natCast (by omega)
    have hnext : size_t ((d : ℤ) + k.length + 1) = d + (k.length + 1) := by
      have hcast : (d : ℤ) + k.length + 1 = (d + (k.length + 1) : ℕ) := by
        push_cast
        ring
      rw [PTRDIFF_MAX] at hsize
      rw [hcast, size_t_natCast (by omega)]
    -- the key
    let m₁ := write b.mem d k.bytes
    have hcopy : b.memcpy d k.terminated (size_t k.length) = some { b with mem := m₁ } := by
      have hle : k.length ≤ k.terminated.length := by
        rw [CString.length_terminated]
        exact Nat.le_succ _
      have htake : k.terminated.take k.length = k.bytes := List.take_left
      rw [hl, Block.memcpy, if_pos hle, htake, Block.put_eq (by omega)]
    have hzero₁ : ∀ j, d + k.length ≤ j → m₁ j = 0 := fun j hj =>
      (write_outside b.mem (.inr hj)).trans (hzero j (by omega))
    have hkey₁ : At m₁ d k.terminated :=
      at_terminated (at_write b.mem d k.bytes) (hzero₁ _ (le_refl _))
    -- the pointer to it
    let m₂ := write m₁ p (le 8 (b.base + d))
    have hptr : Block.put { b with mem := m₁ } p (le 8 (b.base + d)) = some { b with mem := m₂ } :=
      Block.put_eq (by
        rw [length_le]
        show p + 8 ≤ b.size
        omega)
    have hkey₂ : At m₂ d k.terminated := hkey₁.write_before (by
      rw [length_le]
      omega)
    have hfound : (Block.mk b.base b.size m₂).string d = k := stringAt_eq hkey₂ (by
      show d + k.length < b.size
      omega)
    -- the status byte
    let m₃ := write m₂ s [flag (found i k)]
    have hflag : Block.put { b with mem := m₂ } s [flag (found i k)] = some { b with mem := m₃ } :=
      Block.put_eq (by
        show s + 1 ≤ b.size
        omega)
    have hkey₃ : At m₃ d k.terminated := hkey₂.write_before (by
      show s + 1 ≤ d
      omega)
    have hptr₃ : At m₃ p (le 8 (b.base + d)) := (at_write m₁ p _).write_after (by
      rw [length_le]
      omega)
    have hst₃ : m₃ s = flag (found i k) := write_self ..
    have hzero₃ : ∀ j, d + (k.length + 1) ≤ j → m₃ j = 0 := by
      intro j hj
      have h₃ : m₃ j = m₂ j := write_outside m₂ (.inr (by
        show s + 1 ≤ j
        omega))
      have h₂ : m₂ j = m₁ j := write_outside m₁ (.inr (by
        rw [length_le]
        omega))
      rw [h₃, h₂, hzero₁ j (by omega)]
    -- the other keys
    obtain ⟨mem, hrun, hslots, hframe⟩ := ih (i + 1) (p := p + 8) (s := s + 1)
      (d := d + (k.length + 1)) (b := { b with mem := m₃ }) (by omega) (by omega) (by
        show d + (k.length + 1) + textLength ks ≤ b.size
        omega) hsize (by omega) hzero₃
    refine ⟨mem, ?_, ⟨?_, ?_, ?_, hslots⟩, fun j h₁ h₂ h₃ => ?_⟩
    · rw [keyLoop]
      show ((b.memcpy d k.terminated (size_t (int k.length))).bind _) = _
      rw [hint, hcopy]
      show ((Block.put { b with mem := m₁ } p (le 8 (b.base + d))).bind _) = _
      rw [hptr]
      show ((Block.put { b with mem := m₂ } s
        [flag (found i ((Block.mk b.base b.size m₂).string d))]).bind _) = _
      rw [hfound, hflag]
      show keyLoop found (i + 1) ks (p + 8) (s + 1) (size_t (d + k.length + 1))
        { b with mem := m₃ } = _
      rw [hnext, hrun]
    · refine hptr₃.congr fun j _ hj => ?_
      rw [length_le] at hj
      exact hframe j (.inl hj) (.inl (by omega)) (.inl (by omega))
    · rw [hframe s (.inr (by omega)) (.inl (Nat.lt_succ_self s)) (.inl (by omega))]
      exact hst₃
    · refine hkey₃.congr fun j hj hj' => ?_
      rw [CString.length_terminated] at hj'
      exact hframe j (.inr (by omega)) (.inr (by omega)) (.inl hj')
    · rw [List.length_cons] at h₁ h₂
      rw [textLength_cons] at h₃
      have hm : mem j = m₃ j := hframe j (by omega) (by omega) (by omega)
      have hm₃ : m₃ j = m₂ j := write_outside m₂ (by
        show j < s ∨ s + 1 ≤ j
        omega)
      have hm₂ : m₂ j = m₁ j := write_outside m₁ (by
        rw [length_le]
        omega)
      have hm₁ : m₁ j = b.mem j := write_outside b.mem (by omega)
      rw [hm, hm₃, hm₂, hm₁]

/-- **The record and the name** are filled in first, and nothing behind them. -/
theorem fillBlock_fields (found : ℕ → CString → Bool) {name : CString} (ks : List CString)
    (msg : ℤ) {b : Block} (hname : name.length < 2 ^ 31) (hn : ks.length + 1 < 2 ^ 31)
    (hzero : ∀ j, b.mem j = 0) (hsize : 32 + (name.length + 1) ≤ b.size) :
    ∃ mem, fillBlock found name ks ks.length msg b =
        keyLoop found 0 ks (32 + (name.length + 1)) (32 + (name.length + 1) + 8 * (ks.length + 1))
          (32 + (name.length + 1) + 8 * (ks.length + 1) + (ks.length + 1)) { b with mem := mem } ∧
      Fields b.base mem name ks.length msg ∧
      ∀ j, 32 + (name.length + 1) ≤ j → mem j = 0 := by
  have hint : int (name.length : ℤ) = name.length := int_eq (by omega) (by omega)
  have hnat : (ks.length : ℤ).toNat = ks.length := Int.toNat_natCast _
  have hfour : ∀ a, (le 4 a).length = 4 := length_le 4
  have height : ∀ a, (le 8 a).length = 8 := length_le 8
  have hlen : name.terminated.length = name.length + 1 := CString.length_terminated _
  -- the writes in their order
  let m₁ := write b.mem 8 (le 4 ks.length)
  let m₂ := write m₁ 12 (le 4 (msg % 2 ^ 32).toNat)
  let m₃ := write m₂ 32 name.terminated
  let m₄ := write m₃ 16 (le 8 (b.base + (32 + (name.length + 1))))
  let m₅ := write m₄ 24 (le 8 (b.base + (32 + (name.length + 1) + 8 * (ks.length + 1))))
  refine ⟨m₅, ?_, ⟨?_, ?_, ?_, at_write m₄ 24 _, ?_⟩, fun j hj => ?_⟩
  · have hput : ∀ (m : Memory) (i : ℕ) (bs : List UInt8), i + bs.length ≤ b.size →
        Block.put { b with mem := m } i bs = some { b with mem := write m i bs } :=
      fun m i bs h => Block.put_eq h
    rw [fillBlock, hint, hnat, keysAt_eq hname, statusAt_eq hname hn, stringsAt_eq hname hn]
    show ((Block.put { b with mem := b.mem } 8 (le 4 ks.length)).bind _) = _
    rw [hput _ _ _ (by rw [hfour]; omega)]
    show ((Block.put { b with mem := m₁ } 12 _).bind _) = _
    rw [hput _ _ _ (by rw [hfour]; omega)]
    show ((Block.put { b with mem := m₂ } 32 name.terminated).bind _) = _
    rw [hput _ _ _ (by rwa [hlen])]
    show ((Block.put { b with mem := m₃ } 16 _).bind _) = _
    rw [hput _ _ _ (by rw [height]; omega)]
    show ((Block.put { b with mem := m₄ } 24 _).bind _) = _
    rw [hput _ _ _ (by rw [height]; omega)]
    rfl
  -- each field is in front of what is written later or behind it
  · have hnreq := hfour ks.length
    refine ((((at_write b.mem 8 _).write_after ?_).write_after ?_).write_after ?_).write_after ?_
    all_goals omega
  · have hmsg := hfour (msg % 2 ^ 32).toNat
    refine (((at_write m₁ 12 _).write_after ?_).write_after ?_).write_after ?_
    all_goals omega
  · exact (at_write m₃ 16 _).write_after (by rw [height])
  · refine ((at_write m₂ 32 _).write_before ?_).write_before ?_
    · rw [height]
      omega
    · rw [height]
  · calc m₅ j = m₄ j := write_outside m₄ (.inr (by rw [height]; omega))
      _ = m₃ j := write_outside m₃ (.inr (by rw [height]; omega))
      _ = m₂ j := write_outside m₂ (.inr (by rwa [hlen]))
      _ = m₁ j := write_outside m₁ (.inr (by rw [hfour]; omega))
      _ = b.mem j := write_outside b.mem (.inr (by rw [hfour]; omega))
      _ = 0 := hzero j

/-- **A new block** holds the request. -/
theorem fillBlock_entry (found : ℕ → CString → Bool) {name : CString} {ks : List CString}
    (msg : ℤ) {b : Block} (hname : name.length < 2 ^ 31) (hn : ks.length + 1 < 2 ^ 31)
    (htext : textLength ks < 2 ^ 31) (hzero : ∀ j, b.mem j = 0)
    (hsize : b.size = 40 + name.length + 9 * (ks.length + 1) + textLength ks + 1)
    (hspace : b.base + b.size ≤ 2 ^ 64) :
    ∃ b', fillBlock found name ks ks.length msg b = some b' ∧
      Entry b' name (lookedUp found 0 ks) msg := by
  obtain ⟨m, hfill, hfields, hrest⟩ := fillBlock_fields found ks msg hname hn hzero (by omega)
  -- the slots, which are behind the name
  obtain ⟨mem, hloop, hslots, hframe⟩ := keyLoop_eq found 0 ks (b := { b with mem := m })
    (p := 32 + (name.length + 1)) (s := 32 + (name.length + 1) + 8 * (ks.length + 1))
    (d := 32 + (name.length + 1) + 8 * (ks.length + 1) + (ks.length + 1)) (by omega) (by omega)
    (by
      show _ ≤ b.size
      omega)
    (by
      show b.size ≤ PTRDIFF_MAX
      rw [PTRDIFF_MAX]
      omega) htext fun j hj => hrest j (by omega)
  have hfields' : Fields b.base mem name (lookedUp found 0 ks).length msg := by
    rw [length_lookedUp]
    exact hfields.congr fun j hj => hframe j (.inl hj) (.inl (by omega)) (.inl (by omega))
  refine ⟨{ b with mem := mem }, hfill.trans hloop, ?_, hspace, ?_, hfields'.nreq_at,
    hfields'.msg_at, hfields'.keys_at, hfields'.status_at, hfields'.name_at, ?_⟩
  · rw [length_lookedUp, map_fst_lookedUp]
    exact hsize
  · rw [length_lookedUp]
    omega
  · rw [length_lookedUp]
    exact hslots

/-! ### Marking -/

section Marking

variable {b : Block} {name : CString} {ks : List (CString × Bool)} {msg : ℤ}

/-- The slots depend only on their own bytes. -/
theorem Slots.congr {base p s d : ℕ} {mem mem' : Memory} (h : Slots base mem p s d ks)
    (hp : ∀ j, p ≤ j → j < p + 8 * ks.length → mem' j = mem j)
    (hs : ∀ j, s ≤ j → j < s + ks.length → mem' j = mem j)
    (hd : ∀ j, d ≤ j → j < d + textLength (ks.map Prod.fst) → mem' j = mem j) :
    Slots base mem' p s d ks := by
  induction ks generalizing p s d with
  | nil => trivial
  | cons x ks ih =>
    obtain ⟨k, st⟩ := x
    obtain ⟨hptr, hst, hkey, hrest⟩ := h
    rw [List.length_cons] at hp hs
    rw [List.map_cons, textLength_cons] at hd
    dsimp only at hd
    refine ⟨hptr.congr fun j hj hj' => ?_, ?_, hkey.congr fun j hj hj' => ?_, ih hrest ?_ ?_ ?_⟩
    · rw [length_le] at hj'
      exact hp j hj (by omega)
    · rw [hs s (le_refl s) (by omega)]
      exact hst
    · rw [CString.length_terminated] at hj'
      exact hd j hj (by omega)
    · exact fun j hj hj' => hp j (by omega) (by omega)
    · exact fun j hj hj' => hs j (by omega) (by omega)
    · exact fun j hj hj' => hd j (by omega) (by omega)

/-- A pointer that has been stored is read back. -/
theorem Block.ptr_eq {i d : ℕ} (h : At b.mem i (le 8 (b.base + d)))
    (hd : b.base + d < 2 ^ 64) : b.ptr i = d := by
  have hread : read (fun j => b.mem (i + j)) 8 = le 8 (b.base + d) := by
    have hlen : (le 8 (b.base + d)).length = 8 := length_le ..
    rw [← h.read_eq, hlen]
  have hval : leVal (le 8 (b.base + d)) = b.base + d := leVal_le_of_lt hd
  rw [Block.ptr, hread, hval, Nat.add_sub_cancel_left]

/-- **The loop over the status bytes** computes what the loop of the model does, and writes
to these bytes alone. -/
theorem statusLoop_eq (key : Option CString) {p s d : ℕ} (h : Slots b.base b.mem p s d ks)
    (hp : p + 8 * ks.length ≤ s) (hs : s + ks.length ≤ d)
    (hd : d + textLength (ks.map Prod.fst) ≤ b.size) (hspace : b.base + b.size ≤ 2 ^ 64) :
    ∃ mem, statusLoop key ks.length p s b =
        some ({ b with mem := mem }, (checkStatus key ks).2) ∧
      Slots b.base mem p s d (checkStatus key ks).1 ∧
      ∀ j, j < s ∨ s + ks.length ≤ j → mem j = b.mem j := by
  induction ks generalizing p s d b with
  | nil => exact ⟨b.mem, rfl, trivial, fun _ _ => rfl⟩
  | cons x ks ih =>
    obtain ⟨k, st⟩ := x
    obtain ⟨hptr, hst, hkey, hrest⟩ := h
    rw [List.length_cons] at hp hs
    rw [List.map_cons, textLength_cons] at hd
    dsimp only at hd
    -- the key that the pointer leads to
    have hd' : b.ptr p = d := Block.ptr_eq hptr (by omega)
    have hk : b.string d = k := stringAt_eq hkey (by omega)
    -- its status byte
    let st' : Bool := if key = some k then true else st
    obtain ⟨m, hmark, hm, hframe⟩ : ∃ m, markByte key k s b = some { b with mem := m } ∧
        m s = flag st' ∧ ∀ j, j ≠ s → m j = b.mem j := by
      by_cases hkk : key = some k
      · refine ⟨write b.mem s [1], ?_, ?_, fun j hj => write_of_ne hj _ _⟩
        · rw [markByte, if_pos hkk, Block.put_eq (by
            show s + 1 ≤ b.size
            omega)]
        · have hst' : st' = true := if_pos hkk
          rw [hst']
          exact write_self ..
      · refine ⟨b.mem, ?_, ?_, fun _ _ => rfl⟩
        · rw [markByte, if_neg hkk]
        · have hst' : st' = st := if_neg hkk
          rw [hst', hst]
    have hrest' : Slots b.base m (p + 8) (s + 1) (d + (k.length + 1)) ks :=
      hrest.congr (fun j hj hj' => hframe j (by omega)) (fun j hj _ => hframe j (by omega))
        fun j hj _ => hframe j (by omega)
    obtain ⟨mem, hrun, hslots, hsame⟩ := ih (b := { b with mem := m }) hrest' (by omega) (by omega)
      (by
        show _ ≤ b.size
        omega) hspace
    have hbyte : mem s = flag st' := by
      rw [hsame s (.inl (Nat.lt_succ_self s))]
      exact hm
    have hflag : (flag st').toNat = if st' then 1 else 0 := by
      cases st' <;> rfl
    refine ⟨mem, ?_, ⟨?_, hbyte, ?_, hslots⟩, fun j hj => ?_⟩
    · rw [List.length_cons, statusLoop, hd', hk, hmark]
      show ((statusLoop key ks.length (p + 8) (s + 1) { b with mem := m }).bind fun r =>
        some (r.1, (m s).toNat + r.2)) = _
      rw [hrun, hm, hflag]
      rfl
    · refine hptr.congr fun j hj hj' => ?_
      rw [length_le] at hj'
      rw [hsame j (.inl (by omega))]
      exact hframe j (by omega)
    · refine hkey.congr fun j hj hj' => ?_
      rw [hsame j (.inr (by omega))]
      exact hframe j (by omega)
    · rw [List.length_cons] at hj
      rw [hsame j (by omega)]
      exact hframe j (by omega)

theorem length_checkStatus (key : Option CString) (ks : List (CString × Bool)) :
    (checkStatus key ks).1.length = ks.length := by
  rw [checkStatus_fst, List.length_map]

theorem map_fst_checkStatus (key : Option CString) (ks : List (CString × Bool)) :
    (checkStatus key ks).1.map Prod.fst = ks.map Prod.fst := by
  rw [checkStatus_fst, List.map_map]
  rfl

/-- **Marking a key** in a request in memory is marking it in the request. -/
theorem Entry.markBlock (h : Entry b name ks msg) (key : Option CString) :
    ∃ b', markBlock key b = some (b', (checkStatus key ks).2) ∧
      Entry b' name (checkStatus key ks).1 msg := by
  have hsize := h.size
  have hspace := h.space
  have hcount : leVal (read (fun j => b.mem (8 + j)) 4) = ks.length := by
    have hlen : (le 4 ks.length).length = 4 := length_le ..
    have hread : read (fun j => b.mem (8 + j)) 4 = le 4 ks.length := by
      rw [← h.nreq_at.read_eq, hlen]
    rw [hread]
    exact leVal_le_of_lt (h.count.trans (by decide))
  have hkeys := Block.ptr_eq h.keys_at (by omega)
  have hstatus := Block.ptr_eq h.status_at (by omega)
  obtain ⟨mem, hrun, hslots, hframe⟩ := statusLoop_eq key h.slots (by omega) (by omega)
    (by omega) h.space
  -- the record and the name are in front of the status bytes
  have hfields : Fields b.base mem name (checkStatus key ks).1.length msg := by
    rw [length_checkStatus]
    exact h.fields.congr fun j hj => hframe j (.inl (by omega))
  refine ⟨{ b with mem := mem }, ?_, ⟨?_, hspace, ?_, hfields.nreq_at, hfields.msg_at,
    hfields.keys_at, hfields.status_at, hfields.name_at, ?_⟩⟩
  · rw [Layout.markBlock, hcount, hkeys, hstatus, hrun]
  · rw [length_checkStatus, map_fst_checkStatus]
    exact h.size
  · rw [length_checkStatus]
    exact h.count
  · rw [length_checkStatus]
    exact hslots

/-! ### The message -/

/-- **A message that fits.** The event has at least the `len` bytes of data, and they hold the
number and the name. -/
structure Carries (ev : Event) (name : CString) (msg : ℤ) : Prop where
  room : offsetof_res + ev.len ≤ ev.block.size
  fits : 4 + (name.length + 1) ≤ ev.len
  msg_at : At ev.block.mem offsetof_res (le 4 (msg % 2 ^ 32).toNat)
  name_at : At ev.block.mem (offsetof_res + 4) name.terminated

theorem Event.put_eq {ev : Event} {i : ℕ} {bs : List UInt8} (h : i + bs.length ≤ ev.len)
    (hroom : offsetof_res + ev.len ≤ ev.block.size) : ev.put i bs =
      some ⟨ev.len, { ev.block with mem := write ev.block.mem (offsetof_res + i) bs }⟩ := by
  rw [Event.put, if_pos h, Block.put_eq (by omega)]
  rfl

/-- The message is written to the data of the event and nowhere else. -/
theorem Entry.message (h : Entry b name ks msg) (calloc : Calloc) (i : ℕ) :
    ∃ r, message calloc i b = some r ∧ ∀ ev, r = some ev → Carries ev name msg := by
  have hsize := h.size
  -- what is read of the record is what has been laid out in it
  have hname : b.string offsetof_name.toNat = name := stringAt_eq h.name_at (by
    show 32 + name.length < b.size
    omega)
  have hmsg : read (fun j => b.mem (12 + j)) 4 = le 4 (msg % 2 ^ 32).toNat := by
    have hlen : (le 4 (msg % 2 ^ 32).toNat).length = 4 := length_le ..
    rw [← h.msg_at.read_eq, hlen]
  have hlen : name.terminated.length = name.length + 1 := CString.length_terminated _
  rw [Layout.message, hname, hmsg]
  cases hev : ev_create calloc i (name.length + 4 + 4) with
  -- no memory for the event
  | none => exact ⟨none, rfl, fun ev hev => by cases hev⟩
  | some ev =>
    obtain ⟨block, halloc, rfl⟩ := Option.map_eq_some_iff.mp hev
    obtain ⟨a, -, rfl⟩ := Option.map_eq_some_iff.mp halloc
    have hnot : ¬ name.length + 4 + 4 < 3 := by omega
    rw [if_neg hnot] at hev ⊢
    -- the data of the event has room for the message and the name
    have hroom : offsetof_res + (name.length + 4 + 4) ≤ sizeof_ev_entry + (name.length + 4 + 4) :=
      Nat.add_le_add_right (by decide) _
    have hfits : 4 + (name.length + 1) ≤ name.length + 4 + 4 := by omega
    show ∃ r, ((Event.put _ 0 (le 4 (msg % 2 ^ 32).toNat)).bind fun ev =>
      (ev.put 4 name.terminated).bind fun ev => some (some ev)) = some r ∧ _
    rw [Event.put_eq (by
      rw [length_le]
      show 0 + 4 ≤ name.length + 4 + 4
      omega) hroom, Option.bind_some, Event.put_eq (by rwa [hlen]) hroom]
    refine ⟨_, rfl, fun ev hput => ?_⟩
    obtain rfl := Option.some.inj hput
    exact ⟨hroom, hfits, (at_write _ _ _).write_after (by rw [length_le]), at_write _ _ _⟩

/-- A block is marked any number of times. -/
def markAll (marks : List (Option CString)) (b : Block) : Option Block :=
  marks.foldlM (fun b key => (Layout.markBlock key b).map Prod.fst) b

/-- The same of a request. -/
def markedAll (marks : List (Option CString)) (ks : List (CString × Bool)) :
    List (CString × Bool) :=
  marks.foldl (fun ks key => (checkStatus key ks).1) ks

theorem Entry.markAll (h : Entry b name ks msg) (marks : List (Option CString)) :
    ∃ b', markAll marks b = some b' ∧ Entry b' name (markedAll marks ks) msg := by
  induction marks generalizing b ks with
  | nil => exact ⟨b, rfl, h⟩
  | cons key marks ih =>
    obtain ⟨b₁, hmark, h₁⟩ := h.markBlock key
    obtain ⟨b', hrun, h'⟩ := ih h₁
    refine ⟨b', ?_, h'⟩
    rw [Layout.markAll, List.foldlM_cons, hmark]
    exact hrun

end Marking

/-! ### The whole block -/

/-- **A block that is laid out well.** -/
structure Laid (calloc : Calloc) (b : Block) (name : CString) (ks : List (CString × Bool))
    (msg : ℤ) : Prop where
  /-- The regions are disjoint. -/
  disjoint : (regions name.length (ks.map Prod.fst)).Pairwise fun r r' => r.1 + r.2 ≤ r'.1
  /-- They are inside of the block. -/
  inside : ∀ r ∈ regions name.length (ks.map Prod.fst), r.1 + r.2 ≤ b.size
  /-- However often keys are marked, the block holds the request, and the message for it fits
  into its event. -/
  entry : ∀ marks, ∃ b', markAll marks b = some b' ∧ Entry b' name (markedAll marks ks) msg ∧
    ∀ i, ∃ r, message calloc i b' = some r ∧ ∀ ev, r = some ev → Carries ev name msg

theorem length_le_textLength (ks : List CString) : ks.length ≤ textLength ks := by
  induction ks with
  | nil => exact le_refl _
  | cons k ks ih =>
    rw [List.length_cons, textLength_cons]
    omega

/-- **The block of `deps_add`.** If there is memory, the name, the pointers, the status bytes and
the keys are in disjoint regions of it, for any number of keys of less than `2 ^ 31` bytes with
their terminators. -/
theorem deps_add_layout (calloc : Calloc) (i : ℕ) (found : ℕ → CString → Bool) {name : CString}
    {keys : List CString} {n : ℤ} (msg : ℤ) (hkeys : n ≤ keys.length)
    (hname : name.length < 2 ^ 31) (htext : textLength (keys.take n.toNat) < 2 ^ 31) :
    (deps_add calloc i found name keys n msg = some none ∧ calloc.addr i (blockSize
        (int name.length) (max n 0) (sumLengths 0 (keys.take n.toNat))) = none) ∨
      ∃ b, deps_add calloc i found name keys n msg = some (some b) ∧
        Laid calloc b name (lookedUp found 0 (keys.take n.toNat)) msg := by
  -- a number below zero is taken for zero
  have hclamp : (if n < 0 then 0 else n) = max n 0 := by
    split <;> omega
  have htoNat : (max n 0).toNat = n.toNat := by omega
  rw [deps_add, hclamp, htoNat]
  have hlen : (keys.take n.toNat).length = n.toNat :=
    List.length_take_of_le (by omega)
  have hmax : max n 0 = ((keys.take n.toNat).length : ℤ) := by omega
  rw [hmax]
  generalize keys.take n.toNat = ks at htext
  -- neither the length of the name nor the sum of the lengths overflows an `int`
  have hint : int (name.length : ℤ) = name.length := int_eq (by omega) (by omega)
  have hslen : sumLengths 0 ks = textLength ks := by
    have h0 := sumLengths_eq ks (show 0 + textLength ks < 2 ^ 31 by omega)
    rw [Nat.zero_add] at h0
    exact h0
  rw [hint, hslen]
  cases haddr : calloc.addr i (blockSize name.length ks.length (textLength ks)) with
  | none => exact .inl ⟨by rw [Calloc.alloc, haddr]; rfl, rfl⟩
  -- the size does not overflow, for it has been allocated
  | some a =>
    obtain ⟨hle, hspace⟩ := calloc.le_max i _ a haddr
    have hcount := length_le_textLength ks
    have hn := succ_lt_of_blockSize hname (by omega) htext hle
    have hsize := blockSize_eq hname hn htext
    generalize blockSize name.length ks.length (textLength ks) = size at *
    obtain ⟨b, hfill, hentry⟩ := fillBlock_entry found msg (b := ⟨a, size, fun _ => 0⟩) hname hn
      htext (fun _ => rfl) hsize hspace
    obtain ⟨hdisjoint, hinside⟩ := regions_spec name.length ks
    -- the regions depend on the keys only
    have hfst := map_fst_lookedUp found 0 ks
    refine .inr ⟨b, ?_, ?_, ?_, ?_⟩
    · rw [Calloc.alloc, haddr]
      show (fillBlock found name ks ks.length msg _).map some = _
      rw [hfill]
      rfl
    · rw [hfst]
      exact hdisjoint
    · intro r hr
      rw [hfst] at hr
      rw [hentry.size, hfst, length_lookedUp]
      exact hinside r hr
    -- the marks that come later keep what has been laid out
    · intro marks
      obtain ⟨b', hrun, h'⟩ := hentry.markAll marks
      exact ⟨b', hrun, h', fun j => h'.message calloc j⟩

/-- A `calloc` with the same address for everything that can be asked for. -/
def Calloc.plenty : Calloc where
  addr _ n := if n ≤ PTRDIFF_MAX then some 4096 else none
  le_max i n a h := by
    rw [Option.ite_none_right_eq_some] at h
    obtain ⟨hle, ha⟩ := h
    have hbase : 4096 = a := Option.some.inj ha
    have hmax : PTRDIFF_MAX < 2 ^ 63 := by decide
    exact ⟨hle, by omega⟩

/-- A request for three keys, of which one is empty and another comes twice and is in the store
only when it is looked up for the second time. -/
theorem deps_add_layout_again :
    let keys := [cstr [97], cstr [], cstr [97]]
    let found := fun i _ => decide (i = 2)
    (deps_add .plenty 0 found (cstr [65]) keys 3 7 = some none ∧ Calloc.plenty.addr 0 (blockSize
        (int (cstr [65]).length) (max 3 0) (sumLengths 0 (keys.take (Int.toNat 3)))) = none) ∨
      ∃ b, deps_add .plenty 0 found (cstr [65]) keys 3 7 = some (some b) ∧
        Laid .plenty b (cstr [65]) (lookedUp found 0 (keys.take (Int.toNat 3))) 7 := by
  intro keys found
  exact deps_add_layout .plenty 0 found 7 (by decide) (by decide) (by decide)

end Layout
end Deps
end Osrv
