import Mathlib.Algebra.Order.BigOperators.Group.List
import Osrv.Sfs.Store

/-!
# Serialising into memory

`mem_store.c` is the sink that collects the records of `sfs_store` in buffers. A
record that does not fit fills the last buffer and goes on in a new one, which
`malloc` provides, holding anything. At the end `collapse_buf` copies the buffers
into a raw vector.

The buffers always hold what has been stored (`Holds`). But `collapse_buf` copies
each of them to the start of the vector, so the vector is right only as long as
there is one buffer.
-/

namespace Osrv
namespace Sfs
namespace MemStore

open Bytes

/-! ### The sink -/

/-- `lbuf_t` without its link -/
structure Lbuf where
  len : ℕ
  cap : ℕ
  d : Memory

/-- What the debugging output shows of a record. -/
structure Line where
  cptr : ℕ
  ts : SexpType
  len : ℕ
  el : ℕ
  /-- The first bytes of the payload, and whether there are more. -/
  start : List UInt8
  more : Bool
  text : Option (List UInt8)

/-- The buffers from `root` to `tail`. `full` are those before the tail. -/
structure Bufs where
  full : List Lbuf
  tail : Lbuf

/-- `struct store_api`, with what it has printed. -/
structure StoreApi extends Bufs where
  cptr : ℕ
  verb : Bool
  printed : List Line

def DEF_BUF_SIZE : ℕ := 1024 * 1024 * 64

def alloc_buf (d : Memory) (size : ℕ) : Lbuf := ⟨0, size, d⟩

/-- What a buffer holds. -/
def Lbuf.bytes (b : Lbuf) : List UInt8 := read b.d b.len

/-- `memcpy` behind what a buffer holds. It fails if this would go beyond its capacity. -/
def Lbuf.copy (b : Lbuf) (what : List UInt8) : Option Lbuf :=
  if b.len + what.length ≤ b.cap then
    some { b with d := write b.d b.len what, len := b.len + what.length }
  else none

/-- Fills the room that a buffer has left, if there is any. -/
def Lbuf.fill (b : Lbuf) (what : List UInt8) : Option Lbuf :=
  let in0 := b.cap - b.len
  if in0 ≠ 0 then b.copy (what.take in0) else some b

variable (malloc : ℕ → Memory)

/-- Stores bytes. `malloc` gives the memory for the buffers by their number. -/
def buf_add (api : Bufs) (what : List UInt8) : Option Bufs :=
  if api.tail.cap - api.tail.len < what.length then do
    let in0 := api.tail.cap - api.tail.len
    let tail ← api.tail.fill what
    let next := alloc_buf (malloc (api.full.length + 1))
      (if what.length > DEF_BUF_SIZE then what.length + DEF_BUF_SIZE else DEF_BUF_SIZE)
    let next ← next.copy (what.drop in0)
    some ⟨api.full ++ [tail], next⟩
  else do
    let tail ← api.tail.copy what
    some ⟨api.full, tail⟩

/-- The debugging output for a record, of which at most 17 bytes are shown. -/
def line (cptr : ℕ) (r : Record) : Line where
  cptr := cptr
  ts := r.ts
  len := r.len
  el := r.el
  start := r.payload.take 17
  more := r.buf.isSome && 17 < r.payload.length
  text := if r.ts = .CHARSXP ∨ r.ts = .SYMSXP then r.buf.map fun b => (cstr b).bytes
    else none

/-- The callback: the header, and the payload if there is one. -/
def add_buf (api : StoreApi) (r : Record) : Option StoreApi := do
  let bufs ← buf_add malloc api.toBufs (le 8 r.hdr)
  let printed := if api.verb then api.printed ++ [line api.cptr r] else api.printed
  match r.buf with
  | some _ => do
    let bufs ← buf_add malloc bufs r.payload
    some ⟨bufs, api.cptr + 8 + r.payload.length, api.verb, printed⟩
  | none => some ⟨bufs, api.cptr + 8, api.verb, printed⟩

/-- The copying loop. The destination stays the start of the vector. -/
def copyBufs (dst : Memory) (bufs : List Lbuf) : Memory :=
  bufs.foldl (fun dst c => write dst 0 c.bytes) dst

/-- The buffers as a raw vector. `res` is what the memory of the vector holds at first. -/
def collapse_buf (res : Memory) (bufs : List Lbuf) : List UInt8 :=
  read (copyBufs res bufs) (bufs.map Lbuf.len).sum

/-- The sink at the start. -/
def StoreApi.start (verb : Bool) : StoreApi :=
  ⟨⟨[], alloc_buf (malloc 0) DEF_BUF_SIZE⟩, 0, verb, []⟩

/-- Stores records one after the other, from the buffer that is there at the start. -/
def store_all (verb : Bool) (rs : List Record) : Option StoreApi :=
  rs.foldlM (add_buf malloc) (StoreApi.start malloc verb)

/-- The raw vector made of a list of records. -/
def mem_store (res : Memory) (verb : Bool) (rs : List Record) : Option (List UInt8) := do
  let api ← store_all malloc verb rs
  some (collapse_buf res (api.full ++ [api.tail]))

/-- A value as a raw vector. -/
def C_mem_store (res : Memory) (sWhat : SEXP) (sVerb : Bool) : Option (List UInt8) :=
  mem_store malloc res sVerb (store sWhat)

/-! ### What the buffers hold -/

/-- **The invariant**: the buffers hold the bytes `bs`. -/
structure Holds (api : Bufs) (bs : List UInt8) : Prop where
  bytes : (api.full ++ [api.tail]).flatMap Lbuf.bytes = bs
  fits : api.tail.len ≤ api.tail.cap
  cap : DEF_BUF_SIZE ≤ api.tail.cap
  /-- The first buffer is the one allocated at the start. -/
  first : api.full = [] → api.tail.cap = DEF_BUF_SIZE
  /-- All buffers before the tail are full. -/
  full : ∀ b ∈ api.full, DEF_BUF_SIZE ≤ b.len
  /-- A new buffer is not left empty. -/
  next : api.full ≠ [] → 0 < api.tail.len

theorem Holds.start (verb : Bool) : Holds (StoreApi.start malloc verb).toBufs [] where
  bytes := rfl
  fits := Nat.zero_le _
  cap := le_refl _
  first _ := rfl
  full _ h := by cases h
  next h := absurd rfl h

/-- What copying does. -/
theorem Lbuf.copy_spec (b : Lbuf) (what : List UInt8) (h : b.len + what.length ≤ b.cap) :
    ∃ b', b.copy what = some b' ∧ b'.bytes = b.bytes ++ what ∧
      b'.len = b.len + what.length ∧ b'.cap = b.cap := by
  refine ⟨_, if_pos h, ?_, rfl, rfl⟩
  exact read_write b.d b.len what

/-- What filling does. -/
theorem Lbuf.fill_spec {b : Lbuf} {what : List UInt8} (hfits : b.len ≤ b.cap)
    (h : b.cap - b.len < what.length) :
    ∃ b', b.fill what = some b' ∧ b'.bytes = b.bytes ++ what.take (b.cap - b.len) ∧
      b'.len = b.cap := by
  have htake : (what.take (b.cap - b.len)).length = b.cap - b.len := by
    rw [List.length_take]
    omega
  rw [Lbuf.fill]
  by_cases hroom : b.cap - b.len = 0
  · rw [if_neg (not_not.mpr hroom), hroom, List.take_zero, List.append_nil]
    exact ⟨b, rfl, rfl, by omega⟩
  · rw [if_pos hroom]
    obtain ⟨b', hcopy, hbytes, hlen, -⟩ :=
      b.copy_spec (what.take (b.cap - b.len)) (by omega)
    exact ⟨b', hcopy, hbytes, by omega⟩

/-- The buffer for what did not fit. -/
theorem Lbuf.copy_alloc (d : Memory) {what : List UInt8} {n : ℕ} (hn : n ≤ what.length) :
    ∃ b, (alloc_buf d (if what.length > DEF_BUF_SIZE then what.length + DEF_BUF_SIZE
        else DEF_BUF_SIZE)).copy (what.drop n) = some b ∧ b.bytes = what.drop n ∧
      b.len = what.length - n ∧ b.len ≤ b.cap ∧ DEF_BUF_SIZE ≤ b.cap := by
  have hcap : what.length ≤ (if what.length > DEF_BUF_SIZE then what.length + DEF_BUF_SIZE
      else DEF_BUF_SIZE) ∧ DEF_BUF_SIZE ≤ if what.length > DEF_BUF_SIZE
        then what.length + DEF_BUF_SIZE else DEF_BUF_SIZE := by
    split <;> omega
  generalize (if what.length > DEF_BUF_SIZE then what.length + DEF_BUF_SIZE
    else DEF_BUF_SIZE) = cap at hcap
  have hdrop : (what.drop n).length = what.length - n := List.length_drop ..
  obtain ⟨b, hcopy, hbytes, hlen, hcap'⟩ :=
    (alloc_buf d cap).copy_spec (what.drop n) (by
      show 0 + (what.drop n).length ≤ cap
      omega)
  change b.len = 0 + _ at hlen
  change b.cap = cap at hcap'
  exact ⟨b, hcopy, hbytes, by omega, by omega, by omega⟩

section Add

variable {bs : List UInt8}

/-- **Bytes are stored** behind those that the buffers hold. -/
theorem Holds.buf_add {api : Bufs} (h : Holds api bs) (what : List UInt8) :
    ∃ api', buf_add malloc api what = some api' ∧ Holds api' (bs ++ what) := by
  have hbytes := h.bytes
  rw [List.flatMap_append, List.flatMap_singleton] at hbytes
  have hcap := h.cap
  by_cases hroom : api.tail.cap - api.tail.len < what.length
  · -- the tail is filled, and the rest goes into a new buffer
    obtain ⟨tail, htail, htailBytes, htailLen⟩ := Lbuf.fill_spec h.fits hroom
    obtain ⟨next, hnext, hnextBytes, hnextLen, hnextFits, hnextCap⟩ :=
      Lbuf.copy_alloc (malloc (api.full.length + 1)) hroom.le
    refine ⟨⟨api.full ++ [tail], next⟩, ?_, ?_, hnextFits, hnextCap,
      fun hnil => absurd hnil (by simp), fun b hb => ?_, fun _ => ?_⟩
    · rw [MemStore.buf_add, if_pos hroom]
      simp only [htail, hnext, Option.bind_eq_bind, Option.bind_some]
    · show (api.full ++ [tail] ++ [next]).flatMap Lbuf.bytes = bs ++ what
      rw [List.flatMap_append, List.flatMap_append, List.flatMap_singleton,
        List.flatMap_singleton, htailBytes, hnextBytes, ← hbytes, List.append_assoc,
        List.append_assoc, List.append_assoc, List.take_append_drop]
    · rcases List.mem_append.mp hb with hb | hb
      · exact h.full b hb
      · rw [List.mem_singleton.mp hb, htailLen]
        exact hcap
    · show 0 < next.len
      omega
  -- the bytes fit into the tail
  · have hfits := h.fits
    obtain ⟨tail, htail, htailBytes, htailLen, htailCap⟩ :=
      api.tail.copy_spec what (by omega)
    refine ⟨⟨api.full, tail⟩, ?_, ?_, ?_, ?_, fun hnil => ?_, h.full, fun hne => ?_⟩
    · rw [MemStore.buf_add, if_neg hroom]
      simp only [htail, Option.bind_eq_bind, Option.bind_some]
    · show (api.full ++ [tail]).flatMap Lbuf.bytes = bs ++ what
      rw [List.flatMap_append, List.flatMap_singleton, htailBytes, ← List.append_assoc, hbytes]
    · show tail.len ≤ tail.cap
      omega
    · show DEF_BUF_SIZE ≤ tail.cap
      omega
    · exact htailCap.trans (h.first hnil)
    · have hnext := h.next hne
      show 0 < tail.len
      omega

/-- **A record is stored** with its header. -/
theorem Holds.add_buf {api : StoreApi} (h : Holds api.toBufs bs) (r : Record) :
    ∃ api', add_buf malloc api r = some api' ∧ Holds api'.toBufs (bs ++ r.bytes) := by
  obtain ⟨bufs₁, hrun₁, h₁⟩ := h.buf_add malloc (le 8 r.hdr)
  cases hbuf : r.buf with
  | none =>
    refine ⟨⟨bufs₁, api.cptr + 8, api.verb,
      if api.verb then api.printed ++ [line api.cptr r] else api.printed⟩, ?_, ?_⟩
    · simp only [MemStore.add_buf, hrun₁, hbuf, Option.bind_eq_bind, Option.bind_some]
    · have hbytes : r.bytes = le 8 r.hdr := by
        rw [Record.bytes, Record.payload, hbuf, List.append_nil]
      rw [hbytes]
      exact h₁
  | some b =>
    obtain ⟨bufs₂, hrun₂, h₂⟩ := h₁.buf_add malloc r.payload
    refine ⟨⟨bufs₂, api.cptr + 8 + r.payload.length, api.verb,
      if api.verb then api.printed ++ [line api.cptr r] else api.printed⟩, ?_, ?_⟩
    · simp only [MemStore.add_buf, hrun₁, hrun₂, hbuf, Option.bind_eq_bind, Option.bind_some]
    · rw [Record.bytes, ← List.append_assoc]
      exact h₂

end Add

/-- **The buffers hold what has been stored**, and nothing is copied beyond a capacity. -/
theorem store_all_holds (verb : Bool) (rs : List Record) :
    ∃ api, store_all malloc verb rs = some api ∧ Holds api.toBufs (wire rs) := by
  suffices h : ∀ (api : StoreApi) bs, Holds api.toBufs bs →
      ∃ api', rs.foldlM (add_buf malloc) api = some api' ∧ Holds api'.toBufs (bs ++ wire rs) from
    h _ [] (Holds.start malloc verb)
  induction rs with
  | nil =>
    intro api bs h
    exact ⟨api, rfl, by rwa [wire_nil, List.append_nil]⟩
  | cons r rs ih =>
    intro api bs h
    obtain ⟨api₁, hrun₁, h₁⟩ := h.add_buf malloc r
    obtain ⟨api', hrun, h'⟩ := ih api₁ _ h₁
    refine ⟨api', ?_, by rwa [wire_cons, ← List.append_assoc]⟩
    rw [List.foldlM_cons, hrun₁]
    exact hrun

/-! ### The debugging output -/

/-- What a record does to the buffers does not depend on the rest. -/
theorem add_buf_toBufs {api api' : StoreApi} (h : api.toBufs = api'.toBufs) (r : Record) :
    (add_buf malloc api r).map StoreApi.toBufs = (add_buf malloc api' r).map StoreApi.toBufs := by
  rw [add_buf, add_buf, h]
  cases buf_add malloc api'.toBufs (le 8 r.hdr) with
  | none => rfl
  | some bufs =>
    simp only [Option.bind_eq_bind, Option.bind_some]
    cases r.buf with
    | none => rfl
    | some b =>
      show ((buf_add malloc bufs r.payload).bind _).map _
        = ((buf_add malloc bufs r.payload).bind _).map _
      cases buf_add malloc bufs r.payload <;> rfl

/-- **The debugging output** changes no buffer. -/
theorem store_all_verb (verb verb' : Bool) (rs : List Record) :
    (store_all malloc verb rs).map StoreApi.toBufs
      = (store_all malloc verb' rs).map StoreApi.toBufs := by
  suffices h : ∀ api api' : StoreApi, api.toBufs = api'.toBufs →
      (rs.foldlM (add_buf malloc) api).map StoreApi.toBufs
        = (rs.foldlM (add_buf malloc) api').map StoreApi.toBufs from h _ _ rfl
  induction rs with
  | nil =>
    intro api api' h
    exact congrArg some h
  | cons r rs ih =>
    intro api api' h
    have hadd := add_buf_toBufs malloc h r
    rw [List.foldlM_cons, List.foldlM_cons]
    cases h₁ : add_buf malloc api r with
    | none =>
      cases h₂ : add_buf malloc api' r with
      | none => rfl
      | some api₂ =>
        rw [h₁, h₂] at hadd
        cases hadd
    | some api₁ =>
      cases h₂ : add_buf malloc api' r with
      | none =>
        rw [h₁, h₂] at hadd
        cases hadd
      | some api₂ =>
        rw [h₁, h₂] at hadd
        exact ih api₁ api₂ (Option.some.inj hadd)

/-! ### The vector -/

/-- Behind the longest buffer the vector keeps what it held. -/
theorem copyBufs_behind (dst : Memory) {bufs : List Lbuf} {i : ℕ} (h : ∀ c ∈ bufs, c.len ≤ i) :
    copyBufs dst bufs i = dst i := by
  induction bufs generalizing dst with
  | nil => rfl
  | cons c bufs ih =>
    show copyBufs (write dst 0 c.bytes) bufs i = dst i
    rw [ih _ fun c' hc' => h c' (List.mem_cons_of_mem _ hc')]
    have hnone : c.bytes[i]? = none := List.getElem?_eq_none (by
      rw [Lbuf.bytes, length_read]
      exact h c (List.mem_cons_self ..))
    simp [write, hnone]

/-- The lengths add up to that of what the buffers hold. -/
theorem sum_len (bufs : List Lbuf) :
    (bufs.map Lbuf.len).sum = (bufs.flatMap Lbuf.bytes).length := by
  induction bufs with
  | nil => rfl
  | cons c bufs ih =>
    rw [List.map_cons, List.sum_cons, List.flatMap_cons, List.length_append, ih, Lbuf.bytes,
      length_read]

section Collapse

variable {api : Bufs} {bs : List UInt8}

/-- There is one buffer exactly as long as everything fits into it. -/
theorem Holds.full_eq_nil_iff (h : Holds api bs) :
    api.full = [] ↔ bs.length ≤ DEF_BUF_SIZE := by
  have hlength : ((api.full ++ [api.tail]).map Lbuf.len).sum = bs.length := by
    rw [sum_len, h.bytes]
  rw [List.map_append, List.sum_append] at hlength
  change _ + (api.tail.len + 0) = _ at hlength
  constructor
  · intro hnil
    have hfits := h.fits
    have hcap := h.first hnil
    rw [hnil] at hlength
    change 0 + (api.tail.len + 0) = _ at hlength
    omega
  · intro hle
    by_contra hne
    obtain ⟨b, rest, hfull⟩ := List.exists_cons_of_ne_nil hne
    have hb := h.full b (by rw [hfull]; exact List.mem_cons_self ..)
    have hnext := h.next hne
    rw [hfull, List.map_cons, List.sum_cons] at hlength
    omega

/-- **One buffer** is copied as it is. -/
theorem Holds.collapse_buf_one (h : Holds api bs) (hle : bs.length ≤ DEF_BUF_SIZE)
    (res : Memory) : collapse_buf res (api.full ++ [api.tail]) = bs := by
  have hbytes := h.bytes
  rw [(h.full_eq_nil_iff).mpr hle] at hbytes ⊢
  change api.tail.bytes ++ [] = bs at hbytes
  rw [List.append_nil] at hbytes
  show read (write res 0 api.tail.bytes) (api.tail.len + 0) = bs
  have hlen : api.tail.len + 0 = 0 + api.tail.bytes.length := by
    rw [Lbuf.bytes, length_read]
    omega
  rw [hlen, read_write, hbytes]
  rfl

/-- **Of several buffers** none reaches the end of the vector, which keeps its last byte. -/
theorem Holds.collapse_buf_last (h : Holds api bs) (hlt : DEF_BUF_SIZE < bs.length)
    (res : Memory) :
    (collapse_buf res (api.full ++ [api.tail])).getLast? = some (res (bs.length - 1)) := by
  have hne : api.full ≠ [] := fun hnil => by
    have hle := (h.full_eq_nil_iff).mp hnil
    omega
  have hlength : ((api.full ++ [api.tail]).map Lbuf.len).sum = bs.length := by
    rw [sum_len, h.bytes]
  -- each buffer is shorter than the vector
  have hshort : ∀ c ∈ api.full ++ [api.tail], c.len ≤ bs.length - 1 := by
    have hsum := hlength
    rw [List.map_append, List.sum_append] at hsum
    change _ + (api.tail.len + 0) = _ at hsum
    have hnext := h.next hne
    intro c hc
    rcases List.mem_append.mp hc with hc | hc
    · have hmem : c.len ≤ (api.full.map Lbuf.len).sum :=
        List.single_le_sum (fun _ _ => Nat.zero_le _) _ (List.mem_map_of_mem hc)
      omega
    · rw [List.mem_singleton.mp hc]
      obtain ⟨b, rest, hfull⟩ := List.exists_cons_of_ne_nil hne
      have hb := h.full b (by rw [hfull]; exact List.mem_cons_self ..)
      have hpos : 0 < DEF_BUF_SIZE := by decide
      rw [hfull, List.map_cons, List.sum_cons] at hsum
      omega
  obtain ⟨k, hk⟩ : ∃ k, bs.length = k + 1 := ⟨bs.length - 1, by omega⟩
  rw [collapse_buf, hlength, hk, Bytes.read, List.range_succ, List.map_append,
    List.map_singleton, List.getLast?_append_of_ne_nil _ (List.cons_ne_nil _ _)]
  show some (copyBufs res _ k) = some (res (k + 1 - 1))
  rw [copyBufs_behind res fun c hc => by have := hshort c hc; omega]
  rfl

end Collapse

/-- The vector of records that do not fit the first buffer ends with a byte of its own. -/
theorem mem_store_last {rs : List Record} (hlt : DEF_BUF_SIZE < (wire rs).length) (res : Memory)
    (verb : Bool) : ∃ bs, mem_store malloc res verb rs = some bs ∧
      bs.getLast? = some (res ((wire rs).length - 1)) := by
  obtain ⟨api, hrun, hholds⟩ := store_all_holds malloc verb rs
  refine ⟨collapse_buf res (api.full ++ [api.tail]), ?_, hholds.collapse_buf_last hlt res⟩
  simp only [mem_store, hrun, Option.bind_eq_bind, Option.bind_some]

/-- **The vector is what has been stored** exactly as long as it fits the first buffer. Nothing
is ever copied beyond a capacity, and the debugging output makes no difference. -/
theorem mem_store_iff (rs : List Record) :
    (∀ malloc res verb, mem_store malloc res verb rs ≠ none ∧
      mem_store malloc res verb rs = mem_store malloc res false rs) ∧
    ((∀ malloc res verb, mem_store malloc res verb rs = some (wire rs)) ↔
      (wire rs).length ≤ DEF_BUF_SIZE) := by
  refine ⟨fun malloc res verb => ?_, fun hall => ?_, fun hle malloc res verb => ?_⟩
  · obtain ⟨api, hrun, -⟩ := store_all_holds malloc verb rs
    obtain ⟨api', hrun', -⟩ := store_all_holds malloc false rs
    have hverb := store_all_verb malloc verb false rs
    rw [hrun, hrun'] at hverb
    have hbufs : api.toBufs = api'.toBufs := Option.some.inj hverb
    simp only [mem_store, hrun, hrun', hbufs, Option.bind_eq_bind, Option.bind_some]
    exact ⟨Option.some_ne_none _, trivial⟩
  · by_contra hlt
    -- memory that does not hold the last byte already
    obtain ⟨bs, b, hsplit⟩ : ∃ bs b, wire rs = bs ++ [b] := by
      rcases List.eq_nil_or_concat (wire rs) with hnil | ⟨bs, b, hsplit⟩
      · rw [hnil] at hlt
        exact absurd (Nat.zero_le _) hlt
      · exact ⟨bs, b, by rw [hsplit, List.concat_eq_append]⟩
    obtain ⟨bs', hrun, hlast⟩ :=
      mem_store_last (fun _ _ => 0) (not_le.mp hlt) (fun _ => b + 1) false
    rw [hall] at hrun
    obtain rfl := Option.some.inj hrun
    rw [hsplit, List.getLast?_append_of_ne_nil _ (List.cons_ne_nil _ _)] at hlast
    exact absurd (Option.some.inj hlast) (by simp)
  · obtain ⟨api, hrun, hholds⟩ := store_all_holds malloc verb rs
    simp only [mem_store, hrun, Option.bind_eq_bind, Option.bind_some]
    rw [hholds.collapse_buf_one hle]

/-- The record of a raw vector of 64 MB. -/
def bigRaw : Record := ⟨.RAWSXP, 1, DEF_BUF_SIZE, some (List.replicate DEF_BUF_SIZE 1)⟩

/-- The raw vector made of it ends with a byte that `allocVector` left there. -/
theorem bigRaw_corrupted :
    mem_store (fun _ _ => 0) (fun _ => 0) false [bigRaw] ≠ some (wire [bigRaw]) := by
  have hpayload : bigRaw.payload = List.replicate DEF_BUF_SIZE 1 := by
    show (List.replicate DEF_BUF_SIZE 1).take (DEF_BUF_SIZE * 1 % 2 ^ 64) = _
    rw [List.take_replicate]
    rfl
  have hwire : wire [bigRaw] = le 8 bigRaw.hdr ++ List.replicate DEF_BUF_SIZE 1 := by
    rw [wire_cons, wire_nil, List.append_nil, Record.bytes, hpayload]
  have hlt : DEF_BUF_SIZE < (wire [bigRaw]).length := by
    rw [hwire, List.length_append, length_le, List.length_replicate]
    omega
  obtain ⟨bs, hrun, hlast⟩ := mem_store_last (fun _ _ => 0) hlt (fun _ => 0) false
  rw [hrun]
  intro heq
  obtain rfl := Option.some.inj heq
  have hne : List.replicate DEF_BUF_SIZE (1 : UInt8) ≠ [] := by
    rw [ne_eq, List.replicate_eq_nil_iff]
    decide
  rw [hwire, List.getLast?_append_of_ne_nil _ hne, List.getLast?_replicate,
    if_neg (by decide)] at hlast
  exact absurd hlast (by decide)

end MemStore
end Sfs
end Osrv
