import Osrv.Http.Input
import Osrv.Lib.Links

/-!
# Collecting the header buffers

The chain of `struct buffer` nodes in memory, and `alloc_buffer` and
`collect_buffers` of `http.c` on it. `Chain` in the model of the connection is what
such a chain holds (`collect_buffers_refines`).

`collect_buffers` finds the root by the links to the previous buffer and copies
by the links to the next one, but it copies to the data of the root itself. Nothing
is written to the result, whose bytes are those that the memory held
(`collect_buffers_eq`), and the result is right only if there is nothing to copy.
-/

namespace Osrv
namespace Http
namespace Collect

open Bytes Links

/-! ### The buffers -/

/-- A `struct buffer` without its links. The data are an area of the node. -/
structure HeaderBuffer where
  size : ℕ
  length : ℕ
  data : Memory

/-- What a buffer holds. -/
def HeaderBuffer.bytes (b : HeaderBuffer) : List UInt8 := read b.data b.length

/-- The size of the area. The data start eight bytes before the end of the structure. -/
def HeaderBuffer.room (b : HeaderBuffer) : ℕ := b.size + 8

/-- Puts a new buffer behind `parent`. `data` is the memory, if there is any. -/
def alloc_buffer (data : Option Memory) (a : Addr) (size : ℕ) (parent : Ptr)
    (m : Mem HeaderBuffer) : Option (Ptr × Mem HeaderBuffer) :=
  match data with
  | none => some (none, m)
  | some data => do
    let m ← relinkNext (Function.update m a (some ⟨⟨size, 0, data⟩, none, parent⟩)) parent (some a)
    some (some a, m)

/-- `memcpy` to the data of a buffer, from offset `i` on. -/
def copyTo (a : Addr) (i : ℕ) (bs : List UInt8) (m : Mem HeaderBuffer) :
    Option (Mem HeaderBuffer) := do
  let b ← m a
  if i + bs.length ≤ b.val.room then
    some (Function.update m a (some ⟨{ b.val with data := write b.val.data i bs }, b.next, b.prev⟩))
  else none

/-- The loop that finds the root and adds up the lengths of all other buffers. -/
def findRoot (m : Mem HeaderBuffer) : ℕ → Addr → ℕ → Option (Addr × ℕ)
  | 0, _, _ => none
  | n + 1, buf, len => do
    let b ← m buf
    match b.prev with
    | some prev => findRoot m n prev (len + b.val.length)
    | none => some (buf, len)

/-- The loop that copies, to offset `i` of the data of `dst`. -/
def copyLoop (dst : Addr) : ℕ → Ptr → ℕ → Mem HeaderBuffer → Option (Mem HeaderBuffer)
  | _, none, _, m => some m
  | 0, some _, _, _ => none
  | n + 1, some buf, i, m => do
    let b ← m buf
    let m ← copyTo dst i b.val.bytes m
    let b ← m buf
    copyLoop dst n b.next (i + b.val.length) m

/-- The buffers as one vector. Either loop is run for at most `n` buffers. -/
def collect_buffers (alloc : ℕ → Option Memory) (n : ℕ) (buf : Ptr) (m : Mem HeaderBuffer) :
    Option (Option Raw × Mem HeaderBuffer) :=
  match buf with
  | none => some (none, m)
  | some buf => do
    let (root, len) ← findRoot m n buf 0
    let b ← m root
    match alloc (sizeof_raw + (len + b.val.length)) with
    | none => some (none, m)
    | some mem =>
      -- the destination is the data of the root
      let m ← copyLoop root n (some root) 0 m
      some (some ⟨len + b.val.length, fun i => mem (i + 8)⟩, m)

/-! ### Chains -/

/-- What the buffers of a chain hold together. -/
def concat (xs : List (Addr × HeaderBuffer)) : List UInt8 := xs.flatMap fun x => x.2.bytes

/-- The sum of the lengths. -/
def total (xs : List (Addr × HeaderBuffer)) : ℕ := (xs.map fun x => x.2.length).sum

/-- **A chain** of buffers, from the root to the tail. -/
structure IsChain (m : Mem HeaderBuffer) (tail : Addr) (xs : List (Addr × HeaderBuffer)) :
    Prop where
  links : ∃ root, Seg m none root xs (some tail) none
  nodup : (addrs xs).Nodup
  fits : ∀ x ∈ xs, x.2.length ≤ x.2.size

@[simp] theorem total_cons (x : Addr × HeaderBuffer) (xs : List (Addr × HeaderBuffer)) :
    total (x :: xs) = x.2.length + total xs := rfl

theorem concat_cons (x : Addr × HeaderBuffer) (xs : List (Addr × HeaderBuffer)) :
    concat (x :: xs) = x.2.bytes ++ concat xs := rfl

@[simp] theorem length_bytes (b : HeaderBuffer) : b.bytes.length = b.length := length_read ..

@[simp] theorem length_concat (xs : List (Addr × HeaderBuffer)) :
    (concat xs).length = total xs := by
  induction xs with
  | nil => rfl
  | cons x xs ih => rw [concat_cons, List.length_append, ih, length_bytes, total_cons]

variable {m : Mem HeaderBuffer} {xs : List (Addr × HeaderBuffer)}

/-- The first buffer. -/
theorem alloc_buffer_root {a : Addr} {size : ℕ} {data : Memory} :
    ∃ m', alloc_buffer (some data) a size none m = some (some a, m') ∧
      IsChain m' a [(a, ⟨size, 0, data⟩)] := by
  refine ⟨_, rfl, ⟨some a, rfl, none, Function.update_self .., rfl, rfl⟩,
    List.nodup_singleton a, fun x hx => ?_⟩
  rw [List.mem_singleton.mp hx]
  exact Nat.zero_le _

/-- **A new buffer** extends the chain. -/
theorem IsChain.alloc_buffer {tail a : Addr} (h : IsChain m tail xs) (ha : m a = none)
    (size : ℕ) (data : Memory) :
    ∃ m', alloc_buffer (some data) a size (some tail) m = some (some a, m') ∧
      IsChain m' a (xs ++ [(a, ⟨size, 0, data⟩)]) := by
  obtain ⟨root, hseg⟩ := h.links
  have hnot : a ∉ addrs xs := fun hmem => hseg.ne_none hmem ha
  -- the tail gets a link to the new buffer
  obtain ⟨ys, x, rfl⟩ : ∃ ys x, xs = ys ++ [x] := by
    rcases List.eq_nil_or_concat xs with rfl | ⟨ys, x, rfl⟩
    · exact absurd hseg.2 (Option.some_ne_none tail)
    · exact ⟨ys, x, List.concat_eq_append⟩
  obtain ⟨htail, prev, hx, -⟩ := Seg.snoc_iff.mp hseg
  obtain rfl : tail = x.1 := Option.some.inj htail
  have hxa : x.1 ≠ a := fun heq => hnot (by simp [addrs, heq])
  let m₀ : Mem HeaderBuffer := Function.update m a (some ⟨⟨size, 0, data⟩, none, some x.1⟩)
  have hx₀ : m₀ x.1 = some ⟨x.2, none, prev⟩ := (Function.update_of_ne hxa ..).trans hx
  obtain ⟨m', hrun, hx', hframe⟩ := setNext_spec hx₀ (some a)
  have hseg₀ : Seg m₀ none root (ys ++ [x]) (some x.1) none := hseg.update hnot
  refine ⟨m', ?_, ⟨root, Seg.snoc_iff.mpr ⟨rfl, some x.1, ?_, ?_⟩⟩, ?_, fun y hy => ?_⟩
  · show (setNext m₀ x.1 (some a)).bind _ = _
    rw [hrun, Option.bind_some]
  · rw [hframe a hxa.symm]
    exact Function.update_self ..
  · refine hseg₀.relink_last hx₀ hx' fun b hb => hframe b ?_
    have hnd := h.nodup
    rw [addrs, List.map_append, List.nodup_append] at hnd
    exact fun heq => hnd.2.2 b hb x.1 (by simp) heq
  · rw [addrs, List.map_append, List.nodup_append]
    refine ⟨h.nodup, List.nodup_singleton a, fun b hb c hc => ?_⟩
    rw [List.mem_singleton.mp hc]
    exact ne_of_mem_of_not_mem hb hnot
  · rcases List.mem_append.mp hy with hy | hy
    · exact h.fits y hy
    · rw [List.mem_singleton.mp hy]
      exact Nat.zero_le _

/-! ### The loops -/

/-- The first loop ends at the root, with the lengths of all other buffers. -/
theorem findRoot_eq {x : Addr × HeaderBuffer} {p : Ptr} {tail : Addr} {q : Ptr} {n len : ℕ}
    (h : Seg m none p (x :: xs) (some tail) q) (hn : (x :: xs).length ≤ n) :
    findRoot m n tail len = some (x.1, len + total xs) := by
  induction xs using List.reverseRecOn generalizing tail q n len with
  | nil =>
    obtain ⟨-, next, hx, -, htail⟩ := h
    obtain rfl : tail = x.1 := Option.some.inj htail
    obtain ⟨n, rfl⟩ : ∃ k, n = k + 1 := ⟨n - 1, by simp at hn; omega⟩
    rw [findRoot, hx]
    rfl
  | append_singleton ys y ih =>
    rw [← List.cons_append] at h
    obtain ⟨htail, prev, hy, hrest⟩ := Seg.snoc_iff.mp h
    obtain rfl : tail = y.1 := Option.some.inj htail
    obtain ⟨n, rfl⟩ : ∃ k, n = k + 1 := ⟨n - 1, by simp at hn; omega⟩
    -- the buffer in front of it
    obtain ⟨before, rfl⟩ : ∃ before, prev = some before := by
      rw [hrest.ends.2]
      cases hlast : (addrs (x :: ys)).getLast? with
      | none => simp at hlast
      | some before => exact ⟨before, rfl⟩
    have hlen : (x :: ys).length ≤ n := by
      simp only [List.length_cons, List.length_append, List.length_nil] at hn ⊢
      omega
    have htotal : total (ys ++ [y]) = total ys + y.2.length := by
      simp [total]
    rw [findRoot, hy, htotal]
    show findRoot m n before (len + y.2.length) = _
    rw [ih hrest hlen, Nat.add_assoc, Nat.add_comm y.2.length]

/-- **The copying loop** puts all that the buffers hold behind what it has copied already, if
there is room at the destination. -/
theorem copyLoop_eq {dst : Addr} {v : HeaderBuffer} {next prev b p l : Ptr} {n i : ℕ}
    (h : Seg m b p xs l none) (hdst : m dst = some ⟨v, next, prev⟩) (hnot : dst ∉ addrs xs)
    (hn : xs.length ≤ n) (hi : i ≤ v.room) :
    copyLoop dst n p i m = if i + total xs ≤ v.room then
      some (Function.update m dst
        (some ⟨{ v with data := write v.data i (concat xs) }, next, prev⟩))
      else none := by
  induction xs generalizing m v b p n i with
  | nil =>
    obtain ⟨rfl, -⟩ := h
    have hnil : write v.data i (concat []) = v.data := write_nil ..
    rw [hnil, if_pos (by simpa [total] using hi), ← hdst, Function.update_eq_self]
    cases n <;> rfl
  | cons x xs ih =>
    obtain ⟨rfl, next', hx, hrest⟩ := h
    obtain ⟨hne, hnot⟩ : dst ≠ x.1 ∧ dst ∉ addrs xs := by
      rw [addrs, List.map_cons, List.mem_cons, not_or] at hnot
      exact hnot
    obtain ⟨n, rfl⟩ : ∃ k, n = k + 1 := ⟨n - 1, by simp at hn; omega⟩
    rw [copyLoop, hx]
    show (copyTo dst i x.2.bytes m).bind _ = _
    rw [copyTo, hdst]
    show (if i + x.2.bytes.length ≤ v.room then _ else none).bind _ = _
    rw [length_bytes, total_cons]
    by_cases hroom : i + x.2.length ≤ v.room
    · rw [if_pos hroom, Option.bind_some, Function.update_of_ne hne.symm, hx]
      show copyLoop dst n next' (i + x.2.length) _ = _
      rw [ih (v := { v with data := write v.data i x.2.bytes }) (hrest.update hnot)
          (Function.update_self ..) hnot (by simpa using hn) hroom, Function.update_idem,
        concat_cons, ← write_append, length_bytes, Nat.add_assoc]
      rfl
    · rw [if_neg hroom, if_neg (by omega)]
      rfl

/-! ### The result -/

variable {tail : Addr} {n : ℕ}

/-- A chain has a root. -/
theorem IsChain.exists_cons (h : IsChain m tail xs) : ∃ x ys, xs = x :: ys := by
  obtain ⟨root, hseg⟩ := h.links
  cases xs with
  | nil => exact absurd hseg.2 (Option.some_ne_none tail)
  | cons x ys => exact ⟨x, ys, rfl⟩

/-- **What `collect_buffers` does.** The vector has the right length and the bytes that the
memory held, and all that the buffers hold is copied to the data of the root. It does not
fit there if it is longer than what the root has room for. -/
theorem collect_buffers_eq (alloc : ℕ → Option Memory) {x : Addr × HeaderBuffer}
    (h : IsChain m tail (x :: xs)) (hn : (x :: xs).length ≤ n) :
    ∃ next, m x.1 = some ⟨x.2, next, none⟩ ∧ collect_buffers alloc n (some tail) m =
      match alloc (sizeof_raw + total (x :: xs)) with
      | none => some (none, m)
      | some mem =>
        if total (x :: xs) ≤ x.2.room then
          some (some ⟨total (x :: xs), fun i => mem (i + 8)⟩, Function.update m x.1
            (some ⟨{ x.2 with data := write x.2.data x.2.length (concat xs) }, next, none⟩))
        else none := by
  obtain ⟨root, hseg⟩ := h.links
  obtain ⟨rfl, next, hx, hrest⟩ := Seg.cons_iff.mp hseg
  have hnot : x.1 ∉ addrs xs := (List.nodup_cons.mp h.nodup).1
  have hlength : x.2.length ≤ x.2.room := (h.fits x (List.mem_cons_self ..)).trans (by
    rw [HeaderBuffer.room]
    omega)
  have htotal : 0 + total xs + x.2.length = total (x :: xs) := by
    rw [total_cons, Nat.zero_add, Nat.add_comm]
  refine ⟨next, hx, ?_⟩
  rw [collect_buffers, findRoot_eq hseg hn]
  show ((m x.1).bind fun b => _) = _
  rw [hx, Option.bind_some, htotal]
  cases alloc (sizeof_raw + total (x :: xs)) with
  | none => rfl
  | some mem =>
    -- the data of the root are copied onto themselves
    have hself : copyTo x.1 0 x.2.bytes m = some m := by
      have hroom : 0 + x.2.bytes.length ≤ x.2.room := by
        rwa [Nat.zero_add, length_bytes]
      rw [copyTo, hx]
      show (if 0 + x.2.bytes.length ≤ x.2.room then _ else none) = _
      rw [if_pos hroom, HeaderBuffer.bytes, write_read, ← hx, Function.update_eq_self]
    obtain ⟨n, rfl⟩ : ∃ k, n = k + 1 := ⟨n - 1, by simp at hn; omega⟩
    have hloop : copyLoop x.1 (n + 1) (some x.1) 0 m = copyLoop x.1 n next x.2.length m := by
      rw [copyLoop, hx]
      show (copyTo x.1 0 x.2.bytes m).bind _ = _
      rw [hself, Option.bind_some, hx]
      show copyLoop x.1 n next (0 + x.2.length) m = _
      rw [Nat.zero_add]
    show (copyLoop x.1 (n + 1) (some x.1) 0 m).bind _ = _
    rw [hloop, copyLoop_eq hrest hx hnot (by simpa using hn) hlength, total_cons]
    split <;> rfl

/-- **Refinement.** The model of the connection has the same result, and it notes when the copy
leaves the root. -/
theorem collect_buffers_refines {σ : Type} {malloc : Malloc} {c : Connection σ}
    (h : IsChain m tail xs) (hn : xs.length ≤ n)
    (hc : c.headers = xs.map fun x => ⟨x.2.size, x.2.bytes⟩) :
    (collect_buffers (malloc.alloc c.log.length) n (some tail) m).map Prod.fst =
      if (Http.collect_buffers malloc c).2 then none
      else some (Http.collect_buffers malloc c).1 := by
  obtain ⟨x, ys, rfl⟩ := h.exists_cons
  obtain ⟨next, -, heq⟩ := collect_buffers_eq (malloc.alloc c.log.length) h hn
  have hlength : c.headers.bytes.length = total (x :: ys) := by
    have hbytes : c.headers.bytes = concat (x :: ys) := by
      rw [hc, Chain.bytes, List.flatMap_map]
      rfl
    rw [hbytes, length_concat]
  rw [List.map_cons] at hc
  rw [heq, Http.collect_buffers, hlength, hc]
  cases malloc.alloc c.log.length (sizeof_raw + total (x :: ys)) with
  | none => rfl
  | some mem =>
    show Option.map Prod.fst (if total (x :: ys) ≤ x.2.room then _ else none) =
      if decide (x.2.size + 8 < total (x :: ys)) = true then none else _
    rw [HeaderBuffer.room]
    by_cases hroom : total (x :: ys) ≤ x.2.size + 8
    · rw [if_pos hroom, if_neg (by simpa only [decide_eq_true_eq, not_lt] using hroom)]
      rfl
    · rw [if_neg hroom, if_pos (by simpa only [decide_eq_true_eq, not_le] using hroom)]
      rfl

/-- What it should do: a vector of what the buffers hold, and no buffer changed. -/
def Concatenates (alloc : ℕ → Option Memory) (n : ℕ) (m : Mem HeaderBuffer) (tail : Addr)
    (xs : List (Addr × HeaderBuffer)) : Prop :=
  ∃ res m', collect_buffers alloc n (some tail) m = some (some res, m') ∧
    res.length = total xs ∧ read res.data res.length = concat xs ∧ ∀ x ∈ xs, m' x.1 = m x.1

/-- **Nothing is collected.** Whenever there is memory, the buffers are concatenated exactly
if all of them are empty. -/
theorem concatenates_iff (h : IsChain m tail xs) (hn : xs.length ≤ n) :
    (∀ alloc, alloc (sizeof_raw + total xs) ≠ none → Concatenates alloc n m tail xs) ↔
      total xs = 0 := by
  obtain ⟨x, ys, rfl⟩ := h.exists_cons
  constructor
  · intro hall
    by_contra hne
    -- memory that does not hold the first byte already
    obtain ⟨b, bs, hconcat⟩ : ∃ b bs, concat (x :: ys) = b :: bs := by
      refine List.exists_cons_of_length_pos ?_
      rw [length_concat]
      exact Nat.pos_of_ne_zero hne
    obtain ⟨res, m', hrun, hlength, hread, -⟩ :=
      hall (fun _ => some fun _ => b + 1) (Option.some_ne_none _)
    obtain ⟨next, -, heq⟩ := collect_buffers_eq (fun _ => some fun _ => b + 1) h hn
    rw [heq] at hrun
    change (if total (x :: ys) ≤ x.2.room then _ else none) = _ at hrun
    split at hrun
    · obtain ⟨hres, -⟩ := Prod.mk.inj (Option.some.inj hrun)
      obtain rfl := Option.some.inj hres
      -- the first byte of the result is that of the memory
      obtain ⟨k, hk⟩ : ∃ k, total (x :: ys) = k + 1 := ⟨total (x :: ys) - 1, by omega⟩
      change read (fun _ => b + 1) (total (x :: ys)) = _ at hread
      rw [hk, hconcat, Bytes.read, List.range_succ_eq_map, List.map_cons] at hread
      exact absurd (List.cons.inj hread).1 (by simp)
    · cases hrun
  · intro hzero alloc halloc
    obtain ⟨mem, hmem⟩ := Option.ne_none_iff_exists'.mp halloc
    obtain ⟨next, hx, heq⟩ := collect_buffers_eq alloc h hn
    have hnil : concat ys = [] := by
      rw [← List.length_eq_zero_iff, length_concat]
      rw [total_cons] at hzero
      omega
    rw [hmem] at heq
    change _ = if total (x :: ys) ≤ x.2.room then _ else none at heq
    rw [if_pos (by omega), hnil, write_nil, ← hx, Function.update_eq_self] at heq
    refine ⟨_, m, heq, rfl, ?_, fun _ _ => rfl⟩
    show read _ (total (x :: ys)) = _
    rw [hzero, read_zero, concat_cons, hnil, List.append_nil]
    symm
    rw [← List.length_eq_zero_iff, length_bytes]
    rw [total_cons] at hzero
    omega

/-- The root of a chain in which a header line has been recorded. -/
def hostBuffer : HeaderBuffer := ⟨1024, 8, write (fun _ => 0) 0 (ascii "Host: x\n")⟩

def hostMem : Mem HeaderBuffer :=
  Function.update (fun _ => none) 7 (some ⟨hostBuffer, none, none⟩)

theorem isChain_host : IsChain hostMem 7 [(7, hostBuffer)] where
  links := ⟨some 7, rfl, none, Function.update_self .., rfl, rfl⟩
  nodup := List.nodup_singleton 7
  fits x hx := by
    rw [List.mem_singleton.mp hx]
    show 8 ≤ 1024
    omega

/-- The vector of this chain is what the memory held. -/
theorem host_not_collected : IsChain hostMem 7 [(7, hostBuffer)] ∧
    ¬ Concatenates (fun _ => some fun _ => 0) 1 hostMem 7 [(7, hostBuffer)] := by
  refine ⟨isChain_host, ?_⟩
  rintro ⟨res, m', hrun, -, hread, -⟩
  obtain ⟨next, -, heq⟩ :=
    collect_buffers_eq (fun _ => some fun _ => 0) isChain_host (le_refl 1)
  rw [heq] at hrun
  change (if total [(7, hostBuffer)] ≤ hostBuffer.room then _ else none) = _ at hrun
  rw [if_pos (by decide)] at hrun
  obtain ⟨hres, -⟩ := Prod.mk.inj (Option.some.inj hrun)
  obtain rfl := Option.some.inj hres
  exact absurd hread (by decide)

theorem concatenates_iff_host :
    (∀ alloc : ℕ → Option Memory, alloc (sizeof_raw + total [(7, hostBuffer)]) ≠ none →
      Concatenates alloc 1 hostMem 7 [(7, hostBuffer)]) ↔ total [(7, hostBuffer)] = 0 :=
  concatenates_iff isChain_host (le_refl 1)

end Collect
end Http
end Osrv
