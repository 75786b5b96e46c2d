import Osrv.Http.Collect
import Osrv.Http.Lines
import Osrv.Lib.Run

/-!
# Recording the header lines

The parts of `http_input_iteration` that put the method and the header lines into the
buffers, on the `struct buffer` nodes in memory. A line that does not fit behind what the tail
holds is cut where the tail is full, and goes on in a new buffer whose size is doubled until
the rest and a newline fit.

`Records` is what holds after each line: the chain holds all that has been recorded, and the
chain in the model of the connection is what it shows (`headers_recorded`).
-/

namespace Osrv
namespace Http
namespace Collect

open Bytes Links

/-! ### The code -/

/-- The step of the length of a buffer. -/
def setLength (a : Addr) (n : ℕ) (m : Mem HeaderBuffer) : Option (Mem HeaderBuffer) :=
  (m a).map fun b => Function.update m a (some { b with val := { b.val with length := n } })

/-- `memcpy` behind what a buffer holds. -/
def append (a : Addr) (bs : List UInt8) (m : Mem HeaderBuffer) : Option (Mem HeaderBuffer) := do
  let b ← m a
  let m ← copyTo a b.val.length bs m
  setLength a (b.val.length + bs.length) m

/-- `c->headers` and the buffers in memory, after a number of calls of `malloc`. -/
structure Recorder where
  m : Mem HeaderBuffer
  headers : Ptr
  calls : ℕ

variable (malloc : Malloc) (place : ℕ → Addr)

/-- `alloc_buffer`. The memory is where `place` says. -/
def Recorder.alloc (size : ℕ) (parent : Ptr) (r : Recorder) : Option (Ptr × Recorder) := do
  let mem := malloc.alloc r.calls (sizeof_buffer + size)
  let (buf, m) ← alloc_buffer mem (place r.calls) size parent r.m
  some (buf, { r with m := m, calls := r.calls + 1 })

/-- `if (!c->headers) c->headers = alloc_buffer(1024, NULL)` -/
def Recorder.start (r : Recorder) : Option Recorder :=
  if r.headers = none then do
    let (buf, r) ← r.alloc malloc place 1024 none
    some { r with headers := buf }
  else some r

/-- Makes a header of the method of a request line, and says whether it fits. -/
def recordMethod (r : Recorder) (bol : CString) : Option (Bool × Recorder) := do
  let line := bol.bytes
  let mend := line.idxOf 32
  let r ← r.start malloc place
  -- the buffer is used without a check
  let tail ← r.headers
  let b ← r.m tail
  if b.val.size - b.val.length ≥ 18 + mend then
    let m ← append tail (ascii "Request-Method: ") r.m
    let m ← append tail (line.take mend) m
    let m ← append tail [10] m
    some (true, { r with m := m })
  else some (false, r)

/-- Puts as much of a line into the tail as fits there. -/
def fillTail (tail : Addr) (line : List UInt8) (fits : ℕ) (m : Mem HeaderBuffer) :
    Option (Mem HeaderBuffer) :=
  if fits ≠ 0 then append tail (line.take fits) m else some m

/-- Continues a line in a new buffer. `fits` of its bytes are in the tail. -/
def recordRest (line : List UInt8) (fits : ℕ) (tail : Addr) (r : Recorder) : Option Recorder := do
  let l := line.length
  let (buf, r) ← r.alloc malloc place (growTo (l + 1 - fits) 2048) (some tail)
  match buf with
  | none => some r
  | some _ =>
    let b ← r.m tail
    let new ← b.next
    let m ← copyTo new 0 (line.drop fits) r.m
    let m ← setLength new (l - fits) m
    let m ← append new [10] m
    some { r with m := m, headers := some new }

/-- Records a header line. -/
def recordLine (r : Recorder) (bol : CString) : Option Recorder := do
  let line := bol.bytes
  let l := line.length
  let r ← r.start malloc place
  match r.headers with
  | none => some r
  | some tail =>
    if l = 0 then some r
    else
      let b ← r.m tail
      -- the line goes on in another buffer
      if b.val.length + l + 1 > b.val.size then
        let fits := b.val.size - b.val.length
        let m ← fillTail tail line fits r.m
        recordRest malloc place line fits tail { r with m := m }
      else
        let m ← append tail line r.m
        let m ← append tail [10] m
        some { r with m := m }

/-! ### One buffer -/

variable {malloc : Malloc} {place : ℕ → Addr}

/-- What a buffer becomes when bytes are put behind what it holds. -/
def HeaderBuffer.push (b : HeaderBuffer) (bs : List UInt8) : HeaderBuffer :=
  ⟨b.size, b.length + bs.length, write b.data b.length bs⟩

@[simp] theorem HeaderBuffer.size_push (b : HeaderBuffer) (bs : List UInt8) :
    (b.push bs).size = b.size := rfl

@[simp] theorem HeaderBuffer.length_push (b : HeaderBuffer) (bs : List UInt8) :
    (b.push bs).length = b.length + bs.length := rfl

@[simp] theorem HeaderBuffer.bytes_push (b : HeaderBuffer) (bs : List UInt8) :
    (b.push bs).bytes = b.bytes ++ bs := read_write ..

theorem HeaderBuffer.push_nil (b : HeaderBuffer) : b.push [] = b := by
  rw [push, write_nil]
  rfl

/-- Two pieces in a row are one. -/
theorem HeaderBuffer.push_push (b : HeaderBuffer) (xs ys : List UInt8) :
    (b.push xs).push ys = b.push (xs ++ ys) := by
  have hdata : write (write b.data b.length xs) (b.length + xs.length) ys
      = write b.data b.length (xs ++ ys) := write_append ..
  rw [push, length_push, push, hdata, push, List.length_append, Nat.add_assoc]

/-- Bytes that fit are put into a buffer, and no other one changes. -/
theorem append_eq {m : Mem HeaderBuffer} {a : Addr} {v : HeaderBuffer} {next prev : Ptr}
    (ha : m a = some ⟨v, next, prev⟩) {bs : List UInt8} (hfit : v.length + bs.length ≤ v.size) :
    append a bs m = some (Function.update m a (some ⟨v.push bs, next, prev⟩)) := by
  have hroom : v.length + bs.length ≤ v.room := by
    rw [HeaderBuffer.room]
    omega
  have hcopy : copyTo a v.length bs m = some (Function.update m a
      (some ⟨{ v with data := write v.data v.length bs }, next, prev⟩)) := by
    rw [copyTo, ha]
    exact if_pos hroom
  rw [append, ha]
  show ((copyTo a v.length bs m).bind fun m => setLength a (v.length + bs.length) m) = _
  rw [hcopy, Option.bind_some, setLength, Function.update_self, Option.map_some,
    Function.update_idem]
  rfl

/-! ### The doubling loop -/

/-- The loop ends with more than `n`. -/
theorem lt_growTo (n needs : ℕ) (h : 0 < needs) : n < growTo n needs := by
  fun_induction growTo n needs with
  | case1 needs hle ih => exact ih (Nat.mul_pos Nat.two_pos h)
  | case2 needs hnot => exact Nat.not_le.mp fun hle => hnot ⟨h, hle⟩

/-- It does not go far beyond that, so the size does not overflow. -/
theorem growTo_le (n needs : ℕ) : growTo n needs ≤ max needs (2 * n) := by
  fun_induction growTo n needs with
  | case1 needs hle ih =>
    refine ih.trans (max_le ?_ (le_max_right ..))
    exact le_max_of_le_right (Nat.mul_le_mul_left 2 hle.2)
  | case2 needs hnot => exact le_max_left ..

/-! ### The chain -/

/-- What a chain shows to the model of the connection. -/
def view (xs : List (Addr × HeaderBuffer)) : Chain := xs.map fun x => ⟨x.2.size, x.2.bytes⟩

@[simp] theorem view_snoc (xs : List (Addr × HeaderBuffer)) (x : Addr × HeaderBuffer) :
    view (xs ++ [x]) = view xs ++ [⟨x.2.size, x.2.bytes⟩] := List.map_append

theorem concat_snoc (xs : List (Addr × HeaderBuffer)) (x : Addr × HeaderBuffer) :
    concat (xs ++ [x]) = concat xs ++ x.2.bytes := by
  rw [concat, List.flatMap_append, List.flatMap_singleton]
  rfl

section Chain

variable {m : Mem HeaderBuffer} {xs : List (Addr × HeaderBuffer)} {x : Addr × HeaderBuffer}

/-- The tail of a chain in memory. -/
theorem IsChain.tail_cell {tail : Addr} (h : IsChain m tail (xs ++ [x])) :
    tail = x.1 ∧ ∃ prev, m x.1 = some ⟨x.2, none, prev⟩ := by
  obtain ⟨root, hseg⟩ := h.links
  obtain ⟨htail, prev, hx, -⟩ := Seg.snoc_iff.mp hseg
  exact ⟨Option.some.inj htail, prev, hx⟩

/-- **Putting bytes into the tail.** -/
theorem IsChain.append (h : IsChain m x.1 (xs ++ [x])) {bs : List UInt8}
    (hfit : x.2.length + bs.length ≤ x.2.size) :
    ∃ m', append x.1 bs m = some m' ∧ IsChain m' x.1 (xs ++ [(x.1, x.2.push bs)]) ∧
      ∀ a, a ≠ x.1 → m' a = m a := by
  obtain ⟨root, hseg⟩ := h.links
  obtain ⟨-, prev, hx, hxs⟩ := Seg.snoc_iff.mp hseg
  have hnd := h.nodup
  have hnot : x.1 ∉ addrs xs := by
    rw [addrs, List.map_append, List.nodup_append] at hnd
    exact fun hmem => hnd.2.2 x.1 hmem x.1 (List.mem_singleton_self _) rfl
  refine ⟨_, append_eq hx hfit, ⟨⟨root, Seg.snoc_iff.mpr ⟨rfl, prev, ?_, hxs.update hnot⟩⟩, ?_,
    fun y hy => ?_⟩, fun a ha => Function.update_of_ne ha ..⟩
  · exact Function.update_self ..
  · rwa [addrs, List.map_append] at hnd ⊢
  · obtain hy | hy := List.mem_append.mp hy
    · exact h.fits y (List.mem_append_left _ hy)
    · rw [List.mem_singleton.mp hy]
      exact hfit

end Chain

/-! ### What has been recorded -/

/-- **The recorder after some lines**: `text` is what they come to. -/
structure Records (place : ℕ → Addr) (r : Recorder) (xs : List (Addr × HeaderBuffer))
    (text : List UInt8) : Prop where
  /-- `c->headers` is the tail of a chain in memory, and no buffer is overfull. -/
  chain : ∃ tail, r.headers = some tail ∧ IsChain r.m tail xs
  /-- The chain holds all that has been recorded. -/
  text : concat xs = text
  /-- No size is beyond what two line buffers can hold. -/
  sizes : ∀ x ∈ xs, x.2.size ≤ 2 * LINE_BUF_SIZE
  /-- The memory that is still to come is not in use. -/
  free : ∀ i, r.calls ≤ i → r.m (place i) = none

section Records

variable {r : Recorder} {xs : List (Addr × HeaderBuffer)} {x : Addr × HeaderBuffer}
  {text : List UInt8}

/-- A chain has a tail. -/
theorem Records.exists_snoc (h : Records place r xs text) : ∃ ys x, xs = ys ++ [x] := by
  obtain ⟨tail, -, hchain⟩ := h.chain
  obtain ⟨y, ys, rfl⟩ := hchain.exists_cons
  obtain hnil | ⟨zs, z, hz⟩ := List.eq_nil_or_concat (y :: ys)
  · cases hnil
  · exact ⟨zs, z, hz.trans List.concat_eq_append⟩

theorem Records.tail (h : Records place r (xs ++ [x]) text) :
    r.headers = some x.1 ∧ IsChain r.m x.1 (xs ++ [x]) ∧
      ∃ prev, r.m x.1 = some ⟨x.2, none, prev⟩ := by
  obtain ⟨tail, htail, hchain⟩ := h.chain
  obtain ⟨rfl, hcell⟩ := hchain.tail_cell
  exact ⟨htail, hchain, hcell⟩

/-- Bytes that fit into the tail. -/
theorem Records.append (h : Records place r (xs ++ [x]) text) (bs : List UInt8)
    (hfit : x.2.length + bs.length ≤ x.2.size) :
    ∃ m', append x.1 bs r.m = some m' ∧
      Records place { r with m := m' } (xs ++ [(x.1, x.2.push bs)]) (text ++ bs) := by
  obtain ⟨htail, hchain, prev, hx⟩ := h.tail
  obtain ⟨m', happend, hchain', hframe⟩ := hchain.append hfit
  refine ⟨m', happend, ⟨x.1, htail, hchain'⟩, ?_, fun y hy => ?_, fun i hi => ?_⟩
  · rw [← h.text, concat_snoc, concat_snoc, HeaderBuffer.bytes_push, List.append_assoc]
  · obtain hy | hy := List.mem_append.mp hy
    · exact h.sizes y (List.mem_append_left _ hy)
    · rw [List.mem_singleton.mp hy]
      exact h.sizes x (List.mem_append_right _ (List.mem_singleton_self _))
  · -- the tail is in use
    have hne : place i ≠ x.1 := by
      intro heq
      have hfree := h.free i hi
      rw [heq, hx] at hfree
      cases hfree
    exact (hframe _ hne).trans (h.free i hi)

/-- A new buffer takes one address, and no other one that was free. -/
theorem alloc_buffer_free {data : Memory} {a b : Addr} {size : ℕ} {parent p : Ptr}
    {m m' : Mem HeaderBuffer} (h : alloc_buffer (some data) a size parent m = some (p, m'))
    (hb : m b = none) (hne : b ≠ a) : m' b = none := by
  have hb₀ : (Function.update m a (some ⟨⟨size, 0, data⟩, none, parent⟩)) b = none := by
    rw [Function.update_of_ne hne, hb]
  obtain ⟨m₁, hlink, hm₁⟩ := Option.bind_eq_some_iff.mp h
  obtain rfl : m₁ = m' := (Prod.mk.inj (Option.some.inj hm₁)).2
  have hval := relinkNext_val hlink b
  rw [hb₀] at hval
  exact Option.map_eq_none_iff.mp hval

/-- A call of `alloc_buffer` for which there is memory. -/
theorem Recorder.alloc_eq (r : Recorder) {size : ℕ} {mem : Memory} {p parent : Ptr}
    {m' : Mem HeaderBuffer} (hmem : malloc.alloc r.calls (sizeof_buffer + size) = some mem)
    (h : alloc_buffer (some mem) (place r.calls) size parent r.m = some (p, m')) :
    r.alloc malloc place size parent = some (p, { r with m := m', calls := r.calls + 1 }) := by
  rw [Recorder.alloc, hmem]
  show (alloc_buffer (some mem) (place r.calls) size parent r.m).bind _ = _
  rw [h]
  rfl

/-- **The first buffer.** -/
theorem Records.first (hs : malloc.Succeeds) (hinj : Function.Injective place)
    (hr : r.headers = none) (hfree : ∀ i, r.calls ≤ i → r.m (place i) = none) :
    ∃ r' x, r.start malloc place = some r' ∧ Records place r' [x] [] ∧
      x.2.size = 1024 ∧ x.2.length = 0 := by
  obtain ⟨mem, hmem⟩ := hs r.calls (sizeof_buffer + 1024) (by decide)
  obtain ⟨m', halloc, hchain⟩ :=
    @alloc_buffer_root r.m (place r.calls) 1024 mem
  refine ⟨⟨m', some (place r.calls), r.calls + 1⟩, (place r.calls, ⟨1024, 0, mem⟩), ?_,
    ⟨⟨_, rfl, hchain⟩, rfl, fun y hy => ?_, fun i hi => ?_⟩, rfl, rfl⟩
  · rw [Recorder.start, if_pos hr, r.alloc_eq hmem halloc]
    rfl
  · rw [List.mem_singleton.mp hy]
    show 1024 ≤ 2 * LINE_BUF_SIZE
    decide
  · have hne : place i ≠ place r.calls := fun heq =>
      absurd (hinj heq) (Nat.ne_of_gt (Nat.lt_of_succ_le hi))
    exact alloc_buffer_free halloc (hfree i (Nat.le_of_succ_le hi)) hne

/-- **A further buffer**, and the way to it from the tail. -/
theorem Records.alloc (h : Records place r (xs ++ [x]) text) (hs : malloc.Succeeds)
    (hinj : Function.Injective place) {size : ℕ} (hsize : size ≤ 2 * LINE_BUF_SIZE) :
    ∃ r' y, r.alloc malloc place size (some x.1) = some (some y.1, r') ∧
      Records place { r' with headers := some y.1 } (xs ++ [x] ++ [y]) text ∧
      y.2.size = size ∧ y.2.length = 0 ∧ ∃ prev, r'.m x.1 = some ⟨x.2, some y.1, prev⟩ := by
  have hmax : sizeof_buffer + size ≤ PTRDIFF_MAX :=
    (Nat.add_le_add_left hsize sizeof_buffer).trans (by decide)
  obtain ⟨mem, hmem⟩ := hs r.calls (sizeof_buffer + size) hmax
  obtain ⟨htail, hchain, -⟩ := h.tail
  obtain ⟨m', halloc, hchain'⟩ := hchain.alloc_buffer (h.free r.calls (le_refl _)) size mem
  refine ⟨⟨m', r.headers, r.calls + 1⟩, (place r.calls, ⟨size, 0, mem⟩), r.alloc_eq hmem halloc,
    ⟨⟨_, rfl, hchain'⟩, ?_, fun y hy => ?_, fun i hi => ?_⟩, rfl, rfl, ?_⟩
  -- the new buffer has nothing of the text
  · have hempty : HeaderBuffer.bytes ⟨size, 0, mem⟩ = [] := rfl
    rw [concat_snoc, hempty, List.append_nil, h.text]
  · obtain hy | hy := List.mem_append.mp hy
    · exact h.sizes y hy
    · rw [List.mem_singleton.mp hy]
      exact hsize
  -- the places of later calls are still free
  · have hne : place i ≠ place r.calls := fun heq =>
      absurd (hinj heq) (Nat.ne_of_gt (Nat.lt_of_succ_le hi))
    exact alloc_buffer_free halloc (h.free i (Nat.le_of_succ_le hi)) hne
  · -- the link of the old tail leads to the new one
    obtain ⟨root, hseg⟩ := hchain'.links
    obtain ⟨-, prev', -, hold⟩ := Seg.snoc_iff.mp hseg
    obtain ⟨-, prev, hx, -⟩ := Seg.snoc_iff.mp hold
    exact ⟨prev, hx⟩

/-- In an empty buffer, a copy to its start goes behind what it holds. -/
theorem append_of_empty {m : Mem HeaderBuffer} {a : Addr} {n : Node HeaderBuffer}
    (ha : m a = some n) (hempty : n.val.length = 0) (bs : List UInt8) :
    ((copyTo a 0 bs m).bind fun m => setLength a bs.length m) = append a bs m := by
  rw [append, ha]
  show _ = (copyTo a n.val.length bs m).bind fun m => setLength a (n.val.length + bs.length) m
  rw [hempty, Nat.zero_add]

/-- **The rest of a line** always fits in the new buffer, with a newline. -/
theorem Records.rest (h : Records place r (xs ++ [x]) text) (hs : malloc.Succeeds)
    (hinj : Function.Injective place) {line : List UInt8} {fits : ℕ} (hfits : fits ≤ line.length)
    (hline : line.length < LINE_BUF_SIZE) :
    ∃ r' y, recordRest malloc place line fits x.1 r = some r' ∧
      Records place r' (xs ++ [x] ++ [y]) (text ++ (line.drop fits ++ [10])) ∧
      y.2.size = growTo (line.length + 1 - fits) 2048 ∧ y.2.bytes = line.drop fits ++ [10] := by
  have hgrow := lt_growTo (line.length + 1 - fits) 2048 (by decide)
  have hsize : growTo (line.length + 1 - fits) 2048 ≤ 2 * LINE_BUF_SIZE := by
    refine (growTo_le ..).trans (max_le (by decide) (Nat.mul_le_mul_left 2 ?_))
    exact (Nat.sub_le ..).trans hline
  obtain ⟨r₁, y, halloc, hnew, hysize, hylen, prev, hx⟩ := h.alloc hs hinj hsize
  have hdrop : (line.drop fits).length = line.length - fits := List.length_drop ..
  -- the rest of the line, and the newline behind it
  obtain ⟨m₂, hrest, hrec₂⟩ := hnew.append (line.drop fits) (by omega)
  obtain ⟨m₃, hnl, hrec₃⟩ := hrec₂.append [10] (by
    show y.2.length + (line.drop fits).length + 1 ≤ y.2.size
    omega)
  obtain ⟨-, -, prev', hy⟩ := hnew.tail
  have hcopy := append_of_empty hy hylen (line.drop fits)
  rw [hdrop] at hcopy
  refine ⟨⟨m₃, some y.1, r₁.calls⟩, (y.1, y.2.push (line.drop fits ++ [10])), ?_, ?_, hysize, ?_⟩
  · rw [recordRest, halloc]
    show ((r₁.m x.1).bind fun b => b.next.bind fun new => (copyTo new 0 (line.drop fits) r₁.m).bind
      fun m => (setLength new (line.length - fits) m).bind fun m => (Collect.append new [10] m).bind
        fun m => some { r₁ with m := m, headers := some new }) = _
    rw [hx]
    show ((copyTo y.1 0 (line.drop fits) r₁.m).bind fun m =>
      (setLength y.1 (line.length - fits) m).bind _) = _
    rw [← Option.bind_assoc, hcopy, hrest]
    show ((Collect.append y.1 [10] m₂).bind _) = _
    rw [hnl]
    rfl
  · have hpush := y.2.push_push (line.drop fits) [10]
    rw [List.append_assoc text] at hrec₃
    rw [← hpush]
    exact hrec₃
  · rw [HeaderBuffer.bytes_push, HeaderBuffer.bytes, hylen, read_zero, List.nil_append]

/-- Behind the tail of the model of the chain. -/
theorem chain_append_snoc (hs : Chain) (b : Buffer) (bs : List UInt8) :
    (hs ++ [b]).append bs = hs ++ [{ b with data := b.data ++ bs }] := by
  rw [Chain.append, List.getLast?_concat, List.dropLast_concat]

/-- As much of a line as fits, if anything does. -/
theorem Records.fill (h : Records place r (xs ++ [x]) text) (bs : List UInt8) {fits : ℕ}
    (hfits : x.2.length + fits ≤ x.2.size) :
    ∃ m', fillTail x.1 bs fits r.m = some m' ∧
      Records place { r with m := m' } (xs ++ [(x.1, x.2.push (bs.take fits))])
        (text ++ bs.take fits) := by
  by_cases h0 : fits = 0
  · subst h0
    refine ⟨r.m, rfl, ?_⟩
    rw [List.take_zero, List.append_nil, HeaderBuffer.push_nil]
    exact h
  · have hle : x.2.length + (bs.take fits).length ≤ x.2.size :=
      (Nat.add_le_add_left (List.length_take_le ..) _).trans hfits
    rw [fillTail, if_pos h0]
    exact h.append _ hle

/-- **One header line.** The text grows by the line and a newline, whether the line is split
or not. -/
theorem Records.line (h : Records place r xs text) (hs : malloc.Succeeds)
    (hinj : Function.Injective place) {bol : CString} (hne : bol.bytes ≠ [])
    (hline : bol.length < LINE_BUF_SIZE) :
    ∃ r' xs', recordLine malloc place r bol = some r' ∧
      Records place r' xs' (text ++ (bol.bytes ++ [10])) ∧
      view xs' = (view xs).record (fun _ => true) bol.bytes := by
  obtain ⟨ys, x, rfl⟩ := h.exists_snoc
  obtain ⟨htail, hchain, prev, hx⟩ := h.tail
  -- there is a tail, so that no buffer is made for the line alone
  have hstart : r.start malloc place = some r := if_neg (by rw [htail]; exact Option.some_ne_none _)
  have hl : bol.bytes.length ≠ 0 := fun h0 => hne (List.length_eq_zero_iff.mp h0)
  have hfull : x.2.length ≤ x.2.size :=
    hchain.fits x (List.mem_append_right _ (List.mem_singleton_self _))
  -- both models look at the tail
  have hrun : recordLine malloc place r bol =
      if x.2.length + bol.bytes.length + 1 > x.2.size then
        (fillTail x.1 bol.bytes (x.2.size - x.2.length) r.m).bind fun m =>
          recordRest malloc place bol.bytes (x.2.size - x.2.length) x.1 { r with m := m }
      else (Collect.append x.1 bol.bytes r.m).bind fun m => (Collect.append x.1 [10] m).bind
        fun m => some { r with m := m } := by
    rw [recordLine, hstart]
    show (match r.headers with | none => _ | some tail => _) = _
    rw [htail]
    show (if bol.bytes.length = 0 then _ else _) = _
    rw [if_neg hl, hx]
    rfl
  have hview : (view (ys ++ [x])).record (fun _ => true) bol.bytes =
      if x.2.length + bol.bytes.length + 1 > x.2.size then
        (view (ys ++ [x])).append (bol.bytes.take (x.2.size - x.2.length)) ++
          [⟨growTo (bol.bytes.length + 1 - (x.2.size - x.2.length)) 2048,
            bol.bytes.drop (x.2.size - x.2.length) ++ [10]⟩]
      else (view (ys ++ [x])).append (bol.bytes ++ [10]) := by
    have hlast : (view (ys ++ [x])).getLast? = some ⟨x.2.size, x.2.bytes⟩ := by
      rw [view_snoc, List.getLast?_concat]
    rw [Chain.record, hlast]
    show (if bol.bytes.length = 0 then _ else _) = _
    rw [if_neg hl]
    show (if x.2.bytes.length + _ + 1 > x.2.size then _ else _) = _
    rw [length_bytes]
    rfl
  by_cases hover : x.2.length + bol.bytes.length + 1 > x.2.size
  · -- the line goes on in a new buffer
    rw [if_pos hover] at hrun hview
    -- first the tail is filled up, then the rest and the newline go into the new buffer
    obtain ⟨m₁, hfill, hrec₁⟩ :=
      h.fill bol.bytes (show x.2.length + (x.2.size - x.2.length) ≤ x.2.size by omega)
    obtain ⟨r', y, hrest, hrec', hysize, hybytes⟩ :=
      hrec₁.rest hs hinj (show x.2.size - x.2.length ≤ bol.bytes.length by omega) hline
    refine ⟨r', ys ++ [(x.1, x.2.push (bol.bytes.take (x.2.size - x.2.length)))] ++ [y], ?_, ?_, ?_⟩
    · rw [hrun, hfill]
      exact hrest
    · -- what is recorded is the line, in two parts
      have hsplit : text ++ bol.bytes.take (x.2.size - x.2.length)
            ++ (bol.bytes.drop (x.2.size - x.2.length) ++ [10])
          = text ++ (bol.bytes ++ [10]) := by
        rw [List.append_assoc, ← List.append_assoc (bol.bytes.take _), List.take_append_drop]
      rwa [hsplit] at hrec'
    · rw [hview, view_snoc, view_snoc, view_snoc, chain_append_snoc, hysize, hybytes,
        HeaderBuffer.bytes_push]
      rfl
  · -- it fits, with its newline
    rw [if_neg hover] at hrun hview
    obtain ⟨m₁, hput, hrec₁⟩ := h.append bol.bytes (by omega)
    obtain ⟨m₂, hnl, hrec₂⟩ := hrec₁.append [10] (by
      show x.2.length + bol.bytes.length + 1 ≤ x.2.size
      omega)
    refine ⟨{ r with m := m₂ }, ys ++ [(x.1, (x.2.push bol.bytes).push [10])], ?_, ?_, ?_⟩
    · rw [hrun, hput]
      show ((Collect.append x.1 [10] m₁).bind _) = _
      rw [hnl]
      rfl
    · rw [List.append_assoc text] at hrec₂
      exact hrec₂
    · rw [hview, view_snoc, view_snoc, chain_append_snoc, HeaderBuffer.push_push,
        HeaderBuffer.bytes_push]
      rfl

/-! ### The request line -/

/-- The header made of the method. -/
def methodHeader (bol : CString) : List UInt8 :=
  ascii "Request-Method: " ++ bol.bytes.take (bol.bytes.idxOf 32) ++ [10]

/-- The method fits in the first buffer. -/
def MethodFits (bol : CString) : Prop := 18 + bol.bytes.idxOf 32 ≤ 1024

instance (bol : CString) : Decidable (MethodFits bol) := inferInstanceAs (Decidable (_ ≤ _))

/-- What the model of the connection has in its chain after the request line. -/
theorem requestLine_headers {bol : CString} {rd rd' : Reading} (hempty : rd.headers = [])
    (h : requestLine (fun _ => true) bol rd = .next rd') (hfits : MethodFits bol) :
    bol.bytes.idxOf 32 < bol.length ∧ rd'.headers = [⟨1024, methodHeader bol⟩] := by
  have hstart : rd.headers.start (fun _ => true) = [⟨1024, []⟩] := by
    rw [hempty]
    rfl
  have hfit : decide (([] : List UInt8).length + 18 + bol.bytes.idxOf 32 ≤ 1024) = true :=
    decide_eq_true hfits
  rw [requestLine] at h
  dsimp only at h
  split at h
  · cases h
  · next hform =>
    rw [not_or, not_not] at hform
    rw [hstart] at h
    simp only [List.getLast?_singleton, hfit, if_true] at h
    split at h
    · cases h
    · cases h
      exact ⟨List.idxOf_lt_length_of_mem hform.1, rfl⟩

/-- **The method is recorded** as the first line. -/
theorem recordMethod_records (hs : malloc.Succeeds) (hinj : Function.Injective place)
    (hr : r.headers = none) (hfree : ∀ i, r.calls ≤ i → r.m (place i) = none) {bol : CString}
    (hblank : bol.bytes.idxOf 32 < bol.length) (hfits : MethodFits bol) :
    ∃ r' xs, recordMethod malloc place r bol = some (true, r') ∧
      Records place r' xs (methodHeader bol) ∧ view xs = [⟨1024, methodHeader bol⟩] := by
  obtain ⟨r₁, x, hstart, hrec, hsize, hlen⟩ := Records.first hs hinj hr hfree
  have hfirst : Records place r₁ ([] ++ [x]) [] := hrec
  obtain ⟨htail, -, prev, hx⟩ := hfirst.tail
  have hmend : (bol.bytes.take (bol.bytes.idxOf 32)).length = bol.bytes.idxOf 32 := by
    rw [List.length_take]
    exact min_eq_left hblank.le
  have hroom : x.2.size - x.2.length ≥ 18 + bol.bytes.idxOf 32 := by
    rw [hsize, hlen]
    exact hfits
  have hname : (ascii "Request-Method: ").length = 16 := rfl
  -- the name, the method and the newline
  obtain ⟨m₁, h₁, hrec₁⟩ := hfirst.append (ascii "Request-Method: ") (by omega)
  obtain ⟨m₂, h₂, hrec₂⟩ :=
    hrec₁.append (bol.bytes.take (bol.bytes.idxOf 32)) (by
      show x.2.length + (ascii "Request-Method: ").length + _ ≤ x.2.size
      omega)
  obtain ⟨m₃, h₃, hrec₃⟩ := hrec₂.append [10] (by
    show x.2.length + (ascii "Request-Method: ").length +
      (bol.bytes.take (bol.bytes.idxOf 32)).length + 1 ≤ x.2.size
    omega)
  refine ⟨_, _, ?_, hrec₃, ?_⟩
  · rw [recordMethod, hstart]
    show (r₁.headers.bind _) = _
    rw [htail]
    show ((r₁.m x.1).bind _) = _
    rw [hx]
    show (if x.2.size - x.2.length ≥ 18 + bol.bytes.idxOf 32 then
      ((Collect.append x.1 (ascii "Request-Method: ") r₁.m).bind _) else _) = _
    rw [if_pos hroom, h₁]
    show ((Collect.append x.1 (bol.bytes.take (bol.bytes.idxOf 32)) m₁).bind _) = _
    rw [h₂]
    show ((Collect.append x.1 [10] m₂).bind _) = _
    rw [h₃]
    rfl
  · have hempty : x.2.bytes = [] := by
      rw [HeaderBuffer.bytes, hlen]
      rfl
    rw [view_snoc, HeaderBuffer.bytes_push, HeaderBuffer.bytes_push, HeaderBuffer.bytes_push,
      hempty]
    show [(⟨x.2.size, _⟩ : Buffer)] = _
    rw [hsize]
    rfl

end Records

/-! ### A whole request -/

/-- The reading that goes on behind a line. -/
def reading? : LineResult → Option Reading
  | .next rd => some rd
  | _ => none

/-- The model of the connection, header line by header line. -/
def headerLines (rd : Reading) (lines : List CString) : Option Reading :=
  Run.run (fun rd bol => reading? (headerLine (fun _ => true) bol rd)) rd lines

/-- The header lines, with a newline behind each. -/
def lineTexts (lines : List CString) : List UInt8 := lines.flatMap fun l => l.bytes ++ [10]

/-- **Every line is recorded.** An accepted request line whose method fits is followed by
header lines that the line buffer can hold. After each of them, the chain behind `c->headers`
holds the header made of the method and all lines so far, each with a newline, no buffer is
longer than its size, and the chain is the one in the model of the connection. -/
theorem headers_recorded {r : Recorder} (hs : malloc.Succeeds) (hinj : Function.Injective place)
    (hr : r.headers = none) (hfree : ∀ i, r.calls ≤ i → r.m (place i) = none) {bol : CString}
    {rd rd' : Reading} (hempty : rd.headers = [])
    (hline : requestLine (fun _ => true) bol rd = .next rd') (hfits : MethodFits bol)
    {lines : List CString} (hlines : ∀ l ∈ lines, l.bytes ≠ [] ∧ l.length < LINE_BUF_SIZE) :
    ∃ r₀ r' xs rd'', recordMethod malloc place r bol = some (true, r₀) ∧
      Run.run (recordLine malloc place) r₀ lines = some r' ∧
      Records place r' xs (methodHeader bol ++ lineTexts lines) ∧
      headerLines rd' lines = some rd'' ∧ rd''.headers = view xs := by
  obtain ⟨hblank, hheaders⟩ := requestLine_headers hempty hline hfits
  obtain ⟨r₀, xs₀, hmethod, hrec₀, hview₀⟩ := recordMethod_records hs hinj hr hfree hblank hfits
  -- both models take the lines one after another
  let P : List CString → Recorder → Prop := fun ls r' =>
    ∃ xs rd'', Records place r' xs (methodHeader bol ++ lineTexts ls) ∧
      headerLines rd' ls = some rd'' ∧ rd''.headers = view xs
  have hstart : P [] r₀ := by
    refine ⟨xs₀, rd', ?_, rfl, hheaders.trans hview₀.symm⟩
    rw [lineTexts, List.flatMap_nil, List.append_nil]
    exact hrec₀
  have hstep : ∀ ls r₁ l, P ls r₁ → (l.bytes ≠ [] ∧ l.length < LINE_BUF_SIZE) →
      ∃ r₂, recordLine malloc place r₁ l = some r₂ ∧ P (ls ++ [l]) r₂ := by
    rintro ls r₁ l ⟨xs, rd₁, hrec, hread, hsame⟩ ⟨hne, hlen⟩
    obtain ⟨r₂, xs₂, hrun, hrec₂, hview₂⟩ := hrec.line hs hinj hne hlen
    obtain ⟨rd₂, hnext, -, hheaders₂, -⟩ := headerLine_next (fun _ => true) l rd₁
    have hstarted : rd₁.headers.start (fun _ => true) = rd₁.headers := by
      apply start_of_ne_nil
      obtain ⟨ys, y, rfl⟩ := hrec.exists_snoc
      rw [hsame, view_snoc]
      exact List.append_ne_nil_of_right_ne_nil _ (List.cons_ne_nil _ _)
    refine ⟨r₂, hrun, xs₂, rd₂, ?_, ?_, ?_⟩
    · rw [lineTexts, List.flatMap_append, List.flatMap_singleton, ← List.append_assoc]
      exact hrec₂
    · refine Run.run_snoc_eq_some.mpr ⟨rd₁, hread, ?_⟩
      rw [hnext]
      rfl
    · rw [hheaders₂, hstarted, hsame, hview₂]
  have hguard : Run.Guarded (recordLine malloc place) r₀
      (fun _ l => l.bytes ≠ [] ∧ l.length < LINE_BUF_SIZE) lines := by
    intro p l _ hp _
    exact hlines l (hp.subset (List.mem_append_right p (List.mem_singleton_self l)))
  obtain ⟨r', hrun, xs, rd'', hrec, hread, hsame⟩ := Run.total_guarded hstart hstep hguard
  exact ⟨r₀, r', xs, rd'', hmethod, hrun, hrec, hread, hsame⟩

/-- A line that is longer than a buffer. -/
def longLine : CString := cstr (ascii "A: " ++ List.replicate 1100 97)

/-- A request with a header line that fills up the first buffer and goes on in another. -/
theorem headers_recorded_split :
    let bol := cstr (ascii "GET / HTTP/1.0")
    let lines := [cstr (ascii "Host: x"), longLine]
    ∃ rd' r₀ r' xs rd'', requestLine (fun _ => true) bol .fresh = .next rd' ∧
      recordMethod .plenty id ⟨fun _ => none, none, 0⟩ bol = some (true, r₀) ∧
      Run.run (recordLine .plenty id) r₀ lines = some r' ∧
      Records id r' xs (methodHeader bol ++ lineTexts lines) ∧
      headerLines rd' lines = some rd'' ∧ rd''.headers = view xs ∧ rd''.headers.length = 2 := by
  intro bol lines
  have hlines : ∀ l ∈ lines, l.bytes ≠ [] ∧ l.length < LINE_BUF_SIZE := by
    decide +kernel
  obtain ⟨rd', hline⟩ : ∃ rd', requestLine (fun _ => true) bol .fresh = .next rd' := ⟨_, rfl⟩
  obtain ⟨r₀, r', xs, rd'', hmethod, hrun, hrecords, hread, hheaders⟩ :=
    @headers_recorded .plenty id ⟨fun _ => none, none, 0⟩
      Malloc.plenty_succeeds Function.injective_id rfl (fun _ _ => rfl) bol .fresh _ rfl hline
      (by decide) lines hlines
  have htwo : (headerLines rd' lines).map (fun rd => rd.headers.length) = some 2 := by
    obtain rfl := LineResult.next.inj hline
    decide +kernel
  rw [hread] at htwo
  exact ⟨rd', r₀, r', xs, rd'', hline, hmethod, hrun, hrecords, hread, hheaders,
    Option.some.inj htwo⟩

end Collect
end Http
end Osrv
