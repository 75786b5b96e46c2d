import Mathlib.Data.List.Induction
import Osrv.Rheap.Walk
import Osrv.Sfs.Scratch

/-!
# The sizes of what is fetched

The lengths of records come from the stream. The header word is shifted by a byte, so
that a length is less than `2 ^ 56` and the number of bytes of a vector, taken in 64
bits, is the product (`byteCount_eq`). What is fetched into `dec_buf` never reaches its
last byte. As `dec_buf` is shared by all loads, this is an invariant over a series of them
(`Sizes`), in which each may be over another callback and end with an error.
-/

namespace Osrv
namespace Rheap

open Bytes Sfs Lib

variable {σ : Type}

/-! ### The invariant -/

/-- The fetch stays inside its destination; the scan ends inside `dec_buf`. -/
def Event.Fits : Event → Prop
  | .fetch el len n room => len < 2 ^ 56 ∧ n = len * el ∧ n ≤ room
  | .scan buf => DecBuf buf
  | _ => True

structure Sizes (m : Machine σ) : Prop where
  dec_buf : DecBuf m.dec_buf
  fits : ∀ e ∈ m.trace, e.Fits

theorem Event.ofR.fits {e : Event} (h : e.ofR) : e.Fits := by
  cases e with
  | header => exact h.elim
  | fetch el len n room => exact h.elim
  | scan buf => exact h.elim
  | _ => trivial

theorem Sizes.quiet {m m' : Machine σ} (h : Quiet m m') (hm : Sizes m) : Sizes m' := by
  obtain ⟨es, htrace, hes⟩ := h.trace
  refine ⟨h.dec_buf ▸ hm.dec_buf, fun e he => ?_⟩
  rw [htrace] at he
  exact (List.mem_append.mp he).elim (fun h => (hes e h).fits) (hm.fits e)

/-- The invariant is kept by an act, whether it returns or not. -/
abbrev KeepsSizes {α : Type} (x : Act σ α) : Prop := Keeps Sizes (fun _ => Sizes) x

theorem QuietAct.sizes {α : Type} {x : Act σ α} (hx : QuietAct x) : KeepsSizes x :=
  hx.keeps (fun _ _ => Sizes.quiet) fun _ _ h _ => h

theorem keeps_log (e : Event) (he : e.Fits) : KeepsSizes (log e : Act σ Unit) := by
  intro m h
  refine ⟨h.dec_buf, fun e' he' => ?_⟩
  obtain rfl | he' := List.mem_cons.mp he'
  · exact he
  · exact h.fits e' he'

/-! ### Numbers -/

/-- A record of `len` elements does not wrap the number of its bytes. -/
theorem byteCount_eq (t : AtomType) {len : ℕ} (h : len < 2 ^ 56) :
    byteCount t len = len * t.el := by
  have hel := t.el_le
  have hmul : len * t.el ≤ len * 16 := Nat.mul_le_mul_left _ hel
  exact Nat.mod_eq_of_lt (by omega)

theorem room_vector (t : AtomType) (len : ℕ) : (vector t.type len).room = len * t.el := by
  cases t <;> rfl

/-- A write that ends in front of the last byte of `dec_buf`. -/
theorem decBuf_overwrite {db bs : List UInt8} {i : ℕ} (h : DecBuf db)
    (hi : i + bs.length < sizeofDecBuf) : DecBuf (overwrite i bs db) := by
  obtain ⟨s, hs, rfl⟩ := h
  refine ⟨s.take i ++ bs ++ s.drop (i + bs.length), ?_, ?_⟩
  · rw [List.length_append, List.length_append, List.length_take, List.length_drop]
    omega
  · rw [overwrite, List.take_append_of_le_length (by omega),
      List.drop_append_of_le_length (by omega), List.append_assoc _ _ [0]]

/-- A text in `dec_buf` ends there. -/
theorem length_cstr_lt {db : List UInt8} (h : DecBuf db) : (cstr db).length < sizeofDecBuf := by
  obtain ⟨s, hs, rfl⟩ := h
  obtain hzero | hzero := Classical.em ((0 : UInt8) ∈ s)
  · rw [cstr_append_of_mem hzero]
    have hle : (cstr s).length ≤ s.length := (List.takeWhile_sublist _).length_le
    omega
  · rw [length_cstr_append hzero]
    show s.length + 0 < _
    omega

/-! ### Fetching -/

section Load

variable (R : Runtime) (src : Source σ)

theorem Sizes.api {m : Machine σ} (h : Sizes m) (s : σ) : Sizes { m with api := s } :=
  ⟨h.dec_buf, h.fits⟩

/-- A header is a word. -/
theorem fetchHdr_ends {m : Machine σ} (h : Sizes m) :
    Ends (fetchHdr src) m (fun hdr m' => Sizes m' ∧ hdr < 2 ^ 64) fun _ m' => Sizes m' := by
  refine (keeps_log .header trivial m h).bind (fun _ _ h => h) fun _ m₁ h₁ => ?_
  refine (fetch_ends src (fun _ s h => h.api s) (fun _ _ h => h) quiet_gc.sizes
    (fun _ _ _ => .pure _) h₁).bind (fun _ _ h => h) fun bs m₂ h₂ => ⟨h₂.1, ?_⟩
  have hlt := leVal_lt bs
  rwa [h₂.2] at hlt

/-- The elements of a vector fit the vector that was made for them. -/
theorem keeps_decodeAtoms (t : AtomType) {len : ℕ} (hlen : len < 2 ^ 56) :
    KeepsSizes (decodeAtoms R src t len) := by
  intro m h
  -- the vector has the room that the record announces
  have halloc : Ends (allocVector R t.type len : Act σ Ref) m
      (fun res m' => Sizes m' ∧ (m'.heap.objects res).contents = vector t.type len)
      fun _ m' => Sizes m' := by
    refine (quiet_gc.sizes m h).bind (fun _ _ h => h) fun _ m' h' => ?_
    unfold Ends
    split
    · next heq =>
      split at heq
      · cases heq
        refine ⟨⟨h'.dec_buf, h'.fits⟩, ?_⟩
        show (Function.update m'.heap.objects _ _ _ : Object).contents = _
        rw [Function.update_self]
        rfl
      · cases heq
    · next heq =>
      split at heq
      · cases heq
      · cases heq
        exact h'
  refine halloc.bind (fun _ _ h => h) fun res m₁ h₁ => ?_
  have hfits : Event.Fits
      (.fetch t.el len (byteCount t len) (m₁.heap.objects res).contents.room) :=
    ⟨hlen, byteCount_eq t hlen, by rw [byteCount_eq t hlen, h₁.2, room_vector]⟩
  have hfetch : KeepsSizes (fetch src (byteCount t len) (writeElements res)) := fun m h =>
    (fetch_ends src (fun _ s h => h.api s) (fun _ _ h => h) quiet_gc.sizes
      (fun _ _ _ => (quiet_change res _).sizes) h).mono (fun _ _ h => h.1) fun _ _ h => h
  have hrest : KeepsSizes (do
      log (.fetch t.el len (byteCount t len) (m₁.heap.objects res).contents.room)
      log (.elements (src.fetch m₁.api (byteCount t len)).pieces)
      let _ ← fetch src (byteCount t len) (writeElements res)
      pure ()) :=
    (keeps_log _ hfits).bind fun _ => (keeps_log (.elements _) trivial).bind fun _ =>
      hfetch.bind fun _ => .pure _
  exact (hrest m₁ h₁.1).bind (fun _ _ h => h) fun _ _ h => h

/-- A text that fits `dec_buf` leaves its last byte alone. -/
theorem keeps_decodeText (noMemory : ℕ → RError) {len : ℕ} (hlen : len < 2 ^ 56) :
    KeepsSizes (decodeText R src noMemory len) := by
  unfold decodeText
  split
  · next hshort =>
    have hwrite : ∀ i bs, i + bs.length ≤ len → KeepsSizes (writeDecBuf i bs : Act σ Unit) :=
      fun i bs hi m h => ⟨decBuf_overwrite h.dec_buf (Nat.lt_of_le_of_lt hi hshort), h.fits⟩
    have hfits : Event.Fits (.fetch 1 len len sizeofDecBuf) :=
      ⟨hlen, (Nat.mul_one len).symm, hshort.le⟩
    have hfetch : KeepsSizes (fetchDecBuf src len) := by
      refine (keeps_log _ hfits).bind fun _ m h => ?_
      exact (fetch_ends src (fun _ s h => h.api s) (fun _ _ h => h) quiet_gc.sizes hwrite h).bind
        (fun _ _ h => h) fun _ _ h => h.1
    refine hfetch.bind fun _ m h => ?_
    have hscan : KeepsSizes (do
        log (.scan m.dec_buf)
        return cstr m.dec_buf : Act σ CString) :=
      (keeps_log (.scan m.dec_buf) h.dec_buf).bind fun _ => .pure _
    exact hscan m h
  · refine (quiet_malloc R len).sizes.bind fun buf => ?_
    cases buf with
    | none => exact fun _ h => h
    | some buf => exact .pure _

end Load

/-- A load keeps the invariant, at any depth. -/
theorem keeps_sfs_load (R : Runtime) (src : Source σ) (depth : ℕ) :
    KeepsSizes (sfs_load R src depth) := by
  have hreader : Reader R src Sizes fun _ => Sizes :=
    ⟨fun _ _ => Sizes.quiet, fun _ _ h _ => h, fun _ => fetchHdr_ends src,
      fun t len => keeps_decodeAtoms R src t, fun noMemory len => keeps_decodeText R src noMemory⟩
  exact hreader.sfs_load (fun _ h => h) depth

/-! ### Series of loads -/

/-- A call of `sfs_load`. -/
structure Call where
  σ : Type
  R : Runtime
  src : Source σ
  api : σ
  S : Session
  depth : ℕ

def Call.run (c : Call) (dec_buf : List UInt8) : EStateM.Result Stop (Machine c.σ) Ref :=
  sfs_load c.R c.src c.depth (.start c.S c.api dec_buf)

/-- What a series of loads leaves in `dec_buf`, which is zero in the beginning. -/
def scratch (calls : List Call) : List UInt8 :=
  calls.foldl (fun db c => (endState (c.run db)).dec_buf) (List.replicate sizeofDecBuf 0)

/-- A call keeps `dec_buf` for the next one, and stays inside its destinations. -/
theorem Call.sizes (c : Call) {db : List UInt8} (h : DecBuf db) : Sizes (endState (c.run db)) :=
  Keeps.endState (keeps_sfs_load c.R c.src c.depth) (m := .start c.S c.api db)
    ⟨h, by simp [Machine.start]⟩

theorem decBuf_scratch (calls : List Call) : DecBuf (scratch calls) := by
  have hstart : DecBuf (List.replicate sizeofDecBuf 0) :=
    ⟨List.replicate 8191 0, by rw [List.length_replicate]; rfl, List.replicate_succ'⟩
  unfold scratch
  induction calls using List.reverseRecOn with
  | nil => exact hstart
  | append_singleton calls c ih =>
    rw [List.foldl_append]
    exact (c.sizes ih).dec_buf

/-- **The sizes of the decoder.** In every load of any series of loads, every fetch of
`decode_one` is for the product of the announced length and the size of an element, and no
more than its destination has room for. Every scan of `dec_buf` ends inside it, as its last
byte is zero whenever it is scanned and after every load. -/
theorem decode_sizes (calls : List Call) (c : Call) :
    (∀ el len n room, Event.fetch el len n room ∈ (endState (c.run (scratch calls))).trace →
        len < 2 ^ 56 ∧ n = len * el ∧ n ≤ room) ∧
      (∀ buf, Event.scan buf ∈ (endState (c.run (scratch calls))).trace →
        buf.length = sizeofDecBuf ∧ buf.getLast? = some 0 ∧ (cstr buf).length < sizeofDecBuf) ∧
      (scratch (calls ++ [c])).length = sizeofDecBuf ∧
      (scratch (calls ++ [c])).getLast? = some 0 := by
  have hbuf : ∀ {db : List UInt8}, DecBuf db →
      db.length = sizeofDecBuf ∧ db.getLast? = some 0 := by
    rintro _ ⟨s, hs, rfl⟩
    rw [List.length_append, List.getLast?_append]
    exact ⟨hs, rfl⟩
  have hsizes := c.sizes (decBuf_scratch calls)
  refine ⟨fun el len n room h => hsizes.fits _ h, fun buf h => ?_, hbuf (decBuf_scratch _)⟩
  have hscan : DecBuf buf := hsizes.fits _ h
  exact ⟨(hbuf hscan).1, (hbuf hscan).2, length_cstr_lt hscan⟩

end Rheap
end Osrv
