import Mathlib.Algebra.BigOperators.Group.Finset.Piecewise
import Mathlib.Algebra.Order.BigOperators.Group.List
import Osrv.Sfs.MemStore

/-!
# Statistics of a value

`stat_store.c` is the sink that stores nothing: it counts the records that `sfs_store`
makes and adds up their sizes, by type code. It multiplies the length of a record by the
size of its elements whether or not there is a payload, where the other sinks look at the
pointer. The two agree because `store` calls every record without a payload one of elements
of no size (`Sized`), so that the statistics are those of the stream
(`stat_store_agrees`).
-/

namespace Osrv
namespace Sfs
namespace Stat

open Bytes MemStore

/-! ### The sink -/

/-- `struct store_api`. The counters have 64 bits. -/
structure StoreApi where
  cs : ℕ → ℕ
  ls : ℕ → ℕ

/-- The index of a record in the counters, an `unsigned char`. -/
def index (r : Record) : ℕ := r.ts.code % 256

/-- The callback. -/
def add (api : StoreApi) (r : Record) : StoreApi where
  cs := Function.update api.cs (index r) ((api.cs (index r) + 1) % 2 ^ 64)
  ls := Function.update api.ls (index r) ((api.ls (index r) + r.size) % 2 ^ 64)

/-- The counters at the start. -/
def StoreApi.start : StoreApi := ⟨fun _ => 0, fun _ => 0⟩

/-- What the counters say of a list of records. -/
def stat_all (rs : List Record) : StoreApi := rs.foldl add .start

/-- What they say of a value. -/
def C_stat_store (sWhat : SEXP) : StoreApi := stat_all (store sWhat)

/-! ### The stream -/

/-- The records of a type. -/
def ofType (ts : ℕ) (rs : List Record) : List Record := rs.filter fun r => index r = ts

/-- The bytes of their payloads. -/
def payloads (rs : List Record) : ℕ := (rs.map fun r => r.payload.length).sum

/-- A record whose payload is as long as the header and the size of its elements say. -/
def Sized (r : Record) : Prop := r.payload.length = r.size

/-- A record without a payload has elements of no size. -/
theorem sized_none (ts : SexpType) (len : ℕ) : Sized ⟨ts, 0, len, none⟩ := by
  show 0 = len * 0 % 2 ^ 64
  rw [Nat.mul_zero, Nat.zero_mod]

theorem sized_some {ts : SexpType} {el len : ℕ} {buf : List UInt8} (h : len * el ≤ buf.length) :
    Sized ⟨ts, el, len, some buf⟩ := by
  show (buf.take (len * el % 2 ^ 64)).length = len * el % 2 ^ 64
  rw [List.length_take_of_le ((Nat.mod_le _ _).trans h)]

theorem sized_storeString (c : Charsxp) : Sized (storeString c) := by
  refine sized_some ?_
  rw [Nat.mul_one, CString.length_terminated]

mutual

/-- **What `store` passes to a sink**: every record is sized. -/
theorem sized_store (v : SEXP) : ∀ r ∈ store v, Sized r := by
  intro r hr
  cases v with
  | NULL =>
    rw [List.mem_singleton.mp hr]
    exact sized_none _ _
  | symbol p =>
    rw [List.mem_singleton.mp hr]
    refine sized_some ?_
    rw [Nat.mul_one, CString.length_terminated]
    split
    · exact Nat.le_refl _
    · exact Nat.zero_le _
  | charsxp c =>
    rw [List.mem_singleton.mp hr]
    exact sized_none _ _
  | environment e =>
    rw [List.mem_singleton.mp hr]
    exact sized_none _ _
  | object a o s u =>
    rw [store] at hr
    cases List.mem_append.mp hr with
    | inl hattrib =>
      split at hattrib
      · cases List.mem_cons.mp hattrib with
        | inl heq =>
          rw [heq]
          exact sized_none _ _
        | inr hmem => exact sized_storeCells a r hmem
      · exact absurd hattrib List.not_mem_nil
    | inr hdatum => exact sized_storeDatum u r hdatum

theorem sized_storeDatum (u : Datum) : ∀ r ∈ storeDatum u, Sized r := by
  intro r hr
  cases u with
  | atoms t xs =>
    rw [List.mem_singleton.mp hr]
    refine sized_some ?_
    rw [length_unblocks]
  | strings xs =>
    cases List.mem_cons.mp hr with
    | inl heq =>
      rw [heq]
      exact sized_none _ _
    | inr hmem =>
      obtain ⟨c, -, rfl⟩ := List.mem_map.mp hmem
      exact sized_storeString c
  | generic xs =>
    cases List.mem_cons.mp hr with
    | inl heq =>
      rw [heq]
      exact sized_none _ _
    | inr hmem => exact sized_storeElts xs r hmem
  | cons lang tag car cdr =>
    cases List.mem_cons.mp hr with
    | inl heq =>
      rw [heq]
      exact sized_none _ _
    | inr hmem =>
      rw [List.mem_append, List.mem_append] at hmem
      obtain (htag | hcar) | hcdr := hmem
      · exact sized_store tag r htag
      · exact sized_store car r hcar
      · exact sized_storeCells cdr r hcdr
  | closure f compiled b e =>
    cases List.mem_cons.mp hr with
    | inl heq =>
      rw [heq]
      exact sized_none _ _
    | inr hmem =>
      rw [List.mem_append, List.mem_append] at hmem
      obtain (hf | hb) | he := hmem
      · exact sized_store f r hf
      · exact sized_store b r hb
      · exact sized_store e r he
  | unknown t =>
    rw [List.mem_singleton.mp hr]
    exact sized_none _ _

theorem sized_storeCells (c : Cells) : ∀ r ∈ storeCells c, Sized r := by
  intro r hr
  cases c with
  | nil => exact absurd hr List.not_mem_nil
  | cons lang tag car cdr =>
    rw [storeCells, List.mem_append, List.mem_append] at hr
    obtain (htag | hcar) | hcdr := hr
    · exact sized_store tag r htag
    · exact sized_store car r hcar
    · exact sized_storeCells cdr r hcdr

theorem sized_storeElts (xs : List SEXP) : ∀ r ∈ storeElts xs, Sized r := by
  intro r hr
  cases xs with
  | nil => exact absurd hr List.not_mem_nil
  | cons x xs =>
    rw [storeElts, List.mem_append] at hr
    obtain hx | hxs := hr
    · exact sized_store x r hx
    · exact sized_storeElts xs r hxs

end

/-! ### Counting -/

section Count

variable {rs : List Record}

theorem ofType_cons (ts : ℕ) (r : Record) (rs : List Record) :
    ofType ts (r :: rs) = if index r = ts then r :: ofType ts rs else ofType ts rs := by
  rw [ofType, List.filter_cons]
  simp only [decide_eq_true_eq]
  rfl

/-- **The counters** after some records. -/
theorem foldl_add (h : ∀ r ∈ rs, Sized r) (api : StoreApi) (ts : ℕ) :
    (rs.foldl add api).cs ts % 2 ^ 64 = (api.cs ts + (ofType ts rs).length) % 2 ^ 64 ∧
      (rs.foldl add api).ls ts % 2 ^ 64 = (api.ls ts + payloads (ofType ts rs)) % 2 ^ 64 := by
  induction rs generalizing api with
  | nil => exact ⟨rfl, rfl⟩
  | cons r rs ih =>
    obtain ⟨hcs, hls⟩ := ih (fun r hr => h r (List.mem_cons_of_mem _ hr)) (add api r)
    have hsized : r.payload.length = r.size := h r List.mem_cons_self
    rw [List.foldl_cons, hcs, hls, ofType_cons]
    by_cases heq : index r = ts
    · subst heq
      have hc : (add api r).cs (index r) = (api.cs (index r) + 1) % 2 ^ 64 :=
        Function.update_self _ _ _
      have hl : (add api r).ls (index r) = (api.ls (index r) + r.size) % 2 ^ 64 :=
        Function.update_self _ _ _
      rw [hc, hl, if_pos rfl, List.length_cons, payloads, payloads, List.map_cons, List.sum_cons,
        hsized]
      omega
    · have hc : (add api r).cs ts = api.cs ts := Function.update_of_ne (Ne.symm heq) _ _
      have hl : (add api r).ls ts = api.ls ts := Function.update_of_ne (Ne.symm heq) _ _
      rw [hc, hl, if_neg heq]
      exact ⟨rfl, rfl⟩

/-- A counter holds a number of 64 bits. -/
theorem foldl_add_lt (api : StoreApi) (ts : ℕ) (hcs : api.cs ts < 2 ^ 64)
    (hls : api.ls ts < 2 ^ 64) :
    (rs.foldl add api).cs ts < 2 ^ 64 ∧ (rs.foldl add api).ls ts < 2 ^ 64 := by
  induction rs generalizing api with
  | nil => exact ⟨hcs, hls⟩
  | cons r rs ih =>
    have hpos : 0 < 2 ^ 64 := Nat.two_pow_pos 64
    refine ih _ ?_ ?_
    · show Function.update api.cs _ _ ts < _
      rw [Function.update_apply]
      split
      · exact Nat.mod_lt _ hpos
      · exact hcs
    · show Function.update api.ls _ _ ts < _
      rw [Function.update_apply]
      split
      · exact Nat.mod_lt _ hpos
      · exact hls

theorem stat_all_eq (h : ∀ r ∈ rs, Sized r) (ts : ℕ) :
    (stat_all rs).cs ts = (ofType ts rs).length % 2 ^ 64 ∧
      (stat_all rs).ls ts = payloads (ofType ts rs) % 2 ^ 64 := by
  obtain ⟨hcs, hls⟩ := foldl_add h .start ts
  obtain ⟨hcs', hls'⟩ := @foldl_add_lt rs .start ts (Nat.two_pow_pos 64) (Nat.two_pow_pos 64)
  have hzero : ∀ n, StoreApi.start.cs ts + n = n ∧ StoreApi.start.ls ts + n = n := fun n =>
    ⟨Nat.zero_add n, Nat.zero_add n⟩
  rw [Nat.mod_eq_of_lt hcs', (hzero _).1] at hcs
  rw [Nat.mod_eq_of_lt hls', (hzero _).2] at hls
  exact ⟨hcs, hls⟩

theorem index_lt (r : Record) : index r < 256 := Nat.mod_lt _ (by decide)

open Finset in
/-- A sum over the records, taken type by type. -/
theorem sum_ofType (f : Record → ℕ) (rs : List Record) :
    ∑ ts ∈ range 256, ((ofType ts rs).map f).sum = (rs.map f).sum := by
  induction rs with
  | nil => exact sum_eq_zero fun _ _ => rfl
  | cons r rs ih =>
    have hstep : ∀ ts, ((ofType ts (r :: rs)).map f).sum
        = (if index r = ts then f r else 0) + ((ofType ts rs).map f).sum := by
      intro ts
      rw [ofType_cons]
      split
      · rw [List.map_cons, List.sum_cons]
      · rw [Nat.zero_add]
    calc ∑ ts ∈ range 256, ((ofType ts (r :: rs)).map f).sum
        = ∑ ts ∈ range 256, ((if index r = ts then f r else 0) + ((ofType ts rs).map f).sum) :=
          sum_congr rfl fun ts _ => hstep ts
      _ = (∑ ts ∈ range 256, if index r = ts then f r else 0) + (rs.map f).sum := by
          rw [sum_add_distrib, ih]
      _ = f r + (rs.map f).sum := by
          rw [sum_ite_eq, if_pos (mem_range.mpr (index_lt r))]
      _ = ((r :: rs).map f).sum := by
          rw [List.map_cons, List.sum_cons]

/-- A record takes eight bytes for its header. -/
theorem length_wire (rs : List Record) : (wire rs).length = 8 * rs.length + payloads rs := by
  induction rs with
  | nil => rfl
  | cons r rs ih =>
    rw [wire_cons, List.length_append, ih, Record.bytes, List.length_append, length_le, payloads,
      payloads, List.map_cons, List.sum_cons, List.length_cons]
    omega

open Finset in
/-- **The length of a stream**, from the records of each type. -/
theorem length_wire_ofType (rs : List Record) :
    8 * (∑ ts ∈ range 256, (ofType ts rs).length) + ∑ ts ∈ range 256, payloads (ofType ts rs)
      = (wire rs).length := by
  have hlength : ∀ rs : List Record, rs.length = (rs.map fun _ => 1).sum := by
    intro rs
    rw [List.map_const', List.sum_replicate_nat, Nat.mul_one]
  have hcount : ∑ ts ∈ range 256, (ofType ts rs).length = rs.length := by
    rw [hlength rs, ← sum_ofType]
    exact sum_congr rfl fun ts _ => hlength _
  have hsize : ∑ ts ∈ range 256, payloads (ofType ts rs) = payloads rs := sum_ofType _ rs
  rw [hcount, hsize, length_wire]

theorem length_ofType_le (ts : ℕ) (rs : List Record) :
    (ofType ts rs).length + payloads (ofType ts rs) ≤ (wire rs).length := by
  have hcount : (ofType ts rs).length ≤ rs.length := (List.filter_sublist).length_le
  have hsize : payloads (ofType ts rs) ≤ payloads rs :=
    ((List.filter_sublist).map _).sum_le_sum fun _ _ => Nat.zero_le _
  rw [length_wire]
  omega

end Count

/-! ### The statistics are those of the stream -/

open Finset in
/-- **The statistics of a value.** For each type code the counters are the number of the
records of that type and of the bytes of their payloads in the stream that is collected
in memory, as numbers of 64 bits. So eight bytes for each record and the sizes make the
length of the stream. As long as the stream is shorter than 2^64 bytes, the counters are
these numbers themselves. -/
theorem stat_store_agrees (v : SEXP) :
    (∀ malloc verb, ∃ api, store_all malloc verb (store v) = some api ∧
      (api.full ++ [api.tail]).flatMap Lbuf.bytes = emit v) ∧
    (∀ ts, (C_stat_store v).cs ts = (ofType ts (store v)).length % 2 ^ 64 ∧
      (C_stat_store v).ls ts = payloads (ofType ts (store v)) % 2 ^ 64) ∧
    (8 * (∑ ts ∈ range 256, (C_stat_store v).cs ts) + ∑ ts ∈ range 256, (C_stat_store v).ls ts)
      % 2 ^ 64 = (emit v).length % 2 ^ 64 ∧
    ((emit v).length < 2 ^ 64 →
      (∀ ts, (C_stat_store v).cs ts = (ofType ts (store v)).length ∧
        (C_stat_store v).ls ts = payloads (ofType ts (store v))) ∧
      8 * (∑ ts ∈ range 256, (C_stat_store v).cs ts) + ∑ ts ∈ range 256, (C_stat_store v).ls ts
        = (emit v).length) := by
  have hstat : ∀ ts, (C_stat_store v).cs ts = (ofType ts (store v)).length % 2 ^ 64 ∧
      (C_stat_store v).ls ts = payloads (ofType ts (store v)) % 2 ^ 64 :=
    stat_all_eq (sized_store v)
  refine ⟨fun malloc verb => ?_, hstat, ?_, fun hlt => ?_⟩
  · obtain ⟨api, hrun, hholds⟩ := store_all_holds malloc verb (store v)
    exact ⟨api, hrun, hholds.bytes⟩
  · have hlen : (emit v).length = _ := (length_wire_ofType (store v)).symm
    rw [hlen]
    simp only [hstat]
    have hcount := sum_nat_mod (range 256) (2 ^ 64) fun ts => (ofType ts (store v)).length
    have hsize := sum_nat_mod (range 256) (2 ^ 64) fun ts => payloads (ofType ts (store v))
    omega
  · have hexact : ∀ ts, (C_stat_store v).cs ts = (ofType ts (store v)).length ∧
        (C_stat_store v).ls ts = payloads (ofType ts (store v)) := by
      intro ts
      have hle : (ofType ts (store v)).length + payloads (ofType ts (store v))
          ≤ (emit v).length := length_ofType_le ts (store v)
      obtain ⟨hcs, hls⟩ := hstat ts
      rw [hcs, hls]
      exact ⟨Nat.mod_eq_of_lt (by omega), Nat.mod_eq_of_lt (by omega)⟩
    refine ⟨hexact, ?_⟩
    simp only [hexact]
    exact length_wire_ofType (store v)

/-- The statistics of a raw vector of two bytes. -/
example : (C_stat_store (Datum.atoms .RAWSXP [1, 2]).fresh).cs 24 = 1 ∧
    (C_stat_store (Datum.atoms .RAWSXP [1, 2]).fresh).ls 24 = 2 := ⟨rfl, rfl⟩

end Stat
end Sfs
end Osrv
