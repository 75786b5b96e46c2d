import Osrv.Obj.Refine
import Osrv.Sfs.Load

/-!
# The R interface to the object store

`C_put`, `C_get` and `C_clean` of `robj.c`. An object from R is kept as the value
itself, and for a raw vector the data pointer leads into it. `C_get` remembers the
value that it has made of the bytes of an entry, so that entries change here after
they have been added.

An error of R leaves the function. What it has done to the store by then stays.
-/

namespace Osrv
namespace Obj

open Bytes Heap Sfs

/-- The store with the data and the values that the program keeps in it. -/
abbrev Objects : Type := Store (Option (List UInt8)) SEXP

/-- The bytes of a raw vector. -/
def RAW : SEXP → Option (List UInt8)
  | .object _ _ _ (.atoms .RAWSXP xs) => some (unblocks xs)
  | _ => none

/-- A raw vector of the given bytes. -/
def rawVector (bs : List UInt8) : SEXP :=
  (Datum.atoms .RAWSXP (blocks AtomType.RAWSXP.el bs.length bs)).fresh

/-- `C_put`. Without SFS the value must be a raw vector. -/
def C_put (key : CString) (sWhat : SEXP) (use_sfs : Bool) (s : Objects) : Objects :=
  if use_sfs then obj_add key (some sWhat) none 0 s
  else
    match RAW sWhat with
    | none => s
    | some bytes => obj_add key (some sWhat) (some bytes) bytes.length s

/-- What R gives to a call of `C_get`: its services, what an earlier load left in the
buffer of the deserialiser, and the contents of a vector that was just allocated. -/
structure RSession where
  runtime : Runtime
  dec_buf : List UInt8
  fresh : Memory

/-- The value that `C_get` makes of an entry without one: nothing behind the outer
option stands for a null pointer that is read, behind the inner one for an error. -/
def materialise (r : RSession) (use_sfs : Bool) (len : ℕ) (obj : Option (List UInt8)) :
    Option (Option SEXP) :=
  if use_sfs then
    match obj with
    -- the first thing that is fetched is a header
    | none => if len < 8 then some none else none
    | some bytes =>
      if bytes.length < len then none
      else
        match C_mem_restore r.runtime (bytes.take len) r.dec_buf with
        | .ok v _ => some (some v)
        | .error _ _ => some none
  else if r.runtime.allocVector .RAWSXP len then
    match obj with
    | none => some (some (rawVector (read r.fresh len)))
    | some bytes =>
      if bytes.length < len then none else some (some (rawVector (bytes.take len)))
  else some none

/-- R has to learn of a value that is kept, unless it is `R_NilValue`. -/
def preserve : SEXP → List (RCall SEXP)
  | .NULL => []
  | v => [.R_PreserveObject v]

/-- Keeps a value in an entry. -/
def keep (a : Addr) (cell : Cell (Entry (Option (List UInt8)) SEXP)) (v : SEXP) (s : Objects) :
    Option Objects := do
  let heap ← s.heap.write a { cell with val := { cell.val with sWhat := some v } }
  pure { s with heap := heap, rcalls := s.rcalls ++ preserve v }

/-- `C_get`. The outcome is the value, or nothing for an error or a missing key. -/
def C_get (r : RSession) (key : CString) (use_sfs rm : Bool) (s : Objects) :
    Option (Option SEXP × Objects) := do
  let (o, s) ← obj_get key rm s
  match o with
  | none => pure (some .NULL, s)
  | some a =>
    let cell ← s.heap.load a
    match cell.val.sWhat with
    | some v => pure (some v, s)
    | none =>
      -- the object is made of the data, and kept if the entry is
      match ← materialise r use_sfs cell.val.len cell.val.obj with
      | none => pure (none, s)
      | some v =>
        if rm then pure (some v, s)
        else
          let s ← keep a cell v s
          pure (some v, s)

/-- `C_clean` -/
def C_clean (s : Objects) : Option Objects := obj_gc s

/-! ### What is kept in an entry -/

section Spec

variable {s s' : Objects} {xs ys : Entries (Option (List UInt8)) SEXP}

/-- An entry that is found lies in the store. -/
theorem Rep.exists_found (h : Rep s xs ys) {key : CString} {a : Addr}
    (ha : (xs.find? (hasKey key)).map Prod.fst = some a) :
    ∃ pre e post next, xs = pre ++ (a, e) :: post ∧ e.key = key ∧
      s.heap.cells a = some ⟨e, next⟩ := by
  obtain ⟨x, hx, rfl⟩ := Option.map_eq_some_iff.mp ha
  have hmem := List.mem_of_find?_eq_some hx
  obtain ⟨pre, post, hsplit⟩ := List.append_of_mem hmem
  obtain ⟨next, hcell⟩ := h.root.cells_of_mem hmem
  have hkey : hasKey key x = true := List.find?_some hx
  exact ⟨pre, x.2, post, next, hsplit, by simpa [hasKey] using hkey, hcell⟩

/-- **Keeping a value** changes one entry. -/
theorem Rep.keep {pre post : Entries (Option (List UInt8)) SEXP} {a : Addr}
    {e : Entry (Option (List UInt8)) SEXP} {next : Ptr} (h : Rep s (pre ++ (a, e) :: post) ys)
    (hcell : s.heap.cells a = some ⟨e, next⟩) (v : SEXP) :
    ∃ s', keep a ⟨e, next⟩ v s = some s' ∧
      Rep s' (pre ++ (a, { e with sWhat := some v }) :: post) ys := by
  obtain ⟨heap', hwrite, hcells, -⟩ := write_eq hcell
    (⟨{ e with sWhat := some v }, next⟩ : Cell (Entry (Option (List UInt8)) SEXP))
  have haddrs : addrs (pre ++ (a, { e with sWhat := some v }) :: post ++ ys)
      = addrs (pre ++ (a, e) :: post ++ ys) := by
    simp [addrs]
  have hpool : a ∉ addrs ys :=
    h.disjoint (List.mem_map.mpr ⟨(a, e), List.mem_append_right _ (List.mem_cons_self ..), rfl⟩)
  refine ⟨{ s with heap := heap', rcalls := s.rcalls ++ preserve v }, ?_, ?_, ?_, ?_, ?_⟩
  · rw [Obj.keep, hwrite]
    rfl
  · exact h.root.set_val (x := (a, e)) h.nodup_store hcell hcells
  · exact h.pool.update hcells hpool
  · rw [haddrs]
    exact h.nodup
  · intro b hb
    rw [haddrs]
    by_cases hba : b = a
    · exact h.all b (by rw [hba, hcell]; exact Option.some_ne_none _)
    · refine h.all b ?_
      rwa [← cells_update hcells hba]

end Spec

end Obj
end Osrv
