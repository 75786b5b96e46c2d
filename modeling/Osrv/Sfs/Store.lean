import Osrv.Sfs.Value

/-!
# The serialiser

`store` is the function of that name in `sfs.c`. It hands its output to a
callback record by record, so it is modelled as the list of `Record`s it passes
to `api->store`. The sinks that write a stream (`mem_store.c`, `fd_store.c`,
`hcstore.c`) all turn a record into an eight-byte header followed by the
payload. `Record.bytes` is that rendering and `emit` the stream of a value.

`SEXP.nodes` lists the objects `store` visits. Properties of everything a value
consists of, as far as the serialiser is concerned, are stated over it.
-/

namespace Osrv
namespace Sfs

open Bytes

/-! ### Records -/

def SFS_EMPTY_ENV : ℕ := 0xf0000000000000
def SFS_GLOBAL_ENV : ℕ := 0xf0000000000001
def SFS_BASE_ENV : ℕ := 0xf0000000000002

/-- The arguments of one call of `api->store`. `buf` is the memory the pointer
leads to, or `none` for a null pointer. -/
structure Record where
  ts : SexpType
  el : ℕ
  len : ℕ
  buf : Option (List UInt8)

namespace Record

/-- The header word: the length above the type code, in 64 bits. -/
def hdr (r : Record) : ℕ := (r.len <<< 8 ||| r.ts.code) % 2 ^ 64

/-- The number of payload bytes, `len *= el` in 64 bits. -/
def size (r : Record) : ℕ := r.len * r.el % 2 ^ 64

def payload (r : Record) : List UInt8 :=
  match r.buf with
  | some b => b.take r.size
  | none => []

/-- The header and the payload as a stream sink writes them. -/
def bytes (r : Record) : List UInt8 := le 8 r.hdr ++ r.payload

end Record

/-! ### Walking a value -/

/-- The types for which `store` writes the attributes. -/
def Datum.storesAttrib : Datum → Bool
  | .atoms _ _ | .strings _ | .generic _ => true
  | .unknown .S4SXP => true
  | _ => false

/-- The code an environment is stored under. -/
def Environment.code : Environment → ℕ
  | R_GlobalEnv => SFS_GLOBAL_ENV
  | R_EmptyEnv => SFS_EMPTY_ENV
  | R_BaseEnv => SFS_BASE_ENV
  | other _ => 0

def storeString (c : Charsxp) : Record :=
  ⟨.CHARSXP, 1, (CHAR c).length + 1, some (CHAR c).terminated⟩

mutual

/-- The calls `store` makes for a value. A bare `CHARSXP` falls through to the
default branch. -/
def store : SEXP → List Record
  | .NULL => [⟨.NILSXP, 0, 0, none⟩]
  | .symbol p => [⟨.SYMSXP, 1, if p.bytes ≠ [] then p.length + 1 else 0, some p.terminated⟩]
  | .charsxp _ => [⟨.CHARSXP, 0, 0, none⟩]
  | .environment e => [⟨.ENVSXP, 0, e.code, none⟩]
  | .object a _ _ u =>
    -- the attributes first, if the type has them stored and there are any
    (if u.storesAttrib ∧ a.length ≠ 0 then ⟨.ATTRSXP, 0, a.length, none⟩ :: storeCells a
      else []) ++ storeDatum u

/-- The second `switch` of `store`: the object itself. -/
def storeDatum : Datum → List Record
  | .atoms t xs => [⟨t.type, t.el, xs.length, some (unblocks xs)⟩]
  | .strings xs => ⟨.STRSXP, 0, xs.length, none⟩ :: xs.map storeString
  | .generic xs => ⟨.VECSXP, 0, xs.length, none⟩ :: storeElts xs
  | .cons lang tag car r =>
    ⟨(Datum.cons lang tag car r).type, 0, r.length + 1, none⟩
      :: (store tag ++ store car ++ storeCells r)
  | .closure f _ b e => ⟨.CLOSXP, 0, 3, none⟩ :: (store f ++ store b ++ store e)
  | .unknown t => [⟨t.type, 0, 0, none⟩]

/-- The loop over the cells of a pairlist: tag and value of each. -/
def storeCells : Cells → List Record
  | .nil => []
  | .cons _ tag car r => store tag ++ store car ++ storeCells r

/-- The loop over the elements of a generic vector. -/
def storeElts : List SEXP → List Record
  | [] => []
  | x :: xs => store x ++ storeElts xs

end

/-- The byte stream of a list of records. -/
def wire (rs : List Record) : List UInt8 := rs.flatMap Record.bytes

/-- **The serialised stream** of a value. -/
def emit (v : SEXP) : List UInt8 := wire (store v)

@[simp] theorem wire_nil : wire [] = [] := rfl

@[simp] theorem wire_cons (r : Record) (rs : List Record) : wire (r :: rs) = r.bytes ++ wire rs :=
  rfl

@[simp] theorem wire_append (rs rs' : List Record) : wire (rs ++ rs') = wire rs ++ wire rs' :=
  List.flatMap_append

/-! ### What the serialiser visits -/

mutual

/-- The objects `store` is called on, the value itself first. -/
def SEXP.nodes : SEXP → List SEXP
  | .object a o s u =>
    .object a o s u :: ((if u.storesAttrib then a.nodes else []) ++ u.nodes)
  | x => [x]

def Datum.nodes : Datum → List SEXP
  | .generic xs => nodesElts xs
  | .cons _ tag car r => tag.nodes ++ car.nodes ++ r.nodes
  | .closure f _ b e => f.nodes ++ b.nodes ++ e.nodes
  | _ => []

def Cells.nodes : Cells → List SEXP
  | .nil => []
  | .cons _ tag car r => tag.nodes ++ car.nodes ++ r.nodes

def nodesElts : List SEXP → List SEXP
  | [] => []
  | x :: xs => x.nodes ++ nodesElts xs

end

theorem SEXP.mem_nodes_self (v : SEXP) : v ∈ v.nodes := by
  cases v <;> simp [SEXP.nodes]

/-! ### Sizes the format can carry -/

/-- The decode buffer of `decode_one`. -/
def sizeofDecBuf : ℕ := 8192

/-- The strings of a datum, with their terminators, fit the decode buffer and
its length fits the header. -/
def Datum.Fits : Datum → Prop
  | .atoms _ xs => xs.length < 2 ^ 56
  | .strings xs => xs.length < 2 ^ 56 ∧ ∀ c ∈ xs, (CHAR c).length + 1 < sizeofDecBuf
  | .generic xs => xs.length < 2 ^ 56
  | .cons _ _ _ r => r.length + 1 < 2 ^ 56
  | _ => True

/-- The sizes of one object fit: the name of a symbol, with its terminator, the
decode buffer, and every length the header. -/
def SEXP.Fits : SEXP → Prop
  | .symbol p => p.length + 1 < sizeofDecBuf
  | .object a _ _ u => (u.storesAttrib → a.length < 2 ^ 56) ∧ u.Fits
  | _ => True

/-- **Storable values**: every object fits, and `CHARSXP`s occur only as
elements of character vectors. -/
structure Storable (v : SEXP) : Prop where
  /-- Lengths and strings fit. -/
  fits : ∀ x ∈ v.nodes, x.Fits
  /-- A `CHARSXP` is not a value of its own in R. -/
  value : ∀ x ∈ v.nodes, TYPEOF x ≠ .CHARSXP

/-! ### Headers and payloads -/

theorem SexpType.code_lt {t : SexpType} (h : ∀ ts, t ≠ unassigned ts) : t.code < 256 := by
  cases t <;> first | decide | exact absurd rfl (h _)

/-- A header carries its two fields without loss. -/
theorem Record.hdr_eq (r : Record) (ht : ∀ ts, r.ts ≠ .unassigned ts) (hl : r.len < 2 ^ 56) :
    r.hdr = r.len * 256 + r.ts.code := by
  have hc : r.ts.code < 2 ^ 8 := SexpType.code_lt ht
  rw [Record.hdr, ← Nat.shiftLeft_add_eq_or_of_lt hc, Nat.shiftLeft_eq]
  exact Nat.mod_eq_of_lt (by omega)

theorem Record.hdr_lt (r : Record) : r.hdr < 2 ^ 64 := Nat.mod_lt _ (by decide)

theorem Record.hdr_mod (r : Record) (ht : ∀ ts, r.ts ≠ .unassigned ts) (hl : r.len < 2 ^ 56) :
    r.hdr % 256 = r.ts.code := by
  have hc := SexpType.code_lt ht
  rw [Record.hdr_eq r ht hl]
  omega

theorem Record.hdr_shift (r : Record) (ht : ∀ ts, r.ts ≠ .unassigned ts) (hl : r.len < 2 ^ 56) :
    r.hdr >>> 8 = r.len := by
  have hc := SexpType.code_lt ht
  rw [Record.hdr_eq r ht hl, Nat.shiftRight_eq_div_pow]
  omega

/-- The payload of a vector of plain memory is its whole memory image. -/
theorem payload_atoms {t : AtomType} {xs : List (BitVec (8 * t.el))} (h : xs.length < 2 ^ 56) :
    (⟨t.type, t.el, xs.length, some (unblocks xs)⟩ : Record).payload = unblocks xs ∧
      xs.length * t.el % 2 ^ 64 = xs.length * t.el := by
  have hsize : xs.length * t.el % 2 ^ 64 = xs.length * t.el := by
    refine Nat.mod_eq_of_lt ?_
    calc xs.length * t.el ≤ xs.length * 16 := Nat.mul_le_mul_left _ t.el_le
      _ < 2 ^ 64 := by omega
  refine ⟨?_, hsize⟩
  change (unblocks xs).take (xs.length * t.el % 2 ^ 64) = _
  rw [hsize, ← length_unblocks, List.take_length]

theorem payload_text {s : CString} (ts : SexpType) (h : s.length + 1 < sizeofDecBuf) :
    (⟨ts, 1, s.length + 1, some s.terminated⟩ : Record).payload = s.terminated := by
  have hsize : (s.length + 1) * 1 % 2 ^ 64 = s.terminated.length := by
    simp only [CString.length_terminated, sizeofDecBuf] at h ⊢
    omega
  change s.terminated.take ((s.length + 1) * 1 % 2 ^ 64) = _
  rw [hsize, List.take_length]

end Sfs
end Osrv
