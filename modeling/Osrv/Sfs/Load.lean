import Osrv.Sfs.Store

/-!
# The deserialiser

`decode_one` and `sfs_load` of `sfs.c`, run over any implementation of the
`fetch` callback (`FetchApi`). The state `Decoder` carries what the C code keeps
outside its arguments: the state of the callback, the static `dec_buf`, the
warnings raised, and the attributes attached to objects that R shares.

What the code asks of R and of the C library is a parameter, `Runtime`: whether
an allocation of a vector succeeds, and what a fresh `malloc`ed block holds.

The two functions call each other, so `decode_one` takes the loader it recurses
into as an argument and `sfs_load` ties the knot with a bound on the nesting
depth. Reaching the bound is the separate stop `tooDeep`, never a result of the
code. `C_mem_restore` runs over a raw vector with a bound no stream of its
length can exceed, every level of nesting costing a header.
-/

namespace Osrv
namespace Sfs

open Bytes

/-! ### Errors and callbacks -/

/-- The calls of `Rf_error`, and the errors of the R functions called. -/
inductive RError where
  | unimplemented (ts : ℕ)
  | noSymbolMemory (len : ℕ)
  | noStringMemory (len : ℕ)
  | readShort (need got : ℕ)
  | readFailed (strerror : String)
  | connectionClosed
  | allocVector (len : ℕ)
  | setStringElt
  | zeroLengthName
  | longName
  deriving DecidableEq, Repr

/-- The message of an error raised by the serialiser itself. -/
def RError.text : RError → String
  | unimplemented ts => "Unimplemented de-serialisation for type " ++ toString ts
  | noSymbolMemory len => "Cannot allocate memory for symbol (" ++ toString len ++ " bytes)"
  | noStringMemory len => "Cannot allocate memory for string (" ++ toString len ++ " bytes)"
  | readShort need got =>
    "Read error: need " ++ toString need ++ ", got " ++ toString got ++ "\n"
  | readFailed strerror => "read error: " ++ strerror
  | connectionClosed => "connection closed before all data was received"
  | allocVector len => "cannot allocate vector of length " ++ toString len
  | setStringElt => "Value of SET_STRING_ELT() must be a CHARSXP"
  | zeroLengthName => "attempt to use zero-length variable name"
  | longName => "variable names are limited to 10000 bytes"

/-- What one call of `fetch` does: it fills the destination, or raises an error
after a part of it. -/
inductive Fetched (σ : Type) where
  | got (bytes : List UInt8) (s : σ)
  | failed (part : List UInt8) (e : RError) (s : σ)

/-- An implementation of `struct fetch_api` with state `σ`. -/
structure FetchApi (σ : Type) where
  fetch : σ → ℕ → Fetched σ

/-- The services of R and of the C library. -/
structure Runtime where
  /-- Whether `allocVector(ts, len)` returns. -/
  allocVector : SexpType → ℕ → Bool
  /-- The memory from the start of the `k`-th scratch block of `len` bytes on,
  or `none` when `malloc` fails. -/
  malloc : ℕ → ℕ → Option (List UInt8)

/-- There is memory for the vector that an object is. -/
def Runtime.Makes (R : Runtime) : SEXP → Prop
  | .object _ _ _ (.atoms t xs) => R.allocVector t.type xs.length = true
  | .object _ _ _ (.strings xs) => R.allocVector .STRSXP xs.length = true
  | .object _ _ _ (.generic xs) => R.allocVector .VECSXP xs.length = true
  | _ => True

/-- There is memory for every vector of a value. -/
def Runtime.Allocates (R : Runtime) (v : SEXP) : Prop := ∀ x ∈ v.nodes, R.Makes x

/-! ### The decoder state -/

structure Decoder (σ : Type) where
  api : σ
  dec_buf : List UInt8
  /-- Scratch blocks requested so far. -/
  mallocs : ℕ
  warnings : List String
  /-- Attribute lists attached to objects R shares. -/
  shared : List (SEXP × Cells)

/-- Why a load stops without a value. -/
inductive Stop where
  | rerror (e : RError)
  | tooDeep
  deriving DecidableEq, Repr

abbrev Load (σ : Type) (α : Type) := EStateM Stop (Decoder σ) α

section Decode

variable {σ : Type} (R : Runtime) (api : FetchApi σ)

def rf_error {α : Type} (e : RError) : Load σ α := throw (.rerror e)

def rf_warning (text : String) : Load σ Unit :=
  modify fun st => { st with warnings := st.warnings ++ [text] }

/-- `api->fetch` into memory that is fresh or on the stack. -/
def fetch (len : ℕ) : Load σ (List UInt8) := fun st =>
  match api.fetch st.api len with
  | .got bs s => .ok bs { st with api := s }
  | .failed _ e s => .error (.rerror e) { st with api := s }

/-- `api->fetch` into `dec_buf`, which keeps a partial read. -/
def fetchDecBuf (len : ℕ) : Load σ Unit := fun st =>
  match api.fetch st.api len with
  | .got bs s => .ok () { st with api := s, dec_buf := bs ++ st.dec_buf.drop bs.length }
  | .failed part e s =>
    .error (.rerror e) { st with api := s, dec_buf := part ++ st.dec_buf.drop part.length }

/-- Reads a header word. -/
def fetchHdr : Load σ ℕ := do
  let bs ← fetch api 8
  return leVal bs

/-- `allocVector`, which does not return when it fails. -/
def allocVector (t : SexpType) (len : ℕ) : Load σ Unit :=
  if R.allocVector t len then pure () else rf_error (.allocVector len)

/-- `malloc` of a scratch block. -/
def malloc (len : ℕ) : Load σ (Option (List UInt8)) := fun st =>
  .ok (R.malloc st.mallocs len) { st with mallocs := st.mallocs + 1 }

/-- The longest name R gives a symbol. -/
def MAXIDSIZE : ℕ := 10000

/-- `Rf_install`, which does not return for an empty name or one that is too long. -/
def install (name : CString) : Load σ SEXP :=
  if name.length = 0 then rf_error .zeroLengthName
  else if name.length > MAXIDSIZE then rf_error .longName
  else return .symbol name

/-! ### The branches of `decode_one` -/

/-- The vectors of plain memory: the elements are fetched into the new vector. -/
def decodeAtoms (t : AtomType) (len : ℕ) : Load σ SEXP := do
  allocVector R t.type len
  let bs ← fetch api (len * t.el % 2 ^ 64)
  return (Datum.atoms t (blocks t.el len bs)).fresh

/-- The text of a symbol or string record. A record that does not fit `dec_buf`
has its text taken from a `malloc`ed block, into which nothing is fetched. -/
def decodeText (noMemory : ℕ → RError) (len : ℕ) : Load σ CString :=
  if len < sizeofDecBuf then do
    fetchDecBuf api len
    return cstr (← get).dec_buf
  else do
    match ← malloc R len with
    | none => rf_error (noMemory len)
    | some buf => return cstr buf

/-- The loop of the `VECSXP` branch. -/
def loadElts (load : Load σ SEXP) : ℕ → Load σ (List SEXP)
  | 0 => pure []
  | n + 1 => do
    let x ← load
    let xs ← loadElts load n
    return x :: xs

/-- The loop of the `STRSXP` branch. `SET_STRING_ELT` accepts `CHARSXP`s only. -/
def loadStrings (load : Load σ SEXP) : ℕ → Load σ (List Charsxp)
  | 0 => pure []
  | n + 1 => do
    match ← load with
    | .charsxp c =>
      let cs ← loadStrings load n
      return c :: cs
    | _ => rf_error .setStringElt

/-- The loop of the pairlist branches. Each cell is built with the type of the
record, so every cell of a call is a `LANGSXP`. -/
def loadCells (load : Load σ SEXP) (lang : Bool) : ℕ → Load σ Cells
  | 0 => pure .nil
  | n + 1 => do
    let tag ← load
    let val ← load
    let rest ← loadCells load lang n
    return .cons lang tag val rest

/-- The `switch` of `decode_one`, with `load` for `sfs_load`. -/
def decodeSwitch (load : Load σ SEXP) (ts len : ℕ) : Load σ SEXP :=
  match SexpType.ofCode ts with
  | .NILSXP => return .NULL
  | .INTSXP => decodeAtoms R api .INTSXP len
  | .LGLSXP => decodeAtoms R api .LGLSXP len
  | .REALSXP => decodeAtoms R api .REALSXP len
  | .CPLXSXP => decodeAtoms R api .CPLXSXP len
  | .SYMSXP =>
    if len = 0 then return R_MissingArg
    else do
      let s ← decodeText R api .noSymbolMemory len
      install s
  | .VECSXP => do
    allocVector R .VECSXP len
    let xs ← loadElts load len
    return (Datum.generic xs).fresh
  | .STRSXP => do
    allocVector R .STRSXP len
    let cs ← loadStrings load len
    return (Datum.strings cs).fresh
  | .CHARSXP => do
    let s ← decodeText R api .noStringMemory len
    return .charsxp (mkChar s)
  | .CLOSXP => do
    -- the fields of a new closure are `R_NilValue`, so storing that changes nothing
    let formals ← load
    let body ← load
    let cloenv ← load
    return (Datum.closure formals false body cloenv).fresh
  | .ATTRSXP | .LISTSXP => do
    let c ← loadCells load false len
    return c.toSEXP
  | .LANGSXP => do
    let c ← loadCells load true len
    return c.toSEXP
  | .ENVSXP =>
    if len = SFS_GLOBAL_ENV then return .environment .R_GlobalEnv
    else if len = SFS_EMPTY_ENV then return .environment .R_EmptyEnv
    else if len = SFS_BASE_ENV then return .environment .R_BaseEnv
    else do
      rf_warning "Custom environments are not serialized."
      return .environment .R_BaseEnv
  | _ => rf_error (.unimplemented ts)

/-- `decode_one`: the object a header announces. -/
def decode_one (load : Load σ SEXP) (hdr : ℕ) : Load σ SEXP :=
  decodeSwitch R api load (hdr % 256) (hdr >>> 8)

/-- `SET_OBJECT` for a `class` tag and `SET_ATTRIB`. On an object R shares they
change that object. -/
def setAttrib (res : SEXP) (attr : Cells) : Load σ SEXP :=
  match res with
  | .object _ o s u => return .object attr (attr.hasClass || o) s u
  | x => do
    modify fun st => { st with shared := st.shared ++ [(x, attr)] }
    return x

/-- The first step of `sfs_load`: an attribute list, when the first header
announces one, and the header of the object itself. -/
def loadPrefix (load : Load σ SEXP) (hdr : ℕ) : Load σ (Cells × ℕ) :=
  if SexpType.ofCode (hdr % 256) = .ATTRSXP then do
    let attr ← decode_one R api load hdr
    let hdr' ← fetchHdr api
    return (attr.cells, hdr')
  else return (.nil, hdr)

/-- The body of `sfs_load`, with `load` for the calls it leads to. -/
def loadBody (load : Load σ SEXP) : Load σ SEXP := do
  let hdr ← fetchHdr api
  let p ← loadPrefix R api load hdr
  let res ← decode_one R api load p.2
  if p.1.length ≠ 0 then setAttrib res p.1 else return res

/-- `sfs_load`, down to a nesting depth. -/
def sfs_load : ℕ → Load σ SEXP
  | 0 => throw .tooDeep
  | depth + 1 => loadBody R api (sfs_load depth)

end Decode

/-! ### Loading from memory -/

/-- `fetch_buf` of `mem_restore.c` and `robj.c`. The state is the unread part
of the raw vector. -/
def fetch_buf : FetchApi (List UInt8) where
  fetch s len :=
    if s.length < len then .failed [] (.readShort len s.length) s
    else .got (s.take len) (s.drop len)

/-- The state `C_mem_restore` starts from: the whole raw vector unread, and
whatever earlier loads left in `dec_buf`. -/
def Decoder.start (bytes dec_buf : List UInt8) : Decoder (List UInt8) where
  api := bytes
  dec_buf := dec_buf
  mallocs := 0
  warnings := []
  shared := []

/-- `C_mem_restore`. -/
def C_mem_restore (R : Runtime) (bytes dec_buf : List UInt8) :
    EStateM.Result Stop (Decoder (List UInt8)) SEXP :=
  sfs_load R fetch_buf (bytes.length + 1) (Decoder.start bytes dec_buf)

end Sfs
end Osrv
