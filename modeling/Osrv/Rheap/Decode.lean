import Osrv.Rheap.Machine

/-!
# The deserialiser over R's memory

`decode_one` and `sfs_load` of `sfs.c` with every object they make, protect, look at and
change. The two functions call each other: the branches of `decode_one` take the
loader they recurse into as an argument, and `sfs_load` ties the knot with a bound on
the nesting depth.
-/

namespace Osrv
namespace Rheap

open Bytes Sfs

variable {σ : Type} (R : Runtime) (src : Source σ)

/-! ### The branches of `decode_one` -/

/-- The vectors of plain memory. -/
def decodeAtoms (t : AtomType) (len : ℕ) : Act σ Ref := do
  let res ← allocVector R t.type len
  fetchElements src t len res
  return res

/-- The text of a symbol or string record, taken from `dec_buf` or from a `malloc`ed
block. -/
def decodeText (noMemory : ℕ → RError) (len : ℕ) : Act σ CString :=
  if len < sizeofDecBuf then do
    fetchDecBuf src len
    let m ← get
    log (.scan m.dec_buf)
    return cstr m.dec_buf
  else do
    -- the block is not filled: nothing is fetched for a long text
    match ← malloc R len with
    | none => rf_error (noMemory len)
    | some buf => return cstr buf

def decodeSymbol (len : ℕ) : Act σ Ref :=
  if len = 0 then return R_MissingArg
  else do
    let s ← decodeText R src .noSymbolMemory len
    install R s

def decodeString (len : ℕ) : Act σ Ref := do
  let s ← decodeText R src .noStringMemory len
  mkChar R s

section Load

variable (load : Act σ Ref)

/-- The loop of the `VECSXP` and `STRSXP` branches, with `n` of the elements to come from
the `i`-th on. -/
def eltLoop (set : Ref → ℕ → Ref → Act σ Unit) (res : Ref) : ℕ → ℕ → Act σ Unit
  | _, 0 => pure ()
  | i, n + 1 => do
    let v ← load
    set res i v
    eltLoop set res (i + 1) n

def decodeElts (t : SexpType) (set : Ref → ℕ → Ref → Act σ Unit) (len : ℕ) : Act σ Ref := do
  let res ← allocVector R t len
  PROTECT res
  eltLoop load set res 0 len
  UNPROTECT 1
  return res

/-- A field of a closure. -/
def closureField (set : Ref → Ref → Act σ Unit) (res : Ref) : Act σ Unit := do
  let v ← load
  if v ≠ R_NilValue then set res v else pure ()

def decodeClosure : Act σ Ref := do
  let res ← allocClosure R
  PROTECT res
  closureField load SET_FORMALS res
  closureField load SET_BODY res
  closureField load SET_CLOENV res
  UNPROTECT 1
  return res

/-- One cell of a pairlist with its tag, each left on the protect stack. -/
def decodeCell (lang : Bool) : Act σ Ref := do
  let tag ← load
  PROTECT tag
  let val ← load
  PROTECT val
  let x ← CONS R lang val
  PROTECT x
  (if tag ≠ R_NilValue then SET_TAG x tag else pure ())
  return x

/-- The loop of the pairlist branches behind the first cell, with the last cell `last`. The
code tells the first round by `at == R_NilValue`, which holds in no later one. -/
def cellLoop (lang : Bool) : Ref → ℕ → Act σ Unit
  | _, 0 => pure ()
  | last, n + 1 => do
    let x ← decodeCell R load lang
    SETCDR last x
    UNPROTECT 3
    cellLoop lang x n

/-- The pairlist branches. The entries of the first cell stay on the protect stack up to
the end. -/
def decodeCells (lang : Bool) : ℕ → Act σ Ref
  | 0 => return R_NilValue
  | n + 1 => do
    let res ← decodeCell R load lang
    cellLoop R load lang res n
    -- those of the first cell
    UNPROTECT 3
    return res

/-- The `ENVSXP` branch. -/
def decodeEnv (len : ℕ) : Act σ Ref :=
  if len = SFS_GLOBAL_ENV then return R_GlobalEnv
  else if len = SFS_EMPTY_ENV then return R_EmptyEnv
  else if len = SFS_BASE_ENV then return R_BaseEnv
  else do
    rf_warning "Custom environments are not serialized."
    return R_BaseEnv

/-- The `switch` of `decode_one`. -/
def decodeSwitch (ts len : ℕ) : Act σ Ref :=
  match SexpType.ofCode ts with
  | .NILSXP => return R_NilValue
  | .INTSXP => decodeAtoms R src .INTSXP len
  | .LGLSXP => decodeAtoms R src .LGLSXP len
  | .REALSXP => decodeAtoms R src .REALSXP len
  | .CPLXSXP => decodeAtoms R src .CPLXSXP len
  | .SYMSXP => decodeSymbol R src len
  | .VECSXP => decodeElts R load .VECSXP SET_VECTOR_ELT len
  | .STRSXP => decodeElts R load .STRSXP SET_STRING_ELT len
  | .CHARSXP => decodeString R src len
  | .CLOSXP => decodeClosure R load
  | .ATTRSXP | .LISTSXP => decodeCells R load false len
  | .LANGSXP => decodeCells R load true len
  | .ENVSXP => decodeEnv len
  | _ => rf_error (.unimplemented ts)

/-- `decode_one`. -/
def decode_one (hdr : ℕ) : Act σ Ref := decodeSwitch R src load (hdr % 256) (hdr >>> 8)

/-! ### `sfs_load` -/

/-- The loop that looks for the `class` attribute, down to a number of cells. -/
def classLoop (res : Ref) : ℕ → Ref → Act σ Unit
  | 0, _ => throw .spins
  | n + 1, c =>
    if c = R_NilValue then pure ()
    else do
      let tag ← TAG c
      if tag = R_ClassSymbol then SET_OBJECT res
      else do
        let c' ← CDR c
        classLoop res n c'

/-- The attributes, when the first header announces some, and the header of the
object itself. -/
def loadPrefix (hdr : ℕ) : Act σ (Ref × ℕ) :=
  if SexpType.ofCode (hdr % 256) = .ATTRSXP then do
    let attr ← decode_one R src load hdr
    (if attr ≠ R_NilValue then PROTECT attr else pure ())
    -- the header of the object itself
    let hdr' ← fetchHdr src
    return (attr, hdr')
  else return (R_NilValue, hdr)

/-- The attributes are given to the object. More cells than there are objects would not
come to an end. -/
def setAttributes (hdr : ℕ) (attr res : Ref) : Act σ Unit := do
  let m ← get
  log (.attributed (hdr % 256) (hdr >>> 8) m.text)
  classLoop res (m.heap.top + 1) attr
  PROTECT res
  SET_ATTRIB res attr
  -- the object and its attributes
  UNPROTECT 2

/-- `sfs_load` behind its first header. -/
def afterHdr (hdr : ℕ) : Act σ Ref := do
  let p ← loadPrefix R src load hdr
  let res ← decode_one R src load p.2
  (if p.1 ≠ R_NilValue then setAttributes p.2 p.1 res else pure ())
  log (.use res)
  return res

/-- The body of `sfs_load`. -/
def loadBody : Act σ Ref := do
  let hdr ← fetchHdr src
  afterHdr R src load hdr

end Load

/-- `sfs_load`, down to a nesting depth. -/
def sfs_load : ℕ → Act σ Ref
  | 0 => throw .tooDeep
  | depth + 1 => loadBody R src (sfs_load depth)

end Rheap
end Osrv
