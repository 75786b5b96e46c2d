import Osrv.Sfs.Callback

/-!
# The syntax of a stream

The records of a stream form a tree: a list record is followed by the records of its
elements, and an attribute record by those of its cells and the record of the object.
`Tree.wire` writes a tree out, and `Tree.eval` is what the decoder makes of one when
its bytes are there, over the scratch memory of the decoder alone.

Reading and evaluating are separated by two results. From the bytes of a tree the
decoder runs in lockstep with the evaluation of that tree (`lockstep_wire`), and a load
that succeeds has read the bytes of some tree (`sfs_load_reads_tree`). Hence what a load
returns is a matter of trees.
-/

namespace Osrv
namespace Sfs

open Bytes Lib

/-! ### Trees -/

/-- The text of a symbol or string record. Nothing follows the header of one that does
not fit `dec_buf`. -/
inductive Text where
  | short (bytes : List UInt8)
  | long (len : ℕ)

/-- The three records of cells. -/
inductive CellsType where
  | ATTRSXP | LISTSXP | LANGSXP
  deriving DecidableEq

mutual

/-- What one call of `sfs_load` reads. -/
inductive Tree where
  | plain (b : Body)
  | attributed (attr : Pairs) (b : Body)

/-- What one call of `decode_one` reads. The length is kept where the decoder does not
use it. -/
inductive Body where
  | null (len : ℕ)
  | atoms (t : AtomType) (len : ℕ) (bytes : List UInt8)
  | missingArg
  | symbol (text : Text)
  | string (text : Text)
  | generic (elts : Trees)
  | strings (elts : Trees)
  | closure (len : ℕ) (formals body cloenv : Tree)
  | cells (t : CellsType) (c : Pairs)
  | environment (len : ℕ)

inductive Trees where
  | nil
  | cons (t : Tree) (ts : Trees)

/-- Tags and values in turns. -/
inductive Pairs where
  | nil
  | cons (tag val : Tree) (c : Pairs)

end

def Text.len : Text → ℕ
  | .short bytes => bytes.length
  | .long len => len

def CellsType.type : CellsType → SexpType
  | ATTRSXP => .ATTRSXP
  | LISTSXP => .LISTSXP
  | LANGSXP => .LANGSXP

def Trees.length : Trees → ℕ
  | .nil => 0
  | .cons _ ts => ts.length + 1

def Pairs.length : Pairs → ℕ
  | .nil => 0
  | .cons _ _ c => c.length + 1

/-- The type code and the length that the header of a record announces. -/
def Body.ts : Body → SexpType
  | .null _ => .NILSXP
  | .atoms t _ _ => t.type
  | .missingArg | .symbol _ => .SYMSXP
  | .string _ => .CHARSXP
  | .generic _ => .VECSXP
  | .strings _ => .STRSXP
  | .closure _ _ _ _ => .CLOSXP
  | .cells t _ => t.type
  | .environment _ => .ENVSXP

def Body.len : Body → ℕ
  | .null len | .atoms _ len _ | .closure len _ _ _ | .environment len => len
  | .missingArg => 0
  | .symbol text | .string text => text.len
  | .generic elts | .strings elts => elts.length
  | .cells _ c => c.length

/-! ### The bytes of a tree -/

/-- The header word of a record. -/
def header (ts : SexpType) (len : ℕ) : List UInt8 := le 8 (len * 256 + ts.code)

def Text.wire : Text → List UInt8
  | .short bytes => bytes
  | .long _ => []

mutual

def Tree.wire : Tree → List UInt8
  | .plain b => header b.ts b.len ++ b.wire
  | .attributed attr b => header .ATTRSXP attr.length ++ attr.wire ++ header b.ts b.len ++ b.wire

/-- The bytes behind the header. -/
def Body.wire : Body → List UInt8
  | .null _ | .missingArg | .environment _ => []
  | .atoms _ _ bytes => bytes
  | .symbol text | .string text => text.wire
  | .generic elts | .strings elts => elts.wire
  | .closure _ f b e => f.wire ++ b.wire ++ e.wire
  | .cells _ c => c.wire

def Trees.wire : Trees → List UInt8
  | .nil => []
  | .cons t ts => t.wire ++ ts.wire

def Pairs.wire : Pairs → List UInt8
  | .nil => []
  | .cons tag val c => tag.wire ++ val.wire ++ c.wire

end

/-! ### Valid trees -/

def Text.Valid : Text → Prop
  | .short bytes => bytes.length < sizeofDecBuf
  | .long len => sizeofDecBuf ≤ len ∧ len < 2 ^ 56

mutual

/-- The lengths fit the headers, and the text of a record goes where the decoder takes
it from. A record of attributes leads a value only as its attributes. -/
def Tree.Valid : Tree → Prop
  | .plain b => b.Valid ∧ b.ts ≠ .ATTRSXP
  | .attributed attr b => attr.Valid ∧ attr.length < 2 ^ 56 ∧ b.Valid

def Body.Valid : Body → Prop
  | .null len | .environment len => len < 2 ^ 56
  | .atoms t len bytes => t ≠ .RAWSXP ∧ len < 2 ^ 56 ∧ bytes.length = len * t.el
  | .missingArg => True
  | .symbol text => text.Valid ∧ 0 < text.len
  | .string text => text.Valid
  | .generic elts | .strings elts => elts.Valid ∧ elts.length < 2 ^ 56
  | .closure len f b e => len < 2 ^ 56 ∧ f.Valid ∧ b.Valid ∧ e.Valid
  | .cells _ c => c.Valid ∧ c.length < 2 ^ 56

def Trees.Valid : Trees → Prop
  | .nil => True
  | .cons t ts => t.Valid ∧ ts.Valid

def Pairs.Valid : Pairs → Prop
  | .nil => True
  | .cons tag val c => tag.Valid ∧ val.Valid ∧ c.Valid

end

mutual

/-- The nesting depth of the calls of `sfs_load` for a tree. -/
def Tree.height : Tree → ℕ
  | .plain b => b.height + 1
  | .attributed attr b => max attr.height b.height + 1

def Body.height : Body → ℕ
  | .generic elts | .strings elts => elts.height
  | .closure _ f b e => max (max f.height b.height) e.height
  | .cells _ c => c.height
  | _ => 0

def Trees.height : Trees → ℕ
  | .nil => 0
  | .cons t ts => max t.height ts.height

def Pairs.height : Pairs → ℕ
  | .nil => 0
  | .cons tag val c => max (max tag.height val.height) c.height

end

theorem length_header (ts : SexpType) (len : ℕ) : (header ts len).length = 8 := length_le ..

mutual

/-- Every level of nesting is paid for by a header. -/
theorem Tree.height_le : ∀ t : Tree, t.height ≤ t.wire.length
  | .plain b => by
    have hb := Body.height_le b
    simp only [Tree.height, Tree.wire, List.length_append, length_header]
    omega
  | .attributed attr b => by
    have hattr := Pairs.height_le attr
    have hb := Body.height_le b
    simp only [Tree.height, Tree.wire, List.length_append, length_header]
    omega

theorem Body.height_le : ∀ b : Body, b.height ≤ b.wire.length
  | .generic elts | .strings elts => Trees.height_le elts
  | .closure _ f b e => by
    have hf := Tree.height_le f
    have hb := Tree.height_le b
    have he := Tree.height_le e
    simp only [Body.height, Body.wire, List.length_append]
    omega
  | .cells _ c => Pairs.height_le c
  | .null _ | .atoms _ _ _ | .missingArg | .symbol _ | .string _ | .environment _ => Nat.zero_le _

theorem Trees.height_le : ∀ ts : Trees, ts.height ≤ ts.wire.length
  | .nil => Nat.zero_le _
  | .cons t ts => by
    have ht := Tree.height_le t
    have hts := Trees.height_le ts
    simp only [Trees.height, Trees.wire, List.length_append]
    omega

theorem Pairs.height_le : ∀ c : Pairs, c.height ≤ c.wire.length
  | .nil => Nat.zero_le _
  | .cons tag val c => by
    have htag := Tree.height_le tag
    have hval := Tree.height_le val
    have hc := Pairs.height_le c
    simp only [Pairs.height, Pairs.wire, List.length_append]
    omega

end

/-! ### Evaluation -/

section Eval

variable (R : Runtime)

/-- The text that is found in `dec_buf` or in a `malloc`ed block. -/
def Text.eval (noMemory : ℕ → RError) : Text → Load Unit CString
  | .short bytes => do
    modify fun st => { st with dec_buf := bytes ++ st.dec_buf.drop bytes.length }
    return cstr (← get).dec_buf
  | .long len => do
    match ← malloc R len with
    | none => rf_error (noMemory len)
    | some buf => return cstr buf

/-- The environment a code stands for. -/
def evalEnvironment {σ : Type} (len : ℕ) : Load σ SEXP :=
  if len = SFS_GLOBAL_ENV then return .environment .R_GlobalEnv
  else if len = SFS_EMPTY_ENV then return .environment .R_EmptyEnv
  else if len = SFS_BASE_ENV then return .environment .R_BaseEnv
  else do
    rf_warning "Custom environments are not serialized."
    return .environment .R_BaseEnv

mutual

def Tree.eval : Tree → Load Unit SEXP
  | .plain b => b.eval
  | .attributed attr b => do
    let a ← attr.eval false
    let res ← b.eval
    if a.length ≠ 0 then setAttrib res a else return res

def Body.eval : Body → Load Unit SEXP
  | .null _ => return .NULL
  | .atoms t len bytes => do
    allocVector R t.type len
    return (Datum.atoms t (blocks t.el len bytes)).fresh
  | .missingArg => return R_MissingArg
  | .symbol text => do
    let s ← text.eval R .noSymbolMemory
    install s
  | .string text => do
    let s ← text.eval R .noStringMemory
    return .charsxp (mkChar s)
  | .generic elts => do
    allocVector R .VECSXP elts.length
    let xs ← elts.eval
    return (Datum.generic xs).fresh
  | .strings elts => do
    allocVector R .STRSXP elts.length
    let cs ← elts.evalStrings
    return (Datum.strings cs).fresh
  | .closure _ f b e => do
    let formals ← f.eval
    let body ← b.eval
    let cloenv ← e.eval
    return (Datum.closure formals false body cloenv).fresh
  | .cells t c => do
    let c' ← c.eval (t == .LANGSXP)
    return c'.toSEXP
  | .environment len => evalEnvironment len

def Trees.eval : Trees → Load Unit (List SEXP)
  | .nil => return []
  | .cons t ts => do
    let x ← t.eval
    let xs ← ts.eval
    return x :: xs

/-- The elements of a character vector. -/
def Trees.evalStrings : Trees → Load Unit (List Charsxp)
  | .nil => return []
  | .cons t ts => do
    match ← t.eval with
    | .charsxp c =>
      let cs ← ts.evalStrings
      return c :: cs
    | _ => rf_error .setStringElt

def Pairs.eval (lang : Bool) : Pairs → Load Unit Cells
  | .nil => return .nil
  | .cons tag val c => do
    let tag' ← tag.eval
    let val' ← val.eval
    let rest ← c.eval lang
    return .cons lang tag' val' rest

end

end Eval

end Sfs
end Osrv
