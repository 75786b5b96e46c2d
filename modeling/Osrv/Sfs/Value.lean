import Osrv.Lib.Bytes

/-!
# R values

The values the serialiser walks over, as R lays them out.

`SEXP` separates the objects R shares (`NULL`, symbols, cached strings,
environments) from the objects that own a header. A shared object is
represented by its identity alone: two occurrences of one symbol are one
object, so nothing about it can be lost or gained by a copy. Every other object
carries its attribute pairlist, its object flag, its S4 flag and a `Datum`.

Pairlists are chains of cells. R gives each cell its own type, so a call is a
`LANGSXP` cell followed, normally, by `LISTSXP` cells. `Cells` therefore records
the type of each cell (`lang`).
-/

namespace Osrv
namespace Sfs

open Bytes

/-! ### Type codes -/

/-- The type codes of R, with the virtual code `ATTRSXP` of the protocol. The
codes R does not assign are `unassigned`. -/
inductive SexpType where
  | NILSXP | SYMSXP | LISTSXP | CLOSXP | ENVSXP | PROMSXP | LANGSXP | SPECIALSXP
  | BUILTINSXP | CHARSXP | LGLSXP | INTSXP | REALSXP | CPLXSXP | STRSXP | DOTSXP
  | ANYSXP | VECSXP | EXPRSXP | BCODESXP | EXTPTRSXP | WEAKREFSXP | RAWSXP | S4SXP
  | ATTRSXP
  | unassigned (ts : ℕ)
  deriving DecidableEq, Repr

namespace SexpType

/-- The number R gives to a type. -/
def code : SexpType → ℕ
  | NILSXP => 0 | SYMSXP => 1 | LISTSXP => 2 | CLOSXP => 3 | ENVSXP => 4
  | PROMSXP => 5 | LANGSXP => 6 | SPECIALSXP => 7 | BUILTINSXP => 8 | CHARSXP => 9
  | LGLSXP => 10 | INTSXP => 13 | REALSXP => 14 | CPLXSXP => 15 | STRSXP => 16
  | DOTSXP => 17 | ANYSXP => 18 | VECSXP => 19 | EXPRSXP => 20 | BCODESXP => 21
  | EXTPTRSXP => 22 | WEAKREFSXP => 23 | RAWSXP => 24 | S4SXP => 25
  | ATTRSXP => 255
  | unassigned ts => ts

/-- The type a code byte stands for. -/
def ofCode (ts : ℕ) : SexpType :=
  match ts with
  | 0 => NILSXP | 1 => SYMSXP | 2 => LISTSXP | 3 => CLOSXP | 4 => ENVSXP
  | 5 => PROMSXP | 6 => LANGSXP | 7 => SPECIALSXP | 8 => BUILTINSXP | 9 => CHARSXP
  | 10 => LGLSXP | 13 => INTSXP | 14 => REALSXP | 15 => CPLXSXP | 16 => STRSXP
  | 17 => DOTSXP | 18 => ANYSXP | 19 => VECSXP | 20 => EXPRSXP | 21 => BCODESXP
  | 22 => EXTPTRSXP | 23 => WEAKREFSXP | 24 => RAWSXP | 25 => S4SXP
  | 255 => ATTRSXP
  | ts => unassigned ts

/-- A type other than the unassigned ones is recovered from its code. -/
theorem ofCode_code (t : SexpType) (h : ∀ ts, t ≠ unassigned ts) : ofCode t.code = t := by
  cases t <;> first | rfl | exact absurd rfl (h _)

end SexpType

/-- The vector types whose elements are plain memory. -/
inductive AtomType where
  | LGLSXP | INTSXP | REALSXP | CPLXSXP | RAWSXP
  deriving DecidableEq, Repr

namespace AtomType

/-- The size of one element in bytes. -/
def el : AtomType → ℕ
  | LGLSXP => 4 | INTSXP => 4 | REALSXP => 8 | CPLXSXP => 16 | RAWSXP => 1

def type : AtomType → SexpType
  | LGLSXP => .LGLSXP | INTSXP => .INTSXP | REALSXP => .REALSXP | CPLXSXP => .CPLXSXP
  | RAWSXP => .RAWSXP

theorem el_le (t : AtomType) : t.el ≤ 16 := by
  cases t <;> decide

end AtomType

/-- The types of objects whose contents the serialiser does not look at. -/
inductive OpaqueType where
  | PROMSXP | SPECIALSXP | BUILTINSXP | DOTSXP | ANYSXP | EXPRSXP | BCODESXP | EXTPTRSXP
  | WEAKREFSXP | S4SXP
  deriving DecidableEq, Repr

def OpaqueType.type : OpaqueType → SexpType
  | PROMSXP => .PROMSXP | SPECIALSXP => .SPECIALSXP | BUILTINSXP => .BUILTINSXP
  | DOTSXP => .DOTSXP | ANYSXP => .ANYSXP | EXPRSXP => .EXPRSXP | BCODESXP => .BCODESXP
  | EXTPTRSXP => .EXTPTRSXP | WEAKREFSXP => .WEAKREFSXP | S4SXP => .S4SXP

/-! ### Strings and environments -/

/-- The encoding mark of a cached string. -/
inductive Cetype where
  | CE_NATIVE | CE_UTF8 | CE_LATIN1 | CE_BYTES
  deriving DecidableEq, Repr

/-- An element of a character vector: the missing string, which is an object of
its own, or bytes with their encoding mark. -/
inductive Charsxp where
  | NA_STRING
  | mkCharCE (s : CString) (enc : Cetype)
  deriving DecidableEq

/-- The bytes `CHAR` shows. Those of the missing string read `NA`. -/
def CHAR : Charsxp → CString
  | .NA_STRING => ⟨[78, 65], by decide⟩
  | .mkCharCE s _ => s

/-- `mkChar`: a string in the native encoding. -/
def mkChar (s : CString) : Charsxp := .mkCharCE s .CE_NATIVE

/-- Environments by identity. -/
inductive Environment where
  | R_GlobalEnv | R_EmptyEnv | R_BaseEnv
  | other (id : ℕ)
  deriving DecidableEq, Repr

/-! ### Objects -/

mutual

/-- An R object. A symbol is its print name, and `R_MissingArg` is the symbol
with the empty one. -/
inductive SEXP where
  | NULL
  | symbol (printname : CString)
  | charsxp (c : Charsxp)
  | environment (e : Environment)
  | object (attrib : Cells) (obj s4 : Bool) (u : Datum)

/-- What an object holds besides its header. The `body` of a closure is its
expression; `compiled` says that the closure holds it as byte code. -/
inductive Datum where
  | atoms (t : AtomType) (elts : List (BitVec (8 * t.el)))
  | strings (elts : List Charsxp)
  | generic (elts : List SEXP)
  | cons (lang : Bool) (tag car : SEXP) (cdr : Cells)
  | closure (formals : SEXP) (compiled : Bool) (body cloenv : SEXP)
  | unknown (t : OpaqueType)

/-- The cells that follow a given one, up to `R_NilValue`. -/
inductive Cells where
  | nil
  | cons (lang : Bool) (tag car : SEXP) (cdr : Cells)

end

def R_MissingArg : SEXP := .symbol CString.empty

/-- A freshly allocated object without attributes. -/
def Datum.fresh (u : Datum) : SEXP := .object .nil false false u

def Datum.type : Datum → SexpType
  | .atoms t _ => t.type
  | .strings _ => .STRSXP
  | .generic _ => .VECSXP
  | .cons lang _ _ _ => if lang then .LANGSXP else .LISTSXP
  | .closure _ _ _ _ => .CLOSXP
  | .unknown t => t.type

def TYPEOF : SEXP → SexpType
  | .NULL => .NILSXP
  | .symbol _ => .SYMSXP
  | .charsxp _ => .CHARSXP
  | .environment _ => .ENVSXP
  | .object _ _ _ u => u.type

namespace Cells

/-- Number of cells. -/
def length : Cells → ℕ
  | nil => 0
  | cons _ _ _ r => r.length + 1

/-- The cells seen from the head: `R_NilValue` when there are none. -/
def toSEXP : Cells → SEXP
  | nil => .NULL
  | cons lang tag car r => (Datum.cons lang tag car r).fresh

/-- Whether some cell is tagged `class`. -/
def hasClass : Cells → Bool
  | nil => false
  | cons _ (.symbol s) _ r => s.bytes == [99, 108, 97, 115, 115] || r.hasClass
  | cons _ _ _ r => r.hasClass

end Cells

/-- The cells of an object that is a pairlist or `R_NilValue`. -/
def SEXP.cells : SEXP → Cells
  | .object _ _ _ (.cons lang tag car r) => .cons lang tag car r
  | _ => .nil

@[simp] theorem Cells.cells_toSEXP (c : Cells) : c.toSEXP.cells = c := by
  cases c <;> rfl

end Sfs
end Osrv
