import Osrv.Rheap.Source

/-!
# R's memory and the calls of its API

The decoder over the objects R keeps in memory. An object is a reference to a header,
with its attributes and its object flag, and the contents; the references from `top`
on are not in use. R gives `R_NilValue`, the environments and the missing argument
fixed references, finds symbols by name, and cached strings by their bytes.

What the decoder calls of R's API is here, each call with the objects it looks at and
those it changes. They go into a trace (`Event`), as do the places where R may collect
garbage: every allocation and every `R_CheckUserInterrupt`. Such an event keeps the
protect stack and the memory as they are at this place, so that what a collector would
keep there can be told from the trace. The machine itself collects nothing.
-/

namespace Osrv
namespace Rheap

open Bytes Sfs

/-! ### Objects -/

/-- A reference to an object. -/
abbrev Ref := ℕ

def R_NilValue : Ref := 0
def R_MissingArg : Ref := 1
def R_GlobalEnv : Ref := 2
def R_EmptyEnv : Ref := 3
def R_BaseEnv : Ref := 4
def R_ClassSymbol : Ref := 5
def R_BlankString : Ref := 6

/-- What an object holds. The memory of a vector of `len` elements is what has been
written to it from the front; `other` are objects the decoder does not make. -/
inductive Contents
  | null
  | symbol (printname : CString)
  | charsxp (s : CString)
  | atoms (t : AtomType) (len : ℕ) (memory : List UInt8)
  | elements (t : SexpType) (elts : List Ref)
  | cons (lang : Bool) (tag car cdr : Ref)
  | closure (formals body cloenv : Ref)
  | other (refs : List Ref)

namespace Contents

/-- The objects that the contents refer to. -/
def refs : Contents → List Ref
  | elements _ elts => elts
  | cons _ tag car cdr => [tag, car, cdr]
  | closure formals body cloenv => [formals, body, cloenv]
  | other refs => refs
  | _ => []

def tag : Contents → Ref
  | cons _ tag _ _ => tag
  | _ => R_NilValue

def cdr : Contents → Ref
  | cons _ _ _ cdr => cdr
  | _ => R_NilValue

/-- The size of the memory of a vector. -/
def room : Contents → ℕ
  | atoms t len _ => len * t.el
  | _ => 0

def isCharsxp : Contents → Bool
  | charsxp _ => true
  | _ => false

end Contents

structure Object where
  attrib : Ref
  obj : Bool
  contents : Contents

/-- The objects an object refers to. -/
def Object.refs (o : Object) : List Ref := o.attrib :: o.contents.refs

/-- A new object has no attributes. -/
def Contents.fresh (c : Contents) : Object := ⟨R_NilValue, false, c⟩

structure Memory where
  objects : Ref → Object
  top : Ref

/-- Puts an object behind the others. -/
def Memory.push (h : Memory) (o : Object) : Memory :=
  ⟨Function.update h.objects h.top o, h.top + 1⟩

def Memory.change (h : Memory) (r : Ref) (f : Object → Object) : Memory :=
  { h with objects := Function.update h.objects r (f (h.objects r)) }

/-! ### The state -/

/-- The two kinds of objects R finds again by their text. -/
inductive Interned
  | symbol
  | string
  deriving DecidableEq

def Interned.contents : Interned → CString → Contents
  | symbol, s => .symbol s
  | string, s => .charsxp s

/-- What happens in a load. -/
inductive Event
  /-- A header is requested. -/
  | header
  /-- `fetch` is called for `n` bytes, `len` elements of `el` bytes, where there is
  `room`. -/
  | fetch (el len n room : ℕ)
  /-- What the elements of a vector arrive in. -/
  | elements (pieces : List Piece)
  /-- `dec_buf` is scanned for the end of a text. -/
  | scan (buf : List UInt8)
  /-- R may collect garbage. -/
  | collect (stack : List Ref) (heap : Memory)
  /-- A symbol or a string is found by its text. -/
  | obtain (r : Ref)
  /-- An object is handed to R or looked at. -/
  | use (r : Ref)
  /-- An object is changed. -/
  | modify (r : Ref)
  /-- Attributes are given to what a record has come to. The text is the last that was
  looked up. -/
  | attributed (ts len : ℕ) (text : CString)

/-- Why a load stops without a value: an error, no memory for a small object, or one of the
bounds of the model on the nesting and on the loop over the attributes. -/
inductive Stop
  | rerror (e : RError)
  | memory
  | tooDeep
  | spins

/-- The state of R and of the decoder. The last event of the trace comes first. -/
structure Machine (σ : Type) where
  api : σ
  dec_buf : List UInt8
  mallocs : ℕ
  heap : Memory
  interned : Interned → CString → Option Ref
  stack : List Ref
  warnings : List String
  text : CString
  trace : List Event

/-- The services of R, with whether an object other than a vector can be allocated when
`top` are in use. -/
structure Runtime extends Sfs.Runtime where
  cell : ℕ → Bool

abbrev Act (σ α : Type) := EStateM Stop (Machine σ) α

variable {σ : Type}

/-! ### Events -/

def log (e : Event) : Act σ Unit := modify fun m => { m with trace := e :: m.trace }

/-- R may collect garbage here. -/
def gc : Act σ Unit := modify fun m => { m with trace := .collect m.stack m.heap :: m.trace }

def rf_error {α : Type} (e : RError) : Act σ α := throw (.rerror e)

/-- R makes the text of a warning. -/
def rf_warning (text : String) : Act σ Unit := do
  gc
  modify fun m => { m with warnings := m.warnings ++ [text] }

/-! ### Allocation -/

section Alloc

variable (R : Runtime)

/-- Puts an object into memory. -/
def new (c : Contents) : Act σ Ref := fun m =>
  .ok m.heap.top { m with heap := m.heap.push c.fresh }

/-- An allocation, which does not return when it fails. -/
def alloc (ok : Bool) (e : Stop) (c : Contents) : Act σ Ref := do
  gc
  if ok then new c else throw e

/-- The allocation of an object other than a vector. -/
def allocCell (c : Contents) : Act σ Ref := do
  let m ← get
  alloc (R.cell m.heap.top) .memory c

/-- The contents of a new vector. -/
def vector (t : SexpType) (len : ℕ) : Contents :=
  match t with
  | .LGLSXP => .atoms .LGLSXP len []
  | .INTSXP => .atoms .INTSXP len []
  | .REALSXP => .atoms .REALSXP len []
  | .CPLXSXP => .atoms .CPLXSXP len []
  | .RAWSXP => .atoms .RAWSXP len []
  | .STRSXP => .elements .STRSXP (List.replicate len R_BlankString)
  | t => .elements t (List.replicate len R_NilValue)

def allocVector (t : SexpType) (len : ℕ) : Act σ Ref :=
  alloc (R.allocVector t len) (.rerror (.allocVector len)) (vector t len)

/-- `allocSExp(CLOSXP)`. -/
def allocClosure : Act σ Ref := allocCell R (.closure R_NilValue R_NilValue R_NilValue)

/-- `CONS` and `LCONS` of a value and `R_NilValue`. -/
def CONS (lang : Bool) (val : Ref) : Act σ Ref := do
  let x ← allocCell R (.cons lang R_NilValue val R_NilValue)
  log (.use val)
  return x

/-- The table of symbols and strings with a new entry. -/
def enter (table : Interned → CString → Option Ref) (k : Interned) (s : CString) (r : Ref) :
    Interned → CString → Option Ref :=
  Function.update table k (Function.update (table k) s (some r))

/-- A symbol or a string by its text. It is made when there is none. -/
def intern (k : Interned) (s : CString) : Act σ Ref := do
  modify fun m => { m with text := s }
  let m ← get
  match m.interned k s with
  | some r =>
    gc
    log (.obtain r)
    return r
  | none =>
    let r ← allocCell R (k.contents s)
    modify fun m => { m with interned := enter m.interned k s r }
    return r

/-- `Rf_install`, which does not return for an empty name or one that is too long. -/
def install (name : CString) : Act σ Ref :=
  if name.length = 0 then rf_error .zeroLengthName
  else if name.length > MAXIDSIZE then rf_error .longName
  else intern R .symbol name

def mkChar (s : CString) : Act σ Ref := intern R .string s

/-- `malloc` of a scratch block. -/
def malloc (len : ℕ) : Act σ (Option (List UInt8)) := fun m =>
  .ok (R.malloc m.mallocs len) { m with mallocs := m.mallocs + 1 }

end Alloc

/-! ### The protect stack -/

def PROTECT (r : Ref) : Act σ Unit := do
  log (.use r)
  modify fun m => { m with stack := r :: m.stack }

def UNPROTECT (n : ℕ) : Act σ Unit := modify fun m => { m with stack := m.stack.drop n }

/-! ### Looking at objects and changing them -/

/-- Changes an object. -/
def change (r : Ref) (f : Object → Object) : Act σ Unit := do
  log (.use r)
  log (.modify r)
  modify fun m => { m with heap := m.heap.change r f }

/-- The contents of an object. -/
def look (r : Ref) : Act σ Contents := do
  log (.use r)
  let m ← get
  return (m.heap.objects r).contents

def TAG (c : Ref) : Act σ Ref := do
  let u ← look c
  return u.tag

def CDR (c : Ref) : Act σ Ref := do
  let u ← look c
  return u.cdr

/-- Stores a reference to `v` in the contents of an object. -/
def setContents (r v : Ref) (f : Contents → Contents) : Act σ Unit := do
  log (.use v)
  change r fun o => { o with contents := f o.contents }

/-- Stores an element of a vector. -/
def Contents.setElt (i : ℕ) (v : Ref) : Contents → Contents
  | elements t elts => elements t (elts.set i v)
  | c => c

def Contents.setTag (v : Ref) : Contents → Contents
  | cons lang _ car cdr => cons lang v car cdr
  | c => c

def Contents.setCdr (v : Ref) : Contents → Contents
  | cons lang tag car _ => cons lang tag car v
  | c => c

def Contents.setFormals (v : Ref) : Contents → Contents
  | closure _ body cloenv => closure v body cloenv
  | c => c

def Contents.setBody (v : Ref) : Contents → Contents
  | closure formals _ cloenv => closure formals v cloenv
  | c => c

def Contents.setCloenv (v : Ref) : Contents → Contents
  | closure formals body _ => closure formals body v
  | c => c

/-- Writes bytes over others, behind the first `i`. -/
def overwrite (i : ℕ) (bs memory : List UInt8) : List UInt8 :=
  memory.take i ++ bs ++ memory.drop (i + bs.length)

/-- Bytes arrive in the memory of a vector. -/
def Contents.write (i : ℕ) (bs : List UInt8) : Contents → Contents
  | atoms t len memory => atoms t len (overwrite i bs memory)
  | c => c

def SET_VECTOR_ELT (res : Ref) (i : ℕ) (v : Ref) : Act σ Unit :=
  setContents res v (Contents.setElt i v)

/-- Only a string can be an element of a character vector. -/
def SET_STRING_ELT (res : Ref) (i : ℕ) (v : Ref) : Act σ Unit := do
  let u ← look v
  if u.isCharsxp then setContents res v (Contents.setElt i v) else rf_error .setStringElt

def SET_TAG (x tag : Ref) : Act σ Unit := setContents x tag (Contents.setTag tag)
def SETCDR (x y : Ref) : Act σ Unit := setContents x y (Contents.setCdr y)
def SET_FORMALS (x v : Ref) : Act σ Unit := setContents x v (Contents.setFormals v)
def SET_BODY (x v : Ref) : Act σ Unit := setContents x v (Contents.setBody v)
def SET_CLOENV (x v : Ref) : Act σ Unit := setContents x v (Contents.setCloenv v)

/-- `SET_OBJECT(x, 1)`. -/
def SET_OBJECT (x : Ref) : Act σ Unit := change x fun o => { o with obj := true }

def SET_ATTRIB (x attr : Ref) : Act σ Unit := do
  log (.use attr)
  change x fun o => { o with attrib := attr }

/-! ### Fetching -/

/-- What a call of `fetch` does with its pieces: each is written to the destination,
behind the `i` bytes that are there. -/
def receive (sink : ℕ → List UInt8 → Act σ Unit) : ℕ → List Piece → Act σ Unit
  | _, [] => pure ()
  | i, .bytes bs :: ps => do
    sink i bs
    receive sink (i + bs.length) ps
  | i, .check :: ps => do
    gc
    receive sink i ps

/-- What a call of `fetch` has come to. -/
def finish (sink : ℕ → List UInt8 → Act σ Unit) (a : Answer σ) : Act σ (List UInt8) := do
  receive sink 0 a.pieces
  match a.error with
  | some e => rf_error e
  | none => return received a.pieces

variable (src : Source σ)

/-- `api->fetch` with a destination. -/
def fetch (n : ℕ) (sink : ℕ → List UInt8 → Act σ Unit) : Act σ (List UInt8) := fun m =>
  finish sink (src.fetch m.api n) { m with api := (src.fetch m.api n).state }

/-- A header, which is fetched into a local variable. -/
def fetchHdr : Act σ ℕ := do
  log .header
  let bs ← fetch src 8 fun _ _ => pure ()
  return leVal bs

/-- The size of the elements of a vector, in unsigned arithmetic. -/
def byteCount (t : AtomType) (len : ℕ) : ℕ := len * t.el % 2 ^ 64

/-- Bytes arrive in a vector. -/
def writeElements (res : Ref) (i : ℕ) (bs : List UInt8) : Act σ Unit :=
  change res fun o => { o with contents := o.contents.write i bs }

/-- The elements of a vector. -/
def fetchElements (t : AtomType) (len : ℕ) (res : Ref) : Act σ Unit := do
  let m ← get
  log (.fetch t.el len (byteCount t len) (m.heap.objects res).contents.room)
  log (.elements (src.fetch m.api (byteCount t len)).pieces)
  let _ ← fetch src (byteCount t len) (writeElements res)
  pure ()

/-- Bytes arrive in `dec_buf`. -/
def writeDecBuf (i : ℕ) (bs : List UInt8) : Act σ Unit :=
  modify fun m => { m with dec_buf := overwrite i bs m.dec_buf }

/-- A text is fetched into `dec_buf`. -/
def fetchDecBuf (len : ℕ) : Act σ Unit := do
  log (.fetch 1 len len sizeofDecBuf)
  let _ ← fetch src len writeDecBuf
  pure ()

/-! ### The state at the start -/

/-- What R has in memory when a load starts. -/
structure Session where
  heap : Memory
  interned : Interned → CString → Option Ref
  stack : List Ref
  /-- The objects with fixed references are there. -/
  fixed : R_BlankString < heap.top
  null : (heap.objects R_NilValue).contents = .null
  closed : ∀ r < heap.top, ∀ q ∈ (heap.objects r).refs, q < heap.top
  protected_lt : ∀ r ∈ stack, r < heap.top
  interned_lt : ∀ k s r, interned k s = some r → r < heap.top
  named : ∀ k s r, interned k s = some r → (heap.objects r).contents = k.contents s

/-- A session with nothing in memory but the objects with fixed references. -/
def Session.bare : Session where
  heap :=
    { objects := fun r => Contents.fresh <|
        if r = R_NilValue then .null
        else if r = R_MissingArg then .symbol CString.empty
        else if r = R_ClassSymbol then .symbol (cstr [99, 108, 97, 115, 115])
        else if r = R_BlankString then .charsxp CString.empty
        else .other []
      top := 7 }
  interned k s :=
    match k with
    | .symbol => if s = cstr [99, 108, 97, 115, 115] then some R_ClassSymbol else none
    | .string => if s = CString.empty then some R_BlankString else none
  stack := []
  fixed := by decide
  null := rfl
  closed := by decide
  protected_lt := by simp
  interned_lt k s r h := by
    cases k
    all_goals
      simp only [Option.ite_none_right_eq_some, Option.some.injEq] at h
      rw [← h.2]
      decide
  named k s r h := by
    cases k
    all_goals
      simp only [Option.ite_none_right_eq_some, Option.some.injEq] at h
      rw [← h.2, h.1]
      rfl

/-- Memory for everything. -/
def Runtime.ample : Runtime := { Sfs.Runtime.ample with cell := fun _ => true }

/-- The machine at the start of a load. -/
def Machine.start (S : Session) (s : σ) (dec_buf : List UInt8) : Machine σ where
  api := s
  dec_buf := dec_buf
  mallocs := 0
  heap := S.heap
  interned := S.interned
  stack := S.stack
  warnings := []
  text := CString.empty
  trace := []

end Rheap
end Osrv
