import Osrv.Sfs.Store

/-!
# What a stored value becomes

`SEXP.loaded` is the value a load yields for a stored one, computed on values
alone: attribute lists of calls, pairlists and closures are gone, strings have
lost their marks, object flags are recomputed, and every environment without a
code of its own has become the base environment. `SEXP.rejected` marks the
objects the decoder has no branch for, `SEXP.noise` the warnings it raises.

That the decoder does return this value is `SEXP.loads` in `RoundTrip.lean`.
-/

namespace Osrv
namespace Sfs

open Bytes

/-! ### What a load yields -/

mutual

/-- The value `sfs_load` returns from the bytes stored for a value. -/
def SEXP.loaded : SEXP → SEXP
  | .environment (.other _) => .environment .R_BaseEnv
  | .object a _ _ u =>
    if u.storesAttrib then .object (a.loaded false) a.hasClass false u.loaded
    else u.loaded.fresh
  | x => x

def Datum.loaded : Datum → Datum
  | .atoms t xs => .atoms t xs
  | .strings xs => .strings (xs.map fun c => mkChar (CHAR c))
  | .generic xs => .generic (loadedElts xs)
  | .cons lang tag car r => .cons lang tag.loaded car.loaded (r.loaded lang)
  | .closure f _ b e => .closure f.loaded false b.loaded e.loaded
  | .unknown t => .unknown t

/-- Cells come back with the type of their record. -/
def Cells.loaded (lang : Bool) : Cells → Cells
  | .nil => .nil
  | .cons _ tag car r => .cons lang tag.loaded car.loaded (r.loaded lang)

def loadedElts : List SEXP → List SEXP
  | [] => []
  | x :: xs => x.loaded :: loadedElts xs

end

mutual

/-- The nesting depth of the calls of `sfs_load` for a value. -/
def SEXP.height : SEXP → ℕ
  | .object a _ _ u => max (if u.storesAttrib then a.height else 0) u.height + 1
  | _ => 1

def Datum.height : Datum → ℕ
  | .strings _ => 1
  | .generic xs => heightElts xs
  | .cons _ tag car r => max (max tag.height car.height) r.height
  | .closure f _ b e => max (max f.height b.height) e.height
  | _ => 0

def Cells.height : Cells → ℕ
  | .nil => 0
  | .cons _ tag car r => max (max tag.height car.height) r.height

def heightElts : List SEXP → ℕ
  | [] => 0
  | x :: xs => max x.height (heightElts xs)

end

/-- The types `decode_one` has no branch for, although `store` writes them: the
opaque ones, and raw vectors. -/
def Datum.rejected : Datum → Bool
  | .atoms .RAWSXP _ => true
  | .unknown _ => true
  | _ => false

def SEXP.rejected : SEXP → Bool
  | .object _ _ _ u => u.rejected
  | _ => false

/-- The warnings a load raises at an object. -/
def SEXP.noise : SEXP → List String
  | .environment (.other _) => ["Custom environments are not serialized."]
  | _ => []

/-- The warnings raised along a list of visited objects. -/
def noise (l : List SEXP) : List String := l.flatMap SEXP.noise

@[simp] theorem noise_nil : noise [] = [] := rfl

@[simp] theorem noise_append (l l' : List SEXP) : noise (l ++ l') = noise l ++ noise l' :=
  List.flatMap_append

@[simp] theorem noise_object (a : Cells) (o s : Bool) (u : Datum) (l : List SEXP) :
    noise (.object a o s u :: l) = noise l := rfl

/-! ### Small facts about loaded values -/

@[simp] theorem Cells.length_loaded (lang : Bool) :
    ∀ c : Cells, (c.loaded lang).length = c.length
  | .nil => rfl
  | .cons _ _ _ r => by rw [Cells.loaded, Cells.length, Cells.length, length_loaded lang r]

theorem Cells.length_eq_zero {c : Cells} : c.length = 0 ↔ c = .nil := by
  cases c <;> simp [Cells.length]

/-- The `class` tag survives. -/
theorem Cells.hasClass_loaded (lang : Bool) :
    ∀ c : Cells, (c.loaded lang).hasClass = c.hasClass
  | .nil => rfl
  | .cons l tag car r => by
    have ih := hasClass_loaded lang r
    cases tag with
    | environment e => cases e <;> simpa [Cells.loaded, SEXP.loaded, Cells.hasClass] using ih
    | object a o s u =>
      cases hu : u.storesAttrib <;>
        simpa [Cells.loaded, SEXP.loaded, Datum.fresh, hu, Cells.hasClass] using ih
    | _ => simp [Cells.loaded, SEXP.loaded, Cells.hasClass, ih]

end Sfs
end Osrv
