import Osrv.Sfs.Loaded
import Osrv.Sfs.Transport
import Osrv.Sfs.Reading

/-!
# Values that code may rely on

R code expects tags to be symbols, list elements not to be bare cached strings, and the
parts of a closure to be of their types (`SEXP.WellFormed`). The decoder stores what the
records say and checks none of it, apart from the elements of a character vector, which
`SET_STRING_ELT` checks.

So a loaded value is well-formed exactly when the records in these places are of the
right types (`Tree.Typed`). The step lemma `Tree.judges` says so for one evaluation, and
`load_well_formed_iff` for every stream.
-/

namespace Osrv
namespace Sfs

open Bytes Lib

/-! ### Well-formed values -/

namespace SEXP

/-- What may stand in the place of a tag. -/
def isTag : SEXP → Bool
  | .NULL | .symbol _ => true
  | _ => false

def isCharsxp : SEXP → Bool
  | .charsxp _ => true
  | _ => false

/-- What may stand in the place of the formals: `NULL` or a pairlist. -/
def isFormals : SEXP → Bool
  | .NULL | .object _ _ _ (.cons false _ _ _) => true
  | _ => false

def isEnvironment : SEXP → Bool
  | .environment _ => true
  | _ => false

end SEXP

mutual

/-- **Well-formed**, down to the last part of the value. -/
def SEXP.WellFormed : SEXP → Prop
  | .object a _ _ u => a.WellFormedAttrib ∧ u.WellFormed
  | _ => True

def Datum.WellFormed : Datum → Prop
  | .generic xs => wellFormedElts xs
  | .cons _ tag car r => tag.isTag = true ∧ tag.WellFormed ∧ car.WellFormed ∧ r.WellFormed
  | .closure f _ b e =>
    f.isFormals = true ∧ e.isEnvironment = true ∧ f.WellFormed ∧ b.WellFormed ∧ e.WellFormed
  | _ => True

/-- The cells of a pairlist or a call. -/
def Cells.WellFormed : Cells → Prop
  | .nil => True
  | .cons _ tag car r => tag.isTag = true ∧ tag.WellFormed ∧ car.WellFormed ∧ r.WellFormed

/-- The cells of an attribute list. -/
def Cells.WellFormedAttrib : Cells → Prop
  | .nil => True
  | .cons _ tag car r =>
    tag.isTag = true ∧ car.isCharsxp = false ∧ tag.WellFormed ∧ car.WellFormed ∧
      r.WellFormedAttrib

def wellFormedElts : List SEXP → Prop
  | [] => True
  | x :: xs => x.isCharsxp = false ∧ x.WellFormed ∧ wellFormedElts xs

end

/-- The attribute lists that were attached to shared objects are well-formed. -/
def SharedWellFormed (l : List (SEXP × Cells)) : Prop := ∀ p ∈ l, p.2.WellFormedAttrib

/-- A load that fails has no value that could be ill-formed. -/
def Outcome.WellFormed : Outcome → Prop
  | .value v shared => v.WellFormed ∧ SharedWellFormed shared
  | _ => True

/-! ### Typed trees -/

namespace Body

def isTag : Body → Bool
  | .null _ | .missingArg | .symbol _ | .cells _ .nil => true
  | _ => false

def isCharsxp : Body → Bool
  | .string _ => true
  | _ => false

def isFormals : Body → Bool
  | .null _ | .cells _ .nil | .cells .ATTRSXP _ | .cells .LISTSXP _ => true
  | _ => false

def isEnvironment : Body → Bool
  | .environment _ => true
  | _ => false

end Body

/-- The record of the object itself. -/
def Tree.body : Tree → Body
  | .plain b | .attributed _ b => b

mutual

/-- The records in the places of tags, elements, attribute values, formals and
environments are of the types that belong there. -/
def Tree.Typed : Tree → Prop
  | .plain b => b.Typed
  | .attributed attr b => attr.TypedAttrib ∧ b.Typed

def Body.Typed : Body → Prop
  | .generic elts => elts.TypedElts
  | .strings elts => elts.Typed
  | .closure _ f b e =>
    f.body.isFormals = true ∧ e.body.isEnvironment = true ∧ f.Typed ∧ b.Typed ∧ e.Typed
  | .cells _ c => c.Typed
  | _ => True

def Trees.Typed : Trees → Prop
  | .nil => True
  | .cons t ts => t.Typed ∧ ts.Typed

def Trees.TypedElts : Trees → Prop
  | .nil => True
  | .cons t ts => t.body.isCharsxp = false ∧ t.Typed ∧ ts.TypedElts

def Pairs.Typed : Pairs → Prop
  | .nil => True
  | .cons tag val c => tag.body.isTag = true ∧ tag.Typed ∧ val.Typed ∧ c.Typed

def Pairs.TypedAttrib : Pairs → Prop
  | .nil => True
  | .cons tag val c =>
    tag.body.isTag = true ∧ val.body.isCharsxp = false ∧ tag.Typed ∧ val.Typed ∧ c.TypedAttrib

end

/-! ### One evaluation -/

section Judges

variable {R : Runtime} {α β : Type}

/-- When the step succeeds, its result satisfies `P` and the attributes of shared objects
are well-formed exactly when this was so before, `C` and `T` hold. The result satisfies
`K` in any case. -/
def Judges (x : Load Unit α) (C T : Prop) (P K : α → Prop) : Prop :=
  ∀ m a m', x m = .ok a m' →
    ((P a ∧ SharedWellFormed m'.shared) ↔ (C ∧ SharedWellFormed m.shared ∧ T)) ∧ K a

theorem Judges.pure {a : α} {C T : Prop} {P K : α → Prop} (h : P a ↔ C ∧ T) (hK : K a) :
    Judges (pure a) C T P K := by
  rintro m _ _ ⟨⟩
  refine ⟨?_, hK⟩
  rw [h]
  tauto

theorem Judges.error {C T : Prop} {P K : α → Prop} (e : RError) :
    Judges (rf_error e : Load Unit α) C T P K := fun _ _ _ h => nomatch h

/-- What was already found out is kept. -/
theorem Judges.credit {x : Load Unit α} {T : Prop} {P K : α → Prop} (h : Judges x True T P K)
    (C : Prop) : Judges x C T (fun a => C ∧ P a) K := by
  intro m a m' hx
  obtain ⟨hiff, hK⟩ := h m a m' hx
  refine ⟨?_, hK⟩
  rw [and_assoc, hiff, true_and]

theorem Judges.bind {x : Load Unit α} {f : α → Load Unit β} {C T U : Prop} {P K : α → Prop}
    {Q L : β → Prop} (hx : Judges x C T P K) (hf : ∀ a, K a → Judges (f a) (P a) U Q L) :
    Judges (x >>= f) C (T ∧ U) Q L := by
  intro m b m'' h
  simp only [Bind.bind, EStateM.bind] at h
  split at h
  · next a m' hxa =>
    obtain ⟨hiff, hK⟩ := hx m a m' hxa
    obtain ⟨hiff', hL⟩ := hf a hK m' b m'' h
    refine ⟨?_, hL⟩
    rw [hiff', ← and_assoc, hiff]
    tauto
  · cases h

theorem Judges.congr {x : Load Unit α} {C T U : Prop} {P K : α → Prop} (h : Judges x C T P K)
    (hTU : T ↔ U) : Judges x C U P K := by
  intro m a m' hx
  rw [← hTU]
  exact h m a m' hx

/-- A step that does not touch the attributes of shared objects. -/
theorem Judges.of_shared {x : Load Unit α} {C : Prop} {P K : α → Prop}
    (h : ∀ m a m', x m = .ok a m' → m'.shared = m.shared ∧ (P a ↔ C) ∧ K a) :
    Judges x C True P K := by
  intro m a m' hx
  obtain ⟨hshared, hP, hK⟩ := h m a m' hx
  rw [hshared, hP, and_true]
  exact ⟨Iff.rfl, hK⟩

theorem judges_allocVector (t : SexpType) (len : ℕ) :
    Judges (allocVector R t len) True True (fun _ => True) fun _ => True := by
  unfold allocVector
  split
  · exact Judges.pure (and_self_iff).symm trivial
  · exact Judges.error _

theorem judges_text (noMemory : ℕ → RError) (text : Text) :
    Judges (text.eval R noMemory) True True (fun _ => True) fun _ => True := by
  refine Judges.of_shared fun m s m' h => ⟨?_, Iff.rfl, trivial⟩
  cases text with
  | short bytes =>
    cases h
    rfl
  | long len =>
    simp only [Text.eval, Bind.bind, EStateM.bind, malloc] at h
    cases hmalloc : R.malloc m.mallocs len with
    | none =>
      rw [hmalloc] at h
      cases h
    | some buf =>
      rw [hmalloc] at h
      cases h
      rfl

/-- The types of a value, as its record announces them. -/
structure Body.Kind (b : Body) (v : SEXP) : Prop where
  tag : v.isTag = b.isTag
  charsxp : v.isCharsxp = b.isCharsxp
  formals : v.isFormals = b.isFormals
  environment : v.isEnvironment = b.isEnvironment

/-- A fresh object has no attributes yet. -/
def SEXP.NoAttrib : SEXP → Prop
  | .object a _ _ _ => a = .nil
  | _ => True

theorem judges_setAttrib {b : Body} {res : SEXP} (hres : res.NoAttrib) (hkind : b.Kind res)
    (a : Cells) :
    Judges (setAttrib res a) (a.WellFormedAttrib ∧ res.WellFormed) True SEXP.WellFormed b.Kind := by
  intro m v m' h
  unfold setAttrib at h
  split at h
  · next a' o s u =>
    obtain rfl : a' = .nil := hres
    cases h
    refine ⟨?_, hkind.tag, hkind.charsxp, ?_, hkind.environment⟩
    · simp only [SEXP.WellFormed, Cells.WellFormedAttrib]
      tauto
    · rw [← hkind.formals]
      cases u with
      | cons lang tag car r => cases lang <;> rfl
      | _ => rfl
  · next hne =>
    cases h
    refine ⟨?_, hkind⟩
    unfold SharedWellFormed
    rw [List.forall_mem_append, List.forall_mem_singleton]
    tauto

/-- What an evaluation makes of a record. -/
def Body.Made (b : Body) (v : SEXP) : Prop := b.Kind v ∧ v.NoAttrib

theorem judges_environment (len : ℕ) :
    Judges (evalEnvironment len) True True SEXP.WellFormed (Body.environment len).Made := by
  have hmade : ∀ e, (Body.environment len).Made (.environment e) := fun e =>
    ⟨⟨rfl, rfl, rfl, rfl⟩, trivial⟩
  unfold evalEnvironment
  split
  · exact Judges.pure (iff_of_true trivial ⟨trivial, trivial⟩) (hmade _)
  · split
    · exact Judges.pure (iff_of_true trivial ⟨trivial, trivial⟩) (hmade _)
    · split
      · exact Judges.pure (iff_of_true trivial ⟨trivial, trivial⟩) (hmade _)
      · refine Judges.of_shared fun m v m' h => ?_
        cases h
        exact ⟨rfl, Iff.rfl, hmade _⟩

/-- The value of a list record. -/
theorem made_cells {t : CellsType} {c : Pairs} {c' : Cells}
    (hc : ∀ tag car r lang, c' = .cons lang tag car r → lang = (t == .LANGSXP))
    (hnil : c' = .nil ↔ c = .nil) : (Body.cells t c).Made c'.toSEXP := by
  cases c' with
  | nil =>
    obtain rfl := hnil.mp rfl
    exact ⟨⟨rfl, rfl, by cases t <;> rfl, rfl⟩, trivial⟩
  | cons lang tag car r =>
    obtain rfl := hc tag car r lang rfl
    cases c with
    | nil => exact absurd (hnil.mpr rfl) (by simp)
    | cons tag' val' c => cases t <;> exact ⟨⟨rfl, rfl, rfl, rfl⟩, rfl⟩

theorem wellFormed_toSEXP (c : Cells) : c.toSEXP.WellFormed ↔ c.WellFormed := by
  cases c with
  | nil => exact Iff.rfl
  | cons lang tag car r =>
    simp only [Cells.toSEXP, Datum.fresh, SEXP.WellFormed, Cells.WellFormedAttrib,
      Datum.WellFormed, Cells.WellFormed, true_and]

mutual

/-- **The value of a tree is well-formed exactly when the tree is typed.** -/
theorem Tree.judges : ∀ t : Tree,
    Judges (t.eval R) True t.Typed SEXP.WellFormed t.body.Kind
  | .plain b => by
    intro m v m' h
    obtain ⟨hiff, hkind, -⟩ := Body.judges b m v m' h
    exact ⟨hiff, hkind⟩
  | .attributed attr b => by
    refine (Pairs.judgesAttrib attr).bind fun a _ => ?_
    have hb := ((Body.judges b).credit a.WellFormedAttrib).bind (U := True)
      (f := fun res => if a.length ≠ 0 then setAttrib res a else Pure.pure res)
      (Q := SEXP.WellFormed) (L := b.Kind) fun res hres => ?_
    · exact hb.congr (iff_of_eq (and_true _))
    · split
      · exact judges_setAttrib hres.2 hres.1 a
      · next h0 =>
        have ha0 : a = .nil := Cells.length_eq_zero.mp (not_not.mp h0)
        refine Judges.pure ?_ hres.1
        rw [ha0, and_true]
        exact (and_iff_right trivial).symm

theorem Body.judges : ∀ b : Body, Judges (b.eval R) True b.Typed SEXP.WellFormed b.Made
  | .null _ | .missingArg =>
    Judges.pure (iff_of_true trivial ⟨trivial, trivial⟩) ⟨⟨rfl, rfl, rfl, rfl⟩, trivial⟩
  | .atoms t len bytes => by
    refine ((judges_allocVector t.type len).bind (U := True) fun _ _ => ?_).congr (and_self_iff)
    refine Judges.pure ?_ ⟨⟨rfl, rfl, rfl, rfl⟩, rfl⟩
    simp [Datum.fresh, SEXP.WellFormed, Cells.WellFormedAttrib, Datum.WellFormed]
  | .symbol text => by
    refine ((judges_text _ text).bind (U := True) fun s _ => ?_).congr (and_self_iff)
    unfold install
    split
    · exact Judges.error _
    · split
      · exact Judges.error _
      · exact Judges.pure (iff_of_true trivial ⟨trivial, trivial⟩)
          ⟨⟨rfl, rfl, rfl, rfl⟩, trivial⟩
  | .string text => by
    refine ((judges_text _ text).bind (U := True) fun s _ => ?_).congr (and_self_iff)
    exact Judges.pure (iff_of_true trivial ⟨trivial, trivial⟩) ⟨⟨rfl, rfl, rfl, rfl⟩, trivial⟩
  | .generic elts => by
    refine ((judges_allocVector _ _).bind (U := elts.TypedElts) fun _ _ => ?_).congr
      (iff_of_eq (true_and _))
    refine ((Trees.judgesElts elts).bind (U := True) fun xs _ => ?_).congr (iff_of_eq (and_true _))
    refine Judges.pure ?_ ⟨⟨rfl, rfl, rfl, rfl⟩, rfl⟩
    simp [Datum.fresh, SEXP.WellFormed, Cells.WellFormedAttrib, Datum.WellFormed]
  | .strings elts => by
    refine ((judges_allocVector _ _).bind (U := elts.Typed) fun _ _ => ?_).congr
      (iff_of_eq (true_and _))
    refine ((Trees.judgesStrings elts).bind (U := True) fun xs _ => ?_).congr
      (iff_of_eq (and_true _))
    refine Judges.pure ?_ ⟨⟨rfl, rfl, rfl, rfl⟩, rfl⟩
    simp [Datum.fresh, SEXP.WellFormed, Cells.WellFormedAttrib, Datum.WellFormed]
  | .closure len f b e => by
    have hall := (Tree.judges f).bind fun f' hf =>
      ((Tree.judges b).credit f'.WellFormed).bind fun b' _ =>
        ((Tree.judges e).credit (f'.WellFormed ∧ b'.WellFormed)).bind
          (f := fun e' => Pure.pure (Datum.closure f' false b' e').fresh)
          (U := f.body.isFormals = true ∧ e.body.isEnvironment = true)
          (Q := SEXP.WellFormed) (L := (Body.closure len f b e).Made) fun e' he => by
          refine Judges.pure ?_ ⟨⟨rfl, rfl, rfl, rfl⟩, rfl⟩
          rw [← hf.formals, ← he.environment]
          simp only [Datum.fresh, SEXP.WellFormed, Cells.WellFormedAttrib, Datum.WellFormed]
          tauto
    refine hall.congr ?_
    show _ ↔ _ ∧ _ ∧ f.Typed ∧ b.Typed ∧ e.Typed
    tauto
  | .cells t c => by
    refine ((Pairs.judges c (t == .LANGSXP)).bind (U := True) fun c' hc' => ?_).congr
      (iff_of_eq (and_true _))
    refine Judges.pure ?_ (made_cells hc'.1 hc'.2)
    rw [wellFormed_toSEXP, and_true]
  | .environment len => judges_environment len

theorem Trees.judgesElts : ∀ ts : Trees,
    Judges (ts.eval R) True ts.TypedElts wellFormedElts fun _ => True
  | .nil => Judges.pure (iff_of_true trivial ⟨trivial, trivial⟩) trivial
  | .cons t ts => by
    have hall := (Tree.judges t).bind fun x hx =>
      ((Trees.judgesElts ts).credit x.WellFormed).bind
        (f := fun xs => Pure.pure (x :: xs)) (U := t.body.isCharsxp = false)
        (Q := wellFormedElts) (L := fun _ => True) fun xs _ => by
        refine Judges.pure ?_ trivial
        rw [← hx.charsxp]
        simp only [wellFormedElts]
        tauto
    refine hall.congr ?_
    show _ ↔ _ ∧ t.Typed ∧ ts.TypedElts
    tauto

theorem Trees.judgesStrings : ∀ ts : Trees,
    Judges (ts.evalStrings R) True ts.Typed (fun _ => True) fun _ => True
  | .nil => Judges.pure (iff_of_true trivial ⟨trivial, trivial⟩) trivial
  | .cons t ts => by
    refine (Tree.judges t).bind fun x hx => ?_
    cases x with
    | charsxp c =>
      refine (((Trees.judgesStrings ts).credit (SEXP.charsxp c).WellFormed).bind (U := True)
        (f := fun cs => Pure.pure (c :: cs)) fun cs _ => ?_).congr (iff_of_eq (and_true _))
      exact Judges.pure (iff_of_true trivial ⟨⟨trivial, trivial⟩, trivial⟩) trivial
    | _ => exact Judges.error _

theorem Pairs.judges : ∀ (c : Pairs) (lang : Bool),
    Judges (c.eval R lang) True c.Typed Cells.WellFormed fun c' =>
      (∀ tag car r l, c' = .cons l tag car r → l = lang) ∧ (c' = .nil ↔ c = .nil)
  | .nil, lang => Judges.pure (iff_of_true trivial ⟨trivial, trivial⟩)
      ⟨fun _ _ _ _ h => (nomatch h), iff_of_true rfl rfl⟩
  | .cons tag val c, lang => by
    have hall := (Tree.judges tag).bind fun tag' htag =>
      ((Tree.judges val).credit tag'.WellFormed).bind fun val' _ =>
        ((Pairs.judges c lang).credit (tag'.WellFormed ∧ val'.WellFormed)).bind
          (f := fun rest => Pure.pure (Cells.cons lang tag' val' rest))
          (U := tag.body.isTag = true) (Q := Cells.WellFormed)
          (L := fun c' => (∀ tag car r l, c' = .cons l tag car r → l = lang) ∧
            (c' = .nil ↔ Pairs.cons tag val c = .nil)) fun rest _ => by
          refine Judges.pure ?_ ⟨?_, ?_⟩
          · rw [← htag.tag]
            simp only [Cells.WellFormed]
            tauto
          · rintro _ _ _ _ ⟨⟩
            rfl
          · exact iff_of_false (by simp) (by simp)
    refine hall.congr ?_
    show _ ↔ _ ∧ tag.Typed ∧ val.Typed ∧ c.Typed
    tauto

theorem Pairs.judgesAttrib : ∀ c : Pairs,
    Judges (c.eval R false) True c.TypedAttrib Cells.WellFormedAttrib fun _ => True
  | .nil => Judges.pure (iff_of_true trivial ⟨trivial, trivial⟩) trivial
  | .cons tag val c => by
    have hall := (Tree.judges tag).bind fun tag' htag =>
      ((Tree.judges val).credit tag'.WellFormed).bind fun val' hval =>
        ((Pairs.judgesAttrib c).credit (tag'.WellFormed ∧ val'.WellFormed)).bind
          (f := fun rest => Pure.pure (Cells.cons false tag' val' rest))
          (U := tag.body.isTag = true ∧ val.body.isCharsxp = false)
          (Q := Cells.WellFormedAttrib) (L := fun _ => True) fun rest _ => by
          refine Judges.pure ?_ trivial
          rw [← htag.tag, ← hval.charsxp]
          simp only [Cells.WellFormedAttrib]
          tauto
    refine hall.congr ?_
    show _ ↔ _ ∧ _ ∧ tag.Typed ∧ val.Typed ∧ c.TypedAttrib
    tauto

end

end Judges

/-! ### Loads -/

/-- The stream begins with the bytes of a typed tree. -/
def StreamTyped (bytes : List UInt8) : Prop :=
  ∃ (t : Tree) (rest : List UInt8), bytes = t.wire ++ rest ∧ t.Valid ∧ t.Typed

/-- **A value that was loaded is well-formed exactly when its records are typed.** This
includes the attributes that the load attaches to objects R shares. -/
theorem load_well_formed_iff (R : Runtime) (bytes dec_buf : List UInt8) (v : SEXP)
    (st : Decoder (List UInt8)) (h : C_mem_restore R bytes dec_buf = .ok v st) :
    (v.WellFormed ∧ SharedWellFormed st.shared) ↔ StreamTyped bytes := by
  -- the evaluation of a tree starts with no attributes of shared objects
  have hstart : ∀ t : Tree, ∀ m, t.eval R (Decoder.on () dec_buf) = .ok v m →
      (v.WellFormed ∧ SharedWellFormed m.shared ↔ t.Typed) := by
    intro t m heval
    obtain ⟨hiff, -⟩ := Tree.judges t _ v m heval
    rw [hiff, true_and]
    exact and_iff_right fun p hp => absurd hp List.not_mem_nil
  constructor
  · intro hv
    obtain ⟨t, hvalid, hbytes, m, heval, hm⟩ := restore_ok h
    refine ⟨t, st.api, hbytes, hvalid, (hstart t m heval).mp ?_⟩
    rwa [← hm.shared]
  · rintro ⟨t, rest, rfl, hvalid, htyped⟩
    have hwire := restore_wire (R := R) hvalid rest dec_buf
    rw [h] at hwire
    cases heval : t.eval R (Decoder.on () dec_buf) with
    | error e m =>
      rw [heval] at hwire
      exact hwire.elim
    | ok w m =>
      rw [heval] at hwire
      obtain ⟨rfl, hm⟩ := hwire
      rw [hm.shared]
      exact (hstart t m heval).mpr htyped

/-- The pairlist of one cell with the tag `a` and the value `NULL`. -/
theorem load_well_formed_tagged :
    SEXP.WellFormed (.object .nil false false
      (.cons false (.symbol (cstr [97, 0])) .NULL .nil)) :=
  ((load_well_formed_iff .ample
    (header .LISTSXP 1 ++ (header .SYMSXP 2 ++ [97, 0]) ++ header .NILSXP 0) [] _ _ rfl).mpr
    ⟨.plain (.cells .LISTSXP (.cons (.plain (.symbol (.short [97, 0]))) (.plain (.null 0)) .nil)),
      [], by rw [List.append_nil]; rfl,
      by simp [Tree.Valid, Body.Valid, Pairs.Valid, Pairs.length, Text.Valid, Text.len, Body.ts,
        CellsType.type, sizeofDecBuf],
      by simp [Tree.Typed, Body.Typed, Pairs.Typed, Tree.body, Body.isTag]⟩).1

/-- **A list with a bare cached string** is returned for a list record followed by a
string record. -/
theorem bare_string_in_list :
    outcome (C_mem_restore .ample (header .VECSXP 1 ++ header .CHARSXP 2 ++ [97, 0]) []) =
        .value (.object .nil false false (.generic [.charsxp (mkChar (cstr [97, 0]))])) [] ∧
      ¬ SEXP.WellFormed
        (.object .nil false false (.generic [.charsxp (mkChar (cstr [97, 0]))])) := by
  refine ⟨rfl, fun h => ?_⟩
  simp [SEXP.WellFormed, Datum.WellFormed, wellFormedElts, SEXP.isCharsxp] at h

end Sfs
end Osrv
