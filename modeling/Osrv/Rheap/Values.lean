import Mathlib.Data.List.Forall2
import Mathlib.Order.Interval.Set.Basic
import Osrv.Rheap.Decode

/-!
# The value of an object

What a reference stands for, in the terms of the decoder over values: `Denotes W v P r` says
that the object `r` has the value `v` in the memory and the tables of `W`. An object that R
shares is found by its name or by its reference, and its attributes are no part of it. All
the others that `v` consists of are in `P`, and none is a part of itself.

A value is kept as long as its objects are (`Denotes.kept`). What a load leaves alone of the
memory is said by `Later`: the contents of every object that was there, and the header too
unless R shares the object.
-/

namespace Osrv
namespace Rheap

open Bytes Sfs

/-! ### What R keeps -/

/-- The memory with the tables of names. -/
structure World where
  heap : Memory
  interned : Interned → CString → Option Ref

def Machine.world {σ : Type} (m : Machine σ) : World := ⟨m.heap, m.interned⟩

def Session.world (S : Session) : World := ⟨S.heap, S.interned⟩

/-- The objects the decoder makes and R does not share. -/
def Contents.owned : Contents → Bool
  | atoms .. | elements .. | cons .. | closure .. => true
  | _ => false

/-- The references of the environments with a code of their own. -/
def environmentRef : Environment → Option Ref
  | .R_GlobalEnv => some R_GlobalEnv
  | .R_EmptyEnv => some R_EmptyEnv
  | .R_BaseEnv => some R_BaseEnv
  | .other _ => none

/-- The name of the attribute that makes an object of a class. -/
def className : CString := cstr [99, 108, 97, 115, 115]

/-- The objects with fixed references are what R has there, and the tables name objects of
their kind. -/
structure World.Valid (W : World) : Prop where
  fixed : R_BlankString < W.heap.top
  null : (W.heap.objects R_NilValue).contents = .null
  missing : (W.heap.objects R_MissingArg).contents = .symbol CString.empty
  environment : ∀ e r, environmentRef e = some r →
    ∃ refs, (W.heap.objects r).contents = .other refs
  classSymbol : W.interned .symbol className = some R_ClassSymbol
  named : ∀ k s r, W.interned k s = some r →
    r < W.heap.top ∧ (W.heap.objects r).contents = k.contents s

/-! ### Values -/

/-- A cached string. The strings of the decoder have no mark. -/
def DenotesString (W : World) (c : Charsxp) (r : Ref) : Prop :=
  ∃ s, c = Sfs.mkChar s ∧ W.interned .string s = some r

mutual

/-- **The value of an object**, whose own objects are in `P`. -/
def Denotes (W : World) : SEXP → Set Ref → Ref → Prop
  | .NULL, _, r => r = R_NilValue
  | .symbol s, _, r => s = CString.empty ∧ r = R_MissingArg ∨ W.interned .symbol s = some r
  | .charsxp c, _, r => DenotesString W c r
  | .environment e, _, r => environmentRef e = some r
  | .object a o s4 u, P, r => r ∈ P ∧ s4 = false ∧ (W.heap.objects r).obj = o ∧
      DenotesCells W a (P \ {r}) (W.heap.objects r).attrib ∧
      DenotesDatum W u (P \ {r}) (W.heap.objects r).contents

/-- What an object holds besides its header. -/
def DenotesDatum (W : World) : Datum → Set Ref → Contents → Prop
  | .atoms t xs, _, c => ∃ bs, c = .atoms t xs.length bs ∧ xs = blocks t.el xs.length bs
  | .strings cs, _, c => ∃ rs, c = .elements .STRSXP rs ∧ List.Forall₂ (DenotesString W) cs rs
  | .generic xs, P, c => ∃ rs, c = .elements .VECSXP rs ∧ DenotesElts W xs P rs
  | .cons lang tag car cdr, P, c => ∃ t v d, c = .cons lang t v d ∧
      Denotes W tag P t ∧ Denotes W car P v ∧ DenotesCells W cdr P d
  | .closure formals compiled body cloenv, P, c => compiled = false ∧
      ∃ f b e, c = .closure f b e ∧
        Denotes W formals P f ∧ Denotes W body P b ∧ Denotes W cloenv P e
  | .unknown _, _, _ => False

/-- The cells from a given one on. They have no attributes. -/
def DenotesCells (W : World) : Sfs.Cells → Set Ref → Ref → Prop
  | .nil, _, r => r = R_NilValue
  | .cons lang tag car cdr, P, r => r ∈ P ∧ ∃ t v d,
      W.heap.objects r = (Contents.cons lang t v d).fresh ∧
      Denotes W tag (P \ {r}) t ∧ Denotes W car (P \ {r}) v ∧ DenotesCells W cdr (P \ {r}) d

/-- The elements of a generic vector. -/
def DenotesElts (W : World) : List SEXP → Set Ref → List Ref → Prop
  | [], _, rs => rs = []
  | x :: xs, P, rs => ∃ r rest, rs = r :: rest ∧ Denotes W x P r ∧ DenotesElts W xs P rest

end

/-! ### Values that are kept -/

/-- The objects in `P` are as they were, and what had a name has it. -/
structure Kept (W W' : World) (P : Set Ref) : Prop where
  objects : ∀ r ∈ P, (W.heap.objects r).contents.owned = true →
    W'.heap.objects r = W.heap.objects r
  interned : ∀ k s r, W.interned k s = some r → W'.interned k s = some r

theorem Kept.refl (W : World) (P : Set Ref) : Kept W W P := ⟨fun _ _ _ => rfl, fun _ _ _ h => h⟩

theorem Kept.part {W W' : World} {P : Set Ref} (h : Kept W W' P) (r : Ref) :
    Kept W W' (P \ {r}) :=
  ⟨fun q hq => h.objects q hq.1, h.interned⟩

theorem DenotesString.kept {W W' : World} {P : Set Ref} (h : Kept W W' P) {c : Charsxp} {r : Ref}
    (hr : DenotesString W c r) : DenotesString W' c r := by
  obtain ⟨s, hc, hs⟩ := hr
  exact ⟨s, hc, h.interned _ s r hs⟩

/-- What an object holds is its own. -/
theorem DenotesDatum.owned {W : World} {u : Datum} {P : Set Ref} {c : Contents}
    (h : DenotesDatum W u P c) : c.owned = true := by
  cases u with
  | atoms t xs =>
    obtain ⟨bs, rfl, -⟩ := h
    rfl
  | strings cs =>
    obtain ⟨rs, rfl, -⟩ := h
    rfl
  | generic xs =>
    obtain ⟨rs, rfl, -⟩ := h
    rfl
  | cons lang tag car cdr =>
    obtain ⟨t, v, d, rfl, -⟩ := h
    rfl
  | closure formals compiled body cloenv =>
    obtain ⟨-, f, b, e, rfl, -⟩ := h
    rfl
  | unknown t => exact h.elim

section Kept

variable {W W' : World}

mutual

/-- **A value is kept** with its objects, and there may be more room for them. -/
theorem Denotes.kept {P P' : Set Ref} (h : Kept W W' P) (hP : P ⊆ P') :
    ∀ {v : SEXP} {r : Ref}, Denotes W v P r → Denotes W' v P' r
  | .NULL, _, hr => hr
  | .symbol s, r, hr => hr.imp_right (h.interned _ s r)
  | .charsxp _, _, hr => DenotesString.kept h hr
  | .environment _, _, hr => hr
  | .object a o s4 u, r, hr => by
    obtain ⟨hmem, hs4, hobj, ha, hu⟩ := hr
    have hsub : P \ {r} ⊆ P' \ {r} := Set.sdiff_subset_sdiff_left hP
    have hself : W'.heap.objects r = W.heap.objects r := h.objects r hmem hu.owned
    refine ⟨hP hmem, hs4, ?_, ?_, ?_⟩
    · rw [hself]
      exact hobj
    · rw [hself]
      exact DenotesCells.kept (h.part r) hsub ha
    · rw [hself]
      exact DenotesDatum.kept (h.part r) hsub hu

theorem DenotesDatum.kept {P P' : Set Ref} (h : Kept W W' P) (hP : P ⊆ P') :
    ∀ {u : Datum} {c : Contents}, DenotesDatum W u P c → DenotesDatum W' u P' c
  | .atoms _ _, _, hc => hc
  | .strings _, _, hc => by
    obtain ⟨rs, hc, hrs⟩ := hc
    exact ⟨rs, hc, hrs.imp fun _ _ => DenotesString.kept h⟩
  | .generic xs, _, hc => by
    obtain ⟨rs, hc, hrs⟩ := hc
    exact ⟨rs, hc, DenotesElts.kept h hP hrs⟩
  | .cons _ tag car cdr, _, hc => by
    obtain ⟨t, v, d, hc, ht, hv, hd⟩ := hc
    exact ⟨t, v, d, hc, Denotes.kept h hP ht, Denotes.kept h hP hv, DenotesCells.kept h hP hd⟩
  | .closure formals _ body cloenv, _, hc => by
    obtain ⟨hcompiled, f, b, e, hc, hf, hb, he⟩ := hc
    exact ⟨hcompiled, f, b, e, hc, Denotes.kept h hP hf, Denotes.kept h hP hb,
      Denotes.kept h hP he⟩
  | .unknown _, _, hc => hc

theorem DenotesCells.kept {P P' : Set Ref} (h : Kept W W' P) (hP : P ⊆ P') :
    ∀ {cs : Sfs.Cells} {r : Ref}, DenotesCells W cs P r → DenotesCells W' cs P' r
  | .nil, _, hr => hr
  | .cons lang tag car cdr, r, hr => by
    obtain ⟨hmem, t, v, d, hcell, ht, hv, hd⟩ := hr
    have hsub : P \ {r} ⊆ P' \ {r} := Set.sdiff_subset_sdiff_left hP
    have howned : (W.heap.objects r).contents.owned = true := by rw [hcell]; rfl
    exact ⟨hP hmem, t, v, d, (h.objects r hmem howned).trans hcell,
      Denotes.kept (h.part r) hsub ht, Denotes.kept (h.part r) hsub hv,
      DenotesCells.kept (h.part r) hsub hd⟩

theorem DenotesElts.kept {P P' : Set Ref} (h : Kept W W' P) (hP : P ⊆ P') :
    ∀ {xs : List SEXP} {rs : List Ref}, DenotesElts W xs P rs → DenotesElts W' xs P' rs
  | [], _, hrs => hrs
  | x :: xs, _, hrs => by
    obtain ⟨r, rest, hrs, hr, hrest⟩ := hrs
    exact ⟨r, rest, hrs, Denotes.kept h hP hr, DenotesElts.kept h hP hrest⟩

end

end Kept

/-! ### What can be told from the reference -/

section Denotes

variable {W : World} {v : SEXP} {cs : Sfs.Cells} {P : Set Ref} {r : Ref}

/-- The object of a value that is an object has contents of its own. -/
theorem Denotes.owned {a : Sfs.Cells} {o s4 : Bool} {u : Datum}
    (h : Denotes W (.object a o s4 u) P r) :
    (W.heap.objects r).contents.owned = true := h.2.2.2.2.owned

/-- The strings are the values of the objects that R takes for strings. -/
theorem Denotes.isCharsxp_iff (hW : W.Valid) (h : Denotes W v P r) :
    (W.heap.objects r).contents.isCharsxp = true ↔ ∃ c, v = .charsxp c := by
  cases v with
  | NULL =>
    obtain rfl : r = R_NilValue := h
    rw [hW.null]
    exact iff_of_false Bool.false_ne_true (by simp)
  | symbol s =>
    have hsymbol : (W.heap.objects r).contents = .symbol s := by
      obtain ⟨rfl, rfl⟩ | hs := h
      · exact hW.missing
      · exact (hW.named _ s r hs).2
    rw [hsymbol]
    exact iff_of_false Bool.false_ne_true (by simp)
  | charsxp c =>
    obtain ⟨s, rfl, hs⟩ := h
    rw [(hW.named _ s r hs).2]
    exact iff_of_true rfl ⟨_, rfl⟩
  | environment e =>
    obtain ⟨refs, hrefs⟩ := hW.environment e r h
    rw [hrefs]
    exact iff_of_false Bool.false_ne_true (by simp)
  | object a o s4 u =>
    refine iff_of_false (fun hstring => ?_) (by simp)
    have howned := h.owned
    cases hc : (W.heap.objects r).contents with
    | charsxp s =>
      rw [hc] at howned
      cases howned
    | _ =>
      rw [hc] at hstring
      cases hstring

/-- What is not an object of its own is shared. -/
theorem Denotes.shared (hW : W.Valid) (h : Denotes W v P r)
    (hv : ∀ a o s4 u, v ≠ .object a o s4 u) : (W.heap.objects r).contents.owned = false := by
  cases v with
  | NULL =>
    obtain rfl : r = R_NilValue := h
    rw [hW.null]
    rfl
  | symbol s =>
    obtain ⟨rfl, rfl⟩ | hs := h
    · rw [hW.missing]
      rfl
    · rw [(hW.named _ s r hs).2]
      rfl
  | charsxp c =>
    obtain ⟨s, rfl, hs⟩ := h
    rw [(hW.named _ s r hs).2]
    rfl
  | environment e =>
    obtain ⟨refs, hrefs⟩ := hW.environment e r h
    rw [hrefs]
    rfl
  | object a o s4 u => exact absurd rfl (hv a o s4 u)

/-- Cells have a class when one of their tags is its name. -/
theorem hasClass_cons (lang : Bool) (tag car : SEXP) (cdr : Sfs.Cells) :
    (Sfs.Cells.cons lang tag car cdr).hasClass = true ↔
      tag = .symbol className ∨ cdr.hasClass = true := by
  cases tag with
  | symbol s =>
    rw [Sfs.Cells.hasClass, Bool.or_eq_true, beq_iff_eq, SEXP.symbol.injEq]
    refine or_congr_left ⟨fun h => CString.ext ?_, fun h => ?_⟩
    · rw [h]
      rfl
    · rw [h]
      rfl
  | _ => exact (or_iff_right SEXP.noConfusion).symm

/-- A tag is the symbol `class` when it has its reference. -/
theorem Denotes.classSymbol_iff (hW : W.Valid) (h : Denotes W v P r) :
    r = R_ClassSymbol ↔ v = .symbol className := by
  have hclass : (W.heap.objects R_ClassSymbol).contents = .symbol className :=
    (hW.named _ _ _ hW.classSymbol).2
  constructor
  · rintro rfl
    cases v with
    | NULL => cases h
    | symbol s =>
      obtain ⟨-, h⟩ | hs := h
      · cases h
      · have hnamed := (hW.named _ s _ hs).2
        rw [hclass] at hnamed
        cases hnamed
        rfl
    | charsxp c =>
      obtain ⟨s, -, hs⟩ := h
      have hnamed := (hW.named _ s _ hs).2
      rw [hclass] at hnamed
      cases hnamed
    | environment e =>
      obtain ⟨refs, hrefs⟩ := hW.environment e _ h
      rw [hclass] at hrefs
      cases hrefs
    | object a o s4 u =>
      have howned := h.owned
      rw [hclass] at howned
      cases howned
  · rintro rfl
    obtain ⟨hempty, -⟩ | hs := h
    · have hbytes := congrArg CString.bytes hempty
      cases hbytes
    · exact Option.some.inj (hs.symm.trans hW.classSymbol)

/-- There are no cells when the reference is that of `R_NilValue`. -/
theorem DenotesCells.eq_nil_iff (hW : W.Valid) (h : DenotesCells W cs P r) :
    r = R_NilValue ↔ cs.length = 0 := by
  cases cs with
  | nil => exact iff_of_true h rfl
  | cons lang tag car cdr =>
    refine iff_of_false ?_ (Nat.succ_ne_zero _)
    rintro rfl
    obtain ⟨-, t, v, d, hcell, -⟩ := h
    have hnull := hW.null
    rw [hcell] at hnull
    cases hnull

/-- The value of the cells. -/
theorem DenotesCells.toSEXP (h : DenotesCells W cs P r) : Denotes W cs.toSEXP P r := by
  cases cs with
  | nil => exact h
  | cons lang tag car cdr =>
    obtain ⟨hmem, t, v, d, hcell, ht, hv, hd⟩ := h
    refine ⟨hmem, rfl, ?_, ?_, ?_⟩
    · rw [hcell]
      rfl
    · rw [hcell]
      rfl
    · rw [hcell]
      exact ⟨t, v, d, rfl, ht, hv, hd⟩

end Denotes

/-! ### What is left alone -/

/-- What a load leaves alone: the contents of the objects that were there, and the headers of
those that R does not share, but for the objects in `X`. -/
structure Later (X : Set Ref) (W W' : World) : Prop where
  top : W.heap.top ≤ W'.heap.top
  contents : ∀ r < W.heap.top, r ∉ X →
    (W'.heap.objects r).contents = (W.heap.objects r).contents
  objects : ∀ r < W.heap.top, r ∉ X → (W.heap.objects r).contents.owned = true →
    W'.heap.objects r = W.heap.objects r
  interned : ∀ k s r, W.interned k s = some r → W'.interned k s = some r

section Later

variable {W W₁ W' : World} {X Y P : Set Ref} {r : Ref}

theorem Later.refl (X : Set Ref) (W : World) : Later X W W :=
  ⟨Nat.le_refl _, fun _ _ _ => rfl, fun _ _ _ _ => rfl, fun _ _ _ h => h⟩

theorem Later.mono (h : Later X W W') (hX : X ⊆ Y) : Later Y W W' :=
  ⟨h.top, fun r hr hY => h.contents r hr fun hmem => hY (hX hmem),
    fun r hr hY => h.objects r hr fun hmem => hY (hX hmem), h.interned⟩

/-- What is changed later among the objects of the start has to be in `X`. -/
theorem Later.trans (h : Later X W W₁) (h' : Later Y W₁ W')
    (hY : ∀ r ∈ Y, r < W.heap.top → r ∈ X) : Later X W W' where
  top := h.top.trans h'.top
  contents r hr hX :=
    (h'.contents r (Nat.lt_of_lt_of_le hr h.top) fun hmem => hX (hY r hmem hr)).trans
      (h.contents r hr hX)
  objects r hr hX howned := by
    have hcontents := h.contents r hr hX
    have hnotin : r ∉ Y := fun hmem => hX (hY r hmem hr)
    refine (h'.objects r (Nat.lt_of_lt_of_le hr h.top) hnotin ?_).trans (h.objects r hr hX howned)
    rw [hcontents]
    exact howned
  interned k s r hr := h'.interned k s r (h.interned k s r hr)

theorem Later.kept (h : Later X W W') (hP : ∀ r ∈ P, r < W.heap.top ∧ r ∉ X) : Kept W W' P :=
  ⟨fun r hr => h.objects r (hP r hr).1 (hP r hr).2, h.interned⟩

/-- A cell that is newer than its tag and its value and older than the cells behind it. -/
theorem DenotesCells.cons {b top x t u d : Ref} {lang : Bool} {tag car : SEXP} {cdr : Sfs.Cells}
    (hb : b ≤ x) (hx : x < top) (hcell : W.heap.objects x = (Contents.cons lang t u d).fresh)
    (htag : Denotes W tag (Set.Ico b x) t) (hcar : Denotes W car (Set.Ico b x) u)
    (hcdr : DenotesCells W cdr (Set.Ico (x + 1) top) d) :
    DenotesCells W (.cons lang tag car cdr) (Set.Ico b top) x := by
  have hbefore : Set.Ico b x ⊆ Set.Ico b top \ {x} := fun q hq =>
    ⟨⟨hq.1, hq.2.trans hx⟩, hq.2.ne⟩
  have hbehind : Set.Ico (x + 1) top ⊆ Set.Ico b top \ {x} := fun q hq =>
    ⟨⟨hb.trans (Nat.le_of_succ_le hq.1), hq.2⟩, (Nat.lt_of_succ_le hq.1).ne'⟩
  exact ⟨⟨hb, hx⟩, t, u, d, hcell, htag.kept (Kept.refl W _) hbefore,
    hcar.kept (Kept.refl W _) hbefore, hcdr.kept (Kept.refl W _) hbehind⟩

/-- A value is kept by what changes only older objects. -/
theorem Denotes.later {b : Ref} {v : SEXP} (hv : Denotes W v (Set.Ico b W.heap.top) r)
    (h : Later X W W') (hX : ∀ q ∈ X, q < b) : Denotes W' v (Set.Ico b W'.heap.top) r := by
  refine hv.kept (h.kept fun q hq => ⟨hq.2, fun hmem => ?_⟩) (Set.Ico_subset_Ico_right h.top)
  exact absurd (hX q hmem) (Nat.not_lt.mpr hq.1)

theorem Denotes.widen {v : SEXP} {b b' : Ref} (hv : Denotes W v (Set.Ico b W.heap.top) r)
    (h : b' ≤ b) : Denotes W v (Set.Ico b' W.heap.top) r :=
  hv.kept (Kept.refl W _) (Set.Ico_subset_Ico_left h)

/-- The fixed objects stay what they are: what may change belongs to the decoder. -/
theorem World.Valid.later (hW : W.Valid) (h : Later X W W')
    (hX : ∀ r ∈ X, (W.heap.objects r).contents.owned = true)
    (hnamed : ∀ k s r, W'.interned k s = some r →
      W.interned k s = some r ∨ r < W'.heap.top ∧ (W'.heap.objects r).contents = k.contents s) :
    W'.Valid := by
  -- an object that is not the decoder's keeps its contents
  have hkeep : ∀ r < W.heap.top, (W.heap.objects r).contents.owned = false →
      (W'.heap.objects r).contents = (W.heap.objects r).contents := by
    intro r hr hshared
    refine h.contents r hr fun hmem => ?_
    rw [hX r hmem] at hshared
    cases hshared
  have hlt : ∀ r ≤ R_BlankString, r < W.heap.top := fun r hr => Nat.lt_of_le_of_lt hr hW.fixed
  refine ⟨Nat.lt_of_lt_of_le hW.fixed h.top, ?_, ?_, fun e r he => ?_,
    h.interned _ _ _ hW.classSymbol, fun k s r hr => ?_⟩
  · rw [hkeep _ (hlt _ (by decide)) (by rw [hW.null]; rfl)]
    exact hW.null
  · rw [hkeep _ (hlt _ (by decide)) (by rw [hW.missing]; rfl)]
    exact hW.missing
  · obtain ⟨refs, hrefs⟩ := hW.environment e r he
    have hfixed : r ≤ R_BlankString := by
      cases e with
      | other id => cases he
      | _ =>
        cases he
        decide
    refine ⟨refs, ?_⟩
    rw [hkeep r (hlt r hfixed) (by rw [hrefs]; rfl)]
    exact hrefs
  · obtain hr | hr := hnamed k s r hr
    · obtain ⟨htop, hcontents⟩ := hW.named k s r hr
      have hshared : (W.heap.objects r).contents.owned = false := by
        rw [hcontents]
        cases k with
        | symbol => rfl
        | string => rfl
      exact ⟨Nat.lt_of_lt_of_le htop h.top, (hkeep r htop hshared).trans hcontents⟩
    · exact hr

end Later

/-! ### Changes -/

section Changes

variable {W : World} {X : Set Ref} {c r : Ref}

/-- A new object. -/
def World.push (W : World) (o : Object) : World := ⟨W.heap.push o, W.interned⟩

def World.change (W : World) (r : Ref) (f : Object → Object) : World :=
  ⟨W.heap.change r f, W.interned⟩

theorem objects_push (W : World) (o : Object) : (W.push o).heap.objects W.heap.top = o :=
  Function.update_self ..

theorem objects_change (W : World) (r : Ref) (f : Object → Object) :
    (W.change r f).heap.objects r = f (W.heap.objects r) := Function.update_self ..

theorem objects_change_of_ne (W : World) {q r : Ref} (h : q ≠ r) (f : Object → Object) :
    (W.change r f).heap.objects q = W.heap.objects q := Function.update_of_ne h ..

/-- A change of the object that has just been made. -/
theorem change_push (W : World) (o : Object) (f : Object → Object) :
    (W.push o).change W.heap.top f = W.push (f o) := by
  unfold World.push World.change Memory.push Memory.change
  simp only [Function.update_self, Function.update_idem]

/-- Two changes of one object. -/
theorem change_change (W : World) (r : Ref) (f g : Object → Object) :
    (W.change r f).change r g = W.change r fun o => g (f o) := by
  unfold World.change Memory.change
  simp only [Function.update_self, Function.update_idem]

theorem later_push (W : World) (o : Object) : Later X W (W.push o) := by
  have hother : ∀ r < W.heap.top, (W.push o).heap.objects r = W.heap.objects r := fun r hr =>
    Function.update_of_ne hr.ne ..
  exact ⟨Nat.le_succ _, fun r hr _ => congrArg Object.contents (hother r hr),
    fun r hr _ _ => hother r hr, fun _ _ _ h => h⟩

theorem World.Valid.push (hW : W.Valid) (o : Object) : (W.push o).Valid :=
  hW.later (later_push W o) (X := ∅) (fun _ h => h.elim) fun _ _ _ h => Or.inl h

theorem later_change (W : World) (f : Object → Object) : Later {r} W (W.change r f) := by
  have hother : ∀ q ∉ ({r} : Set Ref), (W.change r f).heap.objects q = W.heap.objects q :=
    fun q hq => objects_change_of_ne W hq f
  exact ⟨Nat.le_refl _, fun q _ hq => congrArg Object.contents (hother q hq),
    fun q _ hq _ => hother q hq, fun _ _ _ h => h⟩

theorem World.Valid.change (hW : W.Valid) (howned : (W.heap.objects r).contents.owned = true)
    (f : Object → Object) : (W.change r f).Valid :=
  hW.later (later_change W f) (fun _ hq => hq ▸ howned) fun _ _ _ h => Or.inl h

/-- A symbol or a string that is made, and entered in the table. -/
def World.enter (W : World) (k : Interned) (s : CString) : World :=
  ⟨W.heap.push (k.contents s).fresh, Rheap.enter W.interned k s W.heap.top⟩

theorem enter_self (table : Interned → CString → Option Ref) (k : Interned) (s : CString)
    (r : Ref) : enter table k s r k s = some r := by
  unfold enter
  rw [Function.update_self, Function.update_self]

theorem enter_of_ne (table : Interned → CString → Option Ref) {k k' : Interned} {s s' : CString}
    (h : k' ≠ k ∨ s' ≠ s) (r : Ref) : enter table k s r k' s' = table k' s' := by
  unfold enter
  obtain rfl | hk := eq_or_ne k' k
  · rw [Function.update_self, Function.update_of_ne (h.resolve_left (· rfl))]
  · rw [Function.update_of_ne hk]

/-- Nothing had the name before. -/
theorem later_enter {k : Interned} {s : CString} (hnew : W.interned k s = none) :
    Later X W (W.enter k s) := by
  have hpush : Later X W (W.push (k.contents s).fresh) := later_push W _
  refine ⟨hpush.top, hpush.contents, hpush.objects, fun k' s' r hr => ?_⟩
  refine (enter_of_ne W.interned ?_ W.heap.top).trans hr
  by_contra hsame
  obtain ⟨rfl, rfl⟩ := not_or.mp hsame |>.imp not_not.mp not_not.mp
  rw [hnew] at hr
  cases hr

theorem World.Valid.enter (hW : W.Valid) {k : Interned} {s : CString}
    (hnew : W.interned k s = none) : (W.enter k s).Valid := by
  refine hW.later (later_enter (X := ∅) hnew) (fun _ h => h.elim) fun k' s' r hr => ?_
  by_cases hsame : k' ≠ k ∨ s' ≠ s
  · exact Or.inl ((enter_of_ne W.interned hsame W.heap.top).symm.trans hr)
  -- the new entry
  · obtain ⟨rfl, rfl⟩ := not_or.mp hsame |>.imp not_not.mp not_not.mp
    obtain rfl : W.heap.top = r := Option.some.inj ((enter_self _ k' s' _).symm.trans hr)
    refine Or.inr ⟨Nat.lt_succ_self _, ?_⟩
    show ((W.push (k'.contents s').fresh).heap.objects W.heap.top).contents = k'.contents s'
    rw [objects_push]
    rfl

/-- Only the header of an object is changed that R shares. -/
theorem later_header (hshared : (W.heap.objects r).contents.owned = false) {f : Object → Object}
    (hf : ∀ o, (f o).contents = o.contents) : Later ∅ W (W.change r f) := by
  refine ⟨Nat.le_refl _, fun q _ _ => ?_, fun q _ _ howned => ?_, fun _ _ _ h => h⟩
  · obtain rfl | hne := eq_or_ne q r
    · rw [objects_change]
      exact hf _
    · rw [objects_change_of_ne W hne]
  · obtain rfl | hne := eq_or_ne q r
    · rw [hshared] at howned
      cases howned
    · exact objects_change_of_ne W hne f

end Changes

end Rheap
end Osrv
