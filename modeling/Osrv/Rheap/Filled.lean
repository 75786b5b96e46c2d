import Osrv.Rheap.Alike

/-!
# Objects that are filled in

The vectors of objects, the closures and the pairlists are made first, or cell by cell, and
filled in by loads of their parts. While an object is being filled in nothing else changes of
what was there (`Fills`), and it is no part of what is stored in it: the parts are newer. Hence
they are kept, and the object denotes the value that they make up (`Fills.gives`).
-/

namespace Osrv
namespace Rheap

open Bytes Sfs Lib

variable {σ α β : Type} {R : Runtime} {src : Source σ} {m m₁ m₂ m' : Machine σ} {st st' : Decoder σ}
  {W : World} {r c : Ref} {v : SEXP}

/-! ### Objects that are filled in -/

/-- A value is loaded and then stored in the object `c`, which was there before. -/
theorem Gives.store (hg : Gives W r m₁ v st) (hc : c < W.heap.top)
    (howned : (W.heap.objects c).contents.owned = true) {f : Object → Object}
    (hb : Becomes m₁ (m₁.world.change c f) m₂) :
    Fills c W m₂ st ∧ m₂.world.heap.objects c = f (W.heap.objects c) ∧
      Denotes m₂.world v (Set.Ico W.heap.top m₂.world.heap.top) r := by
  have hsame : m₁.world.heap.objects c = W.heap.objects c :=
    hg.later.objects c hc (Set.notMem_empty c) howned
  have hchange : Later {c} m₁.world (m₁.world.change c f) := later_change m₁.world f
  rw [hb.world]
  refine ⟨⟨hg.tracks.becomes hb, ?_, ?_⟩, ?_, ?_⟩
  · rw [hb.world]
    exact hg.valid.change (hsame ▸ howned) f
  · rw [hb.world]
    exact (hg.later.mono (Set.empty_subset _)).trans hchange fun _ h _ => h
  · rw [objects_change, hsame]
  -- `c` is no part of the value
  · refine hg.denotes.kept (hchange.kept fun q hq => ⟨hq.2, ?_⟩) (Set.Subset.refl _)
    exact fun heq => (Nat.lt_of_lt_of_le hc hq.1).ne' heq

/-- **A new object that has been filled in** denotes what it holds by then. -/
theorem Fills.gives {o : Object} {u : Datum} {k : Contents}
    (h : Fills W.heap.top (W.push o) m' st') (hk : m'.world.heap.objects W.heap.top = k.fresh)
    (hu : DenotesDatum m'.world u (Set.Ico (W.heap.top + 1) m'.world.heap.top) k) :
    Gives W W.heap.top m' u.fresh st' := by
  refine ⟨h.tracks, h.valid, ?_, ?_⟩
  · refine (later_push W o).trans h.later fun q hq hlt => ?_
    exact absurd hq hlt.ne
  · have htop : W.heap.top < m'.world.heap.top :=
      Nat.lt_of_lt_of_le (Nat.lt_succ_self _) h.later.top
    -- what it holds is newer
    have hnewer : Set.Ico (W.heap.top + 1) m'.world.heap.top
        ⊆ Set.Ico W.heap.top m'.world.heap.top \ {W.heap.top} := fun q hq =>
      ⟨⟨Nat.le_of_succ_le hq.1, hq.2⟩, (Nat.lt_of_succ_le hq.1).ne'⟩
    refine ⟨⟨Nat.le_refl _, htop⟩, rfl, ?_, ?_, ?_⟩
    · rw [hk]
      rfl
    · rw [hk]
      rfl
    · rw [hk]
      exact hu.kept (Kept.refl _ _) hnewer

/-- An element is stored behind those that are there. -/
theorem take_set_succ {rs : List Ref} {i n : ℕ} (hlen : rs.length = i + (n + 1)) (r : Ref) :
    (rs.set i r).take (i + 1) = rs.take i ++ [r] := by
  rw [List.take_add_one, List.take_set_of_le (Nat.le_refl i), List.getElem?_set_self (by omega)]
  rfl

/-- The elements `rs'` have been loaded into the vector `c` behind those in `rs`. -/
structure Loaded (t : SexpType) (c : Ref) (rs rs' : List Ref) (W : World) (m' : Machine σ)
    (st' : Decoder σ) : Prop extends Fills c W m' st' where
  elements : m'.world.heap.objects c = (Contents.elements t (rs ++ rs')).fresh

/-- One element more. -/
theorem Loaded.cons {t : SexpType} {i n : ℕ} {rs rs' : List Ref} (hfills : Fills c W m₁ st)
    (hlen : rs.length = i + (n + 1))
    (h : Loaded t c ((rs.set i r).take (i + 1)) rs' m₁.world m' st') :
    Loaded t c (rs.take i) (r :: rs') W m' st' := by
  refine ⟨⟨h.tracks, h.valid, hfills.later.trans h.later fun _ h _ => h⟩, ?_⟩
  rw [h.elements, take_set_succ hlen, List.append_assoc]
  rfl

/-- The vector `c` is there, with `n` of its elements to come from the `i`-th on. -/
structure Awaits (t : SexpType) (c : Ref) (rs : List Ref) (i n : ℕ) (m : Machine σ)
    (st : Decoder σ) : Prop where
  tracks : Tracks m st
  valid : m.world.Valid
  lt : c < m.world.heap.top
  elements : m.world.heap.objects c = (Contents.elements t rs).fresh
  length : rs.length = i + n

/-- Nothing is missing any more. -/
theorem Awaits.done {t : SexpType} {rs : List Ref} {i : ℕ} (h : Awaits t c rs i 0 m st) :
    Loaded t c (rs.take i) [] m.world m st := by
  refine ⟨⟨h.tracks, h.valid, Later.refl _ _⟩, ?_⟩
  rw [List.append_nil, List.take_of_length_le (show rs.length ≤ i from h.length.le)]
  exact h.elements

/-- **One round of the loop**: a value is loaded and stored. -/
theorem Awaits.store {t : SexpType} {rs : List Ref} {i n : ℕ} {v : SEXP}
    (h : Awaits t c rs i (n + 1) m st) (hg : Gives m.world r m₁ v st')
    (hb : Becomes m₁ (m₁.world.change c fun o => { o with contents := o.contents.setElt i r }) m₂) :
    Awaits t c (rs.set i r) (i + 1) n m₂ st' ∧ Fills c m.world m₂ st' ∧
      Denotes m₂.world v (Set.Ico m.world.heap.top m₂.world.heap.top) r := by
  obtain ⟨hfills, hself, hv⟩ := hg.store h.lt (by rw [h.elements]; rfl) hb
  refine ⟨⟨hfills.tracks, hfills.valid, Nat.lt_of_lt_of_le h.lt hfills.later.top, ?_, ?_⟩,
    hfills, hv⟩
  · rw [hself, h.elements]
    rfl
  · rw [List.length_set, h.length, Nat.add_right_comm, Nat.add_assoc]

section Load

variable {load : Act σ Ref} {load' : Load σ SEXP} (hload : Loader R load load')
include hload

/-- The loop of the generic vectors. -/
theorem agree_eltLoop (n i : ℕ) {rs : List Ref} (h : Awaits .VECSXP c rs i n m st) :
    Agree (GivesUp R) StopsAlike (eltLoop load SET_VECTOR_ELT c i n) m (loadElts load' n) st
      fun _ m' xs st' => ∃ rs', Loaded .VECSXP c (rs.take i) rs' m.world m' st' ∧
        DenotesElts m'.world xs (Set.Ico m.world.heap.top m'.world.heap.top) rs' := by
  induction n generalizing i m st rs with
  | zero => exact Agree.pure ⟨[], h.done, rfl⟩
  | succ n ih =>
    refine (hload m st h.tracks h.valid).bind fun r m₁ v st₁ hg => ?_
    refine Agree.quiet (becomes_setContents c r _) fun _ m₂ hb => ?_
    obtain ⟨h₂, hfills, hv⟩ := h.store hg hb
    refine (ih (i + 1) h₂).right fun _ m₃ xs st₃ h₃ => ?_
    obtain ⟨rs', hloaded, hxs⟩ := h₃
    refine ⟨_, _, rfl, r :: rs', hloaded.cons hfills h.length, r, rs', rfl, ?_, ?_⟩
    · exact hv.later hloaded.later fun q hq => hq ▸ h.lt
    · exact hxs.kept (Kept.refl _ _) (Set.Ico_subset_Ico_left hfills.later.top)

/-- The loop of the character vectors. What is not a string is refused by both. -/
theorem agree_strLoop (n i : ℕ) {rs : List Ref} (h : Awaits .STRSXP c rs i n m st) :
    Agree (GivesUp R) StopsAlike (eltLoop load SET_STRING_ELT c i n) m (loadStrings load' n) st
      fun _ m' cs st' => ∃ rs', Loaded .STRSXP c (rs.take i) rs' m.world m' st' ∧
        List.Forall₂ (DenotesString m'.world) cs rs' := by
  induction n generalizing i m st rs with
  | zero => exact Agree.pure ⟨[], h.done, List.Forall₂.nil⟩
  | succ n ih =>
    refine (hload m st h.tracks h.valid).bind fun r m₁ v st₁ hg => ?_
    have hstring := hg.denotes.isCharsxp_iff hg.valid
    cases v with
    | charsxp s =>
      refine Agree.quiet (becomes_SET_STRING_ELT (hstring.mpr ⟨s, rfl⟩)) fun _ m₂ hb => ?_
      obtain ⟨h₂, hfills, hv⟩ := h.store hg hb
      refine (ih (i + 1) h₂).right fun _ m₃ cs st₃ h₃ => ?_
      obtain ⟨rs', hloaded, hcs⟩ := h₃
      refine ⟨_, _, rfl, r :: rs', hloaded.cons hfills h.length, List.Forall₂.cons ?_ hcs⟩
      have hlater := hv.later hloaded.later fun q hq => hq ▸ h.lt
      exact hlater
    | _ =>
      refine agree_refused hg.tracks ?_
      rw [Bool.eq_false_iff, ne_eq, hstring]
      rintro ⟨s, hs⟩
      cases hs

omit hload in
/-- A vector of objects, with the loop that belongs to its type. -/
theorem agree_decodeElts {γ : Type} {t : SexpType} {len q : ℕ}
    (hvector : vector t len = .elements t (List.replicate len q))
    {set : Ref → ℕ → Ref → Act σ Unit} {y : Load σ (List γ)} {k : List γ → Datum}
    (hloop : ∀ {m : Machine σ} {st : Decoder σ} {c : Ref} {rs : List Ref},
      Awaits t c rs 0 len m st → Agree (GivesUp R) StopsAlike (eltLoop load set c 0 len) m y st
        fun _ m' xs st' => ∃ rs', Loaded t c [] rs' m.world m' st' ∧
          DenotesDatum m'.world (k xs) (Set.Ico m.world.heap.top m'.world.heap.top)
            (.elements t rs'))
    (h : Tracks m st) (hW : m.world.Valid) :
    Agree (GivesUp R) StopsAlike (decodeElts R load t set len) m
      (do
        Sfs.allocVector R.toRuntime t len
        let xs ← y
        return (k xs).fresh) st (Gives m.world) := by
  unfold decodeElts
  refine (agree_allocVector h t len).bind fun res m₁ _ st₁ h₁ => ?_
  obtain ⟨rfl, rfl, h₁⟩ := h₁
  rw [hvector] at h₁
  refine Agree.quiet (becomes_PROTECT _) fun _ m₂ h₂ => ?_
  have hb := h₁.trans (h₁.world ▸ h₂)
  have hawaits : Awaits t m.world.heap.top (List.replicate len q) 0 len m₂ st₁ := by
    refine ⟨h.becomes hb, ?_, ?_, ?_, by rw [List.length_replicate, Nat.zero_add]⟩
    · rw [hb.world]
      exact hW.push _
    · show _ < m₂.world.heap.top
      rw [hb.world]
      exact Nat.lt_succ_self _
    · rw [hb.world]
      exact objects_push _ _
  refine (hloop hawaits).bind fun _ m₃ xs st₃ h₃ => ?_
  obtain ⟨rs', hloaded, hdatum⟩ := h₃
  refine Agree.quiet (becomes_UNPROTECT 1) fun _ m₄ h₄ => Agree.pure ?_
  rw [hb.world] at hloaded hdatum
  have hfills : Fills m.world.heap.top (m.world.push _) m₄ st₃ :=
    ⟨hloaded.tracks.becomes h₄, h₄.world ▸ hloaded.valid, h₄.world ▸ hloaded.later⟩
  exact hfills.gives (h₄.world ▸ hloaded.elements) (h₄.world ▸ hdatum)

/-! ### Closures -/

/-- A field of the closure `c`, which is `R_NilValue` before. -/
theorem agree_closureField {g : Ref → Contents → Contents} {k : Contents}
    (hnil : g R_NilValue k = k) (howned : k.owned = true) (h : Tracks m st)
    (hW : m.world.Valid) (hc : c < m.world.heap.top) (hk : m.world.heap.objects c = k.fresh) :
    Agree (GivesUp R) StopsAlike (closureField load (fun c v => setContents c v (g v)) c) m load'
      st fun _ m' v st' => Fills c m.world m' st' ∧ ∃ r,
        m'.world.heap.objects c = (g r k).fresh ∧
          Denotes m'.world v (Set.Ico m.world.heap.top m'.world.heap.top) r := by
  rw [← bind_pure load']
  refine (hload m st h hW).bind fun r m₁ v st₁ hg => ?_
  by_cases hr : r = R_NilValue
  · rw [if_neg (not_not.mpr hr)]
    have hself := hg.later.objects c hc (Set.notMem_empty c) (by rw [hk]; exact howned)
    refine Agree.pure ⟨⟨hg.tracks, hg.valid, hg.later.mono (Set.empty_subset _)⟩, r, ?_, hg.denotes⟩
    rw [hr, hnil, hself]
    exact hk
  · rw [if_pos hr]
    refine (becomes_setContents c r (g r)).mono (fun _ m₂ hb => ?_) fun _ _ h => h.elim
    obtain ⟨hfills, hself, hv⟩ := hg.store hc (by rw [hk]; exact howned) hb
    refine ⟨v, st₁, rfl, hfills, r, ?_, hv⟩
    rw [hself, hk]
    rfl

theorem agree_decodeClosure (h : Tracks m st) (hW : m.world.Valid) :
    Agree (GivesUp R) StopsAlike (decodeClosure R load) m
      (do
        let formals ← load'
        let body ← load'
        let cloenv ← load'
        return (Datum.closure formals false body cloenv).fresh) st (Gives m.world) := by
  unfold decodeClosure
  refine Agree.step (becomes_allocCell R _) (fun _ _ h => h) fun res m₁ h₁ => ?_
  obtain ⟨rfl, h₁⟩ := h₁
  refine Agree.quiet (becomes_PROTECT _) fun _ m₂ h₂ => ?_
  have hb := h₁.trans (h₁.world ▸ h₂)
  have hself : m₂.world.heap.objects m.world.heap.top
      = (Contents.closure R_NilValue R_NilValue R_NilValue).fresh := by
    rw [hb.world]
    exact objects_push _ _
  have hlt : m.world.heap.top < m₂.world.heap.top := by
    rw [hb.world]
    exact Nat.lt_succ_self _
  have hW₂ : m₂.world.Valid := by
    rw [hb.world]
    exact hW.push _
  -- the fields, one after the other
  refine (agree_closureField hload (g := Contents.setFormals) rfl rfl (h.becomes hb) hW₂ hlt
    hself).bind fun _ m₃ formals st₃ h₃ => ?_
  obtain ⟨hf₃, f, hself₃, hf⟩ := h₃
  have hlt₃ := Nat.lt_of_lt_of_le hlt hf₃.later.top
  refine (agree_closureField hload (g := Contents.setBody) rfl rfl hf₃.tracks hf₃.valid hlt₃
    hself₃).bind fun _ m₄ body st₄ h₄ => ?_
  obtain ⟨hf₄, b, hself₄, hb₄⟩ := h₄
  have hlt₄ := Nat.lt_of_lt_of_le hlt₃ hf₄.later.top
  refine (agree_closureField hload (g := Contents.setCloenv) rfl rfl hf₄.tracks hf₄.valid hlt₄
    hself₄).bind fun _ m₅ cloenv st₅ h₅ => ?_
  obtain ⟨hf₅, e, hself₅, he⟩ := h₅
  refine Agree.quiet (becomes_UNPROTECT 1) fun _ m₆ h₆ => Agree.pure ?_
  have htop₃ := hf₃.later.top
  have htop₄ := hf₄.later.top
  have hlater : Later {m.world.heap.top} m₂.world m₅.world :=
    (hf₃.later.trans hf₄.later fun _ h _ => h).trans hf₅.later fun _ h _ => h
  -- a field that is set is kept while the others are loaded
  have hu : DenotesDatum m₅.world (.closure formals false body cloenv)
      (Set.Ico m₂.world.heap.top m₅.world.heap.top) (.closure f b e) := by
    refine ⟨rfl, f, b, e, rfl, ?_, ?_, ?_⟩
    · exact (hf.later hf₄.later fun q hq => hq ▸ hlt).later hf₅.later fun q hq => hq ▸ hlt
    · exact (hb₄.later hf₅.later fun q hq => hq ▸ hlt₃).widen htop₃
    · exact he.widen (htop₃.trans htop₄)
  rw [hb.world] at hlater hu
  have hfills : Fills m.world.heap.top (m.world.push _) m₆ st₅ :=
    ⟨hf₅.tracks.becomes h₆, h₆.world ▸ hf₅.valid, h₆.world ▸ hlater⟩
  exact hfills.gives (h₆.world ▸ hself₅) (h₆.world ▸ hu)

/-! ### Pairlists -/

omit hload in
theorem becomes_CONS (R : Runtime) (lang : Bool) (v : Ref) :
    Ends (CONS R lang v) m
      (fun x m' => x = m.world.heap.top ∧
        Becomes m (m.world.push (Contents.cons lang R_NilValue v R_NilValue).fresh) m')
      fun e _ => GivesUp R e :=
  (becomes_allocCell R _).bind (fun _ _ h => h) fun _ _ h =>
    ⟨h.1, h.2.world, h.2.api, h.2.dec_buf, h.2.mallocs, h.2.warnings⟩

/-- A tag and a value. -/
def loadCell (load : Load σ SEXP) : Load σ (SEXP × SEXP) := do
  let tag ← load
  let val ← load
  return (tag, val)

omit hload in
theorem loadCells_succ (lang : Bool) (n : ℕ) :
    loadCells load' lang (n + 1) = (do
      let p ← loadCell load'
      let rest ← loadCells load' lang n
      return .cons lang p.1 p.2 rest) := by
  simp only [loadCells, loadCell, bind_assoc, pure_bind]

/-- One cell has been made, the last object of all. -/
structure MakesCell (W : World) (lang : Bool) (x t u : Ref) (m' : Machine σ) (p : SEXP × SEXP)
    (st' : Decoder σ) : Prop where
  tracks : Tracks m' st'
  valid : m'.world.Valid
  later : Later ∅ W m'.world
  newer : W.heap.top ≤ x
  last : m'.world.heap.top = x + 1
  cell : m'.world.heap.objects x = (Contents.cons lang t u R_NilValue).fresh
  tag : Denotes m'.world p.1 (Set.Ico W.heap.top x) t
  car : Denotes m'.world p.2 (Set.Ico W.heap.top x) u

theorem agree_decodeCell (lang : Bool) (h : Tracks m st) (hW : m.world.Valid) :
    Agree (GivesUp R) StopsAlike (decodeCell R load lang) m (loadCell load') st
      fun x m' p st' => ∃ t u, MakesCell m.world lang x t u m' p st' := by
  unfold decodeCell loadCell
  refine (hload m st h hW).bind fun t m₁ tag st₁ h₁ => ?_
  refine Agree.quiet (becomes_PROTECT t) fun _ m₂ hb₂ => ?_
  refine (hload m₂ st₁ (h₁.tracks.becomes hb₂) (hb₂.world ▸ h₁.valid)).bind
    fun u m₃ val st₃ h₃ => ?_
  rw [hb₂.world] at h₃
  refine Agree.quiet (becomes_PROTECT u) fun _ m₄ hb₄ => ?_
  refine Agree.step (becomes_CONS R lang u) (fun _ _ h => h) fun x m₅ hb₅ => ?_
  obtain ⟨rfl, hb₅⟩ := hb₅
  refine Agree.quiet (becomes_PROTECT _) fun _ m₆ hb₆ => ?_
  -- the tag is set, unless it is the one of a new cell
  have htag : Ends (if t ≠ R_NilValue then SET_TAG m₄.world.heap.top t else pure ()) m₆
      (fun _ m' => Becomes m₃ (m₃.world.push (Contents.cons lang t u R_NilValue).fresh) m')
      fun _ _ => False := by
    have hb : Becomes m₃ (m₃.world.push (Contents.cons lang R_NilValue u R_NilValue).fresh) m₆ := by
      rw [hb₄.world] at hb₅
      exact hb₄.trans (hb₅.trans (hb₅.world ▸ hb₆))
    by_cases ht : t = R_NilValue
    · rw [if_neg (not_not.mpr ht), ht]
      exact hb
    · rw [if_pos ht]
      refine (becomes_setContents _ t (Contents.setTag t)).mono (fun _ m₇ hb₇ => ?_) fun _ _ h => h
      rw [hb.world, hb₄.world, change_push] at hb₇
      exact hb.trans hb₇
  refine Agree.step htag (fun _ _ h => h.elim) fun _ m₇ hb₇ => Agree.pure ⟨t, u, ?_⟩
  rw [hb₄.world]
  have hpush : Kept m₃.world m₇.world (Set.Ico m.world.heap.top m₃.world.heap.top) := by
    rw [hb₇.world]
    exact (later_push (X := ∅) m₃.world _).kept fun q hq => ⟨hq.2, Set.notMem_empty q⟩
  refine ⟨h₃.tracks.becomes hb₇, ?_, ?_, ?_, ?_, ?_, ?_, ?_⟩
  · rw [hb₇.world]
    exact h₃.valid.push _
  · rw [hb₇.world]
    exact (h₁.later.trans h₃.later fun _ h _ => h).trans (later_push (X := ∅) _ _) fun _ h _ => h
  · exact h₁.later.top.trans h₃.later.top
  · rw [hb₇.world]
    rfl
  · rw [hb₇.world]
    exact objects_push _ _
  · exact (h₁.denotes.later h₃.later fun _ h => h.elim).kept hpush (Set.Subset.refl _)
  · exact (h₃.denotes.widen h₁.later.top).kept hpush (Set.Subset.refl _)

/-- The cells behind `last`. -/
theorem agree_cellLoop (lang : Bool) (n : ℕ) {last t u : Ref} (h : Tracks m st)
    (hW : m.world.Valid) (hlast : last < m.world.heap.top)
    (hcell : m.world.heap.objects last = (Contents.cons lang t u R_NilValue).fresh) :
    Agree (GivesUp R) StopsAlike (cellLoop R load lang last n) m (loadCells load' lang n) st
      fun _ m' cs st' => Fills last m.world m' st' ∧ ∃ d,
        m'.world.heap.objects last = (Contents.cons lang t u d).fresh ∧
          DenotesCells m'.world cs (Set.Ico m.world.heap.top m'.world.heap.top) d := by
  induction n generalizing m st last t u with
  | zero => exact Agree.pure ⟨⟨h, hW, Later.refl _ _⟩, R_NilValue, hcell, rfl⟩
  | succ n ih =>
    rw [loadCells_succ]
    refine (agree_decodeCell hload lang h hW).bind fun x m₁ p st₁ h₁ => ?_
    obtain ⟨t', u', h₁⟩ := h₁
    refine Agree.quiet (becomes_setContents last x (Contents.setCdr x)) fun _ m₂ hb₂ => ?_
    refine Agree.quiet (becomes_UNPROTECT 3) fun _ m₃ hb₃ => ?_
    have hb : Becomes m₁ _ m₃ := hb₂.trans (hb₂.world ▸ hb₃)
    have hx : last < x := Nat.lt_of_lt_of_le hlast h₁.newer
    have hlast₁ : m₁.world.heap.objects last = (Contents.cons lang t u R_NilValue).fresh :=
      (h₁.later.objects last hlast (Set.notMem_empty _) (by rw [hcell]; rfl)).trans hcell
    have hchange : Later {last} m₁.world m₃.world := by
      rw [hb.world]
      exact later_change _ _
    have htop : m₃.world.heap.top = x + 1 := by
      rw [hb.world]
      exact h₁.last
    have hW₃ : m₃.world.Valid := by
      rw [hb.world]
      exact h₁.valid.change (by rw [hlast₁]; rfl) _
    -- the cell before leads to the new one, which is as it was made
    have hcell₃ : m₃.world.heap.objects last = (Contents.cons lang t u x).fresh := by
      rw [hb.world, objects_change, hlast₁]
      rfl
    have hx₃ : m₃.world.heap.objects x = (Contents.cons lang t' u' R_NilValue).fresh := by
      refine (hchange.objects x ?_ hx.ne' (by rw [h₁.cell]; rfl)).trans h₁.cell
      rw [h₁.last]
      exact Nat.lt_succ_self x
    have hlt₃ : x < m₃.world.heap.top := htop ▸ Nat.lt_succ_self x
    refine (ih (h₁.tracks.becomes hb) hW₃ hlt₃ hx₃).right fun _ m₄ rest st₄ h₄ => ?_
    obtain ⟨hf₄, d, hx₄, hrest⟩ := h₄
    have hlt₄ : x < m₄.world.heap.top := Nat.lt_of_lt_of_le hlt₃ hf₄.later.top
    refine ⟨_, _, rfl, ⟨hf₄.tracks, hf₄.valid, ?_⟩, x, ?_, ?_⟩
    · refine ((h₁.later.mono (Set.empty_subset _)).trans hchange fun _ h _ => h).trans hf₄.later
        fun q hq hlt => ?_
      exact absurd (hq ▸ hlt) (Nat.not_lt.mpr h₁.newer)
    · exact (hf₄.later.objects last (hx.trans hlt₃) hx.ne (by rw [hcell₃]; rfl)).trans hcell₃
    -- tag and value are older than the cell and newer than the one before
    · have hkept : Kept m₁.world m₄.world (Set.Ico m.world.heap.top x) := by
        have hboth : Later {last, x} m₁.world m₄.world :=
          (hchange.mono (Set.singleton_subset_iff.mpr (Set.mem_insert _ _))).trans hf₄.later
            fun q hq _ => Or.inr hq
        refine hboth.kept fun q hq => ⟨?_, ?_⟩
        · rw [h₁.last]
          exact hq.2.trans (Nat.lt_succ_self x)
        · rintro (rfl | rfl)
          · exact absurd hlast (Nat.not_lt.mpr hq.1)
          · exact Nat.lt_irrefl _ hq.2
      rw [htop] at hrest
      exact .cons h₁.newer hlt₄ hx₄ (h₁.tag.kept hkept (Set.Subset.refl _))
        (h₁.car.kept hkept (Set.Subset.refl _)) hrest

/-- The pairlists, by their cells. -/
theorem agree_decodeCells (lang : Bool) (len : ℕ) (h : Tracks m st) (hW : m.world.Valid) :
    Agree (GivesUp R) StopsAlike (decodeCells R load lang len) m (loadCells load' lang len) st
      (GivesCells m.world) := by
  cases len with
  | zero => exact Agree.pure ⟨h, hW, Later.refl _ _, rfl⟩
  | succ n =>
    rw [loadCells_succ]
    refine (agree_decodeCell hload lang h hW).bind fun x m₁ p st₁ h₁ => ?_
    obtain ⟨t, u, h₁⟩ := h₁
    have hlt : x < m₁.world.heap.top := h₁.last ▸ Nat.lt_succ_self x
    refine (agree_cellLoop hload lang n h₁.tracks h₁.valid hlt h₁.cell).bind
      fun _ m₂ rest st₂ h₂ => ?_
    obtain ⟨hf₂, d, hcell, hrest⟩ := h₂
    refine Agree.quiet (becomes_UNPROTECT 3) fun _ m₃ hb₃ => Agree.pure ?_
    have hkept : Kept m₁.world m₂.world (Set.Ico m.world.heap.top x) :=
      hf₂.later.kept fun q hq => ⟨hq.2.trans hlt, hq.2.ne⟩
    rw [h₁.last] at hrest
    refine ⟨hf₂.tracks.becomes hb₃, hb₃.world ▸ hf₂.valid, ?_, ?_⟩
    · rw [hb₃.world]
      refine h₁.later.trans hf₂.later fun q hq hlt => ?_
      exact absurd (hq ▸ hlt) (Nat.not_lt.mpr h₁.newer)
    · rw [hb₃.world]
      exact .cons h₁.newer (Nat.lt_of_lt_of_le hlt hf₂.later.top) hcell
        (h₁.tag.kept hkept (Set.Subset.refl _)) (h₁.car.kept hkept (Set.Subset.refl _)) hrest

end Load

end Rheap
end Osrv
