import Osrv.Sfs.Reading

/-!
# The scratch memory of the decoder

The texts of symbols and strings pass through `dec_buf`, which keeps what earlier
records and earlier loads have left in it, or are taken from fresh memory. In one load
a front of `dec_buf` is known from the stream. A text is settled when it ends inside
that front, or at the last byte of `dec_buf`, which nothing ever writes
(`Settled`).

When the texts of a tree are settled, its evaluation is the same for any two contents
of the scratch memory (`Tree.lockstep_settled`).
-/

namespace Osrv
namespace Sfs

open Bytes Lib

/-! ### The texts of a tree -/

mutual

/-- The texts in the order in which the decoder comes to them. -/
def Tree.texts : Tree → List Text
  | .plain b => b.texts
  | .attributed attr b => attr.texts ++ b.texts

def Body.texts : Body → List Text
  | .symbol text | .string text => [text]
  | .generic elts | .strings elts => elts.texts
  | .closure _ f b e => f.texts ++ (b.texts ++ e.texts)
  | .cells _ c => c.texts
  | _ => []

def Trees.texts : Trees → List Text
  | .nil => []
  | .cons t ts => t.texts ++ ts.texts

def Pairs.texts : Pairs → List Text
  | .nil => []
  | .cons tag val c => tag.texts ++ (val.texts ++ c.texts)

end

/-! ### The known front of `dec_buf` -/

/-- What `dec_buf` can hold: its last byte is zero from the start, and no read reaches
it. -/
def DecBuf (db : List UInt8) : Prop := ∃ s : List UInt8, s.length + 1 = sizeofDecBuf ∧ db = s ++ [0]

/-- The front of `dec_buf` that is known after a text was read over a known one. -/
def overlay (bytes front : List UInt8) : List UInt8 := bytes ++ front.drop bytes.length

def knownFront : List UInt8 → List Text → List UInt8
  | front, [] => front
  | front, .short bytes :: ts => knownFront (overlay bytes front) ts
  | front, .long _ :: ts => knownFront front ts

/-- Every text ends inside the front that is known when it is taken from `dec_buf`, or
at the end of `dec_buf`. None is taken from fresh memory. -/
def Settled : List UInt8 → List Text → Prop
  | _, [] => True
  | front, .short bytes :: ts =>
    (0 ∈ overlay bytes front ∨ (overlay bytes front).length + 1 = sizeofDecBuf) ∧
      Settled (overlay bytes front) ts
  | _, .long _ :: _ => False

theorem knownFront_append (front : List UInt8) (ts us : List Text) :
    knownFront front (ts ++ us) = knownFront (knownFront front ts) us := by
  induction ts generalizing front with
  | nil => rfl
  | cons t ts ih =>
    cases t with
    | short bytes => exact ih _
    | long len => exact ih _

theorem settled_append {front : List UInt8} {ts us : List Text} :
    Settled front (ts ++ us) ↔ Settled front ts ∧ Settled (knownFront front ts) us := by
  induction ts generalizing front with
  | nil => exact (and_iff_right trivial).symm
  | cons t ts ih =>
    cases t with
    | short bytes =>
      show _ ∧ Settled _ (ts ++ us) ↔ (_ ∧ Settled _ ts) ∧ _
      rw [ih, and_assoc]
      rfl
    | long len => exact ⟨False.elim, fun h => h.1⟩

/-! ### Two runs over the same front -/

/-- Two evaluations whose `dec_buf`s agree on a known front. -/
structure SameFront (front : List UInt8) (m m' : Decoder Unit) : Prop where
  left : DecBuf m.dec_buf
  right : DecBuf m'.dec_buf
  left_front : front <+: m.dec_buf
  right_front : front <+: m'.dec_buf
  mallocs : m.mallocs = m'.mallocs
  warnings : m.warnings = m'.warnings
  shared : m.shared = m'.shared

theorem DecBuf.overlay {db : List UInt8} (h : DecBuf db) (bytes : List UInt8)
    (hb : bytes.length < sizeofDecBuf) :
    DecBuf (bytes ++ db.drop bytes.length) := by
  obtain ⟨s, hs, rfl⟩ := h
  refine ⟨bytes ++ s.drop bytes.length, ?_, ?_⟩
  · rw [List.length_append, List.length_drop]
    omega
  · rw [List.drop_append_of_le_length (by omega), List.append_assoc]

theorem overlay_isPrefix {front db : List UInt8} (h : front <+: db) (bytes : List UInt8) :
    overlay bytes front <+: bytes ++ db.drop bytes.length := by
  obtain ⟨r, rfl⟩ := h
  unfold overlay
  rw [List.drop_append, ← List.append_assoc]
  exact List.prefix_append _ _

/-- A settled text is the same in both buffers. -/
theorem cstr_of_front {front db db' : List UInt8} (h : DecBuf db) (h' : DecBuf db')
    (hp : front <+: db) (hp' : front <+: db')
    (hs : 0 ∈ front ∨ front.length + 1 = sizeofDecBuf) : cstr db = cstr db' := by
  obtain ⟨r, rfl⟩ := hp
  obtain ⟨r', rfl⟩ := hp'
  cases hs with
  | inl hzero =>
    rw [cstr_append_of_mem hzero, cstr_append_of_mem hzero]
  | inr hlen =>
    -- only the last byte is not known
    obtain ⟨s, hslen, hs⟩ := h
    obtain ⟨s', hslen', hs'⟩ := h'
    obtain ⟨-, rfl⟩ := List.append_inj hs (by omega)
    obtain ⟨-, rfl⟩ := List.append_inj hs' (by omega)
    rfl

section TwoRuns

variable {R R' : Runtime}

theorem lockstep_text_settled {noMemory : ℕ → RError} {text : Text} {front : List UInt8}
    (hv : text.Valid) (hs : Settled front [text]) :
    Lockstep (SameFront front) AnyStop (text.eval R noMemory) (text.eval R' noMemory)
      (SameFront (knownFront front [text])) := by
  cases text with
  | short bytes =>
    have hlt : bytes.length < sizeofDecBuf := hv
    intro m m' h
    have hp := overlay_isPrefix h.left_front bytes
    have hp' := overlay_isPrefix h.right_front bytes
    have hd := h.left.overlay bytes hlt
    have hd' := h.right.overlay bytes hlt
    exact ⟨cstr_of_front hd hd' hp hp' hs.1, hd, hd', hp, hp', h.mallocs, h.warnings, h.shared⟩
  | long len => exact hs.elim

theorem lockstep_alloc_settled (hA : R.allocVector = R'.allocVector) (t : SexpType) (len : ℕ)
    {front : List UInt8} :
    Lockstep (SameFront front) AnyStop (allocVector R t len) (allocVector R' t len)
      (SameFront front) := by
  unfold allocVector
  rw [hA]
  split
  · exact Lockstep.pure _
  · exact fun _ _ _ => trivial

theorem lockstep_install_settled (name : CString) {front : List UInt8} :
    Lockstep (SameFront front) AnyStop (install name) (install name) (SameFront front) := by
  unfold install
  split
  · exact fun _ _ _ => trivial
  · split
    · exact fun _ _ _ => trivial
    · exact Lockstep.pure _

theorem lockstep_setAttrib_settled (res : SEXP) (attr : Cells) {front : List UInt8} :
    Lockstep (SameFront front) AnyStop (setAttrib res attr) (setAttrib res attr)
      (SameFront front) := by
  unfold setAttrib
  split
  · exact Lockstep.pure _
  · refine Lockstep.bind (Lockstep.modify fun m m' h => ?_) fun _ => Lockstep.pure _
    exact ⟨h.left, h.right, h.left_front, h.right_front, h.mallocs, h.warnings, by rw [h.shared]⟩

theorem lockstep_environment_settled (len : ℕ) {front : List UInt8} :
    Lockstep (SameFront front) AnyStop (evalEnvironment len) (evalEnvironment len)
      (SameFront front) := by
  unfold evalEnvironment
  split
  · exact Lockstep.pure _
  · split
    · exact Lockstep.pure _
    · split
      · exact Lockstep.pure _
      · refine Lockstep.bind (Lockstep.modify fun m m' h => ?_) fun _ => Lockstep.pure _
        exact ⟨h.left, h.right, h.left_front, h.right_front, h.mallocs, by rw [h.warnings],
          h.shared⟩

mutual

/-- **A tree whose texts are settled** evaluates to the same value over any two contents
of the scratch memory. -/
theorem Tree.lockstep_settled (hA : R.allocVector = R'.allocVector) :
    ∀ (t : Tree) (front : List UInt8), t.Valid →
    Settled front t.texts →
    Lockstep (SameFront front) AnyStop (t.eval R) (t.eval R') (SameFront (knownFront front t.texts))
  | .plain b, front, hv, hs => Body.lockstep_settled hA b front hv.1 hs
  | .attributed attr b, front, hv, hs => by
    obtain ⟨hattr, hb⟩ := settled_append.mp hs
    unfold Tree.texts Tree.eval
    rw [knownFront_append]
    refine (Pairs.lockstep_settled hA attr false front hv.1 hattr).bind fun a => ?_
    refine (Body.lockstep_settled hA b _ hv.2.2 hb).bind fun res => ?_
    split
    · exact lockstep_setAttrib_settled res a
    · exact Lockstep.pure _

theorem Body.lockstep_settled (hA : R.allocVector = R'.allocVector) :
    ∀ (b : Body) (front : List UInt8), b.Valid →
    Settled front b.texts →
    Lockstep (SameFront front) AnyStop (b.eval R) (b.eval R') (SameFront (knownFront front b.texts))
  | .null _, _, _, _ | .missingArg, _, _, _ => Lockstep.pure _
  | .atoms t len bytes, front, _, _ =>
    (lockstep_alloc_settled hA t.type len).bind fun _ => Lockstep.pure _
  | .symbol text, front, hv, hs =>
    (lockstep_text_settled hv.1 hs).bind fun s => lockstep_install_settled s
  | .string text, front, hv, hs => (lockstep_text_settled hv hs).bind fun s => Lockstep.pure _
  | .generic elts, front, hv, hs => by
    refine (lockstep_alloc_settled hA .VECSXP elts.length).bind fun _ => ?_
    exact (Trees.lockstep_settled hA elts front hv.1 hs).bind fun xs => Lockstep.pure _
  | .strings elts, front, hv, hs => by
    refine (lockstep_alloc_settled hA .STRSXP elts.length).bind fun _ => ?_
    exact (Trees.lockstep_strings_settled hA elts front hv.1 hs).bind fun xs => Lockstep.pure _
  | .closure _ f b e, front, hv, hs => by
    obtain ⟨hf, hbe⟩ := settled_append.mp hs
    obtain ⟨hb, he⟩ := settled_append.mp hbe
    unfold Body.texts Body.eval
    rw [knownFront_append, knownFront_append]
    refine (Tree.lockstep_settled hA f front hv.2.1 hf).bind fun _ => ?_
    refine (Tree.lockstep_settled hA b _ hv.2.2.1 hb).bind fun _ => ?_
    exact (Tree.lockstep_settled hA e _ hv.2.2.2 he).bind fun _ => Lockstep.pure _
  | .cells t c, front, hv, hs =>
    (Pairs.lockstep_settled hA c (t == .LANGSXP) front hv.1 hs).bind fun _ => Lockstep.pure _
  | .environment len, front, _, _ => lockstep_environment_settled len

theorem Trees.lockstep_settled (hA : R.allocVector = R'.allocVector) :
    ∀ (ts : Trees) (front : List UInt8), ts.Valid →
    Settled front ts.texts →
    Lockstep (SameFront front) AnyStop (ts.eval R) (ts.eval R')
      (SameFront (knownFront front ts.texts))
  | .nil, _, _, _ => Lockstep.pure _
  | .cons t ts, front, hv, hs => by
    obtain ⟨ht, hts⟩ := settled_append.mp hs
    unfold Trees.texts Trees.eval
    rw [knownFront_append]
    refine (Tree.lockstep_settled hA t front hv.1 ht).bind fun x => ?_
    exact (Trees.lockstep_settled hA ts _ hv.2 hts).bind fun xs => Lockstep.pure _

theorem Trees.lockstep_strings_settled (hA : R.allocVector = R'.allocVector) :
    ∀ (ts : Trees) (front : List UInt8), ts.Valid →
    Settled front ts.texts →
    Lockstep (SameFront front) AnyStop (ts.evalStrings R) (ts.evalStrings R')
      (SameFront (knownFront front ts.texts))
  | .nil, _, _, _ => Lockstep.pure _
  | .cons t ts, front, hv, hs => by
    obtain ⟨ht, hts⟩ := settled_append.mp hs
    unfold Trees.texts Trees.evalStrings
    rw [knownFront_append]
    refine (Tree.lockstep_settled hA t front hv.1 ht).bind fun x => ?_
    cases x with
    | charsxp c =>
      exact (Trees.lockstep_strings_settled hA ts _ hv.2 hts).bind fun cs => Lockstep.pure _
    | _ => exact fun _ _ _ => trivial

theorem Pairs.lockstep_settled (hA : R.allocVector = R'.allocVector) :
    ∀ (c : Pairs) (lang : Bool) (front : List UInt8), c.Valid →
    Settled front c.texts →
    Lockstep (SameFront front) AnyStop (c.eval R lang) (c.eval R' lang)
      (SameFront (knownFront front c.texts))
  | .nil, _, _, _, _ => Lockstep.pure _
  | .cons tag val c, lang, front, hv, hs => by
    obtain ⟨htag, hvc⟩ := settled_append.mp hs
    obtain ⟨hval, hc⟩ := settled_append.mp hvc
    unfold Pairs.texts Pairs.eval
    rw [knownFront_append, knownFront_append]
    refine (Tree.lockstep_settled hA tag front hv.1 htag).bind fun _ => ?_
    refine (Tree.lockstep_settled hA val _ hv.2.1 hval).bind fun _ => ?_
    exact (Pairs.lockstep_settled hA c lang _ hv.2.2 hc).bind fun _ => Lockstep.pure _

end

end TwoRuns

end Sfs
end Osrv
