import Osrv.Rheap.Quiet

/-!
# Properties of reading

A property of what is read and of what it is read into is kept by the decoder when it is
kept by the three places that read: the header, the elements of a vector and the text of
a symbol or string (`Reader`). All the rest of `decode_one` and `sfs_load` are calls of R's
API, which read nothing, and loads.
-/

namespace Osrv
namespace Rheap

open Bytes Sfs Lib

variable {σ α : Type} {R : Runtime} {src : Source σ} {I : Machine σ → Prop}
  {E : Stop → Machine σ → Prop}

/-! ### Fetching -/

section Fetch

variable {sink : ℕ → List UInt8 → Act σ Unit} {n : ℕ}

/-- What is kept by every write inside the destination is kept by all of them. -/
theorem keeps_receive (hgc : Keeps I E (gc : Act σ Unit))
    (hsink : ∀ i bs, i + bs.length ≤ n → Keeps I E (sink i bs)) (i : ℕ) (ps : List Piece)
    (h : i + (received ps).length ≤ n) : Keeps I E (receive sink i ps) := by
  induction ps generalizing i with
  | nil => exact Keeps.pure _
  | cons p ps ih =>
    cases p with
    | bytes bs =>
      rw [received, List.length_append, ← Nat.add_assoc] at h
      exact (hsink i bs (Nat.le_of_add_right_le h)).bind fun _ => ih _ h
    | check => exact hgc.bind fun _ => ih i h

variable (src) in
/-- A fetch delivers what it was asked for, and keeps what its writes keep. -/
theorem fetch_ends (hapi : ∀ m s, I m → I { m with api := s })
    (hE : ∀ e m, I m → E (.rerror e) m) (hgc : Keeps I E (gc : Act σ Unit))
    (hsink : ∀ i bs, i + bs.length ≤ n → Keeps I E (sink i bs)) {m : Machine σ} (h : I m) :
    Ends (fetch src n sink) m (fun bs m' => I m' ∧ bs.length = n) E := by
  have hreceive := keeps_receive hgc hsink 0 (src.fetch m.api n).pieces
    (by rw [Nat.zero_add]; exact src.fits m.api n)
  refine (hreceive _ (hapi m (src.fetch m.api n).state h)).bind (fun _ _ h => h) fun _ m' h' => ?_
  cases he : (src.fetch m.api n).error with
  | some e => exact hE e m' h'
  | none => exact ⟨h', src.full m.api n he⟩

end Fetch

/-! ### Readers -/

/-- What a property of reading comes down to. Lengths are less than `2 ^ 56`, as they come from
a header word. -/
structure Reader (R : Runtime) (src : Source σ) (I : Machine σ → Prop)
    (E : Stop → Machine σ → Prop) : Prop where
  quiet : ∀ m m', Quiet m m' → I m → I m'
  stop : ∀ e m, I m → e ≠ .tooDeep → E e m
  header : ∀ m, I m → Ends (fetchHdr src) m (fun hdr m' => I m' ∧ hdr < 2 ^ 64) E
  atoms : ∀ t len, len < 2 ^ 56 → Keeps I E (decodeAtoms R src t len)
  text : ∀ noMemory len, len < 2 ^ 56 → Keeps I E (decodeText R src noMemory len)

/-- The length in a header. -/
theorem shiftRight_lt {hdr : ℕ} (h : hdr < 2 ^ 64) : hdr >>> 8 < 2 ^ 56 := by
  rw [Nat.shiftRight_eq_div_pow]
  omega

namespace Reader

variable (h : Reader R src I E)
include h

theorem api {x : Act σ α} (hx : QuietAct x) : Keeps I E x := hx.keeps h.quiet h.stop

variable {load : Act σ Ref} (hload : Keeps I E load)
include hload

/-- The generic and character vectors. -/
theorem decodeElts (t : SexpType) {set : Ref → ℕ → Ref → Act σ Unit}
    (hset : ∀ res i v, QuietAct (set res i v)) (len : ℕ) :
    Keeps I E (decodeElts R load t set len) := by
  have hloop : ∀ res i n, Keeps I E (eltLoop load set res i n) := by
    intro res i n
    induction n generalizing i with
    | zero => exact .pure _
    | succ n ih => exact hload.bind fun v => (h.api (hset res i v)).bind fun _ => ih _
  exact (h.api (quiet_allocVector R t len)).bind fun res =>
    (h.api (quiet_PROTECT res)).bind fun _ => (hloop res 0 len).bind fun _ =>
      (h.api (quiet_UNPROTECT 1)).bind fun _ => .pure res

theorem decodeClosure : Keeps I E (decodeClosure R load) := by
  have hfield : ∀ (set : Ref → Ref → Act σ Unit) (res : Ref),
      (∀ v, QuietAct (set res v)) → Keeps I E (closureField load set res) := fun set res hset =>
    hload.bind fun v => .ite (h.api (hset v)) (.pure _)
  refine (h.api (quiet_allocCell R _)).bind fun res => (h.api (quiet_PROTECT res)).bind fun _ => ?_
  exact (hfield _ res fun v => quiet_setContents res v _).bind fun _ =>
    (hfield _ res fun v => quiet_setContents res v _).bind fun _ =>
      (hfield _ res fun v => quiet_setContents res v _).bind fun _ =>
        (h.api (quiet_UNPROTECT 1)).bind fun _ => .pure res

/-- One round of the loop over a pairlist. -/
theorem decodeCell (lang : Bool) : Keeps I E (decodeCell R load lang) := by
  refine hload.bind fun tag => (h.api (quiet_PROTECT tag)).bind fun _ => hload.bind fun val =>
    (h.api (quiet_PROTECT val)).bind fun _ => (h.api (quiet_CONS R lang val)).bind fun x =>
      (h.api (quiet_PROTECT x)).bind fun _ => Keeps.bind ?_ fun _ => .pure x
  exact .ite (h.api (quiet_setContents x tag _)) (.pure _)

theorem decodeCells (lang : Bool) (len : ℕ) : Keeps I E (decodeCells R load lang len) := by
  cases len with
  | zero => exact .pure _
  | succ n =>
    have hloop : ∀ last, Keeps I E (cellLoop R load lang last n) := by
      induction n with
      | zero => exact fun _ => .pure _
      | succ n ih =>
        intro last
        exact (h.decodeCell hload lang).bind fun x =>
          (h.api (quiet_setContents last x _)).bind fun _ =>
            (h.api (quiet_UNPROTECT 3)).bind fun _ => ih x
    exact (h.decodeCell hload lang).bind fun res => (hloop res).bind fun _ =>
      (h.api (quiet_UNPROTECT 3)).bind fun _ => .pure res

theorem decode_one {hdr : ℕ} (hhdr : hdr < 2 ^ 64) : Keeps I E (decode_one R src load hdr) := by
  have hlen := shiftRight_lt hhdr
  unfold Rheap.decode_one decodeSwitch
  generalize hdr >>> 8 = len at hlen
  split
  · exact .pure _
  · exact h.atoms .INTSXP len hlen
  · exact h.atoms .LGLSXP len hlen
  · exact h.atoms .REALSXP len hlen
  · exact h.atoms .CPLXSXP len hlen
  · exact .ite (.pure _) ((h.text _ len hlen).bind fun s => h.api (quiet_install R s))
  · exact h.decodeElts hload _ (fun res i v => quiet_setContents res v _) len
  · exact h.decodeElts hload _ (fun res i v => quiet_SET_STRING_ELT res i v) len
  · exact (h.text _ len hlen).bind fun s => h.api (quiet_mkChar R s)
  · exact h.decodeClosure hload
  · exact h.decodeCells hload false len
  · exact h.decodeCells hload false len
  · exact h.decodeCells hload true len
  · exact .ite (.pure _) (.ite (.pure _) (.ite (.pure _)
      ((h.api (quiet_rf_warning _)).bind fun _ => .pure _)))
  · exact h.api (quiet_rf_error _)

/-- A record behind its first header, with the attributes that are in front of it. -/
theorem afterHdr {hdr : ℕ} (hhdr : hdr < 2 ^ 64) : Keeps I E (afterHdr R src load hdr) := by
  intro m hm
  have hprefix : Ends (loadPrefix R src load hdr) m (fun p m' => I m' ∧ p.2 < 2 ^ 64) E := by
    unfold loadPrefix
    split
    · refine (h.decode_one hload hhdr m hm).bind (fun _ _ h => h) fun attr m₁ h₁ => ?_
      have hprotect :
          Keeps I E (if attr ≠ R_NilValue then PROTECT attr else pure () : Act σ Unit) :=
        .ite (h.api (quiet_PROTECT attr)) (.pure _)
      refine (hprotect m₁ h₁).bind (fun _ _ h => h) fun _ m₂ h₂ => ?_
      exact (h.header m₂ h₂).bind (fun _ _ h => h) fun _ _ h => h
    · exact ⟨hm, hhdr⟩
  refine hprefix.bind (fun _ _ h => h) fun p m₁ ⟨h₁, hp⟩ => ?_
  refine Keeps.bind (h.decode_one hload hp) (fun res => ?_) m₁ h₁
  refine Keeps.bind ?_ fun _ => (h.api (quiet_use res)).bind fun _ => .pure res
  exact .ite (h.api (quiet_setAttributes _ _ _)) (.pure _)

theorem loadBody : Keeps I E (loadBody R src load) := fun m hm =>
  (h.header m hm).bind (fun _ _ h => h) fun _ m₁ ⟨h₁, hhdr⟩ => h.afterHdr hload hhdr m₁ h₁

omit hload in
/-- The property is kept down to any depth. -/
theorem sfs_load (hdeep : ∀ m, I m → E .tooDeep m) (depth : ℕ) :
    Keeps I E (sfs_load R src depth) := by
  induction depth with
  | zero => exact hdeep
  | succ depth ih => exact h.loadBody ih

end Reader

end Rheap
end Osrv
