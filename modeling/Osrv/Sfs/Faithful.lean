import Osrv.Sfs.RoundTrip

/-!
# When serialisation is faithful

Two values are `Identical` when they agree in types, attributes, flags and
contents. A chain of cells is compared as its head type and its tags and
values, and a closure by its expression, compiled or not.

`SEXP.identical_loaded_iff` says when the loaded value is identical to the
stored one, object by object (`SEXP.Faithful`). With `restore_stored` it yields
the two results of this file: the round trip of plain values
(`sfs_round_trip_iff`), which fails for raw vectors and for strings that carry
an encoding mark, and the values that are changed without an error or a warning
(`sfs_not_silent_iff`).
-/

namespace Osrv
namespace Sfs

open Bytes

variable {R : Runtime}

/-! ### Identical values -/

mutual

/-- The value with everything forgotten that identity does not look at: the
types of the cells after the first, and whether a closure is compiled. -/
def SEXP.canon : SEXP → SEXP
  | .object a o s u => .object a.canon o s u.canon
  | x => x

def Datum.canon : Datum → Datum
  | .generic xs => .generic (canonElts xs)
  | .cons lang tag car r => .cons lang tag.canon car.canon r.canon
  | .closure f _ b e => .closure f.canon false b.canon e.canon
  | u => u

def Cells.canon : Cells → Cells
  | .nil => .nil
  | .cons _ tag car r => .cons false tag.canon car.canon r.canon

def canonElts : List SEXP → List SEXP
  | [] => []
  | x :: xs => x.canon :: canonElts xs

end

/-- **Identical values.** -/
def Identical (v w : SEXP) : Prop := v.canon = w.canon

theorem Cells.canon_eq_nil {c : Cells} : c.canon = .nil ↔ c = .nil := by
  cases c <;> simp [Cells.canon]

/-! ### What is kept -/

/-- The strings of a character vector are native and none is missing. -/
def Datum.Faithful : Datum → Prop
  | .strings xs => ∀ c ∈ xs, mkChar (CHAR c) = c
  | _ => True

/-- Nothing about one object is lost: an environment is one of the three with a
code, attributes stand where they are stored, the object flag says whether
there is a class, the S4 flag is clear, and strings are native. -/
def SEXP.Faithful : SEXP → Prop
  | .environment (.other _) => False
  | .object a o s u =>
    (u.storesAttrib = false → a = .nil) ∧ o = a.hasClass ∧ s = false ∧ u.Faithful
  | _ => True

theorem mkChar_map_eq_iff (xs : List Charsxp) :
    (xs.map fun c => mkChar (CHAR c)) = xs ↔ ∀ c ∈ xs, mkChar (CHAR c) = c := by
  induction xs with
  | nil => simp
  | cons c xs ih => simp [ih]

mutual

/-- **Nothing is lost exactly when nothing is lost at any visited object.** -/
theorem SEXP.identical_loaded_iff : ∀ v : SEXP,
    Identical v.loaded v ↔ ∀ x ∈ v.nodes, x.Faithful
  | .NULL | .symbol _ | .charsxp _ => by
    simp [Identical, SEXP.loaded, SEXP.nodes, SEXP.Faithful]
  | .environment e => by
    cases e <;> simp [Identical, SEXP.loaded, SEXP.canon, SEXP.nodes, SEXP.Faithful]
  | .object a o s u => by
    have hu := Datum.canon_loaded_iff u
    cases hs : u.storesAttrib with
    | true =>
      have ha := Cells.canon_loaded_iff a false
      simp only [Identical, SEXP.loaded, hs, if_true, SEXP.canon, SEXP.object.injEq, ha, hu,
        SEXP.nodes, List.forall_mem_cons, SEXP.Faithful, List.forall_mem_append]
      grind
    | false =>
      simp only [Identical, SEXP.loaded, hs, SEXP.canon, Datum.fresh, Cells.canon,
        Bool.false_eq_true, if_false, SEXP.object.injEq, hu, SEXP.nodes, List.forall_mem_cons,
        SEXP.Faithful, List.nil_append, true_imp_iff, eq_comm (a := Cells.nil),
        Cells.canon_eq_nil]
      constructor
      · rintro ⟨rfl, rfl, rfl, hf, hn⟩
        exact ⟨⟨rfl, rfl, rfl, hf⟩, hn⟩
      · rintro ⟨⟨rfl, rfl, rfl, hf⟩, hn⟩
        exact ⟨rfl, rfl, rfl, hf, hn⟩

theorem Datum.canon_loaded_iff : ∀ u : Datum,
    u.loaded.canon = u.canon ↔ u.Faithful ∧ ∀ x ∈ u.nodes, x.Faithful
  | .atoms _ _ | .unknown _ => by
    simp [Datum.loaded, Datum.canon, Datum.Faithful, Datum.nodes]
  | .strings xs => by
    simp [Datum.loaded, Datum.canon, Datum.Faithful, Datum.nodes, mkChar_map_eq_iff]
  | .generic xs => by
    simpa [Datum.loaded, Datum.canon, Datum.Faithful, Datum.nodes] using canonElts_loaded_iff xs
  | .cons lang tag car r => by
    have h₁ := SEXP.identical_loaded_iff tag
    have h₂ := SEXP.identical_loaded_iff car
    have h₃ := Cells.canon_loaded_iff r lang
    simp only [Identical] at h₁ h₂
    simp only [Datum.loaded, Datum.canon, Datum.cons.injEq, h₁, h₂, h₃, Datum.Faithful,
      Datum.nodes, List.forall_mem_append, true_and, and_assoc]
  | .closure f c b e => by
    have h₁ := SEXP.identical_loaded_iff f
    have h₂ := SEXP.identical_loaded_iff b
    have h₃ := SEXP.identical_loaded_iff e
    simp only [Identical] at h₁ h₂ h₃
    simp only [Datum.loaded, Datum.canon, Datum.closure.injEq, h₁, h₂, h₃, Datum.Faithful,
      Datum.nodes, List.forall_mem_append, true_and, and_assoc]

theorem Cells.canon_loaded_iff : ∀ (c : Cells) (lang : Bool),
    (c.loaded lang).canon = c.canon ↔ ∀ x ∈ c.nodes, x.Faithful
  | .nil, _ => by simp [Cells.loaded, Cells.nodes]
  | .cons l tag car r, lang => by
    have h₁ := SEXP.identical_loaded_iff tag
    have h₂ := SEXP.identical_loaded_iff car
    have h₃ := Cells.canon_loaded_iff r lang
    simp only [Identical] at h₁ h₂
    simp only [Cells.loaded, Cells.canon, Cells.cons.injEq, h₁, h₂, h₃, Cells.nodes,
      List.forall_mem_append, true_and, and_assoc]

theorem canonElts_loaded_iff : ∀ xs : List SEXP,
    canonElts (loadedElts xs) = canonElts xs ↔ ∀ x ∈ nodesElts xs, x.Faithful
  | [] => by simp [loadedElts, nodesElts]
  | x :: xs => by
    have h₁ := SEXP.identical_loaded_iff x
    have h₂ := canonElts_loaded_iff xs
    simp only [Identical] at h₁
    simp only [loadedElts, canonElts, List.cons.injEq, h₁, h₂, nodesElts,
      List.forall_mem_append]

end

/-! ### The depth bound -/

mutual

/-- Every level of nesting is paid for by a header, so the bound of
`C_mem_restore` leaves room for every stored value. -/
theorem SEXP.height_le : ∀ v : SEXP, v.height ≤ (emit v).length
  | .NULL => by simp [SEXP.height, emit, store, Record.bytes]; omega
  | .symbol _ => by simp [SEXP.height, emit, store, Record.bytes]; omega
  | .charsxp _ => by simp [SEXP.height, emit, store, Record.bytes]; omega
  | .environment _ => by simp [SEXP.height, emit, store, Record.bytes]; omega
  | .object a o s u => by
    have ha := Cells.height_le a
    have hu := Datum.height_lt u
    simp only [SEXP.height, emit, store, wire_append, List.length_append]
    cases hs : u.storesAttrib with
    | false => simp; omega
    | true =>
      by_cases h0 : a.length = 0
      · obtain rfl := Cells.length_eq_zero.mp h0
        simp [Cells.height]; omega
      · simp [h0]; omega

theorem Datum.height_lt : ∀ u : Datum, u.height < (wire (storeDatum u)).length
  | .atoms _ _ => by simp [Datum.height, storeDatum, Record.bytes]
  | .strings xs => by simp [Datum.height, storeDatum, Record.bytes]; omega
  | .generic xs => by
    have h := heightElts_le xs
    simp [Datum.height, storeDatum, Record.bytes]; omega
  | .cons lang tag car r => by
    have h₁ := SEXP.height_le tag
    have h₂ := SEXP.height_le car
    have h₃ := Cells.height_le r
    simp only [emit] at h₁ h₂
    simp [Datum.height, storeDatum, Record.bytes]; omega
  | .closure f c b e => by
    have h₁ := SEXP.height_le f
    have h₂ := SEXP.height_le b
    have h₃ := SEXP.height_le e
    simp only [emit] at h₁ h₂ h₃
    simp [Datum.height, storeDatum, Record.bytes]; omega
  | .unknown _ => by simp [Datum.height, storeDatum, Record.bytes]

theorem Cells.height_le : ∀ c : Cells, c.height ≤ (wire (storeCells c)).length
  | .nil => by simp [Cells.height]
  | .cons l tag car r => by
    have h₁ := SEXP.height_le tag
    have h₂ := SEXP.height_le car
    have h₃ := Cells.height_le r
    simp only [emit] at h₁ h₂
    simp [Cells.height, storeCells]; omega

theorem heightElts_le : ∀ xs : List SEXP, heightElts xs ≤ (wire (storeElts xs)).length
  | [] => by simp [heightElts]
  | x :: xs => by
    have h₁ := SEXP.height_le x
    have h₂ := heightElts_le xs
    simp only [emit] at h₁
    simp [heightElts, storeElts]; omega

end

/-! ### Restoring from memory -/

/-- **`C_mem_restore` on a stored value and a suffix.** Either every visited
object is accepted and the value comes back as `SEXP.loaded`, the suffix unread,
or the load raises an error. -/
theorem restore_stored {v : SEXP} (hR : R.Allocates v) (hv : Storable v)
    (suffix dec_buf : List UInt8) :
    ((∀ x ∈ v.nodes, x.rejected = false) → ∃ db,
      C_mem_restore R (emit v ++ suffix) dec_buf = .ok v.loaded
        { Decoder.start suffix db with warnings := noise v.nodes }) ∧
    ((∃ x ∈ v.nodes, x.rejected = true) → ∃ e st,
      C_mem_restore R (emit v ++ suffix) dec_buf = .error (.rerror e) st) := by
  have hh : v.height ≤ (emit v ++ suffix).length + 1 := by
    have h := v.height_le
    simp only [List.length_append]
    omega
  have hload := SEXP.loads v _ hh fun x hx => ⟨hv.fits x hx, hv.value x hx, hR x hx⟩
  exact ⟨fun hacc => hload.reads hacc _ suffix rfl, fun hrej => hload.rejects hrej _ suffix rfl⟩

/-! ### The round trip of plain values -/

/-- The vectors of a plain value: logical, integer, real, complex, raw, character
without missing elements, generic. -/
def Datum.PlainVector : Datum → Prop
  | .atoms _ _ | .generic _ => True
  | .strings xs => ∀ c ∈ xs, c ≠ .NA_STRING
  | _ => False

/-- **Plain objects**: `NULL`, symbols, the three environments, vectors whose
object flag is set exactly if there is a class, and pairlists, calls and
closures without attributes. -/
def SEXP.Plain : SEXP → Prop
  | .NULL | .symbol _ => True
  | .environment e => ∀ id, e ≠ .other id
  | .object a o s (.cons _ _ _ _) => a = .nil ∧ o = false ∧ s = false
  | .object a o s (.closure _ _ _ _) => a = .nil ∧ o = false ∧ s = false
  | .object a o s u => u.PlainVector ∧ o = a.hasClass ∧ s = false
  | .charsxp _ => False

/-- The bytes stored for `v`, with any suffix behind them, are loaded as a value
identical to `v`, and exactly the suffix is left unread. -/
def RoundTrips (R : Runtime) (dec_buf : List UInt8) (v : SEXP) (suffix : List UInt8) : Prop :=
  ∃ w st, C_mem_restore R (emit v ++ suffix) dec_buf = .ok w st ∧ Identical w v ∧
    st.api = suffix

/-- A raw vector. -/
def SEXP.isRaw : SEXP → Bool
  | .object _ _ _ (.atoms .RAWSXP _) => true
  | _ => false

/-- The strings of a character vector all carry the native mark. -/
def SEXP.NativeStrings : SEXP → Prop
  | .object _ _ _ (.strings xs) => ∀ c ∈ xs, ∃ s, c = .mkCharCE s .CE_NATIVE
  | _ => True

theorem mkChar_CHAR_iff (c : Charsxp) : mkChar (CHAR c) = c ↔ ∃ s, c = .mkCharCE s .CE_NATIVE := by
  cases c with
  | NA_STRING => simp [mkChar]
  | mkCharCE s enc => simp [mkChar, CHAR, eq_comm]

/-- Of the plain objects, only raw vectors are rejected. -/
theorem SEXP.Plain.rejected_eq {x : SEXP} (h : x.Plain) : x.rejected = x.isRaw := by
  cases x with
  | object a o s u =>
    cases u with
    | atoms t xs => cases t <;> rfl
    | unknown t => exact absurd h.1 (by simp [Datum.PlainVector])
    | _ => rfl
  | _ => rfl

theorem SEXP.Plain.faithful_iff {x : SEXP} (h : x.Plain) : x.Faithful ↔ x.NativeStrings := by
  cases x with
  | environment e =>
    cases e with
    | other id => exact absurd rfl (h id)
    | _ => simp [SEXP.Faithful, SEXP.NativeStrings]
  | object a o s u =>
    cases u with
    | cons lang tag car r =>
      obtain ⟨rfl, rfl, rfl⟩ := h
      simp [SEXP.Faithful, SEXP.NativeStrings, Cells.hasClass, Datum.Faithful]
    | closure f c b e =>
      obtain ⟨rfl, rfl, rfl⟩ := h
      simp [SEXP.Faithful, SEXP.NativeStrings, Cells.hasClass, Datum.Faithful]
    | unknown t => exact absurd h.1 (by simp [Datum.PlainVector])
    | strings xs =>
      simp [SEXP.Faithful, SEXP.NativeStrings, Datum.storesAttrib, Datum.Faithful, h.2.1, h.2.2,
        mkChar_CHAR_iff]
    | _ =>
      simp [SEXP.Faithful, SEXP.NativeStrings, Datum.storesAttrib, Datum.Faithful, h.2.1, h.2.2]
  | _ => simp [SEXP.Faithful, SEXP.NativeStrings]

/-- **The round trip of plain values.** A storable value built from plain
objects is loaded back from in front of every suffix exactly if it contains no
raw vector, for which `decode_one` has no branch, and no string with an encoding
mark, which the stream does not carry. -/
theorem sfs_round_trip_iff (dec_buf : List UInt8) {v : SEXP} (hR : R.Allocates v)
    (hv : Storable v) (hp : ∀ x ∈ v.nodes, x.Plain) (suffix : List UInt8) :
    RoundTrips R dec_buf v suffix ↔ ∀ x ∈ v.nodes, x.isRaw = false ∧ x.NativeStrings := by
  obtain ⟨hacc, hrej⟩ := restore_stored hR hv suffix dec_buf
  constructor
  · rintro ⟨w, st, hok, hid, -⟩
    rcases accepted_or_rejected v.nodes with h | h
    · obtain ⟨db, hdb⟩ := hacc h
      obtain ⟨rfl, -⟩ : v.loaded = w ∧ _ := by
        simpa using hdb.symm.trans hok
      have hf := v.identical_loaded_iff.mp hid
      intro x hx
      have hpx := hp x hx
      exact ⟨hpx.rejected_eq ▸ h x hx, hpx.faithful_iff.mp (hf x hx)⟩
    · obtain ⟨e, st', he⟩ := hrej h
      exact absurd (he.symm.trans hok) (by simp)
  · intro h
    obtain ⟨db, hdb⟩ := hacc fun x hx => by rw [(hp x hx).rejected_eq]; exact (h x hx).1
    exact ⟨_, _, hdb, v.identical_loaded_iff.mpr fun x hx =>
      (hp x hx).faithful_iff.mpr (h x hx).2, rfl⟩

/-- A runtime in which every allocation succeeds. -/
def Runtime.unlimited : Runtime where
  allocVector _ _ := true
  malloc _ len := some (List.replicate len 0)

theorem Runtime.unlimited_allocates (v : SEXP) : Runtime.unlimited.Allocates v := by
  intro x _
  unfold Makes
  split
  all_goals first | rfl | trivial

/-- `c(a = 1L)`: an integer vector with a names attribute. -/
def namedInteger : SEXP :=
  .object (.cons false (.symbol ⟨[110, 97, 109, 101, 115], by decide⟩)
    (Datum.strings [mkChar ⟨[97], by decide⟩]).fresh .nil) false false (.atoms .INTSXP [1])

theorem namedInteger_nodes : namedInteger.nodes =
    [namedInteger, .symbol ⟨[110, 97, 109, 101, 115], by decide⟩,
      (Datum.strings [mkChar ⟨[97], by decide⟩]).fresh] := rfl

theorem storable_namedInteger : Storable namedInteger where
  fits := by
    rw [namedInteger_nodes]
    simp [namedInteger, SEXP.Fits, Datum.Fits, Datum.fresh, Datum.storesAttrib, Cells.length,
      CString.length, CString.bytes, mkChar, CHAR, sizeofDecBuf]
  value := by
    rw [namedInteger_nodes]
    simp [namedInteger, TYPEOF, Datum.fresh, Datum.type, AtomType.type]

theorem plain_namedInteger : ∀ x ∈ namedInteger.nodes, x.Plain := by
  rw [namedInteger_nodes]
  simp [namedInteger, SEXP.Plain, Datum.PlainVector, Datum.fresh, Cells.hasClass, mkChar,
    CString.bytes]

theorem sfs_round_trip_namedInteger :
    RoundTrips .unlimited (List.replicate sizeofDecBuf 0) namedInteger [7] := by
  refine (sfs_round_trip_iff _ (Runtime.unlimited_allocates _) storable_namedInteger
    plain_namedInteger _).mpr ?_
  rw [namedInteger_nodes]
  simp only [List.forall_mem_cons]
  refine ⟨⟨rfl, ?_⟩, ⟨rfl, ?_⟩, ⟨rfl, ?_⟩, by simp⟩
  · simp [namedInteger, SEXP.NativeStrings]
  · simp [SEXP.NativeStrings]
  · simpa [SEXP.NativeStrings, Datum.fresh, mkChar] using ⟨_, rfl⟩

/-- `as.raw(1)`. -/
def rawOne : SEXP := (Datum.atoms .RAWSXP [1]).fresh

theorem storable_rawOne : Storable rawOne where
  fits := by simp [rawOne, Datum.fresh, SEXP.nodes, Datum.nodes, Datum.storesAttrib, Cells.nodes,
    SEXP.Fits, Datum.Fits, Cells.length]
  value := by simp [rawOne, Datum.fresh, SEXP.nodes, Datum.nodes, Datum.storesAttrib, Cells.nodes,
    TYPEOF, Datum.type, AtomType.type]

/-- A raw vector is plain, and its nine bytes are refused. -/
theorem raw_vector_not_restored : Storable rawOne ∧ (∀ x ∈ rawOne.nodes, x.Plain) ∧
    ¬ RoundTrips .unlimited (List.replicate sizeofDecBuf 0) rawOne [] := by
  refine ⟨storable_rawOne, ?_, ?_⟩
  · simp [rawOne, Datum.fresh, SEXP.nodes, Datum.nodes, Datum.storesAttrib, Cells.nodes,
      SEXP.Plain, Datum.PlainVector, Cells.hasClass]
  · rintro ⟨w, st, hok, -⟩
    obtain ⟨e, st', he⟩ := (restore_stored (Runtime.unlimited_allocates _) storable_rawOne []
      (List.replicate sizeofDecBuf 0)).2 ⟨rawOne, SEXP.mem_nodes_self _, rfl⟩
    exact absurd (he.symm.trans hok) (by simp)

/-! ### Silent changes -/

/-- Loading the stored bytes returns a value identical to the original, or
raises an error or a warning. -/
def NotSilent (R : Runtime) (dec_buf : List UInt8) (v : SEXP) : Prop :=
  match C_mem_restore R (emit v) dec_buf with
  | .ok w st => Identical w v ∨ st.warnings ≠ []
  | .error (.rerror _) _ => True
  | .error .tooDeep _ => False

/-- What `NotSilent` comes to for a stored value. -/
theorem notSilent_iff_loaded {v : SEXP} (hR : R.Allocates v) (hv : Storable v)
    (dec_buf : List UInt8) : NotSilent R dec_buf v ↔
      (∃ x ∈ v.nodes, x.rejected = true) ∨ noise v.nodes ≠ [] ∨ Identical v.loaded v := by
  obtain ⟨hacc, hrej⟩ := restore_stored hR hv [] dec_buf
  rw [List.append_nil] at hacc hrej
  rcases accepted_or_rejected v.nodes with h | h
  · obtain ⟨db, hdb⟩ := hacc h
    have hno : ¬ ∃ x ∈ v.nodes, x.rejected = true := by
      rintro ⟨x, hx, hr⟩
      exact absurd (h x hx) (by rw [hr]; simp)
    simp only [NotSilent, hdb, hno, false_or, or_comm]
  · obtain ⟨e, st, he⟩ := hrej h
    simp only [NotSilent, he, h, true_or]

/-- **Silent changes.** Loading a stored value returns a value identical to it
or raises an error or a warning exactly if one of these holds: it contains an
object that the decoder has no branch for; it contains an environment without a
code; nothing is lost at any object, that is, pairlists, calls and closures
have no attributes, no string is missing or marked, no object is flagged S4,
and object flags agree with the class attributes. -/
theorem sfs_not_silent_iff (dec_buf : List UInt8) {v : SEXP} (hR : R.Allocates v)
    (hv : Storable v) : NotSilent R dec_buf v ↔
      (∃ x ∈ v.nodes, x.rejected = true) ∨ (∃ id, .environment (.other id) ∈ v.nodes) ∨
        ∀ x ∈ v.nodes, x.Faithful := by
  have hnoise : noise v.nodes ≠ [] ↔ ∃ id, SEXP.environment (.other id) ∈ v.nodes := by
    rw [noise, ne_eq, List.flatMap_eq_nil_iff]
    push Not
    constructor
    · rintro ⟨x, hx, hne⟩
      cases x with
      | environment e =>
        cases e with
        | other id => exact ⟨id, hx⟩
        | _ => exact absurd rfl hne
      | _ => exact absurd rfl hne
    · rintro ⟨id, hid⟩
      exact ⟨_, hid, by simp [SEXP.noise]⟩
  rw [notSilent_iff_loaded hR hv, hnoise, SEXP.identical_loaded_iff]

theorem sfs_not_silent_namedInteger :
    NotSilent .unlimited (List.replicate sizeofDecBuf 0) namedInteger := by
  refine (sfs_not_silent_iff _ (Runtime.unlimited_allocates _) storable_namedInteger).mpr
    (Or.inr (Or.inr ?_))
  rw [namedInteger_nodes]
  simp [namedInteger, SEXP.Faithful, Datum.Faithful, Datum.fresh, Datum.storesAttrib,
    Cells.hasClass, mkChar, CHAR, CString.bytes]

/-- `NA_character_`. -/
def missingString : SEXP := (Datum.strings [.NA_STRING]).fresh

theorem storable_missingString : Storable missingString where
  fits := by simp [missingString, Datum.fresh, SEXP.nodes, Datum.nodes, Datum.storesAttrib,
    Cells.nodes, SEXP.Fits, Datum.Fits, Cells.length, CHAR, CString.length, CString.bytes,
    sizeofDecBuf]
  value := by simp [missingString, Datum.fresh, SEXP.nodes, Datum.nodes, Datum.storesAttrib,
    Cells.nodes, TYPEOF, Datum.type]

/-- The missing string comes back as the string `NA`, without a warning. -/
theorem missing_string_silently_changed : Storable missingString ∧
    ¬ NotSilent .unlimited (List.replicate sizeofDecBuf 0) missingString := by
  refine ⟨storable_missingString, ?_⟩
  rw [notSilent_iff_loaded (Runtime.unlimited_allocates _) storable_missingString]
  simp [missingString, Datum.fresh, SEXP.nodes, Datum.nodes, Datum.storesAttrib, Cells.nodes,
    SEXP.rejected, Datum.rejected, noise, SEXP.noise, Identical, SEXP.loaded, Datum.loaded,
    SEXP.canon, Datum.canon, mkChar]

end Sfs
end Osrv
