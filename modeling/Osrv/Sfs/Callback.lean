import Osrv.Lib.Lockstep
import Osrv.Sfs.Load

/-!
# The decoder over two callbacks

What `sfs_load` returns depends on the `fetch` callback only through the bytes it
delivers. Two callbacks are alike for a relation `r` between their states
(`FetchAlike`) when every call delivers the same bytes and leads to related states,
or fails on both sides. Then `sfs_load` over the one runs in lockstep with `sfs_load`
over the other (`lockstep_sfs_load`), down to the same nesting depth.

What the stops have in common may be more, and about the states of the callbacks. The
decoder has no part in it but for the errors of its own: it is as much as the stops in the
callbacks have in common (`Matched`, `tandem_sfs_load`).
-/

namespace Osrv
namespace Sfs

open Bytes Lib

variable {σ τ : Type}

/-! ### Callbacks -/

/-- The state a load over any callback starts from. -/
def Decoder.on {σ : Type} (s : σ) (dec_buf : List UInt8) : Decoder σ where
  api := s
  dec_buf := dec_buf
  mallocs := 0
  warnings := []
  shared := []

/-- How two calls of `fetch` compare. -/
def FetchedAlike (r : σ → τ → Prop) : Fetched σ → Fetched τ → Prop
  | .got bs s, .got cs t => bs = cs ∧ r s t
  | .failed _ _ _, .failed _ _ _ => True
  | _, _ => False

/-- The callbacks deliver the same bytes. -/
def FetchAlike (r : σ → τ → Prop) (api : FetchApi σ) (api' : FetchApi τ) : Prop :=
  ∀ s t len, r s t → FetchedAlike r (api.fetch s len) (api'.fetch t len)

/-- The decoders differ in the state of their callbacks alone. -/
structure Alike (r : σ → τ → Prop) (st : Decoder σ) (st' : Decoder τ) : Prop where
  api : r st.api st'.api
  dec_buf : st.dec_buf = st'.dec_buf
  mallocs : st.mallocs = st'.mallocs
  warnings : st.warnings = st'.warnings
  shared : st.shared = st'.shared

theorem Alike.mono {r r' : σ → τ → Prop} {st : Decoder σ} {st' : Decoder τ}
    (h : Alike r st st') (hr : ∀ s t, r s t → r' s t) : Alike r' st st' :=
  ⟨hr _ _ h.api, h.dec_buf, h.mallocs, h.warnings, h.shared⟩

/-! ### Outcomes -/

/-- What a load comes to: a value, with the attributes it has attached to objects R
shares, or an error. The last case is the depth bound of the model. -/
inductive Outcome
  | value (v : SEXP) (shared : List (SEXP × Cells))
  | error
  | tooDeep

def outcome {σ : Type} : EStateM.Result Stop (Decoder σ) SEXP → Outcome
  | .ok v st => .value v st.shared
  | .error (.rerror _) _ => .error
  | .error .tooDeep _ => .tooDeep

/-- Both stops are errors, or both are the depth bound. -/
def SameStop : Stop → Stop → Prop
  | .rerror _, .rerror _ => True
  | .tooDeep, .tooDeep => True
  | _, _ => False

theorem outcome_eq {σ τ : Type} {r : σ → τ → Prop}
    {x : EStateM.Result Stop (Decoder σ) SEXP} {y : EStateM.Result Stop (Decoder τ) SEXP}
    (h : ResultsMatch (Alike r) SameStop x y) : outcome x = outcome y := by
  cases x with
  | ok v st =>
    cases y with
    | ok w st' =>
      obtain ⟨rfl, halike⟩ := h
      show Outcome.value v st.shared = Outcome.value v st'.shared
      rw [halike.shared]
    | error d st' => exact h.elim
  | error e st =>
    cases y with
    | ok w st' => exact h.elim
    | error d st' =>
      cases e with
      | rerror e =>
        cases d with
        | rerror d => rfl
        | tooDeep => exact h.elim
      | tooDeep =>
        cases d with
        | rerror d => exact h.elim
        | tooDeep => rfl

/-! ### Steps of the decoder -/

/-- The errors that the callbacks raise. The others are raised by the decoder and by what it
calls. -/
def RError.ofFetch : RError → Bool
  | .readShort _ _ | .readFailed _ | .connectionClosed => true
  | _ => false

section Steps

variable {r : σ → τ → Prop} {F : Stop → Decoder σ → Stop → Decoder τ → Prop} {α : Type}
  {R : Runtime} {api : FetchApi σ} {api' : FetchApi τ}

section Api

variable (hown : ∀ e : RError, e.ofFetch = false → ∀ st st', Alike r st st' →
  F (.rerror e) st (.rerror e) st')
include hown

theorem tandem_rf_error {e : RError} (he : e.ofFetch = false) :
    Tandem (Alike r) F (rf_error e : Load σ α) (rf_error e : Load τ α) (Alike r) :=
  Tandem.throw (hown e he)

theorem tandem_allocVector (t : SexpType) (len : ℕ) :
    Tandem (Alike r) F (allocVector R t len) (allocVector R t len) (Alike r) := by
  unfold allocVector
  split
  · exact Tandem.pure ()
  · exact tandem_rf_error hown rfl

theorem tandem_install (name : CString) :
    Tandem (Alike r) F (install name) (install name) (Alike r) := by
  unfold install
  split
  · exact tandem_rf_error hown rfl
  · split
    · exact tandem_rf_error hown rfl
    · exact Tandem.pure _

omit hown in
theorem tandem_malloc (len : ℕ) :
    Tandem (Alike r) F (malloc R len) (malloc R len) (Alike r) := by
  intro st st' h
  exact ⟨by rw [h.mallocs], h.api, h.dec_buf, by rw [h.mallocs], h.warnings, h.shared⟩

omit hown in
theorem tandem_rf_warning (text : String) :
    Tandem (Alike r) F (rf_warning text) (rf_warning text) (Alike r) := by
  unfold rf_warning
  refine Tandem.modify fun st st' h => ?_
  exact ⟨h.api, h.dec_buf, h.mallocs, by rw [h.warnings], h.shared⟩

omit hown in
theorem tandem_setAttrib (res : SEXP) (attr : Cells) :
    Tandem (Alike r) F (setAttrib res attr) (setAttrib res attr) (Alike r) := by
  unfold setAttrib
  split
  · exact Tandem.pure _
  · refine Tandem.bind (Tandem.modify fun st st' h => ?_) fun _ => Tandem.pure _
    exact ⟨h.api, h.dec_buf, h.mallocs, h.warnings, by rw [h.shared]⟩

end Api

/-! ### `decode_one` and `sfs_load` -/

/-- The stops that are compared are the same error of the decoder, or those of callbacks
that otherwise deliver the same bytes. -/
structure Matched (r : σ → τ → Prop) (F : Stop → Decoder σ → Stop → Decoder τ → Prop)
    (api : FetchApi σ) (api' : FetchApi τ) : Prop where
  own : ∀ e : RError, e.ofFetch = false → ∀ st st', Alike r st st' →
    F (.rerror e) st (.rerror e) st'
  fetch : ∀ len, Tandem (Alike r) F (fetch api len) (fetch api' len) (Alike r)
  decBuf : ∀ len, Tandem (Alike r) F (fetchDecBuf api len) (fetchDecBuf api' len) (Alike r)

/-- How two calls of `fetch` compare, errors with the states behind them. -/
def FetchedMatch (r : σ → τ → Prop) (G : RError → σ → RError → τ → Prop) :
    Fetched σ → Fetched τ → Prop
  | .got bs s, .got cs t => bs = cs ∧ r s t
  | .failed _ e s, .failed _ d t => G e s d t
  | _, _ => False

/-- Callbacks are matched by what they come to. -/
theorem matched_of_fetch {G : RError → σ → RError → τ → Prop}
    (hown : ∀ e : RError, e.ofFetch = false → ∀ st st', Alike r st st' →
      F (.rerror e) st (.rerror e) st')
    (hfetch : ∀ s t len, r s t → FetchedMatch r G (api.fetch s len) (api'.fetch t len))
    (hF : ∀ e d st st', G e st.api d st'.api → F (.rerror e) st (.rerror d) st') :
    Matched r F api api' := by
  refine ⟨hown, fun len st st' h => ?_, fun len st st' h => ?_⟩
  · have hr := hfetch st.api st'.api len h.api
    unfold fetch
    cases hs : api.fetch st.api len with
    | got bs s =>
      cases ht : api'.fetch st'.api len with
      | got cs t =>
        rw [hs, ht] at hr
        exact ⟨hr.1, hr.2, h.dec_buf, h.mallocs, h.warnings, h.shared⟩
      | failed part d t =>
        rw [hs, ht] at hr
        exact hr.elim
    | failed part e s =>
      cases ht : api'.fetch st'.api len with
      | got cs t =>
        rw [hs, ht] at hr
        exact hr.elim
      | failed part' d t =>
        rw [hs, ht] at hr
        exact hF e d { st with api := s } { st' with api := t } hr
  · have hr := hfetch st.api st'.api len h.api
    unfold fetchDecBuf
    cases hs : api.fetch st.api len with
    | got bs s =>
      cases ht : api'.fetch st'.api len with
      | got cs t =>
        rw [hs, ht] at hr
        obtain ⟨rfl, hst⟩ := hr
        exact ⟨rfl, hst, by rw [h.dec_buf], h.mallocs, h.warnings, h.shared⟩
      | failed part d t =>
        rw [hs, ht] at hr
        exact hr.elim
    | failed part e s =>
      cases ht : api'.fetch st'.api len with
      | got cs t =>
        rw [hs, ht] at hr
        exact hr.elim
      | failed part' d t =>
        rw [hs, ht] at hr
        exact hF e d _ _ hr

section Decode

variable (h : Matched r F api api')
include h

theorem tandem_fetchHdr : Tandem (Alike r) F (fetchHdr api) (fetchHdr api') (Alike r) := by
  unfold fetchHdr
  exact (h.fetch 8).bind fun bs => Tandem.pure (leVal bs)

theorem tandem_decodeAtoms (t : AtomType) (len : ℕ) :
    Tandem (Alike r) F (decodeAtoms R api t len) (decodeAtoms R api' t len) (Alike r) := by
  unfold decodeAtoms
  refine (tandem_allocVector h.own t.type len).bind fun _ => ?_
  exact (h.fetch _).bind fun bs => Tandem.pure _

theorem tandem_decodeText {noMemory : ℕ → RError} (hno : ∀ n, (noMemory n).ofFetch = false)
    (len : ℕ) :
    Tandem (Alike r) F (decodeText R api noMemory len) (decodeText R api' noMemory len)
      (Alike r) := by
  unfold decodeText
  split
  · refine (h.decBuf len).bind fun _ => ?_
    -- both read the text from the same `dec_buf`
    intro st st' hst
    exact ⟨congrArg cstr hst.dec_buf, hst⟩
  · refine (tandem_malloc len).bind fun buf => ?_
    cases buf with
    | none => exact tandem_rf_error h.own (hno len)
    | some buf => exact Tandem.pure _

end Decode

section Load

variable {load : Load σ SEXP} {load' : Load τ SEXP}
  (hload : Tandem (Alike r) F load load' (Alike r))
include hload

theorem tandem_loadElts (n : ℕ) :
    Tandem (Alike r) F (loadElts load n) (loadElts load' n) (Alike r) := by
  induction n with
  | zero => exact Tandem.pure _
  | succ n ih =>
    unfold loadElts
    exact hload.bind fun x => ih.bind fun xs => Tandem.pure _

theorem tandem_loadCells (lang : Bool) (n : ℕ) :
    Tandem (Alike r) F (loadCells load lang n) (loadCells load' lang n) (Alike r) := by
  induction n with
  | zero => exact Tandem.pure _
  | succ n ih =>
    unfold loadCells
    exact hload.bind fun tag => hload.bind fun val => ih.bind fun rest => Tandem.pure _

variable (h : Matched r F api api')
include h

theorem tandem_loadStrings (n : ℕ) :
    Tandem (Alike r) F (loadStrings load n) (loadStrings load' n) (Alike r) := by
  induction n with
  | zero => exact Tandem.pure _
  | succ n ih =>
    unfold loadStrings
    refine hload.bind fun x => ?_
    cases x with
    | charsxp c => exact ih.bind fun cs => Tandem.pure _
    | _ => exact tandem_rf_error h.own rfl

theorem tandem_decode_one (hdr : ℕ) :
    Tandem (Alike r) F (decode_one R api load hdr) (decode_one R api' load' hdr) (Alike r) := by
  unfold decode_one decodeSwitch
  split
  · exact Tandem.pure _
  · exact tandem_decodeAtoms h _ _
  · exact tandem_decodeAtoms h _ _
  · exact tandem_decodeAtoms h _ _
  · exact tandem_decodeAtoms h _ _
  · split
    · exact Tandem.pure _
    · exact (tandem_decodeText h (fun _ => rfl) _).bind fun s => tandem_install h.own s
  -- lists and vectors of strings
  · refine (tandem_allocVector h.own _ _).bind fun _ => ?_
    exact (tandem_loadElts hload _).bind fun xs => Tandem.pure _
  · refine (tandem_allocVector h.own _ _).bind fun _ => ?_
    exact (tandem_loadStrings hload h _).bind fun cs => Tandem.pure _
  · exact (tandem_decodeText h (fun _ => rfl) _).bind fun s => Tandem.pure _
  -- closures, and then the kinds of pairlist
  · exact hload.bind fun formals => hload.bind fun body => hload.bind fun cloenv =>
      Tandem.pure _
  · exact (tandem_loadCells hload false _).bind fun c => Tandem.pure _
  · exact (tandem_loadCells hload false _).bind fun c => Tandem.pure _
  · exact (tandem_loadCells hload true _).bind fun c => Tandem.pure _
  · split
    · exact Tandem.pure _
    · split
      · exact Tandem.pure _
      · split
        · exact Tandem.pure _
        · exact (tandem_rf_warning _).bind fun _ => Tandem.pure _
  · exact tandem_rf_error h.own rfl

/-- What follows the first header of a value. -/
theorem tandem_afterHdr (hdr : ℕ) :
    Tandem (Alike r) F
      (do
        let p ← loadPrefix R api load hdr
        let res ← decode_one R api load p.2
        if p.1.length ≠ 0 then setAttrib res p.1 else return res)
      (do
        let p ← loadPrefix R api' load' hdr
        let res ← decode_one R api' load' p.2
        if p.1.length ≠ 0 then setAttrib res p.1 else return res)
      (Alike r) := by
  -- the attributes and the second header
  have hprefix : Tandem (Alike r) F (loadPrefix R api load hdr) (loadPrefix R api' load' hdr)
      (Alike r) := by
    unfold loadPrefix
    split
    · refine (tandem_decode_one hload h hdr).bind fun attr => ?_
      exact (tandem_fetchHdr h).bind fun hdr' => Tandem.pure _
    · exact Tandem.pure _
  refine hprefix.bind fun p => (tandem_decode_one hload h p.2).bind fun res => ?_
  split
  · exact tandem_setAttrib res p.1
  · exact Tandem.pure _

end Load

/-- **A load over matched callbacks.** -/
theorem tandem_sfs_load (h : Matched r F api api')
    (hdeep : ∀ st st', Alike r st st' → F .tooDeep st .tooDeep st') (depth : ℕ) :
    Tandem (Alike r) F (sfs_load R api depth) (sfs_load R api' depth) (Alike r) := by
  induction depth with
  | zero => exact Tandem.throw hdeep
  | succ depth ih =>
    unfold sfs_load loadBody
    exact (tandem_fetchHdr h).bind fun hdr => tandem_afterHdr ih h hdr

end Steps

/-! ### Callbacks that deliver the same bytes -/

section Lockstep

variable {r : σ → τ → Prop} {E : Stop → Stop → Prop} (hE : ∀ e d, E (.rerror e) (.rerror d))
include hE

variable {α : Type} {R : Runtime} {api : FetchApi σ} {api' : FetchApi τ}

theorem lockstep_rf_error (e : RError) :
    Lockstep (Alike r) E (rf_error e : Load σ α) (rf_error e : Load τ α) (Alike r) :=
  lockstep_iff.mpr (Tandem.throw fun _ _ _ => hE e e)

theorem lockstep_allocVector (t : SexpType) (len : ℕ) :
    Lockstep (Alike r) E (allocVector R t len) (allocVector R t len) (Alike r) :=
  lockstep_iff.mpr (tandem_allocVector (fun e _ _ _ _ => hE e e) t len)

theorem lockstep_install (name : CString) :
    Lockstep (Alike r) E (install name) (install name) (Alike r) :=
  lockstep_iff.mpr (tandem_install (fun e _ _ _ _ => hE e e) name)

omit hE in
theorem lockstep_malloc (len : ℕ) :
    Lockstep (Alike r) E (malloc R len) (malloc R len) (Alike r) :=
  lockstep_iff.mpr (tandem_malloc len)

omit hE in
theorem lockstep_rf_warning (text : String) :
    Lockstep (Alike r) E (rf_warning text) (rf_warning text) (Alike r) :=
  lockstep_iff.mpr (tandem_rf_warning text)

omit hE in
theorem lockstep_setAttrib (res : SEXP) (attr : Cells) :
    Lockstep (Alike r) E (setAttrib res attr) (setAttrib res attr) (Alike r) :=
  lockstep_iff.mpr (tandem_setAttrib res attr)

variable (hf : FetchAlike r api api')
include hf

theorem matched_of_alike : Matched r (fun e _ d _ => E e d) api api' := by
  refine matched_of_fetch (G := fun _ _ _ _ => True) (fun e _ _ _ _ => hE e e)
    (fun s t len hr => ?_) fun e d _ _ _ => hE e d
  have hfetch := hf s t len hr
  cases hs : api.fetch s len with
  | got bs s' =>
    cases ht : api'.fetch t len with
    | got cs t' =>
      rw [hs, ht] at hfetch
      exact hfetch
    | failed part e t' =>
      rw [hs, ht] at hfetch
      exact hfetch.elim
  | failed part e s' =>
    cases ht : api'.fetch t len with
    | got cs t' =>
      rw [hs, ht] at hfetch
      exact hfetch.elim
    | failed part' d t' => trivial

/-- What follows the first header of a value. -/
theorem lockstep_afterHdr {load : Load σ SEXP} {load' : Load τ SEXP}
    (hload : Lockstep (Alike r) E load load' (Alike r)) (hdr : ℕ) :
    Lockstep (Alike r) E
      (do
        let p ← loadPrefix R api load hdr
        let res ← decode_one R api load p.2
        if p.1.length ≠ 0 then setAttrib res p.1 else return res)
      (do
        let p ← loadPrefix R api' load' hdr
        let res ← decode_one R api' load' p.2
        if p.1.length ≠ 0 then setAttrib res p.1 else return res)
      (Alike r) :=
  lockstep_iff.mpr (tandem_afterHdr (lockstep_iff.mp hload) (matched_of_alike hE hf) hdr)

/-- **The same value from callbacks that deliver the same bytes.** -/
theorem lockstep_sfs_load (hdeep : E .tooDeep .tooDeep) (depth : ℕ) :
    Lockstep (Alike r) E (sfs_load R api depth) (sfs_load R api' depth) (Alike r) :=
  lockstep_iff.mpr (tandem_sfs_load (matched_of_alike hE hf) (fun _ _ _ => hdeep) depth)

end Lockstep

end Sfs
end Osrv
