import Osrv.Sfs.RoundTrip

/-!
# Short and long texts

The record of a symbol or of a string is its length and its terminated text. A text
that fits `dec_buf` is fetched and comes back as it was (`loads_string`,
`loads_symbol`). For one that does not, the decoder takes memory from `malloc` but
fetches nothing, so that the text is still unread when the load returns
(`decodeText_long`). The length of a text is all that decides between the two.
-/

namespace Osrv
namespace Sfs

open Bytes Lib

variable {R : Runtime}

/-! ### The header of a record of any length -/

theorem Record.hdr_mod_of_lt (r : Record) (hc : r.ts.code < 256) : r.hdr % 256 = r.ts.code := by
  have hcode : r.ts.code < 2 ^ 8 := hc
  rw [Record.hdr, ← Nat.shiftLeft_add_eq_or_of_lt hcode, Nat.shiftLeft_eq]
  omega

/-- The header has room for 56 bits of the length. -/
theorem Record.hdr_shift_of_lt (r : Record) (hc : r.ts.code < 256) :
    r.hdr >>> 8 = r.len % 2 ^ 56 := by
  have hcode : r.ts.code < 2 ^ 8 := hc
  rw [Record.hdr, ← Nat.shiftLeft_add_eq_or_of_lt hcode, Nat.shiftLeft_eq,
    Nat.shiftRight_eq_div_pow]
  omega

theorem fetchHdr_append (st : Decoder (List UInt8)) {h : ℕ} (hlt : h < 2 ^ 64)
    {rest : List UInt8} (hapi : st.api = le 8 h ++ rest) :
    fetchHdr fetch_buf st = .ok h { st with api := rest } := by
  have hval : leVal (le 8 h) = h := leVal_le_of_lt (by simpa using hlt)
  have hge : ¬ (le 8 h ++ rest).length < 8 := by simp
  have hfetch : fetch fetch_buf 8 st = .ok (le 8 h) { st with api := rest } := by
    simp only [fetch, fetch_buf, hapi, if_neg hge, List.take_left' (length_le 8 h),
      List.drop_left' (length_le 8 h)]
  rw [fetchHdr, bind_ok hfetch]
  show EStateM.Result.ok (leVal (le 8 h)) _ = _
  rw [hval]

/-- A record that is no attribute list is decoded behind its header. -/
theorem sfs_load_record {r : Record} (hc : r.ts.code < 256)
    (hts : ∀ ts, r.ts ≠ .unassigned ts) (ha : r.ts ≠ .ATTRSXP) (n : ℕ)
    (st : Decoder (List UInt8)) {rest : List UInt8} (hapi : st.api = r.bytes ++ rest) :
    sfs_load R fetch_buf (n + 1) st =
      decodeSwitch R fetch_buf (sfs_load R fetch_buf n) r.ts.code (r.len % 2 ^ 56)
        { st with api := r.payload ++ rest } := by
  have hprefix : loadPrefix R fetch_buf (sfs_load R fetch_buf n) r.hdr = pure (.nil, r.hdr) := by
    rw [loadPrefix, if_neg]
    rwa [r.hdr_mod_of_lt hc, SexpType.ofCode_code _ hts]
  rw [Record.bytes, List.append_assoc] at hapi
  rw [sfs_load, loadBody, bind_ok (fetchHdr_append st r.hdr_lt hapi), hprefix, pure_bind]
  show (decode_one R fetch_buf (sfs_load R fetch_buf n) r.hdr >>= pure) _ = _
  rw [bind_pure, decode_one, r.hdr_mod_of_lt hc, r.hdr_shift_of_lt hc]

/-! ### Texts that do not fit -/

theorem length_cstr_le (bs : List UInt8) : (cstr bs).length ≤ bs.length :=
  (List.takeWhile_prefix _).length_le

/-- What a text is made of. -/
theorem decodeText_ok {err : ℕ → RError} {len : ℕ} {st st' : Decoder (List UInt8)} {s : CString}
    (h : decodeText R fetch_buf err len st = .ok s st') :
    if len < sizeofDecBuf then s.length ≤ len + st.dec_buf.length else st'.api = st.api := by
  rw [decodeText] at h
  split at h
  · next hlt =>
    rw [if_pos hlt]
    by_cases hshort : st.api.length < len
    · have hfail : fetchDecBuf fetch_buf len st =
          .error (.rerror (.readShort len st.api.length)) { st with dec_buf := st.dec_buf } := by
        simp only [fetchDecBuf, fetch_buf, if_pos hshort]
        rfl
      rw [bind_error hfail] at h
      cases h
    · have hfetch : fetchDecBuf fetch_buf len st = .ok () { st with
          api := st.api.drop len
          dec_buf := st.api.take len ++ st.dec_buf.drop (st.api.take len).length } := by
        simp only [fetchDecBuf, fetch_buf, if_neg hshort]
      rw [bind_ok hfetch] at h
      cases h
      refine (length_cstr_le _).trans ?_
      rw [List.length_append, List.length_take, List.length_drop]
      omega
  · next hge =>
    rw [if_neg hge]
    have hmalloc : malloc R len st =
        .ok (R.malloc st.mallocs len) { st with mallocs := st.mallocs + 1 } := rfl
    rw [bind_ok hmalloc] at h
    cases hblock : R.malloc st.mallocs len with
    | none =>
      rw [hblock] at h
      cases h
    | some buf =>
      rw [hblock] at h
      cases h
      rfl

/-- **A text that does not fit** stays unread, or it is not the one of the record. -/
theorem decodeText_long {err : ℕ → RError} {s : CString} (hlong : ¬ s.length + 1 < sizeofDecBuf)
    {st st' : Decoder (List UInt8)} {rest : List UInt8}
    (hdb : st.dec_buf.length = sizeofDecBuf)
    (hapi : st.api = s.terminated.take ((s.length + 1) * 1 % 2 ^ 64) ++ rest)
    (h : decodeText R fetch_buf err ((s.length + 1) % 2 ^ 56) st = .ok s st') :
    st'.api ≠ rest := by
  have hok := decodeText_ok h
  unfold sizeofDecBuf at hlong hdb hok
  split at hok
  · -- the length has lost its upper bits
    next hlt =>
    rw [hdb] at hok
    omega
  · next hge =>
    rw [hok, hapi]
    intro heq
    have hlen := congrArg List.length heq
    rw [List.length_append, List.length_take, s.length_terminated] at hlen
    omega

/-! ### The two records -/

/-- The record of a text is loaded as the value `v`, and nothing but the record is read. -/
def LoadsExactly (R : Runtime) (n : ℕ) (r : Record) (rest : List UInt8) (v : SEXP) : Prop :=
  ∀ dec_buf : List UInt8, dec_buf.length = sizeofDecBuf →
    ∃ st, sfs_load R fetch_buf (n + 1) (Decoder.start (r.bytes ++ rest) dec_buf) = .ok v st ∧
      st.api = rest

theorem Reads.loadsExactly {n : ℕ} {r : Record} {v : SEXP} {noise : List String}
    (h : Reads (sfs_load R fetch_buf (n + 1)) v r.bytes noise) (rest : List UInt8) :
    LoadsExactly R n r rest v := by
  intro dec_buf _
  obtain ⟨db, hrun⟩ := h (Decoder.start (r.bytes ++ rest) dec_buf) rest rfl
  exact ⟨_, hrun, rfl⟩

/-- The contents of `dec_buf` before the first load. -/
def zeroed : List UInt8 := List.replicate sizeofDecBuf 0

/-- The record of a symbol with a name. -/
def storeName (s : CString) : Record := ⟨.SYMSXP, 1, s.length + 1, some s.terminated⟩

theorem store_symbol {s : CString} (hs : s.bytes ≠ []) : store (.symbol s) = [storeName s] := by
  rw [store, if_pos hs]
  rfl

theorem string_long {s : CString} (hlong : ¬ s.length + 1 < sizeofDecBuf) (n : ℕ)
    (rest : List UInt8) :
    ¬ LoadsExactly R n (storeString (mkChar s)) rest (.charsxp (mkChar s)) := by
  intro h
  obtain ⟨st, hrun, hst⟩ := h zeroed List.length_replicate
  have hcode : (storeString (mkChar s)).ts.code < 256 := show 9 < 256 by omega
  rw [sfs_load_record hcode (fun ts => by simp [storeString]) (by simp [storeString]) n _ rfl]
    at hrun
  change (decodeText R fetch_buf .noStringMemory ((s.length + 1) % 2 ^ 56) >>=
    fun s => pure (SEXP.charsxp (mkChar s))) _ = _ at hrun
  simp only [Bind.bind, EStateM.bind] at hrun
  split at hrun
  · next text st' htext =>
    cases hrun
    exact decodeText_long hlong List.length_replicate rfl htext hst
  · cases hrun

theorem symbol_long {s : CString} (hs : s.bytes ≠ []) (hlong : ¬ s.length + 1 < sizeofDecBuf)
    (n : ℕ) (rest : List UInt8) : ¬ LoadsExactly R n (storeName s) rest (.symbol s) := by
  intro h
  obtain ⟨st, hrun, hst⟩ := h zeroed List.length_replicate
  have hcode : (storeName s).ts.code < 256 := show 1 < 256 by omega
  rw [sfs_load_record hcode (fun ts => by simp [storeName]) (by simp [storeName]) n _ rfl]
    at hrun
  change (if (s.length + 1) % 2 ^ 56 = 0 then pure R_MissingArg else
    decodeText R fetch_buf .noSymbolMemory ((s.length + 1) % 2 ^ 56) >>= install :
      Load (List UInt8) SEXP) _ = _ at hrun
  split at hrun
  · cases hrun
    exact hs rfl
  · simp only [Bind.bind, EStateM.bind] at hrun
    split at hrun
    · next text st' htext =>
      rw [install] at hrun
      split at hrun
      · cases hrun
      · split at hrun
        · cases hrun
        · cases hrun
          exact decodeText_long hlong List.length_replicate rfl htext hst
    · cases hrun

/-- **Texts are loaded exactly** if they fit `dec_buf` with their terminator. Otherwise the
load fails, or it leaves the text unread or returns another one. -/
theorem text_loads_iff (s : CString) (n : ℕ) (rest : List UInt8) :
    (LoadsExactly R n (storeString (mkChar s)) rest (.charsxp (mkChar s)) ↔
      s.length + 1 < sizeofDecBuf) ∧
    (s.bytes ≠ [] → (LoadsExactly R n (storeName s) rest (.symbol s) ↔
      s.length + 1 < sizeofDecBuf)) := by
  refine ⟨⟨fun h => ?_, fun hlt => ?_⟩, fun hs => ⟨fun h => ?_, fun hlt => ?_⟩⟩
  · by_contra hlong
    exact string_long hlong n rest h
  · have hload := loads_string (R := R) (c := mkChar s) (n := n + 1) (by omega) hlt
    exact (hload.reads (by simp)).loadsExactly rest
  · by_contra hlong
    exact symbol_long hs hlong n rest h
  · have hload := loads_symbol (R := R) s n hlt
    rw [emit, store_symbol hs, wire_cons, wire_nil, List.append_nil] at hload
    exact (hload.reads (by simp [SEXP.rejected])).loadsExactly rest

theorem text_loads_iff_name :
    LoadsExactly ⟨fun _ _ => true, fun _ _ => none⟩ 0 (storeName ⟨[120], by decide⟩) []
      (.symbol ⟨[120], by decide⟩) ↔ 1 + 1 < sizeofDecBuf :=
  (text_loads_iff ⟨[120], by decide⟩ 0 []).2 (by decide)

/-- The shortest text that does not fit. -/
def longText : CString := ⟨List.replicate 8191 97, by
  rw [List.mem_replicate]
  exact fun h => absurd h.2 (by decide)⟩

theorem longText_unread :
    ¬ LoadsExactly ⟨fun _ _ => true, fun _ len => some (List.replicate len 0)⟩ 0
      (storeString (mkChar longText)) [] (.charsxp (mkChar longText)) := by
  refine string_long (fun hlt => ?_) 0 []
  have hlength : longText.length = 8191 := List.length_replicate
  rw [hlength] at hlt
  exact absurd hlt (by decide)

end Sfs
end Osrv
