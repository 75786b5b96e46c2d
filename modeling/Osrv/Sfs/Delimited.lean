import Osrv.Sfs.Faithful
import Osrv.Sfs.Reading
import Osrv.Sfs.Transport

/-!
# Streams that are cut off

A stream says itself where its value ends. What a load has taken of a stream is taken by
every load in front of whatever follows (`load_extends`), so that values may be sent one
after the other. And nothing less is taken for a value: of a stream that is cut off no load
makes one (`load_cut`).
-/

namespace Osrv
namespace Sfs

open Bytes Lib

variable {R : Runtime} {bytes dec_buf : List UInt8} {depth : ℕ} {v : SEXP}
  {st : Decoder (List UInt8)}

/-- A load that returns a value has taken bytes of which every load that goes deep enough
makes the same value, whatever is behind them. -/
theorem load_extends (hdepth : bytes.length < depth)
    (h : sfs_load R fetch_buf depth (Decoder.start bytes dec_buf) = .ok v st) :
    ∃ used, bytes = used ++ st.api ∧ ∀ rest depth', used.length ≤ depth' →
      ∃ st', sfs_load R fetch_buf depth' (Decoder.start (used ++ rest) dec_buf) = .ok v st' ∧
        st'.api = rest ∧ st'.shared = st.shared ∧ st'.warnings = st.warnings := by
  obtain ⟨_, hbytes, t, hv, rfl⟩ := sfs_load_reads_tree (R := R) depth _ v st h
  have hwire : bytes = t.wire ++ st.api := hbytes
  -- all of them evaluate the same tree
  have heval : ∀ rest depth', t.wire.length ≤ depth' →
      ResultsMatch (Unread rest) AnyStop
        (sfs_load R fetch_buf depth' (Decoder.start (t.wire ++ rest) dec_buf))
        (t.eval R (Decoder.on () dec_buf)) := fun rest depth' hle =>
    Tree.lockstep_wire t _ hv (t.height_le.trans hle) rest _ _ ⟨rfl, rfl, rfl, rfl, rfl⟩
  have hle : t.wire.length ≤ depth := by
    rw [hwire, List.length_append] at hdepth
    omega
  have hown := heval st.api depth hle
  rw [← hwire, h] at hown
  refine ⟨t.wire, hwire, fun rest depth' hdepth' => ?_⟩
  have hrun := heval rest depth' hdepth'
  cases htree : t.eval R (Decoder.on () dec_buf) with
  | error e m =>
    rw [htree] at hown
    exact hown.elim
  | ok w m =>
    rw [htree] at hown hrun
    obtain ⟨rfl, hm⟩ := hown
    cases hload : sfs_load R fetch_buf depth' (Decoder.start (t.wire ++ rest) dec_buf) with
    | error e st' =>
      rw [hload] at hrun
      exact hrun.elim
    | ok w st' =>
      rw [hload] at hrun
      obtain ⟨rfl, hm'⟩ := hrun
      exact ⟨st', rfl, hm'.api, hm'.shared.trans hm.shared.symm,
        hm'.warnings.trans hm.warnings.symm⟩

/-- A load fails in front of a part of a stream that is not loaded, or only as a whole. -/
theorem load_cut {front : List UInt8} (rest : List UInt8) (hrest : rest ≠ [])
    (hdepth : front.length < depth)
    (hwhole : ∀ v st, C_mem_restore R (front ++ rest) dec_buf = .ok v st → st.api = []) :
    outcome (sfs_load R fetch_buf depth (Decoder.start front dec_buf)) = .error := by
  have hdeep := outcome_ne_tooDeep R dec_buf hdepth
  cases hload : sfs_load R fetch_buf depth (Decoder.start front dec_buf) with
  | error e st =>
    rw [hload] at hdeep
    cases e with
    | rerror e => rfl
    | tooDeep => exact absurd rfl hdeep
  | ok v st =>
    -- then the stream would be loaded, and with the rest unread
    obtain ⟨used, rfl, hall⟩ := load_extends hdepth hload
    have hle : used.length ≤ (used ++ st.api ++ rest).length + 1 := by
      rw [List.append_assoc, List.length_append]
      omega
    obtain ⟨st', hrun, hapi, -⟩ := hall (st.api ++ rest) _ hle
    rw [← List.append_assoc] at hrun
    have hnil := (hwhole v st' hrun).symm.trans hapi
    exact absurd (List.append_eq_nil_iff.mp hnil.symm).2 hrest

/-! ### Stored values -/

section Stored

variable (hR : R.Allocates v) (hv : Storable v)
include hR hv

/-- A stored value is loaded as a whole. -/
theorem emit_whole (w : SEXP) (hload : C_mem_restore R (emit v) dec_buf = .ok w st) :
    st.api = [] := by
  obtain ⟨hacc, hrej⟩ := restore_stored hR hv [] dec_buf
  rw [List.append_nil] at hacc hrej
  obtain h | h := accepted_or_rejected v.nodes
  · obtain ⟨db, hdb⟩ := hacc h
    cases hload.symm.trans hdb
    rfl
  · obtain ⟨e, st', he⟩ := hrej h
    cases hload.symm.trans he

/-- Nothing is loaded of a stored value that is cut off. -/
theorem stored_cut {front : List UInt8} (hfront : front <+: emit v) (hne : front ≠ emit v)
    (hdepth : front.length < depth) :
    outcome (sfs_load R fetch_buf depth (Decoder.start front dec_buf)) = .error := by
  obtain ⟨rest, hrest⟩ := hfront
  refine load_cut rest ?_ hdepth fun w st' hload => ?_
  · rintro rfl
    exact hne ((List.append_nil _).symm.trans hrest)
  · exact emit_whole hR hv w (hrest ▸ hload)

/-- **What is loaded of a stored value** is identical to it exactly if all of it is there, it
has no raw vector and no string with an encoding mark. -/
theorem stored_identical_iff (hp : ∀ x ∈ v.nodes, x.Plain) {front : List UInt8}
    (hfront : front <+: emit v) (hdepth : front.length < depth) :
    (∃ w shared, outcome (sfs_load R fetch_buf depth (Decoder.start front dec_buf))
        = .value w shared ∧ Identical w v) ↔
      front = emit v ∧ ∀ x ∈ v.nodes, x.isRaw = false ∧ x.NativeStrings := by
  by_cases hne : front = emit v
  · subst hne
    have hload := SEXP.loads v depth (v.height_le.trans hdepth.le) fun x hx =>
      ⟨hv.fits x hx, hv.value x hx, hR x hx⟩
    simp only [true_and]
    constructor
    · rintro ⟨w, shared, hout, hid⟩
      obtain h | h := accepted_or_rejected v.nodes
      · obtain ⟨db, hdb⟩ := hload.reads h (Decoder.start (emit v) dec_buf) []
          (by simp [Decoder.start])
        rw [hdb] at hout
        cases hout
        intro x hx
        have hpx := hp x hx
        exact ⟨hpx.rejected_eq ▸ h x hx, hpx.faithful_iff.mp (v.identical_loaded_iff.mp hid x hx)⟩
      · obtain ⟨e, st', he⟩ := hload.rejects h (Decoder.start (emit v) dec_buf) []
          (by simp [Decoder.start])
        rw [he] at hout
        cases hout
    · intro h
      obtain ⟨db, hdb⟩ := hload.reads (fun x hx => by rw [(hp x hx).rejected_eq]; exact (h x hx).1)
        (Decoder.start (emit v) dec_buf) [] (by simp [Decoder.start])
      exact ⟨_, _, congrArg outcome hdb, v.identical_loaded_iff.mpr fun x hx =>
        (hp x hx).faithful_iff.mpr (h x hx).2⟩
  · rw [stored_cut hR hv hfront hne hdepth]
    exact iff_of_false (fun ⟨_, _, h, _⟩ => nomatch h) fun h => hne h.1

end Stored

/-! ### On a descriptor -/

/-- A load that returns a value from memory returns it from a descriptor as well, and leaves
the same bytes. -/
theorem load_recv {max : ℕ} (hmax : 0 < max) {d : Descriptor} (hd : Carries d bytes)
    (h : sfs_load R fetch_buf depth (Decoder.start bytes dec_buf) = .ok v st) :
    ∃ st', sfs_load R ⟨fun d len => recvLoop max [] len d.arrivals⟩ depth (Decoder.on d dec_buf)
        = .ok v st' ∧
      Carries st'.api st.api ∧ st'.shared = st.shared ∧ st'.warnings = st.warnings := by
  have hrun := lockstep_sfs_load (R := R) (E := SameStop) (fun _ _ => trivial)
    (fetchAlike_recvLoop hmax) trivial depth (Decoder.on d dec_buf)
    (Decoder.start bytes dec_buf) ⟨hd, rfl, rfl, rfl, rfl⟩
  rw [h] at hrun
  cases hload : sfs_load R ⟨fun d len => recvLoop max [] len d.arrivals⟩ depth
      (Decoder.on d dec_buf) with
  | error e st' =>
    rw [hload] at hrun
    exact hrun.elim
  | ok w st' =>
    rw [hload] at hrun
    obtain ⟨rfl, hst⟩ := hrun
    exact ⟨st', rfl, hst.api, hst.shared, hst.warnings⟩

variable (R dec_buf) in
/-- **Where a value ends.** If a load returns a value, then the bytes it has taken are
delimited by themselves: from every descriptor on which they arrive, in any pieces and
whatever follows, the same value is loaded and exactly what follows is left, and nothing is
loaded from a descriptor on which the stream ends before they do. -/
theorem stream_self_delimiting (h : C_mem_restore R bytes dec_buf = .ok v st) :
    ∃ used, bytes = used ++ st.api ∧ ∀ restore ∈ [fd_restore R, sock_restore R], ∀ depth d,
      (∀ rest, Carries d (used ++ rest) → used.length ≤ depth →
        ∃ st', restore depth d dec_buf = .ok v st' ∧ Carries st'.api rest ∧
          st'.shared = st.shared ∧ st'.warnings = st.warnings) ∧
      ∀ front, Carries d front → front <+: used → front ≠ used → front.length < depth →
        outcome (restore depth d dec_buf) = .error := by
  obtain ⟨used, hbytes, hall⟩ := load_extends (Nat.lt_succ_self _) h
  refine ⟨used, hbytes, fun restore hrestore depth d => ?_⟩
  obtain ⟨max, hmax, rfl⟩ : ∃ max, 0 < max ∧ restore = fun depth d dec_buf =>
      sfs_load R ⟨fun d len => recvLoop max [] len d.arrivals⟩ depth (Decoder.on d dec_buf) := by
    obtain rfl | hrestore := List.mem_cons.mp hrestore
    · exact ⟨Fd.MAX_RECV_SIZE, by decide, rfl⟩
    · obtain rfl := List.mem_singleton.mp hrestore
      exact ⟨Sock.MAX_RECV_SIZE, by decide, rfl⟩
  constructor
  · intro rest hd hdepth
    obtain ⟨st₁, hload, hapi, hshared, hwarnings⟩ := hall rest depth hdepth
    obtain ⟨st', hrun, hcarries, hshared', hwarnings'⟩ := load_recv hmax hd hload
    exact ⟨st', hrun, hapi ▸ hcarries, hshared'.trans hshared, hwarnings'.trans hwarnings⟩
  · rintro front ⟨hdelivers, rfl⟩ ⟨rest, rfl⟩ hne hdepth
    refine (outcome_recvLoop hmax R depth dec_buf hdelivers).trans (load_cut rest ?_
      hdepth fun w st' hload => ?_)
    · rintro rfl
      exact hne (List.append_nil _).symm
    -- all of the bytes are taken when nothing is behind them
    · obtain ⟨st₁, hrun, hapi, -⟩ := hall [] _ (Nat.le_succ _)
      rw [List.append_nil] at hrun
      have hsame := hload.symm.trans hrun
      cases hsame
      exact hapi

/-- A vector with its names and a byte behind it. -/
theorem stream_self_delimiting_named :
    ∃ st, st.api = [7] ∧
      C_mem_restore .unlimited (emit namedInteger ++ [7]) [] = .ok namedInteger.loaded st ∧
      ∃ used, emit namedInteger ++ [7] = used ++ st.api ∧
        ∀ restore ∈ [fd_restore .unlimited, sock_restore .unlimited], ∀ depth d,
        (∀ rest, Carries d (used ++ rest) → used.length ≤ depth →
          ∃ st', restore depth d [] = .ok namedInteger.loaded st' ∧ Carries st'.api rest ∧
            st'.shared = st.shared ∧ st'.warnings = st.warnings) ∧
        ∀ front, Carries d front → front <+: used → front ≠ used → front.length < depth →
          outcome (restore depth d []) = .error := by
  have haccepted : ∀ x ∈ namedInteger.nodes, x.rejected = false := by
    rw [namedInteger_nodes]
    simp [namedInteger, SEXP.rejected, Datum.rejected, Datum.fresh]
  obtain ⟨db, hload⟩ := (restore_stored (Runtime.unlimited_allocates _) storable_namedInteger [7]
    []).1 haccepted
  exact ⟨_, rfl, hload, stream_self_delimiting .unlimited [] hload⟩

end Sfs
end Osrv
