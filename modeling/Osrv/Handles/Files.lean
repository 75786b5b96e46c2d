import Osrv.Handles.Fetch
import Osrv.Sfs.Delimited
import Osrv.Tcp.Filled

/-!
# A value through a file

`C_file_store` writes a value to a file and `C_file_restore` reads it back. As long as no
header is lost, the file never stands for another value: it is read back as the value that
was written when the writer has returned, and otherwise an error is raised.
-/

namespace Osrv
namespace Handles

open Bytes Lib Net Sfs Tcp

variable {R : Runtime} {dec_buf : List UInt8} {max : ℕ}

/-- A load from a descriptor comes to what the load from memory of all that can be read of it
does. -/
theorem load_outcome (hmax : 0 < max) (h : Handle) :
    Ends (load R dec_buf max) h
      (fun v _ => ∃ shared, outcome (C_mem_restore R (delivered h.arrivals) dec_buf)
        = .value v shared)
      fun f _ => (∃ message, f = .rerror message) ∧
        outcome (C_mem_restore R (delivered h.arrivals) dec_buf) = .error := by
  have hrun := tandem_sfs_load (R := R) (matched_fetch hmax h.opened h.closes)
    (fun _ _ _ => trivial) ((delivered h.arrivals).length + 1) (Decoder.on h dec_buf)
    (Decoder.start (delivered h.arrivals) dec_buf) ⟨⟨rfl, rfl, rfl⟩, rfl, rfl, rfl, rfl⟩
  have hdeep := outcome_ne_tooDeep R dec_buf (Nat.lt_succ_self (delivered h.arrivals).length)
  unfold C_mem_restore
  unfold Ends load
  revert hrun hdeep
  cases sfs_load R (fetch max) ((delivered h.arrivals).length + 1) (Decoder.on h dec_buf) with
  | ok v st =>
    cases sfs_load R fetch_buf ((delivered h.arrivals).length + 1)
        (Decoder.start (delivered h.arrivals) dec_buf) with
    | ok w st' =>
      rintro ⟨rfl, -⟩ -
      exact ⟨st'.shared, rfl⟩
    | error d st' => exact fun hrun _ => hrun.elim
  | error e st =>
    cases sfs_load R fetch_buf ((delivered h.arrivals).length + 1)
        (Decoder.start (delivered h.arrivals) dec_buf) with
    | ok w st' => exact fun hrun _ => hrun.elim
    | error d st' =>
      intro hrun hdeep
      cases d with
      | tooDeep => exact absurd rfl hdeep
      | rerror d =>
        cases e with
        | tooDeep => exact hrun.elim
        | rerror e => exact ⟨⟨_, rfl⟩, rfl⟩

variable (R dec_buf) in
/-- Reading a file. -/
theorem file_restore_outcome (name : CString) (arrivals : List Arrival) :
    Ends (C_file_restore R dec_buf (some name) (.ok arrivals)) .start
      (fun v _ => ∃ shared, outcome (C_mem_restore R (delivered arrivals) dec_buf)
        = .value v shared)
      fun f _ => (∃ message, f = .rerror message) ∧
        outcome (C_mem_restore R (delivered arrivals) dec_buf) = .error := by
  have hload := @load_outcome R dec_buf _ (show 0 < Fd.MAX_RECV_SIZE by decide) ⟨arrivals, 1, 0⟩
  exact hload.bind (fun _ _ h => h) fun _ _ h => h

/-- **A value that was written to a file** in which no header is lost, with whatever results of
the other calls, and that is read back in any pieces: it comes back identical exactly if the
writer has returned, there is no raw vector in it and no string with an encoding mark. If the
writer has stopped with an error, the reader does so too. -/
theorem file_round_trip_iff {v : SEXP} (hR : R.Allocates v) (hv : Storable v)
    (hplain : ∀ x ∈ v.nodes, x.Plain) {write : SendFn}
    (hkept : (descriptor (C_file_store write true v)).Kept) (name : CString)
    {arrivals : List Arrival} {closed : Bool}
    (hfile : Carries ⟨arrivals, closed⟩ (descriptor (C_file_store write true v)).conn.out) :
    ((∃ w h, C_file_restore R dec_buf (some name) (.ok arrivals) .start = .ok w h ∧
        Identical w v) ↔
      (∃ f, C_file_store write true v = .ok f) ∧
        ∀ x ∈ v.nodes, x.isRaw = false ∧ x.NativeStrings) ∧
    ((∀ f, C_file_store write true v ≠ .ok f) → ∃ message h,
      C_file_restore R dec_buf (some name) (.ok arrivals) .start = .error (.rerror message) h) := by
  obtain ⟨front, hfront, hout, hwhole⟩ := file_store_fills v hkept
  obtain ⟨hdelivers, hbytes⟩ := hfile
  have hdelivered : delivered arrivals = front :=
    (delivered_eq hdelivers).trans (hbytes.trans hout)
  have hread := file_restore_outcome R dec_buf name arrivals
  rw [hdelivered] at hread
  rw [← hwhole]
  refine ⟨?_, fun hstopped => ?_⟩
  · have hstored : (∃ w shared, outcome (C_mem_restore R front dec_buf) = .value w shared ∧
        Identical w v) ↔ front = emit v ∧ ∀ x ∈ v.nodes, x.isRaw = false ∧ x.NativeStrings :=
      stored_identical_iff hR hv hplain hfront (Nat.lt_succ_self _)
    rw [← hstored]
    constructor
    · rintro ⟨w, h, hrun, hid⟩
      obtain ⟨shared, hshared⟩ := hread.ok hrun
      exact ⟨w, shared, hshared, hid⟩
    · rintro ⟨w, shared, hshared, hid⟩
      cases hrun : C_file_restore R dec_buf (some name) (.ok arrivals) .start with
      | ok w' h =>
        obtain ⟨shared', hshared'⟩ := hread.ok hrun
        cases hshared.symm.trans hshared'
        exact ⟨w, h, rfl, hid⟩
      | error f h => cases hshared.symm.trans (hread.error hrun).2
  · have hne : front ≠ emit v := fun h => by
      obtain ⟨f, hf⟩ := hwhole.mp h
      exact hstopped f hf
    have hcut : outcome (C_mem_restore R front dec_buf) = .error :=
      stored_cut hR hv hfront hne (Nat.lt_succ_self _)
    cases hrun : C_file_restore R dec_buf (some name) (.ok arrivals) .start with
    | ok w h =>
      obtain ⟨shared, hshared⟩ := hread.ok hrun
      cases hcut.symm.trans hshared
    | error f h =>
      obtain ⟨⟨message, rfl⟩, -⟩ := hread.error hrun
      exact ⟨message, h, rfl⟩

/-- The file of a vector with names, which is read in two pieces. -/
def namedFile : List Arrival :=
  [.data ⟨(emit namedInteger).take 20, by decide +kernel⟩, .again,
    .data ⟨(emit namedInteger).drop 20, by decide +kernel⟩]

theorem file_round_trip_named :
    ((∃ w h, C_file_restore .unlimited [] (some (cstr [102])) (.ok namedFile) .start = .ok w h ∧
        Identical w namedInteger) ↔
      (∃ f, C_file_store .whole true namedInteger = .ok f) ∧
        ∀ x ∈ namedInteger.nodes, x.isRaw = false ∧ x.NativeStrings) ∧
    ((∀ f, C_file_store .whole true namedInteger ≠ .ok f) → ∃ message h,
      C_file_restore .unlimited [] (some (cstr [102])) (.ok namedFile) .start
        = .error (.rerror message) h) := by
  have hkept : (descriptor (C_file_store .whole true namedInteger)).Kept :=
    lost_eq_zero.mp (by decide +kernel)
  have hread : Carries ⟨namedFile, false⟩
      (descriptor (C_file_store .whole true namedInteger)).conn.out :=
    ⟨by simp [namedFile, Descriptor.Delivers], by decide +kernel⟩
  exact file_round_trip_iff (Runtime.unlimited_allocates _) storable_namedInteger
    plain_namedInteger hkept _ hread

end Handles
end Osrv
