import Osrv.Lib.Ends
import Osrv.Sfs.Load

/-!
# Reading from memory

Rules for the decoder over `fetch_buf`. `Reads x a input noise` says that the
step `x`, whenever the unread bytes begin with `input`, consumes exactly
`input`, returns `a` and adds the warnings `noise`. It leaves everything else
but `dec_buf` alone. `Rejects x input` says that it raises an error there.

Both hold with any suffix behind `input`, so they compose along `do` blocks
(`Reads.bind`, `Rejects.bind`, `Rejects.after`), and a load of a whole value is
put together from the loads of its records.
-/

namespace Osrv
namespace Sfs

open Bytes Lib

variable {α β : Type}

/-- The step consumes `input`, returns `a` and warns `noise`. -/
def Reads (x : Load (List UInt8) α) (a : α) (input : List UInt8) (noise : List String) : Prop :=
  ∀ (st : Decoder (List UInt8)) (suffix : List UInt8), st.api = input ++ suffix →
    ∃ db, x st = .ok a
      { st with api := suffix, dec_buf := db, warnings := st.warnings ++ noise }

/-- The step raises an error when the unread bytes begin with `input`. -/
def Rejects (x : Load (List UInt8) α) (input : List UInt8) : Prop :=
  ∀ (st : Decoder (List UInt8)) (suffix : List UInt8), st.api = input ++ suffix →
    ∃ e st', x st = .error (.rerror e) st'

/-! ### Composition -/

theorem Reads.pure (a : α) : Reads (pure a) a [] [] := by
  intro st suffix h
  refine ⟨st.dec_buf, ?_⟩
  change EStateM.Result.ok a st = _
  rw [List.append_nil, show suffix = st.api from by rw [h]; rfl]

theorem Reads.bind {x : Load (List UInt8) α} {f : α → Load (List UInt8) β} {a : α} {b : β}
    {i j : List UInt8} {m n : List String} (hx : Reads x a i m) (hf : Reads (f a) b j n) :
    Reads (x >>= f) b (i ++ j) (m ++ n) := by
  intro st suffix h
  obtain ⟨db, hdb⟩ := hx st (j ++ suffix) (by rw [h, List.append_assoc])
  let st' : Decoder (List UInt8) :=
    { st with api := j ++ suffix, dec_buf := db, warnings := st.warnings ++ m }
  obtain ⟨db', hdb'⟩ := hf st' suffix rfl
  exact ⟨db', by rw [bind_ok hdb, hdb', List.append_assoc]⟩

/-- A step after which the result is returned, possibly wrapped. -/
theorem Reads.map {x : Load (List UInt8) α} {a : α} {i : List UInt8} {m : List String}
    (hx : Reads x a i m) (f : α → β) : Reads (x >>= fun a => Pure.pure (f a)) (f a) i m := by
  have h := hx.bind (f := fun a => Pure.pure (f a)) (Reads.pure (f a))
  rwa [List.append_nil, List.append_nil] at h

theorem Rejects.bind {x : Load (List UInt8) α} {f : α → Load (List UInt8) β} {i : List UInt8}
    (hx : Rejects x i) (j : List UInt8) : Rejects (x >>= f) (i ++ j) := by
  intro st suffix h
  obtain ⟨e, st', he⟩ := hx st (j ++ suffix) (by rw [h, List.append_assoc])
  exact ⟨e, st', bind_error he⟩

/-- A step that succeeds before one that raises. -/
theorem Rejects.after {x : Load (List UInt8) α} {f : α → Load (List UInt8) β} {a : α}
    {i j : List UInt8} {m : List String} (hx : Reads x a i m) (hf : Rejects (f a) j) :
    Rejects (x >>= f) (i ++ j) := by
  intro st suffix h
  obtain ⟨db, hdb⟩ := hx st (j ++ suffix) (by rw [h, List.append_assoc])
  let st₁ : Decoder (List UInt8) :=
    { st with api := j ++ suffix, dec_buf := db, warnings := st.warnings ++ m }
  obtain ⟨e, st', he⟩ := hf st₁ suffix rfl
  exact ⟨e, st', by rw [bind_ok hdb, he]⟩

/-! ### Reads of memory -/

theorem reads_fetch {bs : List UInt8} {len : ℕ} (h : bs.length = len) :
    Reads (fetch fetch_buf len) bs bs [] := by
  intro st suffix hapi
  have hge : ¬ (bs ++ suffix).length < len := by simp [h]
  refine ⟨st.dec_buf, ?_⟩
  simp only [fetch, fetch_buf, hapi, if_neg hge, List.append_nil, List.take_left' h,
    List.drop_left' h]

theorem reads_fetchHdr {h : ℕ} (hlt : h < 2 ^ 64) : Reads (fetchHdr fetch_buf) h (le 8 h) [] := by
  have hval : leVal (le 8 h) = h := leVal_le_of_lt (by simpa using hlt)
  have hf := (reads_fetch (length_le 8 h)).map leVal
  rwa [hval] at hf

theorem reads_allocVector {R : Runtime} {t : SexpType} {len : ℕ}
    (h : R.allocVector t len = true) : Reads (allocVector R t len) () [] [] := by
  have he : allocVector R t len = (Pure.pure () : Load (List UInt8) Unit) := if_pos h
  rw [he]
  exact Reads.pure ()

/-- A terminated string shorter than `dec_buf` is read back from it, whatever
the buffer held before. -/
theorem reads_decodeText {R : Runtime} {s : CString} {err : ℕ → RError}
    (h : s.length + 1 < sizeofDecBuf) :
    Reads (decodeText R fetch_buf err (s.length + 1)) s s.terminated [] := by
  intro st suffix hapi
  have hlen : s.terminated.length = s.length + 1 := s.length_terminated
  have hge : ¬ (s.terminated ++ suffix).length < s.length + 1 := by
    rw [List.length_append, hlen]
    omega
  let db := s.terminated ++ st.dec_buf.drop s.terminated.length
  have hfetch : fetchDecBuf fetch_buf (s.length + 1) st =
      .ok () { st with api := suffix, dec_buf := db } := by
    simp only [fetchDecBuf, fetch_buf, hapi, if_neg hge, List.take_left' hlen,
      List.drop_left' hlen, db]
  refine ⟨db, ?_⟩
  rw [decodeText, if_pos h, bind_ok hfetch]
  change EStateM.Result.ok (cstr db) _ = _
  rw [cstr_terminated, List.append_nil]

end Sfs
end Osrv
