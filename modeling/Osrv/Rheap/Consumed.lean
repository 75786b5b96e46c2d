import Osrv.Rheap.Collected
import Osrv.Rheap.Walk

/-!
# Decoding ends

The lengths in a stream say nothing about how much there is behind them, and a record may
consist of its header alone. What bounds a load from memory is that every record reads a
header: the bytes that are unread, with eight for every header that has been requested, are
never more than the stream has (`Unread`). So the nesting of loads is bounded by the length
of the stream. A load with a larger bound on the nesting does the same as one that does not
reach its bound (`deepens_sfs_load`), and a load from memory comes to a value or to an error
of R (`load_terminates`).
-/

namespace Osrv
namespace Rheap

open Bytes Sfs Lib

variable {bytes : List UInt8} {k : ℕ} {m : Machine (List UInt8)}

/-! ### The bound on the nesting -/

section Deepens

variable {σ α β : Type}

/-- `y` does what `x` does, unless `x` reaches the bound on the nesting. -/
def Deepens (x y : Act σ α) : Prop := ∀ m, x m = y m ∨ ∃ m', x m = .error .tooDeep m'

theorem Deepens.refl (x : Act σ α) : Deepens x x := fun _ => Or.inl rfl

theorem Deepens.bind {x y : Act σ α} {f g : α → Act σ β} (hx : Deepens x y)
    (hf : ∀ a, Deepens (f a) (g a)) : Deepens (x >>= f) (y >>= g) := by
  intro m
  show EStateM.bind x f m = EStateM.bind y g m ∨ ∃ m', EStateM.bind x f m = _
  unfold EStateM.bind
  obtain heq | ⟨m', hdeep⟩ := hx m
  · rw [← heq]
    cases x m with
    | ok a m₁ => exact hf a m₁
    | error e m₁ => exact Or.inl rfl
  · rw [hdeep]
    exact Or.inr ⟨m', rfl⟩

theorem Deepens.trans {x y z : Act σ α} (h : Deepens x y) (h' : Deepens y z) : Deepens x z := by
  intro m
  obtain heq | hdeep := h m
  · rw [heq]
    exact h' m
  · exact Or.inr hdeep

variable (R : Runtime) (src : Source σ) {load load' : Act σ Ref} (hload : Deepens load load')
include hload

theorem deepens_decodeElts (t : SexpType) (set : Ref → ℕ → Ref → Act σ Unit) (len : ℕ) :
    Deepens (decodeElts R load t set len) (decodeElts R load' t set len) := by
  have hloop : ∀ res i n, Deepens (eltLoop load set res i n) (eltLoop load' set res i n) := by
    intro res i n
    induction n generalizing i with
    | zero => exact .refl _
    | succ n ih => exact hload.bind fun v => (Deepens.refl (set res i v)).bind fun _ => ih (i + 1)
  exact (Deepens.refl _).bind fun res => (Deepens.refl _).bind fun _ =>
    (hloop res 0 len).bind fun _ => .refl _

theorem deepens_decodeClosure : Deepens (decodeClosure R load) (decodeClosure R load') := by
  have hfield : ∀ set res, Deepens (closureField load set res) (closureField load' set res) :=
    fun set res => hload.bind fun v => .refl _
  exact (Deepens.refl _).bind fun res => (Deepens.refl _).bind fun _ =>
    (hfield _ res).bind fun _ => (hfield _ res).bind fun _ => (hfield _ res).bind fun _ => .refl _

theorem deepens_decodeCell (lang : Bool) :
    Deepens (decodeCell R load lang) (decodeCell R load' lang) :=
  hload.bind fun _ => (Deepens.refl _).bind fun _ => hload.bind fun _ => .refl _

theorem deepens_decodeCells (lang : Bool) (len : ℕ) :
    Deepens (decodeCells R load lang len) (decodeCells R load' lang len) := by
  cases len with
  | zero => exact .refl _
  | succ n =>
    have hloop : ∀ last, Deepens (cellLoop R load lang last n) (cellLoop R load' lang last n) := by
      induction n with
      | zero => exact fun _ => .refl _
      | succ n ih =>
        intro last
        exact (deepens_decodeCell R hload lang).bind fun x => (Deepens.refl _).bind fun _ =>
          (Deepens.refl _).bind fun _ => ih x
    exact (deepens_decodeCell R hload lang).bind fun res => (hloop res).bind fun _ => .refl _

theorem deepens_decode_one (hdr : ℕ) :
    Deepens (decode_one R src load hdr) (decode_one R src load' hdr) := by
  unfold decode_one decodeSwitch
  split
  case h_7 | h_8 => exact deepens_decodeElts R hload _ _ _
  case h_10 => exact deepens_decodeClosure R hload
  case h_11 | h_12 | h_13 => exact deepens_decodeCells R hload _ _
  all_goals exact .refl _

theorem deepens_loadBody : Deepens (loadBody R src load) (loadBody R src load') := by
  refine (Deepens.refl _).bind fun hdr => Deepens.bind ?_ fun p =>
    (deepens_decode_one R src hload p.2).bind fun res => .refl _
  unfold loadPrefix
  split
  · exact (deepens_decode_one R src hload hdr).bind fun attr => .refl _
  · exact .refl _

omit hload in
/-- **A larger bound on the nesting** changes nothing in a load that does not reach its own. -/
theorem deepens_sfs_load (depth more : ℕ) :
    Deepens (sfs_load R src depth) (sfs_load R src (depth + more)) := by
  have hstep : ∀ depth, Deepens (sfs_load R src depth) (sfs_load R src (depth + 1)) := by
    intro depth
    induction depth with
    | zero => exact fun m => Or.inr ⟨m, rfl⟩
    | succ depth ih => exact deepens_loadBody R src ih
  induction more with
  | zero => exact .refl _
  | succ more ih => exact ih.trans (hstep (depth + more))

end Deepens

/-! ### The bytes that are unread -/

def Event.isHeader : Event → Bool
  | .header => true
  | _ => false

/-- How many headers have been requested. -/
def headers (trace : List Event) : ℕ := trace.countP Event.isHeader

/-- In a load of `bytes` no more than `k` are unread, and all others have been read, eight of
them for each header. -/
structure Unread (bytes : List UInt8) (k : ℕ) (m : Machine (List UInt8)) : Prop where
  suffix : m.api <:+ bytes
  count : 8 * headers m.trace + m.api.length ≤ bytes.length
  le : m.api.length ≤ k

/-- The load has stopped, with at most one header more than there can be. -/
structure Halted (bytes : List UInt8) (e : Stop) (m : Machine (List UInt8)) : Prop where
  shallow : e ≠ .tooDeep
  suffix : m.api <:+ bytes
  count : headers m.trace ≤ bytes.length / 8 + 1

theorem Unread.halted (h : Unread bytes k m) {e : Stop} (he : e ≠ .tooDeep) : Halted bytes e m := by
  refine ⟨he, h.suffix, ?_⟩
  have hcount := h.count
  omega

theorem headers_cons (e : Event) (es : List Event) :
    headers (e :: es) = headers es + if e.isHeader then 1 else 0 := List.countP_cons

theorem Unread.quiet {m' : Machine (List UInt8)} (hq : Quiet m m') (h : Unread bytes k m) :
    Unread bytes k m' := by
  obtain ⟨es, htrace, hes⟩ := hq.trace
  have hnone : headers es = 0 := by
    refine List.countP_eq_zero.mpr fun e he hhdr => ?_
    have hr := hes e he
    cases e with
    | header => exact hr
    | _ => cases hhdr
  have hsame : headers m'.trace = headers m.trace := by
    rw [htrace, headers, List.countP_append]
    exact (congrArg (· + headers m.trace) hnone).trans (Nat.zero_add _)
  refine ⟨hq.api ▸ h.suffix, ?_, hq.api ▸ h.le⟩
  rw [hsame, hq.api]
  exact h.count

/-- An event that is not a header. -/
theorem Unread.log (h : Unread bytes k m) {e : Event} (he : e.isHeader = false) :
    Unread bytes k { m with trace := e :: m.trace } := by
  refine ⟨h.suffix, ?_, h.le⟩
  show 8 * headers (e :: m.trace) + _ ≤ _
  rw [headers_cons, he]
  exact h.count

/-- Bytes are read from the front. -/
theorem Unread.drop (h : Unread bytes k m) (n : ℕ) :
    Unread bytes k { m with api := m.api.drop n } := by
  refine ⟨(List.drop_suffix n _).trans h.suffix, ?_, ?_⟩
  · have hcount := h.count
    show 8 * headers m.trace + (m.api.drop n).length ≤ _
    rw [List.length_drop]
    omega
  · show (m.api.drop n).length ≤ k
    rw [List.length_drop]
    exact (Nat.sub_le _ _).trans h.le

/-! ### Reading from memory -/

abbrev KeepsUnread {α : Type} (bytes : List UInt8) (k : ℕ) (x : Act (List UInt8) α) : Prop :=
  Keeps (Unread bytes k) (Halted bytes) x

theorem QuietAct.unread {α : Type} {x : Act (List UInt8) α} (hx : QuietAct x) :
    KeepsUnread bytes k x :=
  hx.keeps (fun _ _ => Unread.quiet) fun _ _ h he => h.halted he

/-- A fetch from memory. -/
theorem keeps_fetch {sink : ℕ → List UInt8 → Act (List UInt8) Unit}
    (hsink : ∀ i bs, KeepsUnread bytes k (sink i bs)) (n : ℕ) :
    KeepsUnread bytes k (fetch Mem.fetch n sink) := by
  intro m h
  show Ends (finish sink (Mem.answer m.api n)) { m with api := (Mem.answer m.api n).state } _ _
  obtain hshort | hfull := Nat.lt_or_ge m.api.length n
  · rw [Mem.answer_short hshort]
    exact h.halted Stop.noConfusion
  · rw [Mem.answer_full hfull]
    have hpiece : KeepsUnread bytes k (sink 0 (m.api.take n) >>= fun _ => pure ()) :=
      (hsink 0 _).bind fun _ => .pure _
    exact (hpiece _ (h.drop n)).bind (fun _ _ h => h) fun _ _ h => h

variable (R : Runtime)

/-- A header takes eight bytes. -/
theorem ends_fetchHdr_mem (h : Unread bytes k m) :
    Ends (fetchHdr Mem.fetch) m (fun hdr m' => (8 ≤ k ∧ Unread bytes (k - 8) m') ∧ hdr < 2 ^ 64)
      (Halted bytes) := by
  have hcount := h.count
  have hk := h.le
  let m₁ : Machine (List UInt8) := { m with trace := .header :: m.trace }
  have hheaders : headers m₁.trace = headers m.trace + 1 := headers_cons _ _
  show Ends (finish (fun _ _ => pure ()) (Mem.answer m.api 8) >>= fun bs => pure (leVal bs))
    { m₁ with api := (Mem.answer m.api 8).state } _ _
  -- a header that is not there as a whole is an error
  obtain hshort | hfull := Nat.lt_or_ge m.api.length 8
  · rw [Mem.answer_short hshort]
    refine ⟨Stop.noConfusion, h.suffix, ?_⟩
    show headers m₁.trace ≤ _
    omega
  · rw [Mem.answer_full hfull]
    have hlength : (m.api.drop 8).length = m.api.length - 8 := List.length_drop
    refine ⟨⟨hfull.trans hk, (List.drop_suffix 8 _).trans h.suffix, ?_, ?_⟩, ?_⟩
    · show 8 * headers m₁.trace + (m.api.drop 8).length ≤ _
      omega
    · show (m.api.drop 8).length ≤ k - 8
      omega
    · have hlt := leVal_lt (m.api.take 8 ++ [])
      rw [List.append_nil, List.length_take_of_le hfull] at hlt
      show leVal (m.api.take 8 ++ []) < 2 ^ 64
      rwa [List.append_nil]

theorem keeps_decodeAtoms_mem (t : AtomType) (len : ℕ) :
    KeepsUnread bytes k (decodeAtoms R Mem.fetch t len) := by
  refine (quiet_allocVector R t.type len).unread.bind fun res => Keeps.bind ?_ fun _ => .pure res
  have hfetch : KeepsUnread bytes k (do
      let _ ← fetch Mem.fetch (byteCount t len) (writeElements res)
      pure ()) :=
    (keeps_fetch (fun _ _ => (quiet_change res _).unread) _).bind fun _ => .pure _
  exact fun m h => hfetch _ ((h.log (e := .fetch ..) rfl).log (e := .elements _) rfl)

theorem keeps_decodeText_mem (noMemory : ℕ → RError) (len : ℕ) :
    KeepsUnread bytes k (decodeText R Mem.fetch noMemory len) := by
  refine .ite ?_ ?_
  · have hwrite : ∀ i bs, KeepsUnread bytes k (writeDecBuf i bs) := fun i bs m h =>
      ⟨h.suffix, h.count, h.le⟩
    have hfetch : KeepsUnread bytes k (do
        let _ ← fetch Mem.fetch len writeDecBuf
        pure ()) := (keeps_fetch hwrite len).bind fun _ => .pure _
    refine Keeps.bind (fun m h => hfetch _ (h.log (e := .fetch ..) rfl)) fun _ _ h => ?_
    exact h.log (e := .scan _) rfl
  · refine (quiet_malloc R len).unread.bind fun buf => ?_
    cases buf with
    | none => exact (quiet_rf_error _).unread
    | some buf => exact .pure _

theorem reader_unread (bytes : List UInt8) (k : ℕ) :
    Reader R Mem.fetch (Unread bytes k) (Halted bytes) where
  quiet _ _ := Unread.quiet
  stop _ _ h he := h.halted he
  header _ h := (ends_fetchHdr_mem h).mono
    (fun _ _ h => ⟨⟨h.1.2.suffix, h.1.2.count, h.1.2.le.trans (Nat.sub_le _ _)⟩, h.2⟩)
    fun _ _ h => h
  atoms t len _ := keeps_decodeAtoms_mem R t len
  text noMemory len _ := keeps_decodeText_mem R noMemory len

/-- A load of no more bytes than eight for each level of nesting does not reach the bound. -/
theorem keeps_sfs_load_mem (depth : ℕ) (hk : k / 8 < depth) :
    KeepsUnread bytes k (sfs_load R Mem.fetch depth) := by
  induction depth generalizing k with
  | zero => exact absurd hk (Nat.not_lt_zero _)
  | succ depth ih =>
    intro m h
    refine (ends_fetchHdr_mem h).bind (fun _ _ h => h) fun hdr m₁ ⟨⟨hle, h₁⟩, hhdr⟩ => ?_
    -- the loads inside have eight bytes less
    have hinner : KeepsUnread bytes (k - 8) (sfs_load R Mem.fetch depth) := ih (by omega)
    refine ((reader_unread R bytes (k - 8)).afterHdr hinner hhdr m₁ h₁).mono
      (fun _ _ h₂ => ⟨h₂.suffix, h₂.count, h₂.le.trans (Nat.sub_le _ _)⟩) fun _ _ h => h

/-- **Decoding terminates.** A load of any bytes from memory comes to a value or to an error
of R, the same for every bound on the nesting from an eighth of their number on. At most one
header is requested for eight bytes, and one more, and what is unread at the end is a rest of
the bytes. -/
theorem load_terminates (S : Session) (bytes dec_buf : List UInt8) :
    ∃ result, (∀ more, sfs_load R Mem.fetch (bytes.length / 8 + 1 + more)
        (.start S bytes dec_buf) = result) ∧
      ((∃ v m, result = .ok v m) ∨ (∃ e m, result = .error (.rerror e) m) ∨
        ∃ m, result = .error .memory m) ∧
      headers (endState result).trace ≤ bytes.length / 8 + 1 ∧
      (endState result).api <:+ bytes := by
  have hstart : Unread bytes bytes.length (.start S bytes dec_buf) :=
    ⟨List.suffix_refl _, (Nat.zero_add _).le, Nat.le_refl _⟩
  -- the headers of each level take eight bytes, which bounds the depth
  have hunread := keeps_sfs_load_mem R (bytes.length / 8 + 1) (Nat.lt_succ_self _) _ hstart
  have hprotected := protected_sfs_load R Mem.fetch (bytes.length / 8 + 1) _
    (S.ok_start bytes dec_buf)
  refine ⟨sfs_load R Mem.fetch (bytes.length / 8 + 1) (.start S bytes dec_buf), fun more => ?_, ?_⟩
  -- a larger bound on the depth changes nothing but the error of the bound
  · obtain heq | ⟨m, hdeep⟩ := deepens_sfs_load R Mem.fetch (bytes.length / 8 + 1) more
      (.start S bytes dec_buf)
    · exact heq.symm
    · exact absurd rfl (hunread.error hdeep).shallow
  -- neither that error nor an endless loop is the result
  · cases hrun : sfs_load R Mem.fetch (bytes.length / 8 + 1) (.start S bytes dec_buf) with
    | ok v m =>
      have h : Unread bytes bytes.length m := hunread.ok hrun
      have hcount := h.count
      exact ⟨Or.inl ⟨v, m, rfl⟩, by show headers m.trace ≤ _; omega, h.suffix⟩
    | error e m =>
      have h : Halted bytes e m := hunread.error hrun
      refine ⟨Or.inr ?_, h.count, h.suffix⟩
      cases e with
      | rerror e => exact Or.inl ⟨e, m, rfl⟩
      | memory => exact Or.inr ⟨m, rfl⟩
      | tooDeep => exact absurd rfl h.shallow
      | spins => exact absurd rfl (hprotected.error hrun).1

end Rheap
end Osrv
