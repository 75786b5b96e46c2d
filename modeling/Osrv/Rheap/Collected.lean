import Osrv.Rheap.Protected
import Osrv.Rheap.Quiet

/-!
# `sfs_load` is safe against garbage collection, but for a vector that is filled

`sfs_load` keeps the attributes on the protect stack until they are attached, so that the
loop over them looks at cells that are held, and comes to their end
(`ends_classLoop`). With the branches of `decode_one` this makes every load hand over an
object that is held, down to any depth (`protected_sfs_load`).

A load in which no piece of the elements of a vector arrives after a retry loses nothing
that is still used, and only such a load (`gc_safe_iff`).
-/

namespace Osrv
namespace Rheap

open Bytes Sfs Lib

variable {σ : Type} {S : Session} {m m₀ m' : Machine σ} {r : Ref}

/-! ### The attributes -/

/-- The loop over the attributes comes to the end of the cells, which are held. -/
theorem ends_classLoop {res c : Ref} {cs : List Ref} (h : Ok S False m)
    (hspine : Spine m.heap c cs) (hcells : ∀ c ∈ cs, Held S m c) (hres : Held S m res) (n : ℕ)
    (hn : cs.length < n) :
    Ends (classLoop res n c) m (fun _ m' => Ok S False m' ∧ Grows S m m' ∧
      m'.stack = m.stack ∧ ∀ x, Held S m x → Held S m' x) (Stopped S False) := by
  induction cs generalizing n m c with
  -- the end of the cells
  | nil =>
    obtain rfl : c = R_NilValue := hspine
    cases n with
    | zero => exact absurd hn (Nat.not_lt_zero _)
    | succ n => exact ⟨h, .refl S m, rfl, fun _ h => h⟩
  | cons d cs ih =>
    obtain ⟨rfl, lang, tag, car, cdr, hcell, hrest⟩ := hspine
    cases n with
    | zero => exact absurd hn (Nat.not_lt_zero _)
    | succ n =>
      -- a cell is not the end
      have hne : c ≠ R_NilValue := by
        rintro rfl
        rw [h.null] at hcell
        cases hcell
      have hc : Held S m c := hcells c (List.mem_cons_self ..)
      rw [classLoop, if_neg hne]
      refine (Ends.bind (ends_look h hc) (fun _ _ h => h) fun u m₁ h₁ => ?_ :
        Ends (TAG c) m (fun _ m' => Still S False m m') (Stopped S False)).bind (fun _ _ h => h)
        fun tag' m₁ h₁ => ?_
      · exact h₁.2
      split
      -- the class attribute: the flag is set and the loop is left
      · refine (ends_header h₁.ok (h₁.held hres) (f := fun o => { o with obj := true })
          (fun _ => rfl) ?_).mono
          (fun _ m₂ ⟨h₂, hg, hs, _, hheld⟩ => ?_) fun _ _ h => h
        · exact h₁.ok.closed res (h₁.held hres).1 _ (List.mem_cons_self ..)
        · exact ⟨h₂, h₁.grows.trans hg h, hs.trans h₁.stack, fun x hx => hheld x (h₁.held hx)⟩
      -- another attribute: on to the next cell
      · refine (Ends.bind (ends_look h₁.ok (h₁.held hc)) (fun _ _ h => h) fun u m₂ h₂ => ?_ :
          Ends (CDR c) m₁ (fun c' m' => c' = cdr ∧ Still S False m₁ m') (Stopped S False)).bind
          (fun _ _ h => h) fun c' m₂ ⟨hc', h₂⟩ => ?_
        · refine ⟨?_, h₂.2⟩
          rw [h₂.1, h₁.heap, hcell]
          rfl
        · have hstill : Still S False m m₂ := h₁.trans h₂
          rw [hc']
          refine (ih h₂.ok (hstill.heap ▸ hrest) (fun d hd => hstill.held (hcells d
            (List.mem_cons_of_mem _ hd))) (hstill.held hres) n (Nat.lt_of_succ_lt_succ hn)).mono
            (fun _ m₃ ⟨h₃, hg, hs, hheld⟩ => ?_) fun _ _ h => h
          exact ⟨h₃, hstill.grows.trans hg h, hs.trans hstill.stack,
            fun x hx => hheld x (hstill.held hx)⟩

/-- The attributes are attached and leave the stack. -/
theorem ends_setAttributes {hdr : ℕ} {attr res : Ref} {cs : List Ref} (h₀ : Ok S False m₀)
    (h : Ok S False m) (hg : Grows S m₀ m) (hstack : m.stack = attr :: m₀.stack)
    (hattr : Held S m attr) (hres : Held S m res) (hcells : Cells m₀ m attr cs) :
    Ends (setAttributes hdr attr res) m (fun _ m' => Yields S False m₀ res m')
      (Stopped S False) := by
  have hlog := h.logged (e := .attributed (hdr % 256) (hdr >>> 8) m.text) trivial
    (fun _ => Event.noConfusion) (fun _ => Event.noConfusion)
  show Ends (do
    log (.attributed (hdr % 256) (hdr >>> 8) m.text)
    classLoop res (m.heap.top + 1) attr
    PROTECT res
    SET_ATTRIB res attr
    UNPROTECT 2) m _ _
  refine Ends.bind (Q := fun _ => Still S False m) hlog (fun _ _ h => h) fun _ m₁ h₁ => ?_
  -- the cells that the loop runs through are reached from `attr`
  have hspine : Spine m₁.heap attr cs := h₁.heap ▸ hcells.spine
  have hheld : ∀ c ∈ cs, Held S m₁ c := fun c hc =>
    h₁.held (hattr.part h (hcells.spine.reaches hc))
  refine (ends_classLoop h₁.ok hspine hheld (h₁.held hres) _
    (Nat.lt_succ_of_le hcells.length_le)).bind (fun _ _ h => h)
    fun _ m₂ ⟨h₂, hg₂, hs₂, hheld₂⟩ => ?_
  have hres₂ : Held S m₂ res := hheld₂ res (h₁.held hres)
  refine (ends_PROTECT h₂ hres₂).bind (fun _ _ h => h) fun _ m₃ ⟨h₃, hg₃, hs₃, hh₃, hheld₃⟩ => ?_
  -- the attributes are still protected by the first call
  have hattr₃ : Held S m₃ attr := hheld₃ attr (hheld₂ attr (h₁.held hattr))
  refine Ends.bind (Q := fun _ m' => Ok S False m' ∧ Grows S m₃ m' ∧ m'.stack = m₃.stack ∧
    Held S m' res) ?_ (fun _ _ h => h) fun _ m₄ ⟨h₄, hg₄, hs₄, hres₄⟩ => ?_
  · refine (ends_use h₃ hattr₃).bind (fun _ _ h => h) fun _ m₄ h₄ => ?_
    refine (ends_header h₄.ok (h₄.held (hheld₃ res hres₂)) (f := fun o => { o with attrib := attr })
      (fun _ => rfl) (h₄.held hattr₃).1).mono (fun _ m₅ ⟨h₅, hg₅, hs₅, _, hheld₅⟩ => ?_)
      fun _ _ h => h
    exact ⟨h₅, h₄.grows.trans hg₅ h₃, hs₅.trans h₄.stack,
      hheld₅ res (h₄.held (hheld₃ res hres₂))⟩
  -- the stack is as it was with the two on top, which are taken off
  · have hstack₄ : m₄.stack = [res, attr] ++ m₀.stack := by
      rw [hs₄, hs₃, hs₂, h₁.stack, hstack]
      rfl
    refine (ends_UNPROTECT h₄ _ hstack₄ rfl).mono (fun _ m₅ ⟨h₅, hs₅, hh₅, ht₅⟩ => ?_)
      fun _ _ h => h
    have hg' : Grows S m₀ m₄ :=
      ((hg.trans h₁.grows h₀).trans hg₂ h₀).trans (hg₃.trans hg₄ h₂) h₀
    exact ⟨h₅, hg'.unprotect hh₅ ht₅ (hs₅ ▸ List.suffix_refl _), hs₅, hres₄.of_eq hh₅ ht₅⟩

section Load

variable (R : Runtime) (src : Source σ) {load : Act σ Ref} (hload : Protected S load)
include hload

/-- What the code has when the object itself is to be decoded: the attributes are protected,
unless there are none. -/
structure Prefix (S : Session) (m₀ : Machine σ) (attr : Ref) (m : Machine σ) : Prop where
  ok : Ok S False m
  grows : Grows S m₀ m
  stack : m.stack = if attr = R_NilValue then m₀.stack else attr :: m₀.stack
  held : Held S m attr
  cells : attr ≠ R_NilValue → ∃ cs, Cells m₀ m attr cs

omit hload in
/-- The attributes are on the stack, so that what comes next does not lose them. -/
theorem Prefix.held_grows {attr : Ref} (h : Prefix S m₀ attr m) (hne : attr ≠ R_NilValue)
    (hg : Grows S m m') : Held S m' attr := by
  refine h.held.grows hg h.ok (pinned_of_mem ?_)
  rw [h.stack, if_neg hne]
  exact List.mem_cons_self ..

theorem ends_loadPrefix (hdr : ℕ) (h₀ : Ok S False m₀) (h : Ok S False m) (hg : Grows S m₀ m)
    (hs : m.stack = m₀.stack) :
    Ends (loadPrefix R src load hdr) m (fun p m' => Prefix S m₀ p.1 m') (Stopped S False) := by
  unfold loadPrefix
  split
  -- the first record is that of the attributes
  · next hattr =>
    refine (ends_decode_one R src hload hdr h).bind (fun _ _ h => h)
      fun attr m₁ ⟨hy, hcells⟩ => ?_
    obtain ⟨cs, hcells⟩ := hcells hattr
    have hg₁ : Grows S m₀ m₁ := hg.trans hy.grows h₀
    have hcells₁ : Cells m₀ m₁ attr cs := ⟨hcells.spine, hcells.sorted,
      fun c hc => ⟨hg.top.trans (hcells.new c hc).1, (hcells.new c hc).2⟩⟩
    refine Ends.bind (Q := fun _ => Prefix S m₀ attr) ?_ (fun _ _ h => h) fun _ m₂ h₂ => ?_
    · split
      -- they are protected
      · next hne =>
        refine (ends_PROTECT hy.ok hy.held).mono (fun _ m₂ ⟨h₂, hg₂, hs₂, _, hheld⟩ => ?_)
          fun _ _ h => h
        refine ⟨h₂, hg₁.trans hg₂ h₀, ?_, hheld attr hy.held, fun _ => ⟨cs, hcells₁.grows hg₂⟩⟩
        rw [if_neg hne, hs₂, hy.stack, hs]
      -- there are none
      · next heq =>
        refine ⟨hy.ok, hg₁, ?_, hy.held, fun hne => absurd hne heq⟩
        rw [if_pos (not_not.mp heq), hy.stack, hs]
    -- the second header
    · refine (ends_fetchHdr src h₂.ok).bind (fun _ _ h => h) fun hdr' m₃ ⟨h₃, hg₃, hs₃, _⟩ => ?_
      refine ⟨h₃, h₂.grows.trans hg₃ h₀, hs₃.trans h₂.stack, ?_, fun hne => ?_⟩
      · show Held S m₃ attr
        obtain rfl | hne := eq_or_ne attr R_NilValue
        · exact h₃.held_nil
        · exact h₂.held_grows hne hg₃
      · obtain ⟨cs, hcells⟩ := h₂.cells hne
        exact ⟨cs, hcells.grows hg₃⟩
  -- the first header is that of the object
  · exact ⟨h, hg, hs.trans (if_pos rfl).symm, h.held_nil, fun hne => absurd rfl hne⟩

/-- One level of `sfs_load`. -/
theorem protected_loadBody : Protected S (loadBody R src load) := by
  intro m₀ h₀
  refine (ends_fetchHdr src h₀).bind (fun _ _ h => h) fun hdr m₁ ⟨h₁, hg₁, hs₁, _⟩ => ?_
  refine (ends_loadPrefix R src hload hdr h₀ h₁ hg₁ hs₁).bind (fun _ _ h => h)
    fun ⟨attr, hdr'⟩ m₂ h₂ => ?_
  refine (ends_decode_one R src hload hdr' h₂.ok).bind (fun _ _ h => h) fun res m₃ ⟨hy, _⟩ => ?_
  refine Ends.bind (Q := fun _ m' => Yields S False m₀ res m') ?_ (fun _ _ h => h)
    fun _ m₄ h₄ => ?_
  · split
    -- the attributes are given to the object
    · next hne =>
      have hattr : Held S m₃ attr := h₂.held_grows hne hy.grows
      obtain ⟨cs, hcells⟩ := h₂.cells hne
      refine ends_setAttributes h₀ hy.ok (h₂.grows.trans hy.grows h₀) ?_ hattr hy.held
        (hcells.grows hy.grows)
      rw [hy.stack, h₂.stack]
      exact if_neg hne
    -- there are none
    · next heq =>
      refine ⟨hy.ok, h₂.grows.trans hy.grows h₀, ?_, hy.held⟩
      rw [hy.stack, h₂.stack]
      exact if_pos (not_not.mp heq)
  · refine (ends_use h₄.ok h₄.held).bind (fun _ _ h => h) fun _ m₅ h₅ => ?_
    exact ⟨h₅.ok, h₄.grows.trans h₅.grows h₀, h₅.stack.trans h₄.stack, h₅.held h₄.held⟩

end Load

/-- **Every load** hands over an object that is held, or stops. -/
theorem protected_sfs_load (R : Runtime) (src : Source σ) (depth : ℕ) :
    Protected S (sfs_load R src depth) := by
  induction depth with
  | zero => exact fun m h => h.stopped Stop.noConfusion
  | succ depth ih => exact protected_loadBody R src ih

theorem Session.ok_start (S : Session) (s : σ) (dec_buf : List UInt8) :
    Ok S False (Machine.start S s dec_buf) where
  base := Nat.le_refl _
  closed := S.closed
  old r hr q hq := S.closed r hr q (parts_subset _ r hq)
  null := S.null
  stack := S.protected_lt
  interned k s r h := ⟨S.interned_lt k s r h, S.named k s r h⟩
  lost _ h := absurd h not_lost_nil
  settled := by
    refine Or.inr (iff_of_true (fun ps hps => ?_) safe_nil)
    cases hps

/-- A trace loses nothing in use when no piece of the elements of a vector arrives after a
retry, and only then. -/
theorem settled_sfs_load (S : Session) (R : Runtime) (src : Source σ) (s : σ)
    (dec_buf : List UInt8) (depth : ℕ) :
    Steady (endState (sfs_load R src depth (.start S s dec_buf))).trace ↔
      Uncollected S.heap.top (endState (sfs_load R src depth (.start S s dec_buf))).trace := by
  have hends := protected_sfs_load R src depth _ (S.ok_start s dec_buf)
  rw [uncollected_iff]
  cases hrun : sfs_load R src depth (.start S s dec_buf) with
  | ok v m => exact (hends.ok hrun).ok.settled.resolve_left id
  | error e m => exact (hends.error hrun).2.resolve_left id

/-- **Decoding and garbage collection.** Let R collect wherever it may, and keep what is
reachable from its protect stack. A load over any callback keeps every object it has made
and still uses, and leaves the protect stack as deep as it was when it returns, exactly when
no piece of the elements of an integer, logical, double or complex vector arrives after a
retry in the same call of `fetch`. -/
theorem gc_safe_iff (S : Session) (R : Runtime) (src : Source σ) (s : σ) (dec_buf : List UInt8)
    (depth : ℕ) :
    (Uncollected S.heap.top (endState (sfs_load R src depth (.start S s dec_buf))).trace ∧
        ∀ v m, sfs_load R src depth (.start S s dec_buf) = .ok v m →
          m.stack.length = S.stack.length) ↔
      ∀ ps, .elements ps ∈ (endState (sfs_load R src depth (.start S s dec_buf))).trace →
        ¬ LatePiece ps := by
  refine (and_iff_left fun v m hrun => ?_).trans (settled_sfs_load ..).symm
  have hy : Yields S False (.start S s dec_buf) v m :=
    (protected_sfs_load R src depth _ (S.ok_start s dec_buf)).ok hrun
  exact congrArg List.length hy.stack

/-! ### A retry in an integer vector -/

/-- The trace of a load of one integer that arrives after a retry. -/
theorem elements_mem_trace (src : Source σ) {s₀ s₁ s₂ : σ} {bs : List UInt8}
    (dec_buf : List UInt8)
    (hfirst : src.fetch s₀ 8 = ⟨[.bytes [13, 1, 0, 0, 0, 0, 0, 0]], none, s₁⟩)
    (hsecond : src.fetch s₁ 4 = ⟨[.check, .bytes bs], none, s₂⟩) :
    .elements [.check, .bytes bs] ∈
      (endState (sfs_load .ample src 1 (.start .bare s₀ dec_buf))).trace := by
  let m₀ : Machine σ := .start .bare s₀ dec_buf
  let m₁ : Machine σ := { m₀ with api := s₁, trace := [.header] }
  let m₂ : Machine σ :=
    { m₁ with
      api := s₂
      heap := m₁.heap.push (vector .INTSXP 1).fresh
      trace := [.elements [.check, .bytes bs], .fetch 4 1 4 4, .collect [] m₁.heap, .header] }
  -- the header is received at once
  have hhdr : fetchHdr src m₀ = .ok 269 m₁ := by
    show (finish (fun _ _ => pure ()) (src.fetch s₀ 8) >>= fun bs => pure (leVal bs))
      { m₀ with api := (src.fetch s₀ 8).state, trace := [.header] } = _
    rw [hfirst]
    rfl
  -- the vector is made and the integer is asked for
  have hdec : decode_one .ample src (sfs_load .ample src 0) 269 m₁ =
      ((finish (writeElements 7) ⟨[.check, .bytes bs], none, s₂⟩ >>= fun _ => pure ()) >>=
        fun _ => pure 7 : Act σ Ref) m₂ := by
    show ((finish (writeElements 7) (src.fetch s₁ 4) >>= fun _ => pure ()) >>=
        fun _ => pure 7 : Act σ Ref)
      { m₁ with
        api := (src.fetch s₁ 4).state
        heap := m₁.heap.push (vector .INTSXP 1).fresh
        trace := [.elements (src.fetch s₁ 4).pieces, .fetch 4 1 4 4, .collect [] m₁.heap,
          .header] } = _
    rw [hsecond]
  have hrun : Ends (sfs_load .ample src 1) m₀
      (fun _ m => .elements [.check, .bytes bs] ∈ m.trace) fun _ _ => False := by
    show Ends (fetchHdr src >>= _) m₀ _ _
    rw [ends_bind, Ends, hhdr]
    show Ends (decode_one .ample src (sfs_load .ample src 0) 269 >>= _) m₁ _ _
    rw [ends_bind, Ends, hdec]
    -- a collection, two events for the element and one for the vector that is returned
    exact List.mem_cons_of_mem _ (List.mem_cons_of_mem _ (List.mem_cons_of_mem _
      (List.mem_cons_of_mem _ (List.mem_cons_self ..))))
  cases hend : sfs_load .ample src 1 m₀ with
  | ok v m => exact hrun.ok hend
  | error e m => exact (hrun.error hend).elim

/-- The header of an integer vector of length one, nothing for a while, and the integer. -/
def lateInteger : Descriptor where
  arrivals := [.data ⟨[13, 1, 0, 0, 0, 0, 0, 0], by decide⟩, .again,
    .data ⟨[1, 0, 0, 0], by decide⟩]
  closed := false

/-- The integer is written to a vector that R can have collected. -/
theorem gc_unsafe_lateInteger :
    ¬ Uncollected Session.bare.heap.top (endState (sfs_load .ample Fd.fetch 1
      (.start .bare lateInteger (List.replicate sizeofDecBuf 0)))).trace := by
  have hfirst : Fd.fetch.fetch lateInteger 8 =
      ⟨[.bytes [13, 1, 0, 0, 0, 0, 0, 0]], none,
        ⟨[.again, .data ⟨[1, 0, 0, 0], by decide⟩], false⟩⟩ := by
    simp [Fd.fetch, recvSource, recvAnswer, Sfs.Fd.MAX_RECV_SIZE, need, lateInteger, putBack,
      Answer.cons]
  have hsecond : Fd.fetch.fetch ⟨[.again, .data ⟨[1, 0, 0, 0], by decide⟩], false⟩ 4 =
      ⟨[.check, .bytes [1, 0, 0, 0]], none, ⟨[], false⟩⟩ := by
    simp [Fd.fetch, recvSource, recvAnswer, Sfs.Fd.MAX_RECV_SIZE, need, putBack, Answer.cons]
  rw [← settled_sfs_load]
  intro hsteady
  exact hsteady _ (elements_mem_trace Fd.fetch _ hfirst hsecond)
    ⟨[], [.bytes [1, 0, 0, 0]], [1, 0, 0, 0], rfl, List.mem_singleton_self _⟩

end Rheap
end Osrv
