import Osrv.Rheap.Calls
import Osrv.Rheap.Decode

/-!
# The elements of a vector

A vector of plain memory is not protected while its elements are fetched. If no piece of
them arrives after a retry, nothing has been lost when the vector is returned. If one does,
R may have collected the vector that it is written to (`unsafe_late`), and nothing more
is known of the vector than its reference (`ends_decodeAtoms`).
-/

namespace Osrv
namespace Rheap

open Bytes Sfs Lib

variable {σ : Type} {S : Session} {P : Prop} {m m₀ m' : Machine σ} {r : Ref}

/-! ### The elements of a vector -/

section Elements

variable {i : ℕ} {ps : List Piece}

theorem Safe.of_suffix {base : Ref} {es es' : List Event} (h : es <:+ es') (hes : Safe base es') :
    Safe base es := by
  obtain ⟨ds, rfl⟩ := h
  intro later es'' r heq
  exact hes (ds ++ later) es'' r (by rw [heq, List.append_assoc])

/-- The trace goes on, and every piece is written. -/
theorem receive_trace (r : Ref) (i : ℕ) (ps : List Piece) (m : Machine σ) :
    Ends (receive (writeElements r) i ps) m (fun _ m' => m.trace <:+ m'.trace)
      fun _ _ => False := by
  induction ps generalizing m i with
  | nil => exact List.suffix_refl _
  | cons p ps ih =>
    cases p with
    | bytes bs =>
      refine (ih _ { m with
        heap := m.heap.change r fun o => { o with contents := o.contents.write i bs }
        trace := .modify r :: .use r :: m.trace }).mono (fun _ _ h => ?_) fun _ _ h => h
      exact ((List.suffix_cons _ _).trans (List.suffix_cons _ _)).trans h
    | check =>
      refine (ih i { m with trace := .collect m.stack m.heap :: m.trace }).mono (fun _ _ h => ?_)
        fun _ _ h => h
      exact (List.suffix_cons _ _).trans h

/-- Only retries, up to the end of the call. -/
theorem ends_waits {sink : ℕ → List UInt8 → Act σ Unit} (h : Ok S P m)
    (hps : ∀ bs, Piece.bytes bs ∉ ps) :
    Ends (receive sink i ps) m (fun _ m' => Ok S P m' ∧ Grows S m m' ∧ m'.stack = m.stack)
      (Stopped S P) := by
  induction ps generalizing m with
  | nil => exact ⟨h, .refl S m, rfl⟩
  | cons p ps ih =>
    cases p with
    | bytes bs => exact absurd (List.mem_cons_self ..) (hps bs)
    | check =>
      refine (ends_gc h).bind (fun _ _ h => h) fun _ m₁ ⟨h₁, hg, hs, _⟩ => ?_
      refine (ih h₁ fun bs hbs => hps bs (List.mem_cons_of_mem _ hbs)).mono
        (fun _ _ h₂ => ⟨h₂.1, hg.trans h₂.2.1 h, h₂.2.2.trans hs⟩) fun _ _ h => h

/-- Pieces arrive in a new vector, and none of them after a retry that counts. -/
theorem ends_writes (h : Ok S P m) (h₀ : Grows S m₀ m) (hm₀ : Ok S P m₀)
    (hnew : m₀.heap.top ≤ r) (hr : Held S m r) (hps : ¬ Steady m.trace ∨ ¬ LatePiece ps) :
    Ends (receive (writeElements r) i ps) m (fun _ m' => Ok S P m' ∧ Grows S m₀ m' ∧
      m'.stack = m.stack ∧ r < m'.heap.top ∧ (.check ∉ ps → Held S m' r)) (Stopped S P) := by
  induction ps generalizing m i with
  | nil => exact ⟨h, h₀, rfl, hr.1, fun _ => hr⟩
  | cons p ps ih =>
    -- a piece that is late in the rest is late in all of them
    have hnext : ∀ {m₁ : Machine σ}, m.trace <:+ m₁.trace → ¬ Steady m₁.trace ∨ ¬ LatePiece ps := by
      intro m₁ htrace
      refine hps.imp (fun hs hs' => hs (hs'.of_suffix htrace)) fun hl ⟨qs, rs, bs, heq, hbs⟩ => ?_
      exact hl ⟨p :: qs, rs, bs, congrArg (p :: ·) heq, hbs⟩
    cases p with
    -- a piece is written to the vector
    | bytes bs =>
      refine (ends_change h h₀ hm₀.base hnew hr hr (adds_write i bs r)).bind (fun _ _ h => h)
        fun _ m₁ h₁ => ?_
      refine (ih h₁.ok h₁.grows (h₁.held r hr) (hnext h₁.trace)).mono
        (fun _ m₂ ⟨h₂, hg, hs, ht, hheld⟩ => ⟨h₂, hg, hs.trans h₁.stack, ht, fun hmem => ?_⟩)
        fun _ _ h => h
      exact hheld fun hc => hmem (List.mem_cons_of_mem _ hc)
    -- a retry lets R collect
    | check =>
      refine (ends_gc h).bind (fun _ _ h => h) fun _ m₁ ⟨h₁, hg, hs, hh⟩ => ?_
      have htop : r < m₁.heap.top := hh ▸ hr.1
      have hmem : Piece.check ∈ Piece.check :: ps := List.mem_cons_self ..
      obtain hunsteady | hl := hps
      -- the vector is given up already
      · have hunsteady' : ¬ Steady m₁.trace := fun h => hunsteady (h.of_suffix hg.trace)
        refine (ih h₁ (h₀.trans hg hm₀) ⟨htop, fun h => absurd h hunsteady'⟩
          (Or.inl hunsteady')).mono (fun _ m₂ ⟨h₂, hg₂, hs₂, ht, _⟩ =>
          ⟨h₂, hg₂, hs₂.trans hs, ht, fun h => absurd hmem h⟩) fun _ _ h => h
      · -- nothing but retries can follow
        have hnone : ∀ bs, Piece.bytes bs ∉ ps := fun bs hbs =>
          hl ⟨[], ps, bs, rfl, hbs⟩
        exact (ends_waits h₁ hnone).mono (fun _ m₂ h₂ => ⟨h₂.1, (h₀.trans hg hm₀).trans h₂.2.1 hm₀,
          h₂.2.2.trans hs, Nat.lt_of_lt_of_le htop h₂.2.1.top, fun h => absurd hmem h⟩)
          fun _ _ h => h

/-- Nothing refers to an object, and it is not on the stack. -/
structure Loose (m : Machine σ) (r : Ref) : Prop where
  refs : ∀ x < r, ∀ q ∈ m.heap.refs x, q < r
  stack : ∀ s ∈ m.stack, s < r

theorem Loose.not_reachable (h : Loose m r) : ¬ Reachable m.heap m.stack r := by
  rintro ⟨s, hs, hr⟩
  exact Nat.lt_irrefl r (Reaches.of_closed (P := (· < r)) h.refs hr (h.stack s hs))

/-- A piece that arrives when the vector can have been collected. -/
theorem unsafe_bytes {base : Ref} {bs : List UInt8} (hbs : .bytes bs ∈ ps)
    (hlost : Lost base m.trace r) :
    Ends (receive (writeElements r) i ps) m (fun _ m' => ¬ Safe base m'.trace)
      fun _ _ => False := by
  induction ps generalizing m i with
  | nil => cases hbs
  | cons p ps ih =>
    cases p with
    | bytes bs' =>
      let m₁ : Machine σ :=
        { m with
          heap := m.heap.change r fun o => { o with contents := o.contents.write i bs' }
          trace := .modify r :: .use r :: m.trace }
      -- the first piece uses an object that is lost
      have hunsafe : ¬ Safe base m₁.trace := by
        intro hsafe
        have huse : Safe base (.use r :: m.trace) := hsafe.of_suffix (List.suffix_cons _ _)
        exact (safe_use.mp huse).1 hlost
      show Ends (receive (writeElements r) (i + bs'.length) ps) m₁ _ _
      exact (receive_trace r _ ps m₁).mono (fun _ _ h hs => hunsafe (hs.of_suffix h))
        fun _ _ h => h
    | check =>
      -- a further retry: the vector stays lost
      have hbs' : .bytes bs ∈ ps := by
        obtain h | h := List.mem_cons.mp hbs
        · cases h
        · exact h
      exact ih hbs' (m := { m with trace := .collect m.stack m.heap :: m.trace })
        (lost_collect.mpr (Or.inr hlost))

/-- **A piece after a retry** is written to a vector that can have been collected. -/
theorem unsafe_late {base : Ref} (hlate : LatePiece ps) (hloose : Loose m r) (hbase : base ≤ r)
    (htop : r < m.heap.top) :
    Ends (receive (writeElements r) i ps) m (fun _ m' => ¬ Safe base m'.trace)
      fun _ _ => False := by
  induction ps generalizing m i with
  | nil =>
    obtain ⟨qs, rs, bs, h, -⟩ := hlate
    simp at h
  | cons p ps ih =>
    obtain ⟨qs, rs, bs, h, hbs⟩ := hlate
    cases p with
    | bytes bs' =>
      -- a piece in front of the retry leaves the vector loose
      obtain ⟨q, qs, rfl⟩ : ∃ q qs', qs = q :: qs' := by
        cases qs with
        | nil => cases (List.cons.inj h).1
        | cons q qs => exact ⟨q, qs, rfl⟩
      refine ih (m := { m with
        heap := m.heap.change r fun o => { o with contents := o.contents.write i bs' }
        trace := .modify r :: .use r :: m.trace }) ⟨qs, rs, bs, (List.cons.inj h).2, hbs⟩
        ⟨fun x hx q hq => ?_, hloose.stack⟩ htop
      have hother :
          (m.heap.change r fun o => { o with contents := o.contents.write i bs' }).objects x
            = m.heap.objects x := Function.update_of_ne hx.ne ..
      rw [Memory.refs, hother] at hq
      exact hloose.refs x hx q hq
    | check =>
      -- the retry: the vector is not reachable, so that it is lost
      have hbs' : .bytes bs ∈ ps := by
        cases qs with
        | nil => exact (List.cons.inj h).2 ▸ hbs
        | cons q qs =>
          rw [(List.cons.inj h).2]
          exact List.mem_append_right _ (List.mem_cons_of_mem _ hbs)
      exact unsafe_bytes hbs' (m := { m with trace := .collect m.stack m.heap :: m.trace })
        (lost_collect.mpr (Or.inl ⟨hbase, htop, hloose.not_reachable⟩))

/-- A new vector that is filled. If a piece arrives too late, both what it is for and the
trace are given up; otherwise nothing has been lost. -/
theorem ends_decodeAtoms (R : Runtime) (src : Source σ) (t : AtomType) (len : ℕ)
    (h : Ok S False m) :
    Ends (decodeAtoms R src t len) m (Yields S False m) (Stopped S False) := by
  refine (ends_allocVector R h t.type len).bind (fun _ _ h => h) fun res m₁ hres => ?_
  obtain ⟨h₁, htop, hheap⟩ := hres
  let n := byteCount t len
  let a := src.fetch m₁.api n
  let m₂ : Machine σ :=
    { m₁ with
      api := a.state
      trace := .elements a.pieces :: .fetch t.el len n (m₁.heap.objects res).contents.room ::
        m₁.trace }
  have htrace : m₁.trace <:+ m₂.trace := (List.suffix_cons _ _).trans (List.suffix_cons _ _)
  -- neither of the two events is a collection
  have hlost : ∀ q, Lost S.heap.top m₂.trace q ↔ Lost S.heap.top m₁.trace q := fun q =>
    (lost_inert (e := .elements _) trivial).trans (lost_inert (e := .fetch ..) trivial)
  have hsafe : Safe S.heap.top m₂.trace ↔ Safe S.heap.top m₁.trace :=
    (safe_of_ne_use fun _ => Event.noConfusion).trans (safe_of_ne_use fun _ => Event.noConfusion)
  have hsteady : Steady m₂.trace ↔ ¬ LatePiece a.pieces ∧ Steady m₁.trace := by
    show Steady (_ :: _ :: m₁.trace) ↔ _
    rw [steady_cons, steady_cons]
    constructor
    · exact fun hs => ⟨hs.1 _ rfl, hs.2.2⟩
    · rintro ⟨hl, hs⟩
      refine ⟨fun ps heq => ?_, fun _ => Event.noConfusion, hs⟩
      cases heq
      exact hl
  have hok : ∀ {P : Prop}, P ∨ (Steady m₂.trace ↔ Safe S.heap.top m₂.trace) → Ok S P m₂ := fun hP =>
    ⟨h₁.ok.base, h₁.ok.closed, h₁.ok.old, h₁.ok.null, h₁.ok.stack, h₁.ok.interned,
      fun r hr => h₁.ok.lost r ((hlost r).mp hr), hP⟩
  have hgrows : Grows S m m₂ := h₁.grows.trans ⟨Nat.le_refl _, fun _ _ => rfl,
    List.suffix_refl _, htrace, fun q _ => (hlost q).mp⟩ h
  have hnew : m.heap.top ≤ res := htop.ge
  -- the rest is the reception of the pieces and the error
  have hrest : Ends (finish (writeElements res) a) m₂ (fun _ m' => Yields S False m res m')
      (Stopped S False) → Ends ((finish (writeElements res) a >>= fun _ => pure ()) >>=
        fun _ => pure res) m₂ (Yields S False m) (Stopped S False) := fun h =>
    ends_bind.mpr (ends_bind.mpr (h.mono (fun _ _ h => h) fun _ _ h => h))
  show Ends ((finish (writeElements res) a >>= fun _ => pure ()) >>= fun _ => pure res) m₂ _ _
  -- the pieces decide
  by_cases hl : LatePiece a.pieces
  · have hunsteady : ¬ Steady m₂.trace := fun hs => (hsteady.mp hs).1 hl
    -- nothing refers to the new vector: nothing older can, and it is not on the stack
    have hloose : Loose m₂ res := by
      refine ⟨fun x hx q hq => ?_, fun s hs => ?_⟩
      · rw [htop] at hx ⊢
        have hpush : m₂.heap.objects x = m.heap.objects x := by
          show m₁.heap.objects x = _
          rw [hheap]
          exact Function.update_of_ne hx.ne ..
        rw [Memory.refs, hpush] at hq
        exact h.closed x hx q hq
      · rw [htop]
        exact h.stack s (h₁.stack ▸ hs)
    -- the trace is unsafe and not steady, which agrees
    have hwrites := (ends_writes (i := 0) (hok (Or.inl trivial))
      hgrows { h with settled := Or.inl trivial } hnew
      ⟨h₁.held.1, fun hs => absurd hs hunsteady⟩ (Or.inl hunsteady)).and
      ((unsafe_late (i := 0) hl hloose (h.base.trans hnew) h₁.held.1).and
        (receive_trace res 0 a.pieces m₂))
    have hfinish : Ends (finish (writeElements res) a) m₂ (fun _ m' => Yields S False m res m')
        (Stopped S False) := by
      refine hwrites.bind (fun _ _ hf => hf.2.1.elim) fun _ m₃ hm₃ => ?_
      obtain ⟨⟨h₃, hg, hs, ht, -⟩, hu, htr⟩ := hm₃
      have hsettled : Steady m₃.trace ↔ Safe S.heap.top m₃.trace :=
        iff_of_false (fun hs => hunsteady (hs.of_suffix htr)) hu
      have hok₃ : Ok S False m₃ := { h₃ with settled := Or.inr hsettled }
      cases a.error with
      | some e => exact hok₃.stopped Stop.noConfusion
      | none =>
        refine ⟨hok₃, hg, hs.trans h₁.stack, ht, fun hs => ?_⟩
        exact absurd (hs.of_suffix htr) hunsteady
    exact hrest hfinish
  -- no piece arrives behind a collection
  · have hok₂ : Ok S False m₂ := by
      refine hok (h₁.ok.settled.imp_right fun hset => ?_)
      rw [hsteady, hsafe, and_iff_right hl]
      exact hset
    have hheld : Held S m₂ res :=
      ⟨h₁.held.1, fun hs q hq hq' => h₁.held.2 (hs.of_suffix htrace) q hq ((hlost q).mp hq')⟩
    have hfinish : Ends (finish (writeElements res) a) m₂ (fun _ m' => Yields S False m res m')
        (Stopped S False) := by
      refine (ends_writes (i := 0) hok₂ hgrows h hnew hheld (Or.inr hl)).bind (fun _ _ h => h)
        fun _ m₃ hm₃ => ?_
      obtain ⟨h₃, hg, hs, -, hheld₃⟩ := hm₃
      cases he : a.error with
      | some e => exact h₃.stopped Stop.noConfusion
      | none =>
        -- every retry was followed by a piece
        have hcheck : .check ∉ a.pieces := by
          intro hc
          obtain ⟨qs, rs, hsplit⟩ := List.append_of_mem hc
          obtain ⟨bs, hbs⟩ := exists_bytes (src.waits m₁.api n qs rs he hsplit)
          exact hl ⟨qs, rs, bs, hsplit, hbs⟩
        exact ⟨h₃, hg, hs.trans h₁.stack, hheld₃ hcheck⟩
    exact hrest hfinish

end Elements

end Rheap
end Osrv
