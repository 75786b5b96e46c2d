import Osrv.Queue.Ownership

/-!
# Events beside other blocks

The payloads of events are not the only blocks of the process. A call to the queues
touches no other ones: what it does to the payloads alone it also does where there are
other blocks, and leaves those as they are (`perform_beside`). So what `Owned` says of a
process whose blocks are all payloads can be used in one that has more.

The body of a request comes from outside. `Owned.postWork` says what becomes of it: it is
left to the worker or becomes the payload of an event.
-/

namespace Osrv
namespace Revq

open Bytes Links Queue

/-- Blocks from `malloc`. -/
abbrev Blocks : Type := Addr → Option (List UInt8)

/-- The process with other blocks besides its own. -/
def Process.beside (f : Blocks) (p : Process) : Process :=
  { p with blocks := fun b => (p.blocks b).or (f b) }

/-- None of its own blocks is among the others. -/
def Apart (f : Blocks) (p : Process) : Prop := ∀ b, f b ≠ none → p.blocks b = none

variable {f : Blocks} {p p' : Process} {a b : Addr} {o : Outcome}

/-! ### The blocks -/

theorem beside_blocks_of_own (hb : p.blocks b = none) : (p.beside f).blocks b = f b := by
  show (p.blocks b).or (f b) = f b
  rw [hb, Option.none_or]

/-- A block is one of its own or one of the others. -/
theorem beside_blocks_ne_none :
    (p.beside f).blocks b ≠ none ↔ p.blocks b ≠ none ∨ f b ≠ none := by
  show (p.blocks b).or (f b) ≠ none ↔ _
  rw [Ne, Option.or_eq_none_iff, not_and_or]

/-- A change of its own blocks. -/
theorem beside_update (hb : f b = none) (v : Option (List UInt8)) :
    ({ p with blocks := Function.update p.blocks b v } : Process).beside f
      = { p.beside f with blocks := Function.update (p.beside f).blocks b v } := by
  unfold Process.beside
  congr 1
  funext c
  show (Function.update p.blocks b v c).or (f c)
    = Function.update (fun c => (p.blocks c).or (f c)) b v c
  by_cases hc : c = b
  · subst hc
    rw [Function.update_self, Function.update_self, hb, Option.or_none]
  · rw [Function.update_of_ne hc, Function.update_of_ne hc]

/-- A change of the others. -/
theorem beside_update_other (hb : p.blocks b = none) (v : Option (List UInt8)) :
    p.beside (Function.update f b v)
      = { p.beside f with blocks := Function.update (p.beside f).blocks b v } := by
  unfold Process.beside
  congr 1
  funext c
  show (p.blocks c).or (Function.update f b v c)
    = Function.update (fun c => (p.blocks c).or (f c)) b v c
  by_cases hc : c = b
  · subst hc
    rw [Function.update_self, Function.update_self, hb, Option.none_or]
  · rw [Function.update_of_ne hc, Function.update_of_ne hc]

/-- A block that changes sides. -/
theorem beside_move (hb : p.blocks b = none) :
    ({ p with blocks := Function.update p.blocks b (f b) } : Process).beside
        (Function.update f b none) = p.beside f := by
  unfold Process.beside
  congr 1
  funext c
  show (Function.update p.blocks b (f b) c).or (Function.update f b none c)
    = (p.blocks c).or (f c)
  by_cases hc : c = b
  · subst hc
    rw [Function.update_self, Function.update_self, Option.or_none, hb, Option.none_or]
  · rw [Function.update_of_ne hc, Function.update_of_ne hc]

theorem Apart.none_of_own (h : Apart f p) (hb : p.blocks b ≠ none) : f b = none := by
  by_contra hne
  exact hb (h b hne)

theorem Apart.update (h : Apart f p) (hb : p.blocks b = none) (v : Option (List UInt8)) :
    Apart (Function.update f b v) p := by
  intro c hc
  by_cases hcb : c = b
  · rw [hcb]
    exact hb
  · rw [Function.update_of_ne hcb] at hc
    exact h c hc

/-! ### The calls -/

theorem freeBlock_beside (hf : Apart f p) (h : freeBlock b p = some p') :
    freeBlock b (p.beside f) = some (p'.beside f) ∧ Apart f p' := by
  unfold freeBlock at h
  split at h
  · next hb =>
    obtain rfl := Option.some.inj h
    have hother : f b = none := hf.none_of_own hb
    constructor
    · rw [freeBlock, if_pos (beside_blocks_ne_none.mpr (.inl hb)), beside_update hother]
    · intro c hc
      have hcb : c ≠ b := by
        rintro rfl
        exact hc hother
      exact (Function.update_of_ne hcb ..).trans (hf c hc)
  · cases h

theorem releaseData_beside {e : Event} (hf : Apart f p) (h : releaseData e p = some p') :
    releaseData e (p.beside f) = some (p'.beside f) ∧ Apart f p' := by
  unfold releaseData at h ⊢
  split at h
  · exact freeBlock_beside hf h
  · obtain rfl := Option.some.inj h
    exact ⟨rfl, hf⟩

theorem ev_free_beside (hf : Apart f p) (h : ev_free a p = some p') :
    ev_free a (p.beside f) = some (p'.beside f) ∧ Apart f p' := by
  obtain ⟨n, hn, h⟩ := Option.bind_eq_some_iff.mp h
  obtain ⟨p₁, hrelease, h⟩ := Option.bind_eq_some_iff.mp h
  obtain ⟨s, hfree, h⟩ := Option.bind_eq_some_iff.mp h
  obtain rfl := Option.some.inj h
  obtain ⟨hrelease', hf₁⟩ := releaseData_beside hf hrelease
  refine ⟨?_, hf₁⟩
  have hn : (p.beside f).events.mem a = some n := hn
  have hfree : Queue.ev_free a (p₁.beside f).events = some s := hfree
  simp only [Revq.ev_free, hn, hrelease', hfree, Option.bind_eq_bind, Option.bind_some]
  rfl

theorem eventry_R_free_beside {i : ℕ} (hf : Apart f p) (h : eventry_R_free i p = some p') :
    eventry_R_free i (p.beside f) = some (p'.beside f) ∧ Apart f p' := by
  unfold eventry_R_free at h ⊢
  have hrefs : (p.beside f).refs = p.refs := rfl
  rw [hrefs]
  split at h
  · obtain ⟨p₁, hfree, h⟩ := Option.bind_eq_some_iff.mp h
    obtain rfl := Option.some.inj h
    obtain ⟨hfree', hf₁⟩ := ev_free_beside hf hfree
    refine ⟨?_, hf₁⟩
    rw [Option.bind_eq_bind, hfree', Option.bind_some]
    rfl
  · obtain rfl := Option.some.inj h
    exact ⟨rfl, hf⟩

/-- The bytes of a payload that is there. -/
theorem payload_beside {fresh : Memory} {e : Event} {bytes : List UInt8}
    (h : payload fresh e p = some bytes) : payload fresh e (p.beside f) = some bytes := by
  unfold payload at h ⊢
  split at h
  · next hzero => rw [if_pos hzero, h]
  · next hzero =>
    rw [if_neg hzero]
    split at h
    · exact h
    · exact h
    · next b _ =>
      obtain ⟨mem, hmem, h⟩ := Option.bind_eq_some_iff.mp h
      have hmem' : (p.beside f).blocks b = some mem := by
        show (p.blocks b).or (f b) = some mem
        rw [hmem, Option.some_or]
      rw [Option.bind_eq_bind, hmem', Option.bind_some]
      exact h

theorem takeEntry_beside {ref room : Bool} {fresh : Memory} (hf : Apart f p)
    (h : takeEntry a ref room fresh p = some (o, p')) :
    takeEntry a ref room fresh (p.beside f) = some (o, p'.beside f) ∧ Apart f p' := by
  unfold takeEntry entry2R at h ⊢
  dsimp only at h ⊢
  split at h
  -- an entry that stays with R as a reference
  · next href =>
    cases h
    rw [if_pos href]
    exact ⟨rfl, hf⟩
  · next href =>
    rw [if_neg href]
    split at h
    -- its bytes are copied, and it is freed
    · next hroom =>
      rw [if_pos hroom]
      obtain ⟨n, hn, h⟩ := Option.bind_eq_some_iff.mp h
      obtain ⟨bytes, hbytes, h⟩ := Option.bind_eq_some_iff.mp h
      obtain ⟨p₁, hfree, h⟩ := Option.bind_eq_some_iff.mp h
      cases h
      have hf' : Apart f { p with refs := p.refs ++ [some a] } := hf
      obtain ⟨hfree', hf₁⟩ := ev_free_beside hf' hfree
      refine ⟨?_, hf₁⟩
      have hn : (p.beside f).events.mem a = some n := hn
      -- the payload is in a block of the queue
      have hbytes' : payload fresh n.val
          ({ p.beside f with refs := (p.beside f).refs ++ [some a] } : Process) = some bytes :=
        payload_beside hbytes
      have hfree' : ev_free a
          ({ p.beside f with refs := (p.beside f).refs ++ [some a] } : Process)
            = some (p₁.beside f) := hfree'
      simp only [hn, hbytes', hfree', Option.bind_eq_bind, Option.bind_some]
      rfl
    -- no memory for the copy
    · next hroom =>
      cases h
      rw [if_neg hroom]
      exact ⟨rfl, hf⟩

/-- The pop in `C_evq_pop`. -/
def awaitEntry (q : ℕ) (timer : Option Bool) (s : State Event) :
    Option (Wait (Ptr × State Event)) :=
  match timer with
  | none => (ev_pop q s).map .over
  | some timedOut => ev_pop_wait q timedOut s

/-- The rest of `C_evq_pop`. -/
def afterPop (ref room : Bool) (fresh : Memory) (p : Process) :
    Wait (Ptr × State Event) → Option (Outcome × Process)
  | .waiting => some (.waiting, p)
  | .over (none, events) => some (.null, { p with events := events })
  | .over (some e, events) => takeEntry e ref room fresh { p with events := events }

theorem C_evq_pop_eq (q : ℕ) (timer : Option Bool) (ref room : Bool) (fresh : Memory)
    (p : Process) : C_evq_pop q timer ref room fresh p
      = (awaitEntry q timer p.events).bind (afterPop ref room fresh p) := by
  cases timer <;> rfl

theorem C_evq_pop_beside {q : ℕ} {timer : Option Bool} {ref room : Bool} {fresh : Memory}
    (hf : Apart f p) (h : C_evq_pop q timer ref room fresh p = some (o, p')) :
    C_evq_pop q timer ref room fresh (p.beside f) = some (o, p'.beside f) ∧ Apart f p' := by
  rw [C_evq_pop_eq] at h ⊢
  obtain ⟨w, hw, h⟩ := Option.bind_eq_some_iff.mp h
  have hw : awaitEntry q timer (p.beside f).events = some w := hw
  rw [hw, Option.bind_some]
  cases w with
  | waiting =>
    cases h
    exact ⟨rfl, hf⟩
  | «over» r =>
    obtain ⟨e, events⟩ := r
    cases e with
    | none =>
      cases h
      exact ⟨rfl, hf⟩
    | some e =>
      have hf' : Apart f { p with events := events } := hf
      exact takeEntry_beside hf' h

/-- Whether a call is a request to the work interface. -/
def Act.isPost : Act → Bool
  | .post _ _ _ => true
  | _ => false

/-- **A call leaves other blocks alone**, unless it is a request to the work interface,
which brings a block. -/
theorem perform_beside {act : Act} (hact : act.isPost = false) (hf : Apart f p)
    (h : perform p act = some (o, p')) :
    perform (p.beside f) act = some (o, p'.beside f) ∧ Apart f p' := by
  cases act with
  | pushRaw q a bytes front =>
    obtain ⟨s₁, hcreate, h⟩ := Option.bind_eq_some_iff.mp h
    obtain ⟨s₂, hfill, h⟩ := Option.bind_eq_some_iff.mp h
    obtain ⟨⟨e, s₃⟩, hpush, h⟩ := Option.bind_eq_some_iff.mp h
    cases h
    have hcreate : ev_create a (.new none bytes.length none) (p.beside f).events = some s₁ :=
      hcreate
    refine ⟨?_, hf⟩
    simp only [Revq.perform, pushRaw, hcreate, hfill, hpush, Option.bind_eq_bind,
      Option.bind_some]
    rfl
  | pushRef q i front =>
    simp only [Revq.perform, pushRef] at h ⊢
    have hrefs : (p.beside f).refs = p.refs := rfl
    rw [hrefs]
    split at h
    · obtain ⟨⟨e, s⟩, hpush, h⟩ := Option.bind_eq_some_iff.mp h
      cases h
      refine ⟨?_, hf⟩
      have hevents : (p.beside f).events = p.events := rfl
      simp only [hevents, hpush, Option.bind_eq_bind, Option.bind_some]
      rfl
    · cases h
      exact ⟨rfl, hf⟩
  | pop q timer ref room fresh => exact C_evq_pop_beside hf h
  | finalize i =>
    obtain ⟨p₁, hfree, h⟩ := Option.map_eq_some_iff.mp h
    cases h
    obtain ⟨hfree', hf'⟩ := eventry_R_free_beside hf hfree
    exact ⟨by rw [Revq.perform, hfree']; rfl, hf'⟩
  | post queue a body => cases hact
  | resolved q a msg name =>
    obtain ⟨s₁, hcreate, h⟩ := Option.bind_eq_some_iff.mp h
    obtain ⟨s₂, hfill, h⟩ := Option.bind_eq_some_iff.mp h
    obtain ⟨⟨e, s₃⟩, hpush, h⟩ := Option.bind_eq_some_iff.mp h
    cases h
    have hcreate : ev_create a (.new none (name.length + 4 + 4) none) (p.beside f).events
        = some s₁ := hcreate
    refine ⟨?_, hf⟩
    simp only [Revq.perform, notifyResolved, hcreate, hfill, hpush, Option.bind_eq_bind,
      Option.bind_some]
    rfl

/-! ### The body of a request -/

/-- **The work interface** leaves a body to the worker or makes it the payload of an
event. -/
theorem Owned.postWork {d : ℕ → List (Addr × Event)} {σ : Ideal} (h : Owned p [] d σ)
    (hf : Apart f p) (queue : Option ℕ) {bytes : List UInt8} (ha : p.events.mem a = none)
    (hb : f b = some bytes) :
    (∃ code, Revq.postWork queue a ⟨some b, bytes.length⟩ (p.beside f)
        = some (.code code, ⟨some b, bytes.length⟩, p.beside f)) ∨
      ∃ p' d' σ', Revq.postWork queue a ⟨some b, bytes.length⟩ (p.beside f)
          = some (.code 200, ⟨none, bytes.length⟩, p'.beside (Function.update f b none)) ∧
        Owned p' [] d' σ' ∧ Apart (Function.update f b none) p' := by
  have hnone : p.blocks b = none := hf b (by simp [hb])
  cases queue with
  | none => exact .inl ⟨404, rfl⟩
  | some q =>
    by_cases hbytes : bytes.length < 1
    · refine .inl ⟨403, ?_⟩
      simp only [Revq.postWork, if_pos hbytes]
    · right
      -- where all blocks are payloads the body would be one that was just allocated
      have hfree : ∀ c ∈ some (b, bytes), p.blocks c.1 = none := by
        intro c hc
        obtain rfl := Option.some.inj hc
        exact hnone
      obtain ⟨p', d', hpost, h'⟩ := @Owned.post p d σ a h (some q) _ ha hfree
      have hne : bytes ≠ [] := by
        rintro rfl
        exact hbytes Nat.zero_lt_one
      simp only [Revq.post, Revq.postWork, if_neg hbytes, Option.bind_eq_bind] at hpost
      obtain ⟨⟨o, req, p₁⟩, hwork, hpost⟩ := Option.bind_eq_some_iff.mp hpost
      obtain ⟨s₁, hcreate, hwork⟩ := Option.bind_eq_some_iff.mp hwork
      obtain ⟨⟨e, s₂⟩, hpush, hwork⟩ := Option.bind_eq_some_iff.mp hwork
      cases hwork
      have hp' : p' = ⟨s₂, p.refs, Function.update p.blocks b (some bytes)⟩ := by
        have hsnd := congrArg (Option.map Prod.snd) hpost
        exact (Option.some.inj hsnd).symm
      refine ⟨p', d', _, ?_, h', fun c hc => ?_⟩
      · have hevents : (p.beside f).events = p.events := rfl
        simp only [Revq.postWork, if_neg hbytes, hevents, hcreate, hpush, Option.bind_eq_bind,
          Option.bind_some, hp']
        have hmove := beside_move (f := f) hnone
        rw [hb] at hmove
        exact congrArg (fun r : Process => some (Outcome.code 200,
          (⟨none, bytes.length⟩ : WorkRequest), { r with events := s₂ })) hmove.symm
      · have hcb : c ≠ b := by
          rintro rfl
          exact hc (Function.update_self ..)
        rw [Function.update_of_ne hcb] at hc
        rw [hp']
        exact (Function.update_of_ne hcb ..).trans (hf c hc)

end Revq
end Osrv
