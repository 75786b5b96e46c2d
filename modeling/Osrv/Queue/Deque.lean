import Osrv.Lib.Run
import Osrv.Queue.EvQueue

/-!
# Event queues are deques

`Rep s d` is the representation invariant: in the state `s` every queue `q` is a
doubly linked list of the entries `d q`, and no entry is on two queues. Pushing
relies on the links of the entry being null, which a new entry satisfies and a pop
makes true.

The runs are those of callers that push or free only entries which they hold:
entries that are new or that a pop has returned. `held` keeps track of them. It is
not part of the program.
-/

namespace Osrv
namespace Queue

open Links

variable {α : Type}

/-! ### Representation -/

/-- **The representation invariant.** `d q` are the entries on the queue `q`, by address and
contents. -/
structure Rep (s : State α) (d : ℕ → List (Addr × α)) : Prop where
  /-- A queue is a list between null links. -/
  list : ∀ q, Seg s.mem none (s.queue q).head (d q) (s.queue q).tail none
  /-- No entry is on a queue twice. -/
  nodup : ∀ q, (addrs (d q)).Nodup
  /-- No entry is on two queues. -/
  disjoint : ∀ q q' a, a ∈ addrs (d q) → a ∈ addrs (d q') → q = q'

theorem Rep.init : Rep (State.init : State α) fun _ => [] where
  list _ := ⟨rfl, rfl⟩
  nodup _ := List.nodup_nil
  disjoint _ _ _ h := by cases h

/-- Whether a queue is empty can be seen from its head. -/
theorem Rep.head_eq {s : State α} {d : ℕ → List (Addr × α)} (h : Rep s d) (q : ℕ) :
    (s.queue q).head = (addrs (d q)).head? := by
  have hends := (h.list q).ends.1
  rwa [Option.or_none] at hends

section Spec

variable {s s' : State α} {d : ℕ → List (Addr × α)} {q : ℕ} {a : Addr} {v : α}

/-- **A change of one queue**, and of no entries on other ones. -/
theorem Rep.set {xs : List (Addr × α)} {head tail : Ptr} (h : Rep s d)
    (hqueue : s'.queue = Function.update s.queue q { s.queue q with head := head, tail := tail })
    (hmem : ∀ b, (∃ q', q' ≠ q ∧ b ∈ addrs (d q')) → s'.mem b = s.mem b)
    (hlist : Seg s'.mem none head xs tail none) (hnodup : (addrs xs).Nodup)
    (hsub : ∀ b ∈ addrs xs, ∀ q', q' ≠ q → b ∉ addrs (d q')) :
    Rep s' (Function.update d q xs) where
  list q' := by
    rw [hqueue]
    by_cases hq : q' = q
    · subst hq
      simp only [Function.update_self]
      exact hlist
    · simp only [Function.update_of_ne hq]
      exact (h.list q').congr fun b hb => hmem b ⟨q', hq, hb⟩
  nodup q' := by
    by_cases hq : q' = q
    · subst hq
      rwa [Function.update_self]
    · rw [Function.update_of_ne hq]
      exact h.nodup q'
  disjoint q₁ q₂ b h₁ h₂ := by
    by_cases hq₁ : q₁ = q
    · by_cases hq₂ : q₂ = q
      · rw [hq₁, hq₂]
      · rw [hq₁, Function.update_self] at h₁
        rw [Function.update_of_ne hq₂] at h₂
        exact absurd h₂ (hsub b h₁ q₂ hq₂)
    · rw [Function.update_of_ne hq₁] at h₁
      by_cases hq₂ : q₂ = q
      · rw [hq₂, Function.update_self] at h₂
        exact absurd h₁ (hsub b h₂ q₁ hq₁)
      · rw [Function.update_of_ne hq₂] at h₂
        exact h.disjoint q₁ q₂ b h₁ h₂

/-- The entries of a queue with one more, at the front or at the end. -/
def pushed (front : Bool) (x : α) (xs : List α) : List α :=
  if front then x :: xs else xs ++ [x]

theorem addrs_pushed (front : Bool) (x : Addr × α) (xs : List (Addr × α)) :
    addrs (pushed front x xs) = pushed front x.1 (addrs xs) := by
  cases front
  · exact List.map_append
  · rfl

theorem mem_pushed {front : Bool} {x y : α} {xs : List α} :
    y ∈ pushed front x xs ↔ y = x ∨ y ∈ xs := by
  cases front <;> simp [pushed, or_comm]

/-- **Pushing** an entry that is on no queue and whose links are null. -/
theorem Rep.ev_push (h : Rep s d) (front : Bool) (ha : s.mem a = some ⟨v, none, none⟩)
    (hfree : ∀ q', a ∉ addrs (d q')) :
    ∃ s', ev_push q (some a) front s = some (some a, s') ∧
      Rep s' (Function.update d q (pushed front (a, v) (d q))) ∧
      ∀ b, b ≠ a → b ∉ addrs (d q) → s'.mem b = s.mem b := by
  -- what is on another queue is neither the new entry nor on this queue
  have hother : ∀ b, (∃ q', q' ≠ q ∧ b ∈ addrs (d q')) → b ≠ a ∧ b ∉ addrs (d q) := by
    rintro b ⟨q', hq, hb⟩
    refine ⟨?_, fun hb' => hq (h.disjoint q' q b hb hb')⟩
    rintro rfl
    exact hfree q' hb
  have hsub : ∀ b ∈ addrs (pushed front (a, v) (d q)), ∀ q', q' ≠ q → b ∉ addrs (d q') := by
    intro b hb q' hq hb'
    rw [addrs_pushed, mem_pushed] at hb
    rcases hb with rfl | hb
    · exact hfree q' hb'
    · exact hq (h.disjoint q' q b hb' hb)
  -- the new entry is on no queue, so it is there once
  have hnodup : (addrs (pushed front (a, v) (d q))).Nodup := by
    rw [addrs_pushed]
    cases front
    · exact List.nodup_append.mpr ⟨h.nodup q, List.nodup_singleton a, fun b hb c hc => by
        rintro rfl
        obtain rfl := List.mem_singleton.mp hc
        exact hfree q hb⟩
    · exact List.nodup_cons.mpr ⟨hfree q, h.nodup q⟩
  have hseg := h.list q
  have hnd := h.nodup q
  have hnot := hfree q
  rcases List.eq_nil_or_concat (d q) with hd | ⟨ys, t, hd⟩
  · -- the only entry: its links are null already
    rw [hd] at hseg hsub hnodup
    obtain ⟨hhead, -⟩ := hseg
    have hone : pushed front (a, v) [] = [(a, v)] := by cases front <;> rfl
    rw [hd, hone]
    rw [hone] at hsub hnodup
    refine ⟨notify q (s.set q (some a) (some a)), ?_, ?_, fun _ _ _ => rfl⟩
    · simp only [Queue.ev_push, hhead]
    · exact h.set rfl (fun _ _ => rfl) ⟨rfl, none, ha, rfl, rfl⟩ hnodup hsub
  · rw [List.concat_eq_append] at hd
    cases front with
    | false =>
      -- behind the last entry `t`
      rw [hd] at hseg hnd hnot
      obtain ⟨htail, prev, ht, -⟩ := Seg.snoc_iff.mp hseg
      have hta : t.1 ≠ a := fun heq => hnot (by simp [addrs, heq])
      have ht' : Function.update s.mem a (some ⟨v, none, some t.1⟩) t.1
          = some ⟨t.2, none, prev⟩ := by
        rw [Function.update_of_ne hta, ht]
      obtain ⟨x, hhead⟩ : ∃ x, (s.queue q).head = some x := by
        rw [h.head_eq, hd]
        exact ⟨_, by rw [addrs, List.head?_eq_some_head (by simp)]⟩
      have hrun : Queue.ev_push q (some a) false s = some (some a, notify q (State.set
          ⟨Function.update (Function.update s.mem a (some ⟨v, none, some t.1⟩)) t.1
            (some ⟨t.2, some a, prev⟩), s.queue, s.notified⟩ q (s.queue q).head (some a))) := by
        simp only [Queue.ev_push, hhead, htail, setPrev_eq ha, setNext_eq ht',
          Option.bind_eq_bind, Option.bind_some, Bool.false_eq_true, if_false]
      refine ⟨_, hrun, h.set rfl (fun b hb => ?_) ?_ hnodup hsub, fun b hba hb => ?_⟩
      · -- the other queues are not touched
        obtain ⟨hba, hb⟩ := hother b hb
        have hbt : b ≠ t.1 := fun heq => hb (by rw [hd, heq]; simp [addrs])
        exact (Function.update_of_ne hbt ..).trans (Function.update_of_ne hba ..)
      · -- the list with the new entry at its end
        rw [hd]
        refine Seg.snoc_iff.mpr ⟨rfl, some t.1, ?_, ?_⟩
        · show Function.update _ t.1 _ a = _
          rw [Function.update_of_ne hta.symm, Function.update_self]
        · rw [htail] at hseg
          exact (hseg.update hnot).set_last hnd ht'
      · have hbt : b ≠ t.1 := fun heq => hb (by rw [hd, heq]; simp [addrs])
        exact (Function.update_of_ne hbt ..).trans (Function.update_of_ne hba ..)
    | true =>
      -- in front of the first entry `x`
      obtain ⟨x, xs, hd'⟩ : ∃ x xs, d q = x :: xs :=
        List.exists_cons_of_ne_nil (by rw [hd]; simp)
      rw [hd'] at hseg hnd hnot
      obtain ⟨hhead, next, hx, -⟩ := Seg.cons_iff.mp hseg
      have hxa : x.1 ≠ a := fun heq => hnot (by simp [addrs, heq])
      have hx' : Function.update s.mem a (some ⟨v, some x.1, none⟩) x.1
          = some ⟨x.2, next, none⟩ := by
        rw [Function.update_of_ne hxa, hx]
      have hrun : Queue.ev_push q (some a) true s = some (some a, notify q (State.set
          ⟨Function.update (Function.update s.mem a (some ⟨v, some x.1, none⟩)) x.1
            (some ⟨x.2, next, some a⟩), s.queue, s.notified⟩ q (some a) (s.queue q).tail)) := by
        simp only [Queue.ev_push, hhead, setNext_eq ha, setPrev_eq hx',
          Option.bind_eq_bind, Option.bind_some, if_true]
      refine ⟨_, hrun, h.set rfl (fun b hb => ?_) ?_ hnodup hsub, fun b hba hb => ?_⟩
      · obtain ⟨hba, hb⟩ := hother b hb
        have hbx : b ≠ x.1 := fun heq => hb (by rw [hd', heq]; simp [addrs])
        exact (Function.update_of_ne hbx ..).trans (Function.update_of_ne hba ..)
      · rw [hd']
        refine ⟨rfl, some x.1, ?_, ?_⟩
        · show Function.update _ x.1 _ a = _
          rw [Function.update_of_ne hxa.symm, Function.update_self]
        · rw [hhead] at hseg
          exact (hseg.update hnot).set_first hnd hx'
      · -- of this queue only the first entry has changed
        have hbx : b ≠ x.1 := fun heq => hb (by rw [hd', heq]; simp [addrs])
        exact (Function.update_of_ne hbx ..).trans (Function.update_of_ne hba ..)

/-- **Popping** from an empty queue. -/
theorem Rep.ev_pop_nil (h : Rep s d) (hd : d q = []) : ev_pop q s = some (none, s) := by
  have hhead : (s.queue q).head = none := by
    rw [h.head_eq, hd]
    rfl
  simp only [Queue.ev_pop, hhead]

/-- **Popping** takes the first entry off the queue and zeroes its links. -/
theorem Rep.ev_pop_cons {x : Addr × α} {xs : List (Addr × α)} (h : Rep s d)
    (hd : d q = x :: xs) :
    ∃ s', ev_pop q s = some (some x.1, s') ∧ Rep s' (Function.update d q xs) ∧
      s'.mem x.1 = some ⟨x.2, none, none⟩ ∧ ∀ b, b ∉ addrs (d q) → s'.mem b = s.mem b := by
  have hseg := h.list q
  have hnd := h.nodup q
  rw [hd] at hseg hnd
  obtain ⟨hhead, next, hx, hrest⟩ := Seg.cons_iff.mp hseg
  obtain ⟨hnot, hnd'⟩ := List.nodup_cons.mp hnd
  -- the addresses of the other queues are not written
  have hother : ∀ b, (∃ q', q' ≠ q ∧ b ∈ addrs (d q')) → b ∉ addrs (d q) := by
    rintro b ⟨q', hq, hb⟩ hb'
    exact hq (h.disjoint q' q b hb hb')
  have hsub : ∀ b ∈ addrs xs, ∀ q', q' ≠ q → b ∉ addrs (d q') := by
    intro b hb q' hq hb'
    exact hother b ⟨q', hq, hb'⟩ (by rw [hd]; exact List.mem_cons_of_mem _ hb)
  cases xs with
  | nil =>
    -- the last entry: both links of the queue become null
    obtain ⟨rfl, htail⟩ := hrest
    have hrun : ev_pop q s = some (some x.1, State.set
        ⟨Function.update (Function.update s.mem x.1 (some ⟨x.2, none, none⟩)) x.1
          (some ⟨x.2, none, none⟩), s.queue, s.notified⟩ q none none) := by
      simp only [Queue.ev_pop, ev_rm_, hhead, htail, hx, relinkPrev, relinkNext, setPrev_eq hx,
        setNext_eq (Function.update_self ..), Option.bind_eq_bind, Option.bind_some, if_true]
    refine ⟨_, hrun, h.set rfl (fun b hb => ?_) ⟨rfl, rfl⟩ List.nodup_nil hsub,
      Function.update_self .., fun b hb => ?_⟩
    · have hbx : b ≠ x.1 := fun heq => hother b hb (by rw [hd, heq]; simp [addrs])
      exact (Function.update_of_ne hbx ..).trans (Function.update_of_ne hbx ..)
    · have hbx : b ≠ x.1 := fun heq => hb (by rw [hd, heq]; simp [addrs])
      exact (Function.update_of_ne hbx ..).trans (Function.update_of_ne hbx ..)
  | cons y ys =>
    -- the next entry `y` becomes the first one
    obtain ⟨rfl, next, hy, -⟩ := Seg.cons_iff.mp hrest
    have hyx : y.1 ≠ x.1 := fun heq => hnot (by simp [heq])
    have htail : (s.queue q).tail ≠ some x.1 := by
      rw [hrest.ends.2]
      intro heq
      refine hnot (List.mem_of_getLast? (l := addrs (y :: ys)) ?_)
      rwa [Option.or_of_isSome (by simp [addrs])] at heq
    have hx' : Function.update s.mem y.1 (some ⟨y.2, next, none⟩) x.1
        = some ⟨x.2, some y.1, none⟩ := by
      rw [Function.update_of_ne hyx.symm, hx]
    have hrun : ev_pop q s = some (some x.1, State.set
        ⟨Function.update (Function.update (Function.update s.mem y.1 (some ⟨y.2, next, none⟩)) x.1
          (some ⟨x.2, some y.1, none⟩)) x.1 (some ⟨x.2, none, none⟩), s.queue, s.notified⟩
        q (some y.1) (s.queue q).tail) := by
      simp only [Queue.ev_pop, ev_rm_, hhead, hx, relinkPrev, relinkNext, setPrev_eq hy, hx',
        setPrev_eq hx', setNext_eq (Function.update_self ..), Option.bind_eq_bind,
        Option.bind_some, if_true, htail, if_false]
    refine ⟨_, hrun, h.set rfl (fun b hb => ?_) ?_ hnd' hsub, Function.update_self ..,
      fun b hb => ?_⟩
    · have hb' := hother b hb
      rw [hd] at hb'
      have hbx : b ≠ x.1 := fun heq => hb' (by simp [addrs, heq])
      have hby : b ≠ y.1 := fun heq => hb' (by simp [addrs, heq])
      exact ((Function.update_of_ne hbx ..).trans (Function.update_of_ne hbx ..)).trans
        (Function.update_of_ne hby ..)
    · exact ((hrest.set_first hnd' hy).update hnot).update hnot
    · rw [hd] at hb
      have hbx : b ≠ x.1 := fun heq => hb (by simp [addrs, heq])
      have hby : b ≠ y.1 := fun heq => hb (by simp [addrs, heq])
      exact ((Function.update_of_ne hbx ..).trans (Function.update_of_ne hbx ..)).trans
        (Function.update_of_ne hby ..)

end Spec

/-! ### Runs -/

/-- What callers do: they create and free entries, and call the functions of a queue. -/
inductive Action (α : Type)
  | create (a : Addr) (v : α)
  | push (q : ℕ) (e : Addr) (front : Bool)
  | pop (q : ℕ)
  | popWait (q : ℕ) (timedOut : Bool)
  | notifyFd (q fd : ℕ)
  | free (e : Addr)

/-- The state with the entries that callers hold. -/
structure World (α : Type) extends State α where
  held : List Addr

def World.init : World α := ⟨.init, []⟩

def step (w : World α) : Action α → Option (World α)
  | .create a v => do
    let s ← ev_create a v w.toState
    some ⟨s, a :: w.held⟩
  | .push q e front => do
    let (_, s) ← ev_push q (some e) front w.toState
    some ⟨s, w.held.erase e⟩
  | .pop q => do
    let (e, s) ← ev_pop q w.toState
    some ⟨s, e.toList ++ w.held⟩
  | .popWait q timedOut => do
    match ← ev_pop_wait q timedOut w.toState with
    | .waiting => some w
    | .over (e, s) => some ⟨s, e.toList ++ w.held⟩
  | .notifyFd q fd => some ⟨(ev_queue_notify_fd q fd w.toState).2, w.held⟩
  | .free e => do
    let s ← ev_free e w.toState
    some ⟨s, w.held.erase e⟩

/-- A new entry is put into memory that is not in use, and callers push and free only the
entries that they hold. -/
def Allowed (w : World α) : Action α → Prop
  | .create a _ => w.mem a = none
  | .push _ e _ => e ∈ w.held
  | .free e => e ∈ w.held
  | _ => True

instance (w : World α) (act : Action α) : Decidable (Allowed w act) :=
  match act with
  | .create a _ => inferInstanceAs (Decidable (w.mem a = none))
  | .push _ e _ | .free e => inferInstanceAs (Decidable (e ∈ w.held))
  | .pop _ | .popWait _ _ | .notifyFd _ _ => inferInstanceAs (Decidable True)

/-- A history of callers that keep to the contract. -/
def Legal (l : List (Action α)) : Prop := Run.Guarded step World.init Allowed l

/-- What an action does to the deques. -/
def deque (d : ℕ → List Addr) : Action α → ℕ → List Addr
  | .push q e front => Function.update d q (pushed front e (d q))
  | .pop q | .popWait q _ => Function.update d q (d q).tail
  | _ => d

/-- The deques after a history. -/
def deques (l : List (Action α)) : ℕ → List Addr := l.foldl deque fun _ => []

/-- **The invariant of runs.** -/
structure Inv (w : World α) (d : ℕ → List (Addr × α)) : Prop extends Rep w.toState d where
  /-- No entry is held twice. -/
  nodup_held : w.held.Nodup
  /-- An entry that is held is on no queue, and its links are null. -/
  held : ∀ a ∈ w.held, (∃ v, w.mem a = some ⟨v, none, none⟩) ∧ ∀ q, a ∉ addrs (d q)
  /-- An entry in use is held or on a queue. -/
  all : ∀ a, w.mem a ≠ none → a ∈ w.held ∨ ∃ q, a ∈ addrs (d q)

theorem Inv.init : Inv (World.init : World α) fun _ => [] where
  toRep := Rep.init
  nodup_held := List.nodup_nil
  held _ h := by cases h
  all _ h := absurd rfl h

section Step

variable {w : World α} {d : ℕ → List (Addr × α)}

/-- An entry that is in use is not new. -/
theorem Inv.create (h : Inv w d) {a : Addr} (v : α) (ha : w.mem a = none) :
    ∃ w', step w (.create a v) = some w' ∧ Inv w' d := by
  have hqueue : ∀ q, a ∉ addrs (d q) := fun q hmem => (h.list q).ne_none hmem ha
  have hheld : a ∉ w.held := fun hmem => by
    obtain ⟨⟨v', hv'⟩, -⟩ := h.held a hmem
    rw [ha] at hv'
    cases hv'
  have hrun : step w (.create a v) = some
      ⟨⟨Function.update w.mem a (some ⟨v, none, none⟩), w.queue, w.notified⟩, a :: w.held⟩ := by
    simp only [step, ev_create, ha, if_true]
    rfl
  refine ⟨_, hrun, ⟨fun q => (h.list q).update (hqueue q), h.nodup, h.disjoint⟩,
    List.nodup_cons.mpr ⟨hheld, h.nodup_held⟩, fun b hb => ?_, fun b hb => ?_⟩
  · rcases List.mem_cons.mp hb with rfl | hb
    · exact ⟨⟨v, Function.update_self ..⟩, hqueue⟩
    · obtain ⟨⟨v', hv'⟩, hfree⟩ := h.held b hb
      have hba : b ≠ a := ne_of_mem_of_not_mem hb hheld
      exact ⟨⟨v', (Function.update_of_ne hba ..).trans hv'⟩, hfree⟩
  · by_cases hba : b = a
    · exact Or.inl (by simp [hba])
    · have hold : w.mem b ≠ none := by
        rw [← Function.update_of_ne hba (some ⟨v, none, none⟩) w.mem]
        exact hb
      exact (h.all b hold).imp_left (List.mem_cons_of_mem _)

theorem Inv.free (h : Inv w d) {e : Addr} (he : e ∈ w.held) :
    ∃ w', step w (.free e) = some w' ∧ Inv w' d := by
  obtain ⟨⟨v, hv⟩, hqueue⟩ := h.held e he
  have hne : w.mem e ≠ none := by simp [hv]
  have hrun : step w (.free e) = some
      ⟨⟨Function.update w.mem e none, w.queue, w.notified⟩, w.held.erase e⟩ := by
    simp only [step, ev_free, if_pos hne]
    rfl
  refine ⟨_, hrun, ⟨fun q => (h.list q).update (hqueue q), h.nodup, h.disjoint⟩,
    h.nodup_held.erase e, fun b hb => ?_, fun b hb => ?_⟩
  · obtain ⟨hbe, hb⟩ := (h.nodup_held.mem_erase_iff).mp hb
    obtain ⟨⟨v', hv'⟩, hfree⟩ := h.held b hb
    exact ⟨⟨v', (Function.update_of_ne hbe ..).trans hv'⟩, hfree⟩
  · have hbe : b ≠ e := by
      rintro rfl
      exact hb (Function.update_self ..)
    have hold : w.mem b ≠ none := by
      rw [← Function.update_of_ne hbe none w.mem]
      exact hb
    exact (h.all b hold).imp_left fun hb => (h.nodup_held.mem_erase_iff).mpr ⟨hbe, hb⟩

/-- An entry that is pushed is no longer held. -/
theorem Inv.push (h : Inv w d) (q : ℕ) {e : Addr} (front : Bool) (he : e ∈ w.held) :
    ∃ w' v, step w (.push q e front) = some w' ∧
      Inv w' (Function.update d q (pushed front (e, v) (d q))) := by
  obtain ⟨⟨v, hv⟩, hqueue⟩ := h.held e he
  obtain ⟨s', hpush, hrep, hframe⟩ := h.toRep.ev_push (q := q) front hv hqueue
  have hrun : step w (.push q e front) = some ⟨s', w.held.erase e⟩ := by
    simp only [step, hpush, Option.bind_eq_bind, Option.bind_some]
  refine ⟨_, v, hrun, hrep, h.nodup_held.erase e, fun b hb => ?_, fun b hb => ?_⟩
  · obtain ⟨hbe, hb⟩ := (h.nodup_held.mem_erase_iff).mp hb
    obtain ⟨⟨v', hv'⟩, hfree⟩ := h.held b hb
    refine ⟨⟨v', (hframe b hbe (hfree q)).trans hv'⟩, fun q' hmem => ?_⟩
    by_cases hq : q' = q
    · rw [hq, Function.update_self, addrs_pushed, mem_pushed] at hmem
      exact hmem.elim hbe (hfree q)
    · rw [Function.update_of_ne hq] at hmem
      exact hfree q' hmem
  · by_cases hbe : b = e
    · exact Or.inr ⟨q, by rw [Function.update_self, addrs_pushed, mem_pushed]; exact Or.inl hbe⟩
    · by_cases hbq : b ∈ addrs (d q)
      · exact Or.inr ⟨q, by rw [Function.update_self, addrs_pushed, mem_pushed]; exact Or.inr hbq⟩
      · have hold : w.mem b ≠ none := by rwa [← hframe b hbe hbq]
        rcases h.all b hold with hb | ⟨q', hb⟩
        · exact Or.inl ((h.nodup_held.mem_erase_iff).mpr ⟨hbe, hb⟩)
        · refine Or.inr ⟨q', ?_⟩
          have hq : q' ≠ q := by
            rintro rfl
            exact hbq hb
          rwa [Function.update_of_ne hq]

/-- An entry that is popped is held. -/
theorem Inv.pop (h : Inv w d) (q : ℕ) :
    ∃ e s, ev_pop q w.toState = some (e, s) ∧ e = (addrs (d q)).head? ∧
      (∀ a, e = some a → ∃ v, s.mem a = some ⟨v, none, none⟩) ∧
      Inv ⟨s, e.toList ++ w.held⟩ (Function.update d q (d q).tail) := by
  cases hd : d q with
  | nil =>
    refine ⟨none, w.toState, h.toRep.ev_pop_nil hd, rfl, fun _ ha => (by cases ha), ?_⟩
    -- an empty queue stays empty
    have hsame : Function.update d q ([] : List (Addr × α)).tail = d := by
      rw [List.tail_nil, ← hd, Function.update_eq_self]
    rw [hsame]
    exact h
  | cons x xs =>
    obtain ⟨s', hpop, hrep, hx, hframe⟩ := h.toRep.ev_pop_cons hd
    have hmem : x.1 ∈ addrs (d q) := by simp [hd]
    -- an entry in a queue is not held, and in no other queue
    have hnot : x.1 ∉ w.held := fun hheld => (h.held x.1 hheld).2 q hmem
    have hsub : ∀ q' b, b ∈ addrs (Function.update d q (x :: xs).tail q') → b ∈ addrs (d q') := by
      intro q' b hb
      by_cases hq : q' = q
      · rw [hq, Function.update_self] at hb
        rw [hq, hd]
        exact List.mem_cons_of_mem _ hb
      · rwa [Function.update_of_ne hq] at hb
    refine ⟨some x.1, s', hpop, rfl, fun a ha => ?_, hrep,
      List.nodup_cons.mpr ⟨hnot, h.nodup_held⟩, fun b hb => ?_, fun b hb => ?_⟩
    · cases ha
      exact ⟨x.2, hx⟩
    -- what is held is in no queue any more
    · rcases List.mem_cons.mp hb with rfl | hb
      · refine ⟨⟨x.2, hx⟩, fun q' hq' => ?_⟩
        obtain rfl : q' = q := h.disjoint q' q x.1 (hsub q' _ hq') hmem
        have hnd := h.nodup q'
        rw [hd] at hnd
        rw [Function.update_self] at hq'
        exact (List.nodup_cons.mp hnd).1 hq'
      · obtain ⟨⟨v', hv'⟩, hfree⟩ := h.held b hb
        exact ⟨⟨v', (hframe b (hfree q)).trans hv'⟩, fun q' hq' => hfree q' (hsub q' b hq')⟩
    -- every entry is still somewhere
    · by_cases hbq : b ∈ addrs (d q)
      · rw [hd] at hbq
        rcases List.mem_cons.mp hbq with rfl | hbq
        · exact Or.inl (List.mem_cons_self ..)
        · exact Or.inr ⟨q, by rw [Function.update_self]; exact hbq⟩
      · have hold : w.mem b ≠ none := by rwa [← hframe b hbq]
        rcases h.all b hold with hb | ⟨q', hb⟩
        · exact Or.inl (List.mem_cons_of_mem _ hb)
        · refine Or.inr ⟨q', ?_⟩
          have hq : q' ≠ q := by
            rintro rfl
            exact hbq hb
          rwa [Function.update_of_ne hq]

theorem notify_fd_frame (q fd : ℕ) (s : State α) :
    (ev_queue_notify_fd q fd s).2.mem = s.mem ∧
      ∀ q', ((ev_queue_notify_fd q fd s).2.queue q').head = (s.queue q').head ∧
        ((ev_queue_notify_fd q fd s).2.queue q').tail = (s.queue q').tail := by
  rw [ev_queue_notify_fd]
  split
  · refine ⟨rfl, fun q' => ?_⟩
    by_cases hq : q' = q
    · subst hq
      simp only [Function.update_self, and_self]
    · simp only [Function.update_of_ne hq, and_self]
  · exact ⟨rfl, fun _ => ⟨rfl, rfl⟩⟩

/-- **A call keeps the invariant** and does to each queue what it does to its deque. -/
theorem Inv.step (h : Inv w d) (a : Action α) (ha : Allowed w a) :
    ∃ w' d', Queue.step w a = some w' ∧ Inv w' d' ∧
      (fun q => addrs (d' q)) = deque (fun q => addrs (d q)) a := by
  have hupdate : ∀ q xs, (fun q' => addrs (Function.update d q xs q'))
      = Function.update (fun q' => addrs (d q')) q (addrs xs) := by
    intro q xs
    funext q'
    by_cases hq : q' = q
    · subst hq
      simp only [Function.update_self]
    · simp only [Function.update_of_ne hq]
  cases a with
  | create a v =>
    obtain ⟨w', hrun, hinv⟩ := h.create v ha
    exact ⟨w', d, hrun, hinv, rfl⟩
  | push q e front =>
    obtain ⟨w', v, hrun, hinv⟩ := h.push q front ha
    refine ⟨w', _, hrun, hinv, ?_⟩
    rw [hupdate, addrs_pushed]
    rfl
  | pop q =>
    obtain ⟨e, s, hpop, -, -, hinv⟩ := h.pop q
    refine ⟨⟨s, e.toList ++ w.held⟩, _, ?_, hinv, ?_⟩
    · simp only [Queue.step, hpop, Option.bind_eq_bind, Option.bind_some]
    · rw [hupdate, addrs, List.map_tail]
      rfl
  | popWait q timedOut =>
    by_cases hwait : (w.queue q).head = none ∧ ¬ timedOut
    · refine ⟨w, d, ?_, h, ?_⟩
      · simp only [Queue.step, ev_pop_wait, if_pos hwait, Option.bind_eq_bind, Option.bind_some]
      · have hnil : addrs (d q) = [] := by
          rw [← List.head?_eq_none_iff, ← h.head_eq q]
          exact hwait.1
        show (fun q => addrs (d q)) = Function.update (fun q => addrs (d q)) q (addrs (d q)).tail
        rw [hnil, List.tail_nil, ← hnil]
        exact (Function.update_eq_self q _).symm
    · obtain ⟨e, s, hpop, -, -, hinv⟩ := h.pop q
      refine ⟨⟨s, e.toList ++ w.held⟩, _, ?_, hinv, ?_⟩
      · simp only [Queue.step, ev_pop_wait, if_neg hwait, hpop, Option.bind_eq_bind,
          Option.bind_some]
      · rw [hupdate, addrs, List.map_tail]
        rfl
  | notifyFd q fd =>
    -- a descriptor is no part of the list
    obtain ⟨hmem, hlinks⟩ := notify_fd_frame q fd w.toState
    refine ⟨_, d, rfl, ⟨⟨fun q' => ?_, h.nodup, h.disjoint⟩, h.nodup_held, ?_, ?_⟩, rfl⟩
    · show Seg (ev_queue_notify_fd q fd w.toState).2.mem _ _ _ _ _
      rw [hmem, (hlinks q').1, (hlinks q').2]
      exact h.list q'
    · show ∀ a ∈ w.held, (∃ v, (ev_queue_notify_fd q fd w.toState).2.mem a = _) ∧ _
      rw [hmem]
      exact h.held
    · show ∀ a, (ev_queue_notify_fd q fd w.toState).2.mem a ≠ none → _
      rw [hmem]
      exact h.all
  | free e =>
    obtain ⟨w', hrun, hinv⟩ := h.free ha
    exact ⟨w', d, hrun, hinv, rfl⟩

end Step

/-! ### The deques of a history -/

/-- The links of a queue agree with each other, and lead through `xs`. -/
structure Consistent (s : State α) (q : ℕ) (xs : List Addr) : Prop where
  /-- The head is null exactly if there are no entries. -/
  head : (s.queue q).head = xs.head?
  tail : (s.queue q).tail = xs.getLast?
  /-- From the head to the last entry, whose link is null. -/
  forwards : follow Node.next s.mem xs.length (s.queue q).head = some (xs, none)
  /-- From the tail to the first one, whose link is null. -/
  backwards : follow Node.prev s.mem xs.length (s.queue q).tail = some (xs.reverse, none)

theorem Rep.consistent {s : State α} {d : ℕ → List (Addr × α)} (h : Rep s d) (q : ℕ) :
    Consistent s q (addrs (d q)) where
  head := h.head_eq q
  tail := by
    have hends := (h.list q).ends.2
    rwa [Option.or_none] at hends
  forwards := by
    rw [addrs, List.length_map]
    exact (h.list q).follow_next
  backwards := by
    rw [addrs, List.length_map]
    exact (h.list q).follow_prev

/-- The invariant holds after every history of callers that keep to the contract. -/
theorem Legal.inv {l : List (Action α)} (hl : Legal l) :
    ∃ w, Run.run step World.init l = some w ∧
      ∃ d, Inv w d ∧ (fun q => addrs (d q)) = deques l := by
  refine Run.total_guarded (P := fun l w => ∃ d, Inv w d ∧ (fun q => addrs (d q)) = deques l)
    ⟨_, Inv.init, rfl⟩ ?_ hl
  rintro l w a ⟨d, hinv, hd⟩ ha
  obtain ⟨w', d', hstep, hinv', hd'⟩ := hinv.step a ha
  refine ⟨w', hstep, d', hinv', ?_⟩
  rw [hd', hd, deques, deques, List.foldl_append]
  rfl

/-- **Event queues are deques.** After every history of pushes, at either end, and pops on
any number of queues, in which only entries that are held are pushed, each queue is
consistent and holds what the same history makes of its deque. A pop then returns the
first entry, or null, and the links of the entry are null; a call that may wait does
the same once there is an entry or no time left. -/
theorem queues_are_deques {l : List (Action α)} (hl : Legal l) :
    ∃ w, Run.run step World.init l = some w ∧ ∀ q,
      Consistent w.toState q (deques l q) ∧
      ∃ s, ev_pop q w.toState = some ((deques l q).head?, s) ∧
        (∀ timedOut, ev_pop_wait q timedOut w.toState
          = some (if deques l q = [] ∧ timedOut = false then .waiting
            else .over ((deques l q).head?, s))) ∧
        ∀ e, (deques l q).head? = some e → ∃ v, s.mem e = some ⟨v, none, none⟩ := by
  obtain ⟨w, hrun, d, hinv, hd⟩ := hl.inv
  refine ⟨w, hrun, fun q => ?_⟩
  have hq : deques l q = addrs (d q) := (congrFun hd q).symm
  obtain ⟨e, s, hpop, he, hnull, -⟩ := hinv.pop q
  subst he
  rw [hq]
  refine ⟨hinv.consistent q, s, hpop, fun timedOut => ?_, hnull⟩
  have hhead : (w.queue q).head = none ↔ addrs (d q) = [] := by
    rw [hinv.head_eq q, List.head?_eq_none_iff]
  simp only [ev_pop_wait, hhead, hpop, Option.bind_eq_bind, Option.bind_some,
    Bool.not_eq_true]
  split <;> rfl

/-- Two entries are pushed, the one at the back and the other at the front. The one that is
popped is pushed again, and the next one moves to another queue. -/
def twoEntries : List (Action Unit) :=
  [.create 7 (), .create 8 (), .push 0 7 false, .push 0 8 true, .pop 0, .push 0 8 false,
    .popWait 0 true, .push 1 7 true]

theorem queues_are_deques_two :
    ∃ w, Run.run step World.init twoEntries = some w ∧ ∀ q,
      Consistent w.toState q (deques twoEntries q) ∧
      ∃ s, ev_pop q w.toState = some ((deques twoEntries q).head?, s) ∧
        (∀ timedOut, ev_pop_wait q timedOut w.toState
          = some (if deques twoEntries q = [] ∧ timedOut = false then .waiting
            else .over ((deques twoEntries q).head?, s))) ∧
        ∀ e, (deques twoEntries q).head? = some e → ∃ v, s.mem e = some ⟨v, none, none⟩ :=
  queues_are_deques (Run.guarded_of_permits (by decide))

example : (deques twoEntries 0, deques twoEntries 1) = ([8], [7]) := rfl

end Queue
end Osrv
