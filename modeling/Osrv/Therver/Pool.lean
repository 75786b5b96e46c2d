import Osrv.Lib.Links
import Osrv.Lib.Run

/-!
# The pool of workers

The queue of `therver.c` between the thread that accepts connections and the
workers. It is a ring of entries through `root`, which is no connection itself.
`add_task` puts an entry in front of the root and a worker takes the one behind
it. The links of an entry that has been taken are left as they are.

A step of the state is what a thread does while it holds `pool_mutex`, or the
service of a connection, which is a parameter. `calloc` may return any memory that
is not in use.
-/

namespace Osrv
namespace Pool

open Links

/-! ### The state -/

/-- `conn_t` -/
structure Conn where
  s : ℤ
  data : Option ℕ

/-- What a worker is doing, with the data it keeps from one connection to the next. -/
inductive Worker
  | idle (data : Option ℕ)
  | serving (me : Addr) (data : Option ℕ)
  | ended

/-- `therver_t`, with what the workers have taken so far and the sockets they have
closed. -/
structure Therver where
  mem : Mem Conn
  root : Addr
  active : Bool
  workers : ℕ → Worker
  taken : List (Addr × Conn)
  closed : List ℤ

/-- The ring at the start: the root alone. -/
def start_threads (root : Addr) : Therver where
  mem := Function.update (fun _ => none) root (some ⟨⟨-1, none⟩, some root, some root⟩)
  root := root
  active := true
  workers _ := .idle none
  taken := []
  closed := []

/-! ### The threads -/

/-- Puts an entry at the end of the queue. -/
def add_task (me : Addr) (t : Therver) : Option Therver := do
  let mem ← setNext t.mem me (some t.root)
  let root ← mem t.root
  let mem ← setPrev mem me root.prev
  let mem ← relinkNext mem root.prev (some me)
  let mem ← setPrev mem t.root (some me)
  some { t with mem := mem }

/-- Queues an accepted connection, in an entry of its own. -/
def accept (me : Addr) (s : ℤ) (t : Therver) : Option Therver :=
  if t.mem me = none then
    add_task me { t with mem := Function.update t.mem me (some ⟨⟨s, none⟩, none, none⟩) }
  else none

/-- What a worker does with the mutex: it waits, ends or takes the first entry. -/
def dequeue (w : ℕ) (data : Option ℕ) (t : Therver) : Option Therver :=
  if ¬ t.active then some { t with workers := Function.update t.workers w .ended }
  else do
    let root ← t.mem t.root
    match root.next with
    | none => some t
    | some me =>
      -- an empty list: the root is linked to itself
      if me = t.root then some t
      else do
        -- the entry is unlinked
        let e ← t.mem me
        let mem ← setNext t.mem t.root e.next
        let e ← mem me
        let mem ← relinkPrev mem e.next (some t.root)
        some { t with
          mem := mem
          workers := Function.update t.workers w (.serving me data)
          taken := t.taken ++ [(me, e.val)] }

/-- Serves a connection, closes its socket unless that has been done, and frees the
entry. -/
def serve (process : Conn → Conn) (w : ℕ) (me : Addr) (data : Option ℕ) (t : Therver) :
    Option Therver := do
  let e ← t.mem me
  let c := process { e.val with data := data }
  some { t with
    mem := Function.update t.mem me none
    workers := Function.update t.workers w (.idle c.data)
    closed := t.closed ++ if c.s = -1 then [] else [c.s] }

/-! ### Runs -/

/-- The steps of the threads. -/
inductive Action
  | accept (me : Addr) (s : ℤ)
  | dequeue (w : ℕ)
  | serve (w : ℕ)
  | shutdown

variable (process : Conn → Conn)

/-- A worker that has something else to do takes no step. -/
def step (t : Therver) : Action → Option Therver
  | .accept me s => accept me s t
  | .dequeue w =>
    match t.workers w with
    | .idle data => dequeue w data t
    | _ => some t
  | .serve w =>
    match t.workers w with
    | .serving me data => serve process w me data t
    | _ => some t
  | .shutdown => some { t with active := false }

/-- A new entry is in memory that is not in use. -/
def Allowed (t : Therver) : Action → Prop
  | .accept me _ => t.mem me = none
  | _ => True

instance (t : Therver) (act : Action) : Decidable (Allowed t act) :=
  match act with
  | .accept me _ => inferInstanceAs (Decidable (t.mem me = none))
  | .dequeue _ | .serve _ | .shutdown => inferInstanceAs (Decidable True)

/-- The entries that a history adds. -/
def added (l : List Action) : List (Addr × Conn) :=
  l.flatMap fun a => match a with
    | .accept me s => [(me, ⟨s, none⟩)]
    | _ => []

/-! ### The invariant -/

/-- The ring through the root and the entries `xs`. -/
def Ring (t : Therver) (xs : List (Addr × Conn)) : Prop :=
  ∃ c next prev, t.mem t.root = some ⟨c, next, prev⟩ ∧
    Seg t.mem (some t.root) next xs prev (some t.root)

/-- **The invariant**: the entries `xs` are queued. -/
structure Inv (t : Therver) (xs : List (Addr × Conn)) : Prop where
  ring : Ring t xs
  /-- The root is no entry, and no entry is queued twice. -/
  nodup : (t.root :: addrs xs).Nodup
  /-- An entry that is served has not been freed and is not queued. -/
  serving : ∀ w me data, t.workers w = .serving me data →
    t.mem me ≠ none ∧ me ∉ t.root :: addrs xs
  /-- It is served by one worker. -/
  alone : ∀ w w' me data data', t.workers w = .serving me data →
    t.workers w' = .serving me data' → w = w'
  /-- The root has not been taken. -/
  root : ∀ x ∈ t.taken, x.1 ≠ t.root

theorem Inv.init (root : Addr) : Inv (start_threads root) [] where
  ring := by
    refine ⟨⟨-1, none⟩, some root, some root, ?_, rfl, rfl⟩
    simp [start_threads]
  nodup := List.nodup_singleton root
  serving _ _ _ h := by cases h
  alone _ _ _ _ _ h := by cases h
  root _ h := by cases h

section Step

variable {t : Therver} {xs : List (Addr × Conn)}

/-- What is in use outside the ring stays as it is when the ring changes. -/
theorem Inv.set (h : Inv t xs) {mem : Mem Conn} {ys : List (Addr × Conn)}
    (hring : Ring { t with mem := mem } ys) (hnodup : (t.root :: addrs ys).Nodup)
    (hsub : ∀ a ∈ addrs ys, a ∈ addrs xs ∨ t.mem a = none)
    (hmem : ∀ a, t.mem a ≠ none → a ∉ t.root :: addrs xs → mem a = t.mem a) :
    Inv { t with mem := mem } ys where
  ring := hring
  nodup := hnodup
  serving w me data hw := by
    obtain ⟨hne, hnot⟩ := h.serving w me data hw
    refine ⟨?_, fun hmem' => ?_⟩
    · show mem me ≠ none
      rw [hmem me hne hnot]
      exact hne
    · rcases List.mem_cons.mp hmem' with heq | hin
      · exact hnot (by rw [heq]; exact List.mem_cons_self ..)
      · rcases hsub me hin with hxs | hnone
        · exact hnot (List.mem_cons_of_mem _ hxs)
        · exact hne hnone
  alone := h.alone
  root := h.root

/-- **Adding** a new entry. -/
theorem Inv.accept (h : Inv t xs) {me : Addr} {s : ℤ} (hme : t.mem me = none) :
    ∃ t', accept me s t = some t' ∧ Inv t' (xs ++ [(me, ⟨s, none⟩)]) ∧
      t'.taken = t.taken ∧ t'.root = t.root := by
  obtain ⟨c, next, prev, hroot, hseg⟩ := h.ring
  -- new memory is neither the root nor an entry of the ring
  have hne : me ≠ t.root := by
    rintro rfl
    rw [hroot] at hme
    cases hme
  have hnot : me ∉ addrs xs := fun hmem => hseg.ne_none hmem hme
  obtain ⟨hrootNot, hnd⟩ := List.nodup_cons.mp h.nodup
  have haddrs : addrs (xs ++ [(me, (⟨s, none⟩ : Conn))]) = addrs xs ++ [me] := List.map_append
  have hnodup : (t.root :: addrs (xs ++ [(me, (⟨s, none⟩ : Conn))])).Nodup := by
    rw [haddrs, List.nodup_cons, List.mem_append, List.mem_singleton, List.nodup_append]
    refine ⟨fun hmem => hmem.elim hrootNot fun heq => hne heq.symm, hnd,
      List.nodup_singleton me, fun a ha b hb => ?_⟩
    rintro rfl
    exact hnot (List.mem_singleton.mp hb ▸ ha)
  have hsub : ∀ a ∈ addrs (xs ++ [(me, (⟨s, none⟩ : Conn))]), a ∈ addrs xs ∨ t.mem a = none := by
    intro a ha
    rw [haddrs, List.mem_append, List.mem_singleton] at ha
    exact ha.imp_right fun heq => by rw [heq, hme]
  -- the new entry between the last one and the root
  let mem₀ : Mem Conn := Function.update t.mem me (some ⟨⟨s, none⟩, none, none⟩)
  have h₀ : ∀ b, b ≠ me → mem₀ b = t.mem b := fun b hb => Function.update_of_ne hb ..
  have hme₀ : mem₀ me = some ⟨⟨s, none⟩, none, none⟩ := Function.update_self ..
  obtain ⟨mem₁, hrun₁, hme₁, h₁⟩ := setNext_spec hme₀ (some t.root)
  have hroot₁ : mem₁ t.root = some ⟨c, next, prev⟩ := by
    rw [h₁ _ hne.symm, h₀ _ hne.symm, hroot]
  obtain ⟨mem₂, hrun₂, hme₂, h₂⟩ := setPrev_spec hme₁ prev
  have hroot₂ : mem₂ t.root = some ⟨c, next, prev⟩ := by
    rw [h₂ _ hne.symm, hroot₁]
  -- either the root or the last entry is in front of it
  obtain ⟨mem₃, next', hrun₃, hme₃, hroot₃, hring₃, h₃⟩ : ∃ mem₃ next',
      relinkNext mem₂ prev (some me) = some mem₃ ∧
      mem₃ me = some ⟨⟨s, none⟩, some t.root, prev⟩ ∧ mem₃ t.root = some ⟨c, next', prev⟩ ∧
      Seg mem₃ (some t.root) next' xs prev (some me) ∧
      ∀ b, b ≠ t.root → b ∉ addrs xs → mem₃ b = mem₂ b := by
    rcases List.eq_nil_or_concat xs with rfl | ⟨ys, x, rfl⟩
    · -- the ring is empty, and the root is in front of itself
      obtain ⟨rfl, rfl⟩ := hseg
      obtain ⟨mem₃, hrun₃, hroot₃, h₃⟩ := setNext_spec hroot₂ (some me)
      exact ⟨mem₃, some me, hrun₃, by rw [h₃ _ hne, hme₂], hroot₃, ⟨rfl, rfl⟩,
        fun b hb _ => h₃ b hb⟩
    · -- the last entry is led to the new one
      rw [List.concat_eq_append] at hseg hnot hrootNot
      obtain ⟨rfl, prevx, hx, -⟩ := Seg.snoc_iff.mp hseg
      have hxme : x.1 ≠ me := fun heq => hnot (by simp [addrs, heq])
      have hxroot : x.1 ≠ t.root := fun heq => hrootNot (by simp [addrs, heq])
      have hx₂ : mem₂ x.1 = some ⟨x.2, some t.root, prevx⟩ := by
        rw [h₂ _ hxme, h₁ _ hxme, h₀ _ hxme, hx]
      obtain ⟨mem₃, hrun₃, hx₃, h₃⟩ := setNext_spec hx₂ (some me)
      rw [List.concat_eq_append] at hnd ⊢
      refine ⟨mem₃, next, hrun₃, by rw [h₃ _ hxme.symm, hme₂], by rw [h₃ _ hxroot.symm, hroot₂],
        hseg.relink_last hx hx₃ fun a ha => ?_, fun b _ hb => h₃ b fun heq => hb ?_⟩
      · have hax : a ≠ x.1 := by
          rw [addrs, List.map_append, List.nodup_append] at hnd
          exact fun heq => hnd.2.2 a ha x.1 (by simp) heq
        have hame : a ≠ me := fun heq => hnot (by
          rw [addrs, List.map_append, ← heq]
          exact List.mem_append_left _ ha)
        rw [h₃ _ hax, h₂ _ hame, h₁ _ hame, h₀ _ hame]
      · rw [heq]
        simp [addrs]
  -- the root is led back to it
  obtain ⟨mem₄, hrun₄, hroot₄, h₄⟩ := setPrev_spec hroot₃ (some me)
  refine ⟨{ t with mem := mem₄ }, ?_, h.set ⟨c, next', some me, hroot₄, ?_⟩ hnodup hsub
    fun a ha hout => ?_, rfl, rfl⟩
  · simp only [Pool.accept, add_task, if_pos hme]
    show (setNext mem₀ me (some t.root)).bind _ = _
    simp only [hrun₁, hroot₁, hrun₂, hrun₃, hrun₄, Option.bind_eq_bind, Option.bind_some]
  · -- the ring with the new entry at its end
    refine Seg.snoc_iff.mpr ⟨rfl, prev, (h₄ me hne).trans hme₃, hring₃.congr fun a ha => ?_⟩
    exact h₄ a (ne_of_mem_of_not_mem ha hrootNot)
  · rw [List.mem_cons, not_or] at hout
    have hame : a ≠ me := by
      rintro rfl
      exact ha hme
    rw [h₄ _ hout.1, h₃ _ hout.1 hout.2, h₂ _ hame, h₁ _ hame, h₀ _ hame]

/-- **A worker goes over** to something else. An entry that it serves must be its own. -/
theorem Inv.work (h : Inv t xs) (w : ℕ) {wk : Worker}
    (hwk : ∀ me data, wk = .serving me data → (t.mem me ≠ none ∧ me ∉ t.root :: addrs xs) ∧
      ∀ w' data', t.workers w' = .serving me data' → w' = w) :
    Inv { t with workers := Function.update t.workers w wk } xs where
  ring := h.ring
  nodup := h.nodup
  serving w' me data hw' := by
    change Function.update t.workers w wk w' = .serving me data at hw'
    by_cases heq : w' = w
    · rw [heq, Function.update_self] at hw'
      exact (hwk me data hw').1
    · rw [Function.update_of_ne heq] at hw'
      exact h.serving w' me data hw'
  alone w₁ w₂ me data data' h₁ h₂ := by
    change Function.update t.workers w wk w₁ = .serving me data at h₁
    change Function.update t.workers w wk w₂ = .serving me data' at h₂
    by_cases heq₁ : w₁ = w
    · by_cases heq₂ : w₂ = w
      · rw [heq₁, heq₂]
      · rw [heq₁, Function.update_self] at h₁
        rw [Function.update_of_ne heq₂] at h₂
        exact absurd ((hwk me data h₁).2 w₂ data' h₂) heq₂
    · rw [Function.update_of_ne heq₁] at h₁
      by_cases heq₂ : w₂ = w
      · rw [heq₂, Function.update_self] at h₂
        exact absurd ((hwk me data' h₂).2 w₁ data h₁) heq₁
      · rw [Function.update_of_ne heq₂] at h₂
        exact h.alone w₁ w₂ me data data' h₁ h₂
  root := h.root

/-- The first entry taken off the ring. It stays in use. -/
theorem Inv.unlink {x : Addr × Conn} (h : Inv t (x :: xs)) :
    ∃ c prev e mem mem', t.mem t.root = some ⟨c, some x.1, prev⟩ ∧ x.1 ≠ t.root ∧
      t.mem x.1 = some e ∧ e.val = x.2 ∧ setNext t.mem t.root e.next = some mem ∧
      mem x.1 = some e ∧ relinkPrev mem e.next (some t.root) = some mem' ∧
      Inv { t with mem := mem' } xs ∧ mem' x.1 = some e := by
  obtain ⟨c, next, prev, hroot, hseg⟩ := h.ring
  obtain ⟨rfl, next', hx, hrest⟩ := Seg.cons_iff.mp hseg
  have hnodup := h.nodup
  rw [addrs, List.map_cons, List.nodup_cons, List.mem_cons, not_or, List.nodup_cons] at hnodup
  obtain ⟨⟨hxroot, hrootNot⟩, hxNot, hnd⟩ := hnodup
  obtain ⟨mem, hrun, hroot', hmem⟩ := setNext_spec hroot next'
  have hx' : mem x.1 = some ⟨x.2, next', some t.root⟩ := by
    rw [hmem _ (Ne.symm hxroot), hx]
  -- the link of the entry behind it, which may be the root
  obtain ⟨mem', hrun', hring, hother⟩ : ∃ mem',
      relinkPrev mem next' (some t.root) = some mem' ∧ Ring { t with mem := mem' } xs ∧
      ∀ a, a ≠ t.root → a ∉ addrs xs → mem' a = mem a := by
    cases xs with
    | nil =>
      obtain ⟨rfl, rfl⟩ := hrest
      obtain ⟨mem', hrun', hroot'', hmem'⟩ := setPrev_spec hroot' (some t.root)
      exact ⟨mem', hrun', ⟨c, some t.root, some t.root, hroot'', rfl, rfl⟩,
        fun a ha _ => hmem' a ha⟩
    | cons y ys =>
      obtain ⟨rfl, next'', hy, -⟩ := Seg.cons_iff.mp hrest
      have hyroot : y.1 ≠ t.root := fun heq => hrootNot (by simp [heq])
      have hy' : mem y.1 = some ⟨y.2, next'', some x.1⟩ := by
        rw [hmem _ hyroot, hy]
      obtain ⟨mem', hrun', hy'', hmem'⟩ := setPrev_spec hy' (some t.root)
      refine ⟨mem', hrun', ⟨c, some y.1, prev, by rw [← hroot']; exact hmem' _ hyroot.symm,
        hrest.relink_first hy hy'' fun a ha => ?_⟩,
        fun a _ ha => hmem' a fun heq => ha (by simp [heq])⟩
      have hay : a ≠ y.1 := ne_of_mem_of_not_mem ha (List.nodup_cons.mp hnd).1
      have haroot : a ≠ t.root := fun heq => hrootNot (by
        rw [← heq]
        exact List.mem_cons_of_mem _ ha)
      show mem' a = t.mem a
      rw [hmem' a hay, hmem a haroot]
  refine ⟨c, prev, _, mem, mem', hroot, Ne.symm hxroot, hx, rfl, hrun, hx', hrun', ?_, ?_⟩
  · refine h.set hring (List.nodup_cons.mpr ⟨hrootNot, hnd⟩)
      (fun a ha => Or.inl (List.mem_cons_of_mem _ ha)) fun a _ hout => ?_
    simp only [addrs, List.map_cons, List.mem_cons, not_or] at hout
    rw [hother a hout.1 hout.2.2, hmem a hout.1]
  · rw [hother _ (Ne.symm hxroot) hxNot, hx']

/-- A worker that finds the server shut down ends. -/
theorem Inv.dequeue_shutdown (h : Inv t xs) (w : ℕ) (data : Option ℕ) (hactive : ¬ t.active) :
    ∃ t', dequeue w data t = some t' ∧ Inv t' xs ∧ t'.taken = t.taken ∧ t'.root = t.root := by
  rw [Pool.dequeue, if_pos hactive]
  exact ⟨_, rfl, h.work w fun _ _ heq => (by cases heq), rfl, rfl⟩

/-- **A worker with the mutex** waits or takes the first entry. -/
theorem Inv.dequeue (h : Inv t xs) (w : ℕ) (data : Option ℕ) (hactive : t.active = true) :
    ∃ t', dequeue w data t = some t' ∧ Inv t' xs.tail ∧
      t'.taken = t.taken ++ xs.head?.toList ∧ t'.root = t.root := by
  rw [Pool.dequeue, if_neg (not_not.mpr hactive)]
  cases xs with
  | nil =>
    obtain ⟨c, next, prev, hroot, rfl, rfl⟩ := h.ring
    refine ⟨t, ?_, h, (List.append_nil _).symm, rfl⟩
    simp only [hroot, Option.bind_eq_bind, Option.bind_some, if_true]
  | cons x xs =>
    obtain ⟨c, prev, e, mem, mem', hroot, hxroot, hx, hval, hrun, hx', hrun', hinv, hx''⟩ :=
      h.unlink
    have hmem : x.1 ∈ t.root :: addrs (x :: xs) := by simp
    have hout : x.1 ∉ t.root :: addrs xs := by
      have hnodup := h.nodup
      rw [addrs, List.map_cons, List.nodup_cons, List.nodup_cons] at hnodup
      rw [List.mem_cons, not_or]
      exact ⟨hxroot, hnodup.2.1⟩
    -- no other worker has the entry, since it was queued
    have hwork : Inv { t with
        mem := mem'
        workers := Function.update t.workers w (.serving x.1 data) } xs := by
      refine hinv.work w fun me data' heq => ?_
      cases heq
      refine ⟨⟨?_, hout⟩, fun w' data' hw' => ?_⟩
      · show mem' x.1 ≠ none
        rw [hx'']
        exact Option.some_ne_none _
      · exact absurd hmem (h.serving w' x.1 data' hw').2
    refine ⟨{ t with
      mem := mem'
      workers := Function.update t.workers w (.serving x.1 data)
      taken := t.taken ++ [(x.1, e.val)] }, ?_,
      ⟨hwork.ring, hwork.nodup, hwork.serving, hwork.alone, fun y hy => ?_⟩, ?_, rfl⟩
    · simp only [hroot, hx, hrun, hx', hrun', if_neg hxroot, Option.bind_eq_bind,
        Option.bind_some]
    · rcases List.mem_append.mp hy with hy | hy
      · exact h.root y hy
      · rw [List.mem_singleton.mp hy]
        exact hxroot
    · show t.taken ++ [(x.1, e.val)] = t.taken ++ [x]
      rw [hval]

/-- **Serving** a connection frees its entry. -/
theorem Inv.serve (h : Inv t xs) {w : ℕ} {me : Addr} {data : Option ℕ}
    (hw : t.workers w = .serving me data) :
    ∃ t', serve process w me data t = some t' ∧ Inv t' xs ∧
      t'.taken = t.taken ∧ t'.root = t.root := by
  obtain ⟨hne, hout⟩ := h.serving w me data hw
  obtain ⟨e, he⟩ := Option.ne_none_iff_exists'.mp hne
  obtain ⟨c, next, prev, hroot, hseg⟩ := h.ring
  rw [List.mem_cons, not_or] at hout
  let data' := (process { e.val with data := data }).data
  have hwork : Inv { t with workers := Function.update t.workers w (.idle data') } xs :=
    h.work w fun _ _ heq => (by cases heq)
  refine ⟨{ t with
    mem := Function.update t.mem me none
    workers := Function.update t.workers w (.idle data')
    closed := t.closed ++ if (process { e.val with data := data }).s = -1 then []
      else [(process { e.val with data := data }).s] }, ?_,
    ⟨⟨c, next, prev, ?_, hseg.update hout.2⟩, h.nodup, fun w' me' d' hw' => ?_, hwork.alone,
      h.root⟩, rfl, rfl⟩
  · simp only [Pool.serve, he, Option.bind_eq_bind, Option.bind_some]
    rfl
  · exact (Function.update_of_ne (Ne.symm hout.1) ..).trans hroot
  · -- another worker serves another entry
    obtain ⟨hne', hout'⟩ := hwork.serving w' me' d' hw'
    refine ⟨?_, hout'⟩
    have hme : me' ≠ me := by
      rintro rfl
      change Function.update t.workers w (.idle data') w' = .serving me' d' at hw'
      by_cases heq : w' = w
      · rw [heq, Function.update_self] at hw'
        cases hw'
      · rw [Function.update_of_ne heq] at hw'
        exact heq (h.alone w' w me' d' data hw' hw)
    show Function.update t.mem me none me' ≠ none
    rw [Function.update_of_ne hme]
    exact hne'

/-- **A step keeps the invariant**, and what has been taken and what is queued make up what
has been added. -/
theorem Inv.step (h : Inv t xs) (a : Action) (ha : Allowed t a) :
    ∃ t' ys, Pool.step process t a = some t' ∧ Inv t' ys ∧
      t'.taken ++ ys = t.taken ++ xs ++ added [a] ∧ t'.root = t.root := by
  -- a worker that has something else to do
  have hskip : Pool.step process t a = some t → added [a] = [] →
      ∃ t' ys, Pool.step process t a = some t' ∧ Inv t' ys ∧
        t'.taken ++ ys = t.taken ++ xs ++ added [a] ∧ t'.root = t.root := by
    intro hstep hadded
    refine ⟨t, xs, hstep, h, ?_, rfl⟩
    rw [hadded, List.append_nil]
  cases a with
  | accept me s =>
    obtain ⟨t', hrun, hinv, htaken, hroot⟩ := h.accept (s := s) ha
    refine ⟨t', _, hrun, hinv, ?_, hroot⟩
    rw [htaken, ← List.append_assoc]
    rfl
  | dequeue w =>
    cases hw : t.workers w with
    | idle data =>
      have hstep : Pool.step process t (.dequeue w) = Pool.dequeue w data t := by
        simp only [Pool.step, hw]
      rw [hstep]
      by_cases hactive : t.active = true
      · obtain ⟨t', hrun, hinv, htaken, hroot⟩ := h.dequeue w data hactive
        refine ⟨t', xs.tail, hrun, hinv, ?_, hroot⟩
        rw [htaken, List.append_assoc]
        show t.taken ++ (xs.head?.toList ++ xs.tail) = t.taken ++ xs ++ []
        cases xs <;> simp
      · obtain ⟨t', hrun, hinv, htaken, hroot⟩ := h.dequeue_shutdown w data hactive
        refine ⟨t', xs, hrun, hinv, ?_, hroot⟩
        rw [htaken]
        exact (List.append_nil _).symm
    | serving me data => exact hskip (by simp only [Pool.step, hw]) rfl
    | ended => exact hskip (by simp only [Pool.step, hw]) rfl
  | serve w =>
    cases hw : t.workers w with
    | serving me data =>
      obtain ⟨t', hrun, hinv, htaken, hroot⟩ := h.serve process hw
      refine ⟨t', xs, ?_, hinv, ?_, hroot⟩
      · simp only [Pool.step, hw, hrun]
      · rw [htaken]
        exact (List.append_nil _).symm
    | idle data => exact hskip (by simp only [Pool.step, hw]) rfl
    | ended => exact hskip (by simp only [Pool.step, hw]) rfl
  | shutdown =>
    exact ⟨{ t with active := false }, xs, rfl,
      ⟨h.ring, h.nodup, h.serving, h.alone, h.root⟩, (List.append_nil _).symm, rfl⟩

end Step

/-! ### The connections of a history -/

/-- The ring leads from the root through the entries `xs` back to it, in either direction. -/
structure Consistent (t : Therver) (xs : List (Addr × Conn)) : Prop where
  forwards : follow Node.next t.mem (xs.length + 1) (some t.root)
    = some (t.root :: addrs xs, some t.root)
  backwards : follow Node.prev t.mem (xs.length + 1) (some t.root)
    = some (t.root :: (addrs xs).reverse, some t.root)
  nodup : (t.root :: addrs xs).Nodup
  /-- The entries are in use, with these connections. -/
  val : ∀ x ∈ xs, (t.mem x.1).map Node.val = some x.2

theorem Inv.consistent {t : Therver} {xs : List (Addr × Conn)} (h : Inv t xs) :
    Consistent t xs := by
  obtain ⟨c, next, prev, hroot, hseg⟩ := h.ring
  refine ⟨?_, ?_, h.nodup, fun x hx => ?_⟩
  · show ((t.mem t.root).bind fun c => (follow Node.next t.mem xs.length c.next).map _) = _
    rw [hroot, Option.bind_some, hseg.follow_next]
    rfl
  · show ((t.mem t.root).bind fun c => (follow Node.prev t.mem xs.length c.prev).map _) = _
    rw [hroot, Option.bind_some, hseg.follow_prev]
    rfl
  · obtain ⟨next', prev', hx'⟩ := hseg.mem_of_mem hx
    rw [hx']
    rfl

/-- **Connections are handed out in order.** After every history of the accept thread and
any number of workers, the ring is consistent, and what the workers have taken and what is
queued make up what has been added, in order. The root is never taken. As long as the
server is active, an idle worker gets the first entry. -/
theorem taken_in_order (root : Addr) {l : List Action}
    (hl : Run.Guarded (step process) (start_threads root) Allowed l) :
    ∃ t xs, Run.run (step process) (start_threads root) l = some t ∧
      Consistent t xs ∧ t.taken ++ xs = added l ∧
      t.root = root ∧ (∀ x ∈ t.taken, x.1 ≠ root) ∧
      ∀ w data, t.active = true → t.workers w = .idle data →
        ∃ t', step process t (.dequeue w) = some t' ∧ Consistent t' xs.tail ∧
          t'.taken = t.taken ++ xs.head?.toList := by
  obtain ⟨t, hrun, xs, hinv, hadded, hroot⟩ := Run.total_guarded
    (P := fun l t => ∃ xs, Inv t xs ∧ t.taken ++ xs = added l ∧ t.root = root)
    ⟨[], Inv.init root, rfl, rfl⟩ (fun l t a hP ha => by
      obtain ⟨xs, hinv, hadded, hroot⟩ := hP
      obtain ⟨t', ys, hstep, hinv', htaken, hroot'⟩ := hinv.step process a ha
      refine ⟨t', hstep, ys, hinv', ?_, hroot'.trans hroot⟩
      rw [htaken, hadded, added, added, added, List.flatMap_append]) hl
  refine ⟨t, xs, hrun, hinv.consistent, hadded, hroot, fun x hx => ?_,
    fun w data hactive hw => ?_⟩
  · rw [← hroot]
    exact hinv.root x hx
  · obtain ⟨t', hdequeue, hinv', htaken, -⟩ := hinv.dequeue w data hactive
    refine ⟨t', ?_, hinv'.consistent, htaken⟩
    simp only [step, hw, hdequeue]

/-- Two connections are accepted and one is taken. -/
def twoConnections : List Action := [.accept 1 5, .accept 2 6, .dequeue 0]

theorem taken_in_order_two :
    ∃ t xs, Run.run (step id) (start_threads 0) twoConnections = some t ∧
      Consistent t xs ∧ t.taken ++ xs = added twoConnections ∧
      t.root = 0 ∧ (∀ x ∈ t.taken, x.1 ≠ 0) ∧
      ∀ w data, t.active = true → t.workers w = .idle data →
        ∃ t', step id t (.dequeue w) = some t' ∧ Consistent t' xs.tail ∧
          t'.taken = t.taken ++ xs.head?.toList :=
  taken_in_order id 0 (Run.guarded_of_permits (by decide))

end Pool
end Osrv
