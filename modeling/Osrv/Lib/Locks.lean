import Mathlib.Data.Nat.Notation
import Mathlib.Logic.Function.Basic
import Mathlib.Logic.Relation
import Osrv.Lib.Run

/-!
# Programs that lock mutexes

A program is written as what it does to the mutexes: `lock` and `unlock` steps under
sequence, choice and iteration. Its traces are the lists of steps that a call may
perform, so a condition on data becomes a choice and a loop over data any number of
rounds.

`Nested rank b p` says that every run of `p`, started with locks of rank below `b`,
takes its locks in the order of the ranks, releases first what it took last, and ends
with the locks it started with. Critical sections nest by `Nested.critical`.

`Sys` runs calls of such programs in any number of threads. If every program is
nested, then in every reachable state a thread that is about to lock a mutex holds
only mutexes of smaller rank (`Clean.rank_lt`), no threads wait for each other in a
circle (`Clean.no_cycle`), and with bounded ranks some thread can go on
(`Clean.progress`).
-/

namespace Locks

variable {L T C : Type*}

/-! ### Programs -/

/-- A step of a thread. -/
inductive Op (L : Type*)
  | lock (l : L)
  | unlock (l : L)

/-- What a function does to the mutexes. -/
inductive Prog (L : Type*)
  | skip
  | lock (l : L)
  | unlock (l : L)
  | seq (p q : Prog L)
  | alt (p q : Prog L)
  | loop (p : Prog L)

namespace Prog

/-- A critical section. -/
def critical (l : L) (p : Prog L) : Prog L := .seq (.lock l) (.seq p (.unlock l))

/-- The lists of steps that a call may perform. -/
inductive Trace : Prog L → List (Op L) → Prop
  | skip : Trace .skip []
  | lock (l : L) : Trace (.lock l) [.lock l]
  | unlock (l : L) : Trace (.unlock l) [.unlock l]
  | seq {p q : Prog L} {xs ys : List (Op L)} (hp : Trace p xs) (hq : Trace q ys) :
      Trace (.seq p q) (xs ++ ys)
  | left {p q : Prog L} {xs : List (Op L)} (hp : Trace p xs) : Trace (.alt p q) xs
  | right {p q : Prog L} {xs : List (Op L)} (hq : Trace q xs) : Trace (.alt p q) xs
  | done {p : Prog L} : Trace (.loop p) []
  | again {p : Prog L} {xs ys : List (Op L)} (hp : Trace p xs) (hq : Trace (.loop p) ys) :
      Trace (.loop p) (xs ++ ys)

theorem Trace.critical {l : L} {p : Prog L} {xs : List (Op L)} (h : Trace p xs) :
    Trace (Prog.critical l p) (.lock l :: xs ++ [.unlock l]) := by
  have h' := Trace.seq (.lock l) (Trace.seq h (.unlock l))
  rwa [← List.append_assoc] at h'

end Prog

/-! ### The order of the locks -/

section Order

variable {rank : L → ℕ} {held held' held'' : List L} {ops ops' : List (Op L)} {b b' : ℕ}
  {p q : Prog L}

/-- The steps lead from one stack of locks to another: what is locked ranks above
everything on the stack, what is unlocked is on top of it. -/
inductive Obeys (rank : L → ℕ) : List L → List (Op L) → List L → Prop
  | nil (held : List L) : Obeys rank held [] held
  | lock {l : L} {held held' : List L} {ops : List (Op L)} (above : ∀ m ∈ held, rank m < rank l)
      (h : Obeys rank (l :: held) ops held') : Obeys rank held (.lock l :: ops) held'
  | unlock {l : L} {held held' : List L} {ops : List (Op L)} (h : Obeys rank held ops held') :
      Obeys rank (l :: held) (.unlock l :: ops) held'

theorem Obeys.append (h : Obeys rank held ops held') (h' : Obeys rank held' ops' held'') :
    Obeys rank held (ops ++ ops') held'' := by
  induction h with
  | nil held => exact h'
  | lock above _ ih => exact .lock above (ih h')
  | unlock _ ih => exact .unlock (ih h')

/-- **Nested programs**: from locks of rank below `b` back to these locks, in order. -/
def Nested (rank : L → ℕ) (b : ℕ) (p : Prog L) : Prop :=
  ∀ held ops, (∀ m ∈ held, rank m < b) → p.Trace ops → Obeys rank held ops held

theorem Nested.mono (h : Nested rank b p) (hb : b' ≤ b) : Nested rank b' p :=
  fun held ops hheld hops => h held ops (fun m hm => (hheld m hm).trans_le hb) hops

theorem Nested.skip : Nested rank b (.skip : Prog L) := by
  intro held ops _ hops
  cases hops
  exact .nil held

theorem Nested.seq (hp : Nested rank b p) (hq : Nested rank b q) : Nested rank b (.seq p q) := by
  intro held ops hheld hops
  cases hops with
  | seq hxs hys => exact (hp held _ hheld hxs).append (hq held _ hheld hys)

theorem Nested.alt (hp : Nested rank b p) (hq : Nested rank b q) : Nested rank b (.alt p q) := by
  intro held ops hheld hops
  cases hops with
  | left hxs => exact hp held ops hheld hxs
  | right hxs => exact hq held ops hheld hxs

theorem Nested.loop (hp : Nested rank b p) : Nested rank b (.loop p) := by
  intro held ops hheld hops
  -- The rounds, one after the other, each from `held` back to `held`.
  generalize hq : Prog.loop p = q at hops
  induction hops with
  | done => exact .nil held
  | again hxs _ _ ih =>
    obtain rfl := Prog.loop.inj hq
    exact (hp held _ hheld hxs).append (ih rfl)
  | skip | lock | unlock | seq | left | right => exact absurd hq (by simp)

/-- Locks nest if each ranks above those taken before it. -/
theorem Nested.critical {l : L} (hp : Nested rank (rank l + 1) p) (hb : b ≤ rank l) :
    Nested rank b (.critical l p) := by
  intro held ops hheld hops
  have above : ∀ m ∈ held, rank m < rank l := fun m hm => (hheld m hm).trans_le hb
  obtain _ | _ | _ | ⟨hlock, hrest⟩ := hops
  cases hlock
  obtain _ | _ | _ | ⟨hxs, hunlock⟩ := hrest
  cases hunlock
  refine .lock above ((hp (l :: held) _ ?_ hxs).append (.unlock (.nil held)))
  intro m hm
  rcases List.mem_cons.mp hm with rfl | hm
  · exact Nat.lt_succ_self _
  · exact (above m hm).trans (Nat.lt_succ_self _)

end Order

/-! ### Threads -/

/-- The mutexes, each with the thread that has locked it, and what is left of the call
that each thread is in. -/
structure Sys (L T : Type*) where
  owner : L → Option T
  calls : T → Option (List (Op L))

/-- No mutex is locked and no thread is in a call. -/
def Sys.init : Sys L T := ⟨fun _ => none, fun _ => none⟩

/-- What a thread may do. -/
inductive Act (L T : Type*)
  /-- It calls a function that is going to perform the steps. -/
  | call (t : T) (ops : List (Op L))
  /-- It performs the next step of its call. -/
  | step (t : T)
  /-- Its call returns. -/
  | ret (t : T)

/-- A mutex can be locked while nobody has it; until then the thread waits. -/
def Sys.step [DecidableEq L] [DecidableEq T] (s : Sys L T) : Act L T → Option (Sys L T)
  | .call t ops =>
    match s.calls t with
    | none => some { s with calls := Function.update s.calls t (some ops) }
    | some _ => none
  | .step t =>
    match s.calls t with
    | some (.lock l :: ops) =>
      if s.owner l = none then
        some ⟨Function.update s.owner l (some t), Function.update s.calls t (some ops)⟩
      else none
    | some (.unlock l :: ops) =>
      some ⟨Function.update s.owner l none, Function.update s.calls t (some ops)⟩
    | _ => none
  | .ret t =>
    match s.calls t with
    | some [] => some { s with calls := Function.update s.calls t none }
    | _ => none

/-- A call performs a trace of one of the programs. -/
def Act.Allowed (code : C → Prog L) : Act L T → Prop
  | .call _ ops => ∃ c, (code c).Trace ops
  | .step _ | .ret _ => True

/-- The states that calls of the programs lead to. -/
def Sys.Reachable [DecidableEq L] [DecidableEq T] (code : C → Prog L) (s : Sys L T) : Prop :=
  ∃ acts : List (Act L T), (∀ a ∈ acts, a.Allowed code) ∧ Run.run Sys.step .init acts = some s

/-- The next step of the thread is to lock the mutex. -/
def Sys.Waits (s : Sys L T) (t : T) (l : L) : Prop := ∃ ops, s.calls t = some (.lock l :: ops)

/-- The thread waits for a mutex that the other one holds. -/
def Sys.WaitsFor (s : Sys L T) (t u : T) : Prop := ∃ l, s.Waits t l ∧ s.owner l = some u

/-! ### The invariant -/

/-- The mutexes of a thread form a stack from which its steps lead to the empty one. -/
def Orderly (rank : L → ℕ) (owned : L → Prop) (call : Option (List (Op L))) : Prop :=
  ∃ held : List L, held.Nodup ∧ (∀ l, owned l ↔ l ∈ held) ∧ Obeys rank held (call.getD []) []

/-- **The locks are taken in order**, by every thread. -/
def Clean (rank : L → ℕ) (s : Sys L T) : Prop :=
  ∀ t, Orderly rank (fun l => s.owner l = some t) (s.calls t)

theorem Orderly.congr {rank : L → ℕ} {owned owned' : L → Prop} {call : Option (List (Op L))}
    (h : Orderly rank owned call) (hl : ∀ l, owned' l ↔ owned l) : Orderly rank owned' call := by
  obtain ⟨held, hnodup, hheld, hobeys⟩ := h
  exact ⟨held, hnodup, fun l => (hl l).trans (hheld l), hobeys⟩

section Invariant

variable {rank : L → ℕ} {s s' : Sys L T} {t : T} {l : L}

theorem Clean.init : Clean rank (Sys.init : Sys L T) :=
  fun _ => ⟨[], .nil, fun _ => by simp [Sys.init], .nil []⟩

/-- A thread locks only what ranks above everything it holds. -/
theorem Clean.rank_lt (h : Clean rank s) (hw : s.Waits t l) {m : L} (hm : s.owner m = some t) :
    rank m < rank l := by
  obtain ⟨ops, hcall⟩ := hw
  obtain ⟨held, -, hheld, hobeys⟩ := h t
  rw [hcall, Option.getD_some] at hobeys
  cases hobeys with
  | lock above _ => exact above m ((hheld m).mp hm)

/-- A thread that is done with its call, or in none, holds nothing. -/
theorem Clean.owner_ne (h : Clean rank s) (hcall : (s.calls t).getD [] = []) :
    s.owner l ≠ some t := by
  intro hl
  obtain ⟨held, -, hheld, hobeys⟩ := h t
  rw [hcall] at hobeys
  cases hobeys
  exact List.not_mem_nil ((hheld l).mp hl)

/-- A thread unlocks only what it holds. -/
theorem Clean.owner_eq (h : Clean rank s) {ops : List (Op L)}
    (hcall : s.calls t = some (.unlock l :: ops)) : s.owner l = some t := by
  obtain ⟨held, -, hheld, hobeys⟩ := h t
  rw [hcall, Option.getD_some] at hobeys
  cases hobeys with
  | unlock _ => exact (hheld l).mpr List.mem_cons_self

/-- A chain of waiting threads leads to mutexes of higher and higher rank. -/
theorem Clean.rank_le (h : Clean rank s) {t u : T} (hw : Relation.TransGen s.WaitsFor t u) :
    ∃ l m, s.Waits t l ∧ s.owner m = some u ∧ rank l ≤ rank m := by
  induction hw with
  | single hw =>
    obtain ⟨l, hl, hown⟩ := hw
    exact ⟨l, l, hl, hown, le_refl _⟩
  | tail _ hw ih =>
    obtain ⟨l, m, hl, hm, hle⟩ := ih
    obtain ⟨k, hk, hown⟩ := hw
    exact ⟨l, k, hl, hown, hle.trans (h.rank_lt hk hm).le⟩

/-- **No threads wait for each other in a circle**, and none for itself. -/
theorem Clean.no_cycle (h : Clean rank s) (t : T) : ¬Relation.TransGen s.WaitsFor t t := by
  intro hw
  obtain ⟨l, m, hl, hm, hle⟩ := h.rank_le hw
  exact absurd (h.rank_lt hl hm) (Nat.not_lt.mpr hle)

/-- Steps of another thread change neither the locks of a thread nor its call. -/
theorem Clean.update [DecidableEq T] (h : Clean rank s) {owner : L → Option T}
    {call : Option (List (Op L))} (ht : Orderly rank (fun l => owner l = some t) call)
    (hother : ∀ u, u ≠ t → ∀ l, owner l = some u ↔ s.owner l = some u) :
    Clean rank ⟨owner, Function.update s.calls t call⟩ := by
  intro u
  by_cases hu : u = t
  · subst hu
    show Orderly rank _ (Function.update s.calls u call u)
    rw [Function.update_self]
    exact ht
  · show Orderly rank _ (Function.update s.calls t call u)
    rw [Function.update_of_ne hu]
    exact (h u).congr (hother u hu)

section Steps

variable [DecidableEq L] [DecidableEq T]

/-- What a step of the thread can be. -/
theorem Sys.step_cases (h : s.step (.step t) = some s') :
    (∃ l ops, s.calls t = some (.lock l :: ops) ∧ s.owner l = none ∧
      s' = ⟨Function.update s.owner l (some t), Function.update s.calls t (some ops)⟩) ∨
    (∃ l ops, s.calls t = some (.unlock l :: ops) ∧
      s' = ⟨Function.update s.owner l none, Function.update s.calls t (some ops)⟩) := by
  simp only [Sys.step] at h
  split at h
  · rename_i l ops hcall
    split at h
    · rename_i hown
      exact .inl ⟨l, ops, hcall, hown, (Option.some.inj h).symm⟩
    · cases h
  · rename_i l ops hcall
    exact .inr ⟨l, ops, hcall, (Option.some.inj h).symm⟩
  · cases h

theorem Clean.step_lock (h : Clean rank s) {ops : List (Op L)}
    (hcall : s.calls t = some (.lock l :: ops)) (hown : s.owner l = none) :
    Clean rank ⟨Function.update s.owner l (some t), Function.update s.calls t (some ops)⟩ := by
  obtain ⟨held, hnodup, hheld, hobeys⟩ := h t
  rw [hcall, Option.getD_some] at hobeys
  cases hobeys with
  | lock above hobeys =>
    have hl : l ∉ held := fun hl => absurd (above l hl) (lt_irrefl _)
    refine h.update ⟨l :: held, List.nodup_cons.mpr ⟨hl, hnodup⟩, fun m => ?_, hobeys⟩
      fun u hu m => ?_
    · by_cases hm : m = l
      · simp [hm]
      · simp [hm, hheld m]
    · by_cases hm : m = l
      · simp [hm, hown, Ne.symm hu]
      · simp [hm]

theorem Clean.step_unlock (h : Clean rank s) {ops : List (Op L)}
    (hcall : s.calls t = some (.unlock l :: ops)) :
    Clean rank ⟨Function.update s.owner l none, Function.update s.calls t (some ops)⟩ := by
  have hown : s.owner l = some t := h.owner_eq hcall
  obtain ⟨held, hnodup, hheld, hobeys⟩ := h t
  rw [hcall, Option.getD_some] at hobeys
  cases hobeys with
  | @unlock _ held _ _ hobeys =>
    obtain ⟨hl, hnodup⟩ := List.nodup_cons.mp hnodup
    refine h.update ⟨held, hnodup, fun m => ?_, hobeys⟩ fun u hu m => ?_
    · by_cases hm : m = l
      · simp [hm, hl]
      · simp [hm, hheld m]
    · by_cases hm : m = l
      · simp [hm, hown, Ne.symm hu]
      · simp [hm]

/-- One step of the system. -/
theorem Clean.next {code : C → Prog L} (hcode : ∀ c, Nested rank 0 (code c)) (h : Clean rank s)
    {a : Act L T} (ha : a.Allowed code) (hs : s.step a = some s') : Clean rank s' := by
  cases a with
  | call t ops =>
    obtain ⟨c, hops⟩ := ha
    simp only [Sys.step] at hs
    split at hs
    · rename_i hcall
      cases hs
      -- The thread holds nothing, and the program leads from nothing to nothing.
      refine h.update ⟨[], .nil, fun l => ?_, ?_⟩ fun _ _ _ => Iff.rfl
      · simp [h.owner_ne (l := l) (by rw [hcall]; rfl)]
      · exact hcode c [] ops (by simp) hops
    · cases hs
  | step t =>
    rcases Sys.step_cases hs with ⟨l, ops, hcall, hown, rfl⟩ | ⟨l, ops, hcall, rfl⟩
    · exact h.step_lock hcall hown
    · exact h.step_unlock hcall
  | ret t =>
    simp only [Sys.step] at hs
    split at hs
    · rename_i hcall
      cases hs
      refine h.update ?_ fun _ _ _ => Iff.rfl
      have ht := h t
      rwa [hcall] at ht
    · cases hs

/-- Every reachable state. -/
theorem Sys.Reachable.clean {code : C → Prog L} (hcode : ∀ c, Nested rank 0 (code c))
    (h : s.Reachable code) : Clean rank s := by
  obtain ⟨acts, hallowed, hrun⟩ := h
  refine Run.induction (P := fun acts s => (∀ a ∈ acts, a.Allowed code) → Clean rank s)
    (fun _ => .init) (fun acts s a s' ih hs hallowed => ?_) hrun hallowed
  have hbefore : Clean rank s := ih fun a ha => hallowed a (List.mem_append_left _ ha)
  exact hbefore.next hcode (hallowed a (by simp)) hs

/-! ### Progress -/

/-- The thread can go on with its call, or return from it. -/
def Sys.CanStep (s : Sys L T) (t : T) : Prop :=
  (∃ s', s.step (.step t) = some s') ∨ ∃ s', s.step (.ret t) = some s'

/-- A thread in a call goes on, unless another one has the mutex that it waits for. -/
theorem Sys.canStep_or_waitsFor (hcall : s.calls t ≠ none) : s.CanStep t ∨ ∃ u, s.WaitsFor t u := by
  obtain ⟨ops, hops⟩ := Option.ne_none_iff_exists'.mp hcall
  match ops with
  | [] => exact .inl (.inr ⟨_, by simp only [Sys.step, hops]; rfl⟩)
  | .unlock l :: ops => exact .inl (.inl ⟨_, by simp only [Sys.step, hops]; rfl⟩)
  | .lock l :: ops =>
    cases hown : s.owner l with
    | none => exact .inl (.inl ⟨_, by simp only [Sys.step, hops, hown]; rfl⟩)
    | some u => exact .inr ⟨u, l, ⟨ops, hops⟩, hown⟩

/-- **Some thread can go on**, while any thread is in a call: ranks grow along the
threads that wait for each other, and they are bounded. -/
theorem Clean.progress (h : Clean rank s) {b : ℕ} (hb : ∀ l, rank l < b)
    (hcall : s.calls t ≠ none) : ∃ u, s.CanStep u := by
  -- The induction is on how far the rank of the awaited mutex is from the bound.
  have key : ∀ n t l, b - rank l ≤ n → s.Waits t l → ∃ u, s.CanStep u := by
    intro n
    induction n with
    | zero =>
      intro t l hn _
      exact absurd (hb l) (Nat.not_lt.mpr (Nat.sub_eq_zero_iff_le.mp (Nat.le_zero.mp hn)))
    | succ n ih =>
      intro t l hn hw
      obtain ⟨ops, hops⟩ := hw
      rcases s.canStep_or_waitsFor (t := t) (by simp [hops]) with hstep | ⟨u, l', hl', hown⟩
      · exact ⟨t, hstep⟩
      · obtain rfl : l = l' := by
          obtain ⟨ops', hops'⟩ := hl'
          rw [hops, Option.some.injEq, List.cons.injEq, Op.lock.injEq] at hops'
          exact hops'.1
        by_cases hbusy : s.calls u = none
        · exact absurd hown (h.owner_ne (by rw [hbusy]; rfl))
        · rcases s.canStep_or_waitsFor hbusy with hstep | ⟨v, m, hm, -⟩
          · exact ⟨u, hstep⟩
          · have hlt : rank l < rank m := h.rank_lt hm hown
            have hlm : rank m < b := hb m
            exact ih u m (by omega) hm
  rcases s.canStep_or_waitsFor hcall with hstep | ⟨u, l, hl, -⟩
  · exact ⟨t, hstep⟩
  · exact key b t l (Nat.sub_le _ _) hl

end Steps

end Invariant

end Locks
