import Osrv.Lib.Fair
import Osrv.Therver.Threads

/-!
# Every connection is taken

Infinite runs of a server that is not shut down. A run is fair if every worker that
can go on infinitely often does go on infinitely often, and if the forking thread
gives the mutex back. Every connection that is queued is taken in the end
(`queued_are_taken`), by any number of workers, however often they wait.

While a connection is queued nobody is blocked, so that every worker waits for the
mutex at most. Whoever has it gives it back after three steps (`often_free`). Then
any worker gets to the queue: its `rank` counts the steps until it takes an entry.
-/

namespace Osrv
namespace Pool

open Links Monitor Fair

/-! ### Steps towards the queue -/

/-- Whether a worker without a connection cannot go on. -/
def Blocked (t : Threads) (w : ℕ) : Prop :=
  t.phase w = .lock ∧ t.pool_mutex ≠ none ∨
    t.phase w = .waiting ∧ ¬ (w ∈ t.pool_work_cond.released ∧ t.pool_mutex = none)

/-- The steps from a place in the loop until a worker takes an entry, if there is one. -/
def Phase.rank : Phase → ℕ
  | .top => 4
  | .lock | .waiting => 3
  | .test => 2
  | .check _ => 1
  | .unlink _ => 0

/-- The same for a worker, which may have a connection. -/
def rank (t : Threads) (w : ℕ) : ℕ :=
  match t.workers w with
  | .serving _ _ => 5
  | _ => (t.phase w).rank

section Step

variable {t t' : Threads} {xs ys : List (Addr × Conn)} {a : Act} {w v : ℕ}

theorem rank_of_idle {data : Option ℕ} (hw : t.workers w = .idle data) :
    rank t w = (t.phase w).rank := by
  simp only [rank, hw]

theorem rank_of_serving {me : Addr} {data : Option ℕ} (hw : t.workers w = .serving me data) :
    rank t w = 5 := by
  simp only [rank, hw]

theorem rank_congr (hw : t'.workers w = t.workers w) (hp : t'.phase w = t.phase w) :
    rank t' w = rank t w := by
  simp only [rank, hw, hp]

/-- From one place in the loop to the next. -/
theorem rank_lt (t' : Threads) {data data' : Option ℕ} {p p' : Phase}
    (hw : t.workers w = .idle data) (hp : t.phase w = p) (hw' : t'.workers w = .idle data')
    (hp' : t'.phase w = p')
    (hlt : p'.rank < p.rank) : rank t' w < rank t w := by
  rw [rank_of_idle hw, rank_of_idle hw', hp, hp']
  exact hlt

/-- Only a shutdown changes `active`. -/
theorem Moves.active_eq (hm : Moves t xs a t' ys) (ha : a ≠ .shutdown) :
    t'.active = t.active := by
  cases hm with
  | shutdown => exact absurd rfl ha
  | acceptTop =>
    rw [Pool.acceptTop]
    split <;> rfl
  | @accept _ r => cases r.accept <;> rfl
  | prefork =>
    rw [Pool.prefork]
    split <;> rfl
  | parent =>
    rw [forked_parent]
    split <;> rfl
  | _ => rfl

/-- What has been taken and what is queued is only added to, and what has been taken is
added to from the queue. -/
theorem Moves.log (hm : Moves t xs a t' ys) :
    (∃ zs, t'.taken ++ ys = t.taken ++ xs ++ zs) ∧ (t'.taken = t.taken ∧ xs <+: ys ∨
      t'.taken.length = t.taken.length + 1 ∧ t.taken <+: t'.taken) := by
  have hkeep : (∃ zs, t.taken ++ xs = t.taken ++ xs ++ zs) ∧ (t.taken = t.taken ∧ xs <+: xs ∨
      t.taken.length = t.taken.length + 1 ∧ t.taken <+: t.taken) :=
    ⟨⟨[], (List.append_nil _).symm⟩, Or.inl ⟨rfl, List.prefix_refl _⟩⟩
  cases hm with
  | @take x =>
    refine ⟨⟨[], ?_⟩, Or.inr ⟨List.length_append, List.prefix_append _ _⟩⟩
    rw [List.append_nil]
    exact List.append_assoc ..
  | queue => exact ⟨⟨_, (List.append_assoc ..).symm⟩, Or.inl ⟨rfl, List.prefix_append _ _⟩⟩
  | acceptTop =>
    rw [Pool.acceptTop]
    split <;> exact hkeep
  | @accept _ r => cases r.accept <;> exact hkeep
  | prefork =>
    rw [Pool.prefork]
    split <;> exact hkeep
  | parent =>
    rw [forked_parent]
    split <;> exact hkeep
  | _ => exact hkeep

/-- The mutex goes from nobody to somebody or back. -/
theorem Moves.mutex (hm : Moves t xs a t' ys) :
    t'.pool_mutex = t.pool_mutex ∨ t.pool_mutex = none ∨ t'.pool_mutex = none := by
  cases hm with
  | lock _ _ hfree => exact Or.inr (Or.inl hfree)
  | resume _ _ _ hfree => exact Or.inr (Or.inl hfree)
  | wait | drop | take => exact Or.inr (Or.inr rfl)
  | acceptTop =>
    rw [Pool.acceptTop]
    split <;> exact Or.inl rfl
  | @accept _ r => cases r.accept <;> exact Or.inl rfl
  | prefork =>
    rw [Pool.prefork]
    split
    · next hfree => exact Or.inr (Or.inl hfree)
    · exact Or.inl rfl
  | parent =>
    rw [forked_parent]
    split
    · exact Or.inr (Or.inr rfl)
    · exact Or.inl rfl
  | _ => exact Or.inl rfl

/-- Nobody but the forking thread takes the mutex for it. -/
theorem Moves.of_forking (hm : Moves t xs a t' ys) (ha : a ≠ .prefork)
    (hforking : t'.pool_mutex = some .forking) : t.pool_mutex = some .forking := by
  cases hm with
  | prefork => exact absurd rfl ha
  | lock | resume | wait | drop | take => cases hforking
  | acceptTop =>
    rw [Pool.acceptTop] at hforking
    split at hforking <;> exact hforking
  | @accept _ r =>
    cases hr : r.accept <;> rw [hr] at hforking <;> exact hforking
  | parent =>
    rw [forked_parent] at hforking
    split at hforking
    · cases hforking
    · exact hforking
  | _ => exact hforking

/-- A worker does not move when another thread takes a step. -/
theorem Moves.of_ne (hm : Moves t xs a t' ys) (ha : ∀ process, a ≠ .worker w process) :
    t'.workers w = t.workers w ∧ t'.phase w = t.phase w := by
  have hne : ∀ {v process}, a = .worker v process → w ≠ v := by
    rintro v process heq rfl
    exact ha process heq
  cases hm with
  | enter | lock | resume | wait | see | miss | decide =>
    exact ⟨rfl, Function.update_of_ne (hne rfl) ..⟩
  | quit | drop | take =>
    exact ⟨Function.update_of_ne (hne rfl) .., Function.update_of_ne (hne rfl) ..⟩
  | serve => exact ⟨Function.update_of_ne (hne rfl) .., rfl⟩
  | acceptTop =>
    rw [Pool.acceptTop]
    split <;> exact ⟨rfl, rfl⟩
  | @accept _ r => cases r.accept <;> exact ⟨rfl, rfl⟩
  | prefork =>
    rw [Pool.prefork]
    split <;> exact ⟨rfl, rfl⟩
  | parent =>
    rw [forked_parent]
    split <;> exact ⟨rfl, rfl⟩
  | _ => exact ⟨rfl, rfl⟩

/-- While the server is active no worker ends. -/
theorem Moves.ended_iff (hm : Moves t xs a t' ys) (hactive : t.active = true) (w : ℕ) :
    t'.workers w = .ended ↔ t.workers w = .ended := by
  by_cases ha : ∃ process, a = .worker w process
  · obtain ⟨process, rfl⟩ := ha
    cases hm with
    | quit _ _ hf => simp [hactive] at hf
    | drop _ _ hf => simp [hactive] at hf
    | take hw =>
      refine iff_of_false (fun heq => ?_) (by rw [hw]; nofun)
      cases (Function.update_self ..).symm.trans heq
    | serve hw =>
      refine iff_of_false (fun heq => ?_) (by rw [hw]; nofun)
      cases (Function.update_self ..).symm.trans heq
    | _ => exact Iff.rfl
  · rw [(hm.of_ne (w := w) fun process heq => ha ⟨process, heq⟩).1]

/-- **A step of a worker** brings it nearer to the queue, unless it cannot go on. There is a
connection, and the worker does not take it yet. -/
theorem Moves.rank_worker {process : Service} (hm : Moves t xs (.worker w process) t' ys)
    (hs : Sound t xs) (hactive : t.active = true) (hne : xs ≠ []) (htaken : t'.taken = t.taken) :
    rank t' w < rank t w ∨ t' = t ∧ (Blocked t w ∨ t.workers w = .ended) := by
  have hinactive : t.active ≠ false := by
    rw [hactive]
    nofun
  cases hm with
  | ended hw => exact Or.inr ⟨rfl, Or.inr hw⟩
  | blocked hw hb => exact Or.inr ⟨rfl, Or.inl hb⟩
  | quit _ _ hf => exact absurd hf hinactive
  | miss _ _ hf => exact absurd hf hinactive
  | drop _ _ hf => exact absurd hf hinactive
  | wait => exact absurd rfl hne
  | take => exact absurd htaken (by simp)
  | enter hw hp =>
    exact Or.inl (rank_lt (t.goto w .lock) hw hp hw (Function.update_self ..) (by decide))
  | lock hw hp | resume hw hp =>
    have hp' : Function.update t.phase w .test w = .test := Function.update_self ..
    exact Or.inl (rank_lt _ hw hp hw hp' (by decide))
  | see hw hp =>
    exact Or.inl (rank_lt (t.goto w _) hw hp hw (Function.update_self ..) Nat.one_lt_two)
  | decide hw hp =>
    exact Or.inl (rank_lt (t.goto w _) hw hp hw (Function.update_self ..) Nat.zero_lt_one)
  | serve hw he =>
    have htop : t.phase w = .top := hs.top fun data' heq => by
      rw [hw] at heq
      cases heq
    refine Or.inl ?_
    rw [rank_of_serving hw]
    refine lt_of_eq_of_lt ((rank_of_idle (Function.update_self ..)).trans
      (congrArg Phase.rank htop)) ?_
    decide

/-- **No step** takes a worker away from the queue. -/
theorem Moves.rank_le (hm : Moves t xs a t' ys) (hs : Sound t xs) (hactive : t.active = true)
    (hne : xs ≠ []) (htaken : t'.taken = t.taken) (w : ℕ) : rank t' w ≤ rank t w := by
  by_cases ha : ∃ process, a = .worker w process
  · obtain ⟨process, rfl⟩ := ha
    rcases hm.rank_worker hs hactive hne htaken with hlt | ⟨heq, -⟩
    · exact hlt.le
    · rw [heq]
  · obtain ⟨hworkers, hphase⟩ := hm.of_ne (w := w) fun process heq => ha ⟨process, heq⟩
    exact (rank_congr hworkers hphase).le

end Step

/-! ### Fair runs -/

/-- **A fair run** of a server that is not shut down. A worker that is infinitely often able
to go on takes infinitely many steps then. One that serves a connection is able to go on, so
that every service is taken to end. -/
structure FairRun (root : Addr) (ss : ℤ) (max_threads : ℕ) where
  states : ℕ → Threads
  acts : ℕ → Act
  start : states 0 = Threads.start root ss max_threads
  step : ∀ n, next (states n) (acts n) = some (states (n + 1))
  returned : ∀ n, Returned (states n) (acts n)
  up : ∀ n, acts n ≠ .shutdown
  fair : ∀ w, w < max_threads → (Often fun n => ¬ Blocked (states n) w) →
    Often fun n => (∃ process, acts n = .worker w process) ∧ ¬ Blocked (states n) w
  /-- The thread that forks gives the mutex back. -/
  forked : ∀ n, (states n).pool_mutex = some .forking → ∃ m, n ≤ m ∧ acts m = .parent

namespace FairRun

variable {root : Addr} {ss : ℤ} {max_threads : ℕ} (r : FairRun root ss max_threads)

theorem exists_next {n : ℕ} {xs : List (Addr × Conn)} (hs : Sound (r.states n) xs) :
    ∃ ys, Sound (r.states (n + 1)) ys ∧ Moves (r.states n) xs (r.acts n) (r.states (n + 1)) ys := by
  obtain ⟨t', ys, hnext, hm⟩ := hs.next (r.acts n) (r.returned n)
  obtain rfl : t' = r.states (n + 1) := Option.some.inj (hnext.symm.trans (r.step n))
  exact ⟨ys, hm.sound hs, hm⟩

/-- The connections that are queued. -/
noncomputable def queue : (n : ℕ) → {xs : List (Addr × Conn) // Sound (r.states n) xs}
  | 0 => ⟨[], r.start ▸ Sound.start root ss max_threads⟩
  | n + 1 => ⟨(r.exists_next (queue n).2).choose, (r.exists_next (queue n).2).choose_spec.1⟩

theorem sound (n : ℕ) : Sound (r.states n) (r.queue n).1 := (r.queue n).2

theorem moves (n : ℕ) :
    Moves (r.states n) (r.queue n).1 (r.acts n) (r.states (n + 1)) (r.queue (n + 1)).1 :=
  (r.exists_next (r.queue n).2).choose_spec.2

theorem active (n : ℕ) : (r.states n).active = true := by
  induction n with
  | zero => rw [r.start]; rfl
  | succ n ih => rw [(r.moves n).active_eq (r.up n), ih]

/-- The workers that there are do not end. -/
theorem ended_iff (n w : ℕ) : (r.states n).workers w = .ended ↔ max_threads ≤ w := by
  induction n with
  | zero =>
    rw [r.start]
    show (if w < max_threads then Worker.idle none else .ended) = .ended ↔ _
    split
    · next hlt => exact iff_of_false nofun hlt.not_ge
    · next hge => exact iff_of_true rfl (not_lt.mp hge)
  | succ n ih => rw [(r.moves n).ended_iff (r.active n), ih]

/-- What has been taken and what is queued is only added to. -/
theorem log_append {n m : ℕ} (hnm : n ≤ m) :
    (∃ zs, (r.states m).taken ++ (r.queue m).1 = (r.states n).taken ++ (r.queue n).1 ++ zs) ∧
      (r.states n).taken <+: (r.states m).taken := by
  induction m, hnm using Nat.le_induction with
  | base => exact ⟨⟨[], (List.append_nil _).symm⟩, List.prefix_refl _⟩
  | succ m hnm ih =>
    obtain ⟨⟨zs, hzs⟩, hpre⟩ := ih
    obtain ⟨⟨zs', hzs'⟩, hstep⟩ := (r.moves m).log
    refine ⟨⟨zs ++ zs', by rw [hzs', hzs, List.append_assoc]⟩, ?_⟩
    rcases hstep with ⟨heq, -⟩ | ⟨-, hpre'⟩
    · rwa [heq]
    · exact hpre.trans hpre'

/-! ### While nobody takes an entry -/

section Idle

variable {n : ℕ} (hqueue : (r.queue n).1 ≠ [])
  (hidle : ∀ m, n ≤ m → (r.states (m + 1)).taken = (r.states m).taken)

include hqueue hidle

/-- The queue does not become empty. -/
theorem queue_ne_nil {m : ℕ} (hm : n ≤ m) : (r.queue m).1 ≠ [] := by
  induction m, hm using Nat.le_induction with
  | base => exact hqueue
  | succ m hm ih =>
    rcases (r.moves m).log.2 with ⟨-, hpre⟩ | ⟨hlen, -⟩
    · intro hnil
      rw [hnil] at hpre
      exact ih (List.prefix_nil.mp hpre)
    · rw [hidle m hm] at hlen
      exact absurd hlen (Nat.ne_of_lt (Nat.lt_succ_self _))

theorem rank_mono (w : ℕ) {m : ℕ} (hm : n ≤ m) :
    rank (r.states (m + 1)) w ≤ rank (r.states m) w :=
  (r.moves m).rank_le (r.sound m) (r.active m) (r.queue_ne_nil hqueue hidle hm) (hidle m hm) w

/-- A worker that is infinitely often able to go on cannot do so for ever: it takes an
entry. -/
theorem not_often {w : ℕ} (hw : w < max_threads)
    (hfree : Often fun m => ¬ Blocked (r.states m) w) : False := by
  refine @no_descent (fun m => rank (r.states m) w) n
    (fun m hm => r.rank_mono hqueue hidle w hm) fun m hm => ?_
  obtain ⟨k, hmk, ⟨process, hact⟩, hblocked⟩ := r.fair w hw hfree m
  have hk : n ≤ k := hm.trans hmk
  have hmoves := r.moves k
  rw [hact] at hmoves
  refine ⟨k, hmk, ?_⟩
  rcases hmoves.rank_worker (r.sound k) (r.active k) (r.queue_ne_nil hqueue hidle hk)
    (hidle k hk) with hlt | ⟨-, hb | he⟩
  · exact hlt
  · exact absurd hb hblocked
  · exact absurd hw ((r.ended_iff k w).mp he).not_gt

/-- **The mutex is free** infinitely often: whoever has it gives it back. -/
theorem often_free : Often fun m => (r.states m).pool_mutex = none := by
  intro j
  by_contra hnone
  have hheld : ∀ k, max n j ≤ k → (r.states k).pool_mutex ≠ none :=
    fun k hk hfree => hnone ⟨k, (le_max_right n j).trans hk, hfree⟩
  -- it stays with one thread
  have hsame : ∀ k, max n j ≤ k →
      (r.states k).pool_mutex = (r.states (max n j)).pool_mutex := by
    intro k hk
    induction k, hk using Nat.le_induction with
    | base => rfl
    | succ k hk ih =>
      rcases (r.moves k).mutex with heq | hfree | hfree
      · exact heq.trans ih
      · exact absurd hfree (hheld k hk)
      · exact absurd hfree (hheld (k + 1) (hk.trans (Nat.le_succ k)))
  cases hm : (r.states (max n j)).pool_mutex with
  | none => exact hheld _ le_rfl hm
  | some holder =>
    cases holder with
    | forking =>
      obtain ⟨k, hk, hact⟩ := r.forked _ hm
      have hstep := r.step k
      rw [hact] at hstep
      have hfree : (r.states (k + 1)).pool_mutex = none := by
        rw [← Option.some.inj hstep, forked_parent, if_pos ((hsame k hk).trans hm)]
      exact hheld (k + 1) (hk.trans (Nat.le_succ k)) hfree
    | worker v =>
      have hcritical : ∀ k, max n j ≤ k → ((r.states k).phase v).Critical :=
        fun k hk => (((r.sound k).placed v).critical).mpr ((hsame k hk).trans hm)
      -- a worker with the mutex can go on
      refine r.not_often hqueue hidle (w := v) ?_ fun i => ?_
      · by_contra hge
        have hp := hcritical _ le_rfl
        obtain ⟨data, hdata⟩ := ((r.sound (max n j)).placed v).idle fun htop => by
          rw [htop] at hp
          exact hp
        have hended := (r.ended_iff (max n j) v).mpr (not_lt.mp hge)
        rw [hdata] at hended
        cases hended
      · refine ⟨max i (max n j), le_max_left _ _, fun hblocked => ?_⟩
        have hp := hcritical _ (le_max_right i (max n j))
        rcases hblocked with ⟨hlock, -⟩ | ⟨hwaiting, -⟩
        · rw [hlock] at hp
          exact hp
        · rw [hwaiting] at hp
          exact hp

/-- Then a worker is not blocked, since nobody waits while there is a connection. -/
theorem often_unblocked (w : ℕ) : Often fun m => ¬ Blocked (r.states m) w := by
  intro j
  obtain ⟨k, hk, hfree⟩ := r.often_free hqueue hidle (max n j)
  refine ⟨k, (le_max_right n j).trans hk, fun hblocked => ?_⟩
  rcases hblocked with ⟨-, hheld⟩ | ⟨hwaiting, hnot⟩
  · exact hheld hfree
  · have hs := r.sound k
    have hblocked : (r.states k).pool_work_cond.blocked = ∅ := hs.awake fun hlen =>
      r.queue_ne_nil hqueue hidle ((le_max_left n j).trans hk) (List.length_eq_zero_iff.mp hlen)
    have hin := (hs.placed w).waiting.mpr hwaiting
    rw [hblocked, Finset.empty_union] at hin
    exact hnot ⟨hin, hfree⟩

end Idle

/-- **An entry is taken** as long as there is one. -/
theorem exists_take (hpos : 0 < max_threads) {n : ℕ} (hqueue : (r.queue n).1 ≠ []) :
    ∃ m, n ≤ m ∧ (r.states (m + 1)).taken.length = (r.states m).taken.length + 1 := by
  by_contra hnone
  have hidle : ∀ m, n ≤ m → (r.states (m + 1)).taken = (r.states m).taken := by
    intro m hm
    rcases (r.moves m).log.2 with ⟨heq, -⟩ | ⟨hlen, -⟩
    · exact heq
    · exact absurd ⟨m, hm, hlen⟩ hnone
  exact r.not_often hqueue hidle hpos (r.often_unblocked hqueue hidle 0)

/-- So as many entries are taken as were queued. -/
theorem exists_taken (hpos : 0 < max_threads) (n k : ℕ) (hk : k ≤ (r.queue n).1.length) :
    ∃ m, n ≤ m ∧ (r.states n).taken.length + k ≤ (r.states m).taken.length := by
  induction k with
  | zero => exact ⟨n, le_rfl, le_rfl⟩
  | succ k ih =>
    obtain ⟨m, hm, hlen⟩ := ih (Nat.le_of_succ_le hk)
    rcases hlen.lt_or_eq with hlt | heq
    · exact ⟨m, hm, hlt⟩
    · -- the entry behind them is still queued
      have hqueue : (r.queue m).1 ≠ [] := by
        intro hnil
        obtain ⟨⟨zs, hzs⟩, -⟩ := r.log_append hm
        have hlengths := congrArg List.length hzs
        rw [hnil, List.append_nil, List.length_append, List.length_append] at hlengths
        have hlong : (r.states n).taken.length + (k + 1) ≤ (r.states m).taken.length := by
          rw [hlengths]
          exact (Nat.add_le_add_left hk _).trans (Nat.le_add_right _ _)
        rw [← heq] at hlong
        exact absurd hlong (by rw [← Nat.add_assoc]; exact (Nat.lt_succ_self _).not_ge)
      obtain ⟨m', hm', hlen'⟩ := r.exists_take hpos hqueue
      refine ⟨m' + 1, hm.trans (hm'.trans (Nat.le_succ _)), ?_⟩
      have hmono := (r.log_append hm').2.length_le
      rw [hlen', ← Nat.add_assoc]
      exact Nat.succ_le_succ (heq.le.trans hmono)

end FairRun

/-- **Every connection is taken.** In every fair run of a server with at least one worker
that is not shut down, the connections that are queued at any time have all been taken at
some later time, in their order. -/
theorem queued_are_taken {root : Addr} {ss : ℤ} {max_threads : ℕ}
    (r : FairRun root ss max_threads) (hpos : 0 < max_threads) (n : ℕ) :
    ∃ xs m, n ≤ m ∧ Consistent (r.states n).toTherver xs ∧
      (r.states n).taken ++ xs <+: (r.states m).taken := by
  obtain ⟨m, hm, hlen⟩ := r.exists_taken hpos n _ le_rfl
  refine ⟨(r.queue n).1, m, hm, (r.sound n).pool.consistent, ?_⟩
  obtain ⟨⟨zs, hzs⟩, -⟩ := r.log_append hm
  refine List.prefix_of_prefix_length_le ⟨zs, hzs.symm⟩ (List.prefix_append _ _) ?_
  rw [List.length_append]
  exact hlen

/-! ### A run -/

/-- The states of a run with the given steps. -/
def statesOf (t₀ : Threads) (acts : ℕ → Act) : ℕ → Threads
  | 0 => t₀
  | n + 1 => (next (statesOf t₀ acts n) (acts n)).getD (statesOf t₀ acts n)

/-- A client connects, and the only worker does what it can. -/
def oneWorker : ℕ → Act
  | 0 => .accepting ⟨none, none⟩
  | 1 => .accepting ⟨some 5, none⟩
  | 2 => .accepting ⟨none, some 1⟩
  | _ => .worker 0 fun c => (c, [])

/-- The states of this run. -/
def oneWorkerStates : ℕ → Threads := statesOf (Threads.start 0 3 1) oneWorker

theorem oneWorker_returned (n : ℕ) : Returned (oneWorkerStates n) (oneWorker n) := by
  match n with
  | 0 => exact ⟨nofun, nofun⟩
  | 1 =>
    refine ⟨nofun, fun s hs => ?_⟩
    obtain rfl := Option.some.inj hs
    decide
  | 2 =>
    refine ⟨fun me hme => ?_, nofun⟩
    obtain rfl := Option.some.inj hme
    rfl
  | _ + 3 => trivial

theorem oneWorker_step (n : ℕ) : (∃ xs, Sound (oneWorkerStates n) xs) ∧
    next (oneWorkerStates n) (oneWorker n) = some (oneWorkerStates (n + 1)) ∧
    (oneWorkerStates n).pool_mutex ≠ some .forking := by
  have hnext : ∀ n, (∃ xs, Sound (oneWorkerStates n) xs) →
      next (oneWorkerStates n) (oneWorker n) = some (oneWorkerStates (n + 1)) ∧
      ∃ xs ys, Moves (oneWorkerStates n) xs (oneWorker n) (oneWorkerStates (n + 1)) ys ∧
        Sound (oneWorkerStates (n + 1)) ys := by
    rintro n ⟨xs, hs⟩
    obtain ⟨t', ys, hrun, hm⟩ := hs.next _ (oneWorker_returned n)
    have heq : oneWorkerStates (n + 1) = t' := by
      show (next (oneWorkerStates n) (oneWorker n)).getD _ = t'
      rw [hrun, Option.getD_some]
    rw [heq]
    exact ⟨hrun, xs, ys, hm, hm.sound hs⟩
  induction n with
  | zero =>
    have hs : ∃ xs, Sound (oneWorkerStates 0) xs := ⟨[], Sound.start 0 3 1⟩
    exact ⟨hs, (hnext 0 hs).1, nofun⟩
  | succ n ih =>
    obtain ⟨-, xs, ys, hm, hs⟩ := hnext n ih.1
    refine ⟨⟨ys, hs⟩, (hnext (n + 1) ⟨ys, hs⟩).1, fun hforking => ?_⟩
    have hprefork : oneWorker n ≠ .prefork := by
      match n with
      | 0 | 1 | 2 | _ + 3 => nofun
    exact ih.2.2 (hm.of_forking hprefork hforking)

/-- The run is fair. -/
def oneWorkerRun : FairRun 0 3 1 where
  states := oneWorkerStates
  acts := oneWorker
  start := rfl
  step n := (oneWorker_step n).2.1
  returned := oneWorker_returned
  up n := by
    match n with
    | 0 | 1 | 2 | _ + 3 => nofun
  fair w hw hoften n := by
    obtain rfl : w = 0 := Nat.lt_one_iff.mp hw
    obtain ⟨m, hm, hfree⟩ := hoften (n + 3)
    refine ⟨m, (Nat.le_add_right n 3).trans hm, ?_, hfree⟩
    obtain ⟨k, rfl⟩ := Nat.exists_eq_add_of_le ((Nat.le_add_left 3 n).trans hm)
    rw [Nat.add_comm]
    exact ⟨_, rfl⟩
  forked n hn := absurd hn (oneWorker_step n).2.2

theorem queued_are_taken_one :
    ∃ xs m, 3 ≤ m ∧ Consistent (oneWorkerRun.states 3).toTherver xs ∧
      (oneWorkerRun.states 3).taken ++ xs <+: (oneWorkerRun.states m).taken :=
  queued_are_taken oneWorkerRun Nat.one_pos 3

end Pool
end Osrv
