import Mathlib.Data.List.Infix

/-!
# Runs of a state machine

A machine is a function `step : σ → α → Option σ` that performs an action in a
state, or gets stuck. `run step s l` performs a list of actions in order.

An invariant may speak about the actions performed so far: it holds of every run
if it holds at the start and every step preserves it (`Run.induction`). If every
step from a state that satisfies it succeeds, no run gets stuck (`Run.total`); the
actions may be restricted to those allowed in the state (`Run.total_guarded`).

A specification may have a choice. Then its steps are a relation, and `Run.simulates` says
when a machine does what the specification allows.
-/

namespace Run

variable {σ α : Type*} {step : σ → α → Option σ} {s₀ : σ}

/-- Performs the actions of a list in order. -/
def run (step : σ → α → Option σ) (s : σ) (l : List α) : Option σ := l.foldlM step s

@[simp] theorem run_nil (s : σ) : run step s [] = some s := rfl

theorem run_cons_eq_some {a : α} {l : List α} {s s' : σ} :
    run step s (a :: l) = some s' ↔ ∃ s₁, step s a = some s₁ ∧ run step s₁ l = some s' := by
  rw [run, List.foldlM_cons, Option.bind_eq_bind, Option.bind_eq_some_iff]
  rfl

theorem run_append_eq_some {l l' : List α} {s s' : σ} :
    run step s (l ++ l') = some s' ↔ ∃ s₁, run step s l = some s₁ ∧ run step s₁ l' = some s' := by
  rw [run, List.foldlM_append, Option.bind_eq_bind, Option.bind_eq_some_iff]
  rfl

theorem run_snoc (s : σ) (l : List α) (a : α) :
    run step s (l ++ [a]) = (run step s l).bind fun s' => step s' a := by
  rw [run, List.foldlM_append]
  change (run step s l).bind (fun s' => List.foldlM step s' [a]) = _
  congr 1
  funext s'
  exact bind_pure _

theorem run_snoc_eq_some {l : List α} {a : α} {s' : σ} :
    run step s₀ (l ++ [a]) = some s' ↔ ∃ s, run step s₀ l = some s ∧ step s a = some s' := by
  rw [run_snoc, Option.bind_eq_some_iff]

/-- **Invariants of runs.** -/
theorem induction {P : List α → σ → Prop} (init : P [] s₀)
    (next : ∀ l s a s', P l s → step s a = some s' → P (l ++ [a]) s') {l : List α} {s : σ}
    (h : run step s₀ l = some s) : P l s := by
  induction l using List.reverseRecOn generalizing s with
  | nil =>
    obtain rfl : s₀ = s := by simpa using h
    exact init
  | append_singleton l a ih =>
    obtain ⟨s₁, hl, ha⟩ := run_snoc_eq_some.mp h
    exact next l s₁ a s (ih hl) ha

/-- Every action of a list is allowed where it is performed. -/
def Guarded (step : σ → α → Option σ) (s₀ : σ) (G : σ → α → Prop) (l : List α) : Prop :=
  ∀ p a s, p ++ [a] <+: l → run step s₀ p = some s → G s a

theorem Guarded.of_append {G : σ → α → Prop} {l l' : List α} (h : Guarded step s₀ G (l ++ l')) :
    Guarded step s₀ G l :=
  fun p a s hp hs => h p a s (hp.trans (List.prefix_append l l')) hs

theorem guarded_nil (G : σ → α → Prop) : Guarded step s₀ G [] := fun p a _ hp _ =>
  absurd (List.prefix_nil.mp hp) (by simp)

theorem Guarded.cons {G : σ → α → Prop} {a : α} {l : List α} (ha : G s₀ a)
    (h : ∀ s, step s₀ a = some s → Guarded step s G l) : Guarded step s₀ G (a :: l) := by
  intro p b s hp hs
  cases p with
  | nil =>
    obtain rfl : b = a := by
      rw [List.nil_append, List.cons_prefix_cons] at hp
      exact hp.1
    cases hs
    exact ha
  | cons c p =>
    rw [List.cons_append, List.cons_prefix_cons] at hp
    obtain ⟨rfl, hp⟩ := hp
    obtain ⟨s₁, hc, hs⟩ := run_cons_eq_some.mp hs
    exact h s₁ hc p b s hp hs

/-- Performs the actions of a list and looks whether each is allowed. -/
def permits (step : σ → α → Option σ) (G : σ → α → Prop) [∀ s a, Decidable (G s a)] (s : σ) :
    List α → Bool
  | [] => true
  | a :: l => decide (G s a) && (step s a).all fun s' => permits step G s' l

theorem guarded_of_permits {G : σ → α → Prop} [∀ s a, Decidable (G s a)] {l : List α}
    (h : permits step G s₀ l = true) : Guarded step s₀ G l := by
  induction l generalizing s₀ with
  | nil => exact guarded_nil G
  | cons a l ih =>
    rw [permits, Bool.and_eq_true, decide_eq_true_eq] at h
    refine .cons h.1 fun s hs => ih ?_
    rw [hs] at h
    exact h.2

/-- A run that goes on by one action. -/
theorem guarded_snoc_iff {G : σ → α → Prop} {l : List α} {a : α} {s : σ}
    (hs : run step s₀ l = some s) :
    Guarded step s₀ G (l ++ [a]) ↔ Guarded step s₀ G l ∧ G s a := by
  constructor
  · exact fun h => ⟨h.of_append, h l a s (List.prefix_refl _) hs⟩
  · rintro ⟨h, ha⟩ p b s' hp hs'
    obtain heq | hp := List.prefix_concat_iff.mp hp
    · obtain ⟨rfl, hb⟩ := List.append_inj' heq rfl
      obtain rfl : b = a := by simpa using hb
      obtain rfl : s = s' := Option.some.inj (hs.symm.trans hs')
      exact ha
    · exact h p b s' hp hs'

/-- **Runs of allowed actions** do not get stuck. -/
theorem total_guarded {P : List α → σ → Prop} {G : σ → α → Prop} (init : P [] s₀)
    (next : ∀ l s a, P l s → G s a → ∃ s', step s a = some s' ∧ P (l ++ [a]) s') {l : List α}
    (h : Guarded step s₀ G l) : ∃ s, run step s₀ l = some s ∧ P l s := by
  induction l using List.reverseRecOn with
  | nil => exact ⟨s₀, rfl, init⟩
  | append_singleton l a ih =>
    obtain ⟨s, hl, hP⟩ := ih h.of_append
    obtain ⟨s', hs', hP'⟩ := next l s a hP (h l a s (List.prefix_refl _) hl)
    exact ⟨s', run_snoc_eq_some.mpr ⟨s, hl, hs'⟩, hP'⟩

/-- **Two machines run alike** along actions that are allowed, if they perform an action alike
in every state that the allowed ones lead to. -/
theorem congr_guarded {step' : σ → α → Option σ} {P : σ → Prop} {G : σ → α → Prop} (init : P s₀)
    (next : ∀ s a s', P s → G s a → step s a = some s' → P s')
    (same : ∀ s a, P s → step s a = step' s a) {l : List α} (h : Guarded step s₀ G l) :
    run step s₀ l = run step' s₀ l := by
  suffices hall : run step s₀ l = run step' s₀ l ∧ ∀ s, run step s₀ l = some s → P s from hall.1
  induction l using List.reverseRecOn with
  | nil => exact ⟨rfl, fun s hs => Option.some.inj hs ▸ init⟩
  | append_singleton l a ih =>
    obtain ⟨heq, hP⟩ := ih h.of_append
    constructor
    · rw [run_snoc, run_snoc, ← heq]
      cases hs : run step s₀ l with
      | none => rfl
      | some s => exact same s a (hP s hs)
    · intro s' hs'
      obtain ⟨s, hs, ha⟩ := run_snoc_eq_some.mp hs'
      exact next s a s' (hP s hs) (h l a s (List.prefix_refl _) hs) ha

/-- **Runs that do not get stuck**, with an invariant. -/
theorem total {P : List α → σ → Prop} (init : P [] s₀)
    (next : ∀ l s a, P l s → ∃ s', step s a = some s' ∧ P (l ++ [a]) s') (l : List α) :
    ∃ s, run step s₀ l = some s ∧ P l s :=
  total_guarded (G := fun _ _ => True) init (fun l s a hP _ => next l s a hP)
    fun _ _ _ _ _ => trivial

/-! ### Specifications -/

/-- The actions of a list, performed in order by a specification. -/
inductive Steps {τ : Type*} (R : τ → α → τ → Prop) (t₀ : τ) : List α → τ → Prop
  | nil : Steps R t₀ [] t₀
  | snoc {l : List α} {a : α} {t t' : τ} (h : Steps R t₀ l t) (ht : R t a t') :
      Steps R t₀ (l ++ [a]) t'

variable (step) in
/-- **Simulation.** If the machine can perform every action from related states, as the
specification allows and so that the states are related again, then it performs every list
of actions so. -/
theorem simulates {τ : Type*} {R : τ → α → τ → Prop} {t₀ : τ} {P : List α → σ → τ → Prop}
    {A : α → Prop} (init : P [] s₀ t₀)
    (next : ∀ l s t a, P l s t → A a → ∃ s' t', step s a = some s' ∧ R t a t' ∧ P (l ++ [a]) s' t')
    {l : List α} (h : ∀ a ∈ l, A a) :
    ∃ s t, run step s₀ l = some s ∧ Steps R t₀ l t ∧ P l s t := by
  have hguarded : Guarded step s₀ (fun _ a => A a) l := fun p a _ hp _ =>
    h a (hp.mem (List.mem_append_right p (List.mem_singleton_self a)))
  obtain ⟨s, hs, t, ht, hP⟩ := total_guarded (P := fun l s => ∃ t, Steps R t₀ l t ∧ P l s t)
    ⟨t₀, .nil, init⟩ (fun l s a hP ha => by
      obtain ⟨t, ht, hP⟩ := hP
      obtain ⟨s', t', hs', ht', hP'⟩ := next l s t a hP ha
      exact ⟨s', hs', t', ht.snoc ht', hP'⟩) hguarded
  exact ⟨s, t, hs, ht, hP⟩

end Run
