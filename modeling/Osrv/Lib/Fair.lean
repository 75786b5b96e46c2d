import Mathlib.Order.Monotone.Basic

/-!
# Infinite runs and ranks

A rank that does not rise from some time on cannot be lowered at infinitely many times
(`Fair.no_descent`). A liveness proof over an infinite run supposes that what it is after
does not happen, and finds such a rank.
-/

namespace Fair

/-- At infinitely many times. -/
def Often (P : ℕ → Prop) : Prop := ∀ n, ∃ m, n ≤ m ∧ P m

variable {rank : ℕ → ℕ} {n : ℕ}

/-- A rank that never rises is not lowered infinitely often. -/
theorem no_descent (hle : ∀ m, n ≤ m → rank (m + 1) ≤ rank m)
    (hlt : ∀ m, n ≤ m → ∃ k, m ≤ k ∧ rank (k + 1) < rank k) : False := by
  -- by induction on the rank, from any time on
  have hnone : ∀ v m, n ≤ m → rank m = v → False := by
    intro v
    induction v using Nat.strong_induction_on with
    | _ v ih =>
      intro m hm hv
      obtain ⟨k, hmk, hk⟩ := hlt m hm
      have hkm : rank k ≤ v :=
        hv ▸ Nat.rel_of_forall_rel_succ_of_le_of_le (fun a b => b ≤ a) hle hm hmk
      exact ih (rank (k + 1)) (hk.trans_le hkm) (k + 1) (hm.trans (hmk.trans (Nat.le_succ k))) rfl
  exact hnone (rank n) n le_rfl rfl

end Fair
