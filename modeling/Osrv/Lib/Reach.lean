import Mathlib.Logic.Function.Basic
import Mathlib.Logic.Relation

/-!
# Reachability along references

Every object of a type `α` refers to a list of others, `next`. `Reaches next a b` says
that `b` is reached from `a` along references.

What a program does to the references of its objects comes down to two cases. The
references of other objects have changed, which does not matter (`reaches_congr`). An
object has got one more reference, or has lost some (`Reaches.of_update`).
-/

namespace Osrv
namespace Lib

variable {α : Type*} {next next' : α → List α} {a b c v : α}

/-- `b` is reached from `a`. -/
def Reaches (next : α → List α) : α → α → Prop :=
  Relation.ReflTransGen fun a b => b ∈ next a

theorem Reaches.refl (next : α → List α) (a : α) : Reaches next a a :=
  Relation.ReflTransGen.refl

theorem Reaches.head (h : b ∈ next a) (h' : Reaches next b c) : Reaches next a c :=
  Relation.ReflTransGen.head h h'

theorem Reaches.tail (h : Reaches next a b) (h' : c ∈ next b) : Reaches next a c :=
  Relation.ReflTransGen.tail h h'

/-- More references reach more. -/
theorem Reaches.mono (hsub : ∀ a, next a ⊆ next' a) (h : Reaches next a b) :
    Reaches next' a b := by
  induction h with
  | refl => exact Reaches.refl ..
  | tail _ hbc ih => exact ih.tail (hsub _ hbc)

/-- The first reference on the way. -/
theorem Reaches.cases (h : Reaches next a b) : a = b ∨ ∃ c ∈ next a, Reaches next c b := by
  obtain rfl | ⟨c, hc, h⟩ := Relation.ReflTransGen.cases_head h
  · exact Or.inl rfl
  · exact Or.inr ⟨c, hc, h⟩

/-- Only what is in `next a` and behind it is reached from an object without references
to anything else. -/
theorem Reaches.eq_of_nil (hnil : next a = []) (h : Reaches next a b) : b = a := by
  obtain rfl | ⟨c, hc, -⟩ := h.cases
  · rfl
  · rw [hnil] at hc
    cases hc

/-- What is kept along every reference is kept. -/
theorem Reaches.of_closed {P : α → Prop} (hP : ∀ a, P a → ∀ b ∈ next a, P b)
    (h : Reaches next a b) (ha : P a) : P b := by
  induction h with
  | refl => exact ha
  | tail _ hbc ih => exact hP _ ih _ hbc

/-- Among objects that refer to each other only their own references count. -/
theorem Reaches.congr {P : α → Prop} (hP : ∀ a, P a → ∀ b ∈ next a, P b)
    (heq : ∀ a, P a → next' a = next a) (ha : P a) (h : Reaches next a b) :
    Reaches next' a b := by
  induction h with
  | refl => exact Reaches.refl ..
  | @tail b c hab hbc ih => exact ih.tail ((heq b (Reaches.of_closed hP hab ha)).symm ▸ hbc)

theorem reaches_congr {P : α → Prop} (hP : ∀ a, P a → ∀ b ∈ next a, P b)
    (heq : ∀ a, P a → next' a = next a) (ha : P a) :
    Reaches next' a b ↔ Reaches next a b := by
  refine ⟨Reaches.congr (fun a ha b hb => hP a ha b ?_) (fun a ha => (heq a ha).symm) ha,
    Reaches.congr hP heq ha⟩
  rwa [← heq a ha]

/-- **An object gets another reference** `v`, and may lose some. Everything that is
reached then was reached before, or from `v`. -/
theorem Reaches.of_update {p : α} (hp : ∀ b ∈ next' p, b ∈ next p ∨ b = v)
    (heq : ∀ a, a ≠ p → next' a = next a) (h : Reaches next' a b) :
    Reaches next a b ∨ Reaches next v b := by
  induction h with
  | refl => exact Or.inl (Reaches.refl ..)
  | @tail b c _ hbc ih =>
    obtain rfl | hne := eq_or_ne b p
    · obtain hbc | rfl := hp c hbc
      · exact ih.imp (fun h => h.tail hbc) fun h => h.tail hbc
      · exact Or.inr (Reaches.refl ..)
    · rw [heq b hne] at hbc
      exact ih.imp (fun h => h.tail hbc) fun h => h.tail hbc

end Lib
end Osrv
