import Mathlib.Data.Set.Lattice
import Mathlib.Logic.Function.Basic

/-!
# Blocks of memory and their owners

Memory is a partial function from addresses to contents. A block is allocated, passed
from one owner to another and freed, and freeing is an error for what is not allocated.
`held` is the block that each owner has.

`Ledger held mem lost` is the balance: a block is allocated exactly if it has an owner
or is among the `lost` ones, which nobody can free any more, and none has two owners.
Each operation has a lemma that says what becomes of the balance, so that a program is
accounted for by naming the operations it consists of. What an owner holds can be freed
(`Ledger.allocated`), and lost blocks never come back, for an allocator does not hand
out what is in use.
-/

variable {O A V : Type*}

/-- **The balance** of the blocks and their owners. -/
structure Ledger (held : O → Option A) (mem : A → Option V) (lost : Set A) : Prop where
  /-- What is allocated has an owner or is lost, and the other way round. -/
  accounted : ∀ b, mem b ≠ none ↔ b ∈ lost ∨ ∃ o, held o = some b
  /-- No block has two owners. -/
  unique : ∀ o o' b, held o = some b → held o' = some b → o = o'
  /-- What is lost has no owner. -/
  unowned : ∀ o b, held o = some b → b ∉ lost

namespace Ledger

variable {held : O → Option A} {mem : A → Option V} {lost : Set A}

/-- Nobody has anything at the start. -/
theorem init : Ledger (fun _ : O => none) (fun _ : A => (none : Option V)) ∅ where
  accounted b := by
    constructor
    · intro h
      exact absurd rfl h
    · rintro (h | ⟨o, h⟩)
      · exact absurd h (Set.notMem_empty b)
      · cases h
  unique o o' b h := by cases h
  unowned o b h := by cases h

/-- What an owner has is allocated. -/
theorem allocated (h : Ledger held mem lost) {o : O} {b : A} (ho : held o = some b) :
    mem b ≠ none :=
  (h.accounted b).mpr (.inr ⟨o, ho⟩)

theorem not_held (h : Ledger held mem lost) {b : A} (hb : mem b = none) (o : O) :
    held o ≠ some b :=
  fun ho => h.allocated ho hb

/-- **Nothing is lost** exactly if the blocks that are allocated are those that have
owners. -/
theorem lost_eq_empty_iff (h : Ledger held mem lost) :
    lost = ∅ ↔ ∀ b, mem b ≠ none ↔ ∃ o, held o = some b := by
  constructor
  · rintro rfl b
    rw [h.accounted b]
    exact ⟨fun hb => hb.resolve_left (Set.notMem_empty b), .inr⟩
  · intro hall
    refine Set.eq_empty_of_forall_notMem fun b hb => ?_
    obtain ⟨o, ho⟩ := (hall b).mp ((h.accounted b).mpr (.inl hb))
    exact h.unowned o b ho hb

section Operations

variable [DecidableEq O]

/-- What the owners have after one of them has got something else. -/
theorem update_eq_some_iff {o c : O} {v : Option A} {b : A} :
    Function.update held o v c = some b ↔ (c = o ∧ v = some b) ∨ (c ≠ o ∧ held c = some b) := by
  by_cases hc : c = o
  · subst hc
    simp
  · simp [hc]

/-- **Passing** what an owner has, if anything, to another that has nothing. -/
theorem pass (h : Ledger held mem lost) {o o' : O} (hne : o ≠ o') (ho' : held o' = none) :
    Ledger (Function.update (Function.update held o none) o' (held o)) mem lost := by
  -- an owner now is `o'` instead of `o`, or the one from before
  have hnew : ∀ c b, Function.update (Function.update held o none) o' (held o) c = some b ↔
      (c = o' ∧ held o = some b) ∨ (c ≠ o' ∧ c ≠ o ∧ held c = some b) := by
    intro c b
    rw [update_eq_some_iff, update_eq_some_iff]
    simp
  refine ⟨fun b => ?_, fun o₁ o₂ b h₁ h₂ => ?_, fun c b hc => ?_⟩
  · rw [h.accounted b]
    refine or_congr_right ⟨?_, ?_⟩
    · rintro ⟨c, hc⟩
      by_cases hco : c = o
      · subst hco
        exact ⟨o', (hnew o' b).mpr (.inl ⟨rfl, hc⟩)⟩
      · refine ⟨c, (hnew c b).mpr (.inr ⟨?_, hco, hc⟩)⟩
        rintro rfl
        rw [ho'] at hc
        cases hc
    · rintro ⟨c, hc⟩
      obtain ⟨-, hc⟩ | ⟨-, -, hc⟩ := (hnew c b).mp hc
      · exact ⟨o, hc⟩
      · exact ⟨c, hc⟩
  · obtain ⟨hc₁, h₁⟩ | ⟨-, hne₁, h₁⟩ := (hnew o₁ b).mp h₁
    · obtain ⟨hc₂, -⟩ | ⟨-, hne₂, h₂⟩ := (hnew o₂ b).mp h₂
      · rw [hc₁, hc₂]
      · exact absurd (h.unique o₂ o b h₂ h₁) hne₂
    · obtain ⟨-, h₂⟩ | ⟨-, -, h₂⟩ := (hnew o₂ b).mp h₂
      · exact absurd (h.unique o₁ o b h₁ h₂) hne₁
      · exact h.unique o₁ o₂ b h₁ h₂
  · obtain ⟨-, hc⟩ | ⟨-, -, hc⟩ := (hnew c b).mp hc
    · exact h.unowned o b hc
    · exact h.unowned c b hc

variable [DecidableEq A]

/-- **Allocating** a block for an owner that has none. -/
theorem alloc (h : Ledger held mem lost) {o : O} {b : A} (hb : mem b = none)
    (ho : held o = none) (v : V) :
    Ledger (Function.update held o (some b)) (Function.update mem b (some v)) lost := by
  refine ⟨fun c => ?_, fun o₁ o₂ c h₁ h₂ => ?_, fun o' c ho' => ?_⟩
  -- the new block is allocated and held, the others are as before
  · by_cases hc : c = b
    · subst hc
      rw [Function.update_self]
      exact ⟨fun _ => .inr ⟨o, Function.update_self ..⟩, fun _ => Option.some_ne_none v⟩
    · rw [Function.update_of_ne hc, h.accounted c]
      refine or_congr_right ⟨?_, ?_⟩
      · rintro ⟨o', ho'⟩
        refine ⟨o', update_eq_some_iff.mpr (.inr ⟨?_, ho'⟩)⟩
        rintro rfl
        rw [ho] at ho'
        cases ho'
      · rintro ⟨o', ho'⟩
        obtain ⟨-, heq⟩ | ⟨-, ho'⟩ := update_eq_some_iff.mp ho'
        · exact absurd (Option.some.inj heq).symm hc
        · exact ⟨o', ho'⟩
  -- nobody has held the new block before
  · obtain ⟨hc₁, heq⟩ | ⟨-, h₁⟩ := update_eq_some_iff.mp h₁
    · obtain ⟨hc₂, -⟩ | ⟨-, h₂⟩ := update_eq_some_iff.mp h₂
      · rw [hc₁, hc₂]
      · obtain rfl := Option.some.inj heq
        exact absurd h₂ (h.not_held hb o₂)
    · obtain ⟨-, heq⟩ | ⟨-, h₂⟩ := update_eq_some_iff.mp h₂
      · obtain rfl := Option.some.inj heq
        exact absurd h₁ (h.not_held hb o₁)
      · exact h.unique o₁ o₂ c h₁ h₂
  -- what was lost was allocated, and so is another block
  · obtain ⟨-, heq⟩ | ⟨-, ho'⟩ := update_eq_some_iff.mp ho'
    · obtain rfl := Option.some.inj heq
      exact fun hlost => (h.accounted b).mpr (.inl hlost) hb
    · exact h.unowned o' c ho'

/-- **Freeing** the block of an owner. -/
theorem free (h : Ledger held mem lost) {o : O} {b : A} (ho : held o = some b) :
    Ledger (Function.update held o none) (Function.update mem b none) lost := by
  -- the others hold what they have held
  have hnew : ∀ c b', Function.update held o none c = some b' ↔ c ≠ o ∧ held c = some b' := by
    intro c b'
    rw [update_eq_some_iff]
    simp
  refine ⟨fun c => ?_, fun o₁ o₂ c h₁ h₂ => ?_, fun o' c ho' => ?_⟩
  -- the block was held by its owner alone, and it was not lost
  · by_cases hc : c = b
    · subst hc
      rw [Function.update_self]
      constructor
      · exact fun hne => absurd rfl hne
      · rintro (hlost | ⟨o', ho'⟩)
        · exact absurd hlost (h.unowned o c ho)
        · obtain ⟨hne, ho'⟩ := (hnew o' c).mp ho'
          exact absurd (h.unique o' o c ho' ho) hne
    · rw [Function.update_of_ne hc, h.accounted c]
      refine or_congr_right ⟨?_, ?_⟩
      · rintro ⟨o', ho'⟩
        refine ⟨o', (hnew o' c).mpr ⟨?_, ho'⟩⟩
        rintro rfl
        rw [ho] at ho'
        exact hc (Option.some.inj ho').symm
      · rintro ⟨o', ho'⟩
        exact ⟨o', ((hnew o' c).mp ho').2⟩
  · exact h.unique o₁ o₂ c ((hnew o₁ c).mp h₁).2 ((hnew o₂ c).mp h₂).2
  · exact h.unowned o' c ((hnew o' c).mp ho').2

end Operations

/-- **Writing** to a block. -/
theorem write [DecidableEq A] (h : Ledger held mem lost) {b : A} (hb : mem b ≠ none) (v : V) :
    Ledger held (Function.update mem b (some v)) lost where
  accounted c := by
    by_cases hc : c = b
    · subst hc
      rw [Function.update_self, ← h.accounted c]
      exact ⟨fun _ => hb, fun _ => Option.some_ne_none v⟩
    · rw [Function.update_of_ne hc]
      exact h.accounted c
  unique := h.unique
  unowned := h.unowned

/-- **Losing** what some owners have. -/
theorem lose (h : Ledger held mem lost) (S : Set O) (held' : O → Option A)
    (hS : ∀ o ∈ S, held' o = none) (hrest : ∀ o, o ∉ S → held' o = held o) :
    Ledger held' mem (lost ∪ {b | ∃ o ∈ S, held o = some b}) := by
  -- who holds a block now has held it before
  have hold : ∀ o b, held' o = some b → o ∉ S ∧ held o = some b := by
    intro o b ho
    by_cases hmem : o ∈ S
    · rw [hS o hmem] at ho
      cases ho
    · exact ⟨hmem, hrest o hmem ▸ ho⟩
  refine ⟨fun b => ?_, fun o₁ o₂ b h₁ h₂ => ?_, fun o b ho => ?_⟩
  -- a block that was held is lost or still held
  · rw [h.accounted b, Set.mem_union, or_assoc]
    refine or_congr_right ⟨?_, ?_⟩
    · rintro ⟨o, ho⟩
      by_cases hmem : o ∈ S
      · exact .inl ⟨o, hmem, ho⟩
      · exact .inr ⟨o, (hrest o hmem).trans ho⟩
    · rintro (⟨o, -, ho⟩ | ⟨o, ho⟩)
      · exact ⟨o, ho⟩
      · exact ⟨o, (hold o b ho).2⟩
  · exact h.unique o₁ o₂ b (hold o₁ b h₁).2 (hold o₂ b h₂).2
  -- and not both
  · obtain ⟨hmem, ho⟩ := hold o b ho
    rintro (hlost | ⟨o', hmem', ho'⟩)
    · exact h.unowned o b ho hlost
    · obtain rfl := h.unique o o' b ho ho'
      exact hmem hmem'

end Ledger
