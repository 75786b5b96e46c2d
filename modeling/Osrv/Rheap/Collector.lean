import Osrv.Lib.Reach
import Osrv.Rheap.Machine

/-!
# What a collector keeps

R may collect at every `collect` event of a trace, and keeps what is reachable from its
protect stack there. `Uncollected` says of a trace that an object made in the load is
reachable at every such place before one of its uses, unless it has been found again in
between by its text. The symbols and strings R finds again are the only objects to which
the code comes in another way than over the references it has kept.

The proofs go along the trace. `Lost` are the objects a collector can have taken up to
its end, and a trace is `Safe` when none of its uses is of a lost object, which is the
same (`uncollected_iff`).
-/

namespace Osrv
namespace Rheap

open Lib

/-! ### Reachability -/

/-- The references a collector follows. -/
def Memory.refs (h : Memory) (r : Ref) : List Ref := (h.objects r).refs

/-- The references that are not attributes. -/
def Memory.parts (h : Memory) (r : Ref) : List Ref := (h.objects r).contents.refs

/-- What a collector keeps. -/
def Reachable (h : Memory) (stack : List Ref) (r : Ref) : Prop :=
  ∃ s ∈ stack, Reaches h.refs s r

/-- What is reachable without attributes. -/
def Pinned (h : Memory) (stack : List Ref) (r : Ref) : Prop :=
  ∃ s ∈ stack, Reaches h.parts s r

theorem parts_subset (h : Memory) (r : Ref) : h.parts r ⊆ h.refs r := List.subset_cons_self _ _

theorem Pinned.reachable {h : Memory} {stack : List Ref} {r : Ref} (hr : Pinned h stack r) :
    Reachable h stack r := by
  obtain ⟨s, hs, hr⟩ := hr
  exact ⟨s, hs, hr.mono (parts_subset h)⟩

/-! ### Traces -/

/-- **Nothing in use is collected**: wherever R may collect, an object made since the
references below `base` were in use is reachable, when it is used later and has not been
obtained again. The last event of a trace comes first. -/
def Uncollected (base : Ref) (trace : List Event) : Prop :=
  ∀ later between earlier stack heap r,
    trace = later ++ .use r :: (between ++ .collect stack heap :: earlier) →
      base ≤ r → r < heap.top → .obtain r ∉ between → Reachable heap stack r

/-- What a collector can have taken. -/
def Lost (base : Ref) (trace : List Event) (r : Ref) : Prop :=
  ∃ between earlier stack heap, trace = between ++ .collect stack heap :: earlier ∧
    .obtain r ∉ between ∧ base ≤ r ∧ r < heap.top ∧ ¬ Reachable heap stack r

/-- Nothing is used that a collector can have taken. -/
def Safe (base : Ref) (trace : List Event) : Prop :=
  ∀ later es r, trace = later ++ .use r :: es → ¬ Lost base es r

theorem uncollected_iff {base : Ref} {trace : List Event} :
    Uncollected base trace ↔ Safe base trace := by
  constructor
  · rintro h later es r heq ⟨between, earlier, stack, heap, rfl, hobtain, hbase, htop, hr⟩
    exact hr (h later between earlier stack heap r heq hbase htop hobtain)
  · intro h later between earlier stack heap r heq hbase htop hobtain
    by_contra hr
    exact h later _ r heq ⟨between, earlier, stack, heap, rfl, hobtain, hbase, htop, hr⟩

/-! ### One event more -/

variable {base r : Ref} {e : Event} {es : List Event}

theorem not_lost_nil : ¬ Lost base [] r := by
  rintro ⟨between, earlier, stack, heap, h, -⟩
  simp at h

theorem lost_cons : Lost base (e :: es) r ↔
    (∃ stack heap, e = .collect stack heap ∧ base ≤ r ∧ r < heap.top ∧
      ¬ Reachable heap stack r) ∨ e ≠ .obtain r ∧ Lost base es r := by
  constructor
  · rintro ⟨between, earlier, stack, heap, h, hobtain, hr⟩
    cases between with
    | nil => exact Or.inl ⟨stack, heap, (List.cons.inj h).1, hr⟩
    | cons e' between =>
      obtain ⟨rfl, rfl⟩ := List.cons.inj h
      refine Or.inr ⟨?_, between, earlier, stack, heap, rfl, ?_, hr⟩
      · rintro rfl
        exact hobtain (List.mem_cons_self ..)
      · exact fun hmem => hobtain (List.mem_cons_of_mem _ hmem)
  · rintro (⟨stack, heap, rfl, hr⟩ | ⟨he, between, earlier, stack, heap, rfl, hobtain, hr⟩)
    · exact ⟨[], es, stack, heap, rfl, List.not_mem_nil, hr⟩
    · refine ⟨e :: between, earlier, stack, heap, rfl, fun hmem => ?_, hr⟩
      obtain h | h := List.mem_cons.mp hmem
      · exact he h.symm
      · exact hobtain h

theorem lost_collect {stack : List Ref} {heap : Memory} :
    Lost base (.collect stack heap :: es) r ↔
      base ≤ r ∧ r < heap.top ∧ ¬ Reachable heap stack r ∨ Lost base es r := by
  rw [lost_cons]
  refine or_congr ⟨?_, fun h => ⟨stack, heap, rfl, h⟩⟩ (and_iff_right fun h => nomatch h)
  rintro ⟨_, _, h, hr⟩
  cases h
  exact hr

theorem lost_obtain {q : Ref} : Lost base (.obtain q :: es) r ↔ r ≠ q ∧ Lost base es r := by
  rw [lost_cons]
  constructor
  · rintro (⟨_, _, h, -⟩ | ⟨hne, h⟩)
    · cases h
    · exact ⟨fun heq => hne (heq ▸ rfl), h⟩
  · rintro ⟨hne, h⟩
    refine Or.inr ⟨fun heq => ?_, h⟩
    cases heq
    exact hne rfl

/-- The events that take nothing and find nothing. -/
def Event.inert : Event → Prop
  | .collect .. => False
  | .obtain _ => False
  | _ => True

theorem lost_inert (he : e.inert) : Lost base (e :: es) r ↔ Lost base es r := by
  rw [lost_cons]
  constructor
  · rintro (⟨_, _, rfl, -⟩ | ⟨-, h⟩)
    · exact he.elim
    · exact h
  · refine fun h => Or.inr ⟨?_, h⟩
    rintro rfl
    exact he

theorem safe_nil : Safe base [] := by
  intro later es r h
  simp at h

theorem safe_cons : Safe base (e :: es) ↔ (∀ r, e = .use r → ¬ Lost base es r) ∧ Safe base es := by
  constructor
  · intro h
    refine ⟨fun r he => h [] es r (he ▸ rfl), fun later es' r heq => ?_⟩
    exact h (e :: later) es' r (heq ▸ rfl)
  · rintro ⟨he, h⟩ later es' r heq
    cases later with
    | nil =>
      obtain ⟨rfl, rfl⟩ := List.cons.inj heq
      exact he r rfl
    | cons e' later => exact h later es' r (List.cons.inj heq).2

theorem safe_use : Safe base (.use r :: es) ↔ ¬ Lost base es r ∧ Safe base es := by
  rw [safe_cons]
  refine and_congr_left fun _ => ⟨fun h => h r rfl, fun h q heq => ?_⟩
  cases heq
  exact h

theorem safe_of_ne_use (he : ∀ r, e ≠ .use r) : Safe base (e :: es) ↔ Safe base es := by
  rw [safe_cons]
  exact and_iff_right fun r h => absurd h (he r)

end Rheap
end Osrv
