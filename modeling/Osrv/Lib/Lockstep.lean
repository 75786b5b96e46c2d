import Mathlib.Tactic.TypeStar
import Mathlib.Data.Nat.Notation
import Osrv.Lib.Ends

/-!
# Two computations in lockstep

`Lockstep S E x y S'` compares two computations with state and exceptions, over
state types of their own. Started in states related by `S`, they return the same
value in states related by `S'`, or they stop for reasons related by `E`. It is a
relational triple, and it composes along `do` blocks (`Lockstep.bind`).

With both sides the same computation and `S` the equality of states that satisfy a
predicate, it is the ordinary triple of that predicate.

`Tandem` is the same with the stops compared together with the states they leave behind,
for what has been done up to a stop. A lockstep is a tandem that does not look at these
states (`lockstep_iff`).

`Agree` compares two computations whose values are related and need not be equal, each
from a start of its own. The left one is the one that shows more: it may take steps that
the right one does not have (`Agree.left`), and stop for reasons of its own.
-/

namespace Osrv
namespace Lib

universe u

variable {ε δ σ τ : Type u} {α β : Type u}

/-! ### The triple -/

/-- How the results of two computations compare. -/
def ResultsMatch (S : σ → τ → Prop) (E : ε → δ → Prop) :
    EStateM.Result ε σ α → EStateM.Result δ τ α → Prop
  | .ok a s, .ok b t => a = b ∧ S s t
  | .error e _, .error d _ => E e d
  | _, _ => False

/-- **Lockstep**: from related states to the same value or to related stops. -/
def Lockstep (S : σ → τ → Prop) (E : ε → δ → Prop) (x : EStateM ε σ α) (y : EStateM δ τ α)
    (S' : σ → τ → Prop) : Prop :=
  ∀ s t, S s t → ResultsMatch S' E (x s) (y t)

/-! ### Stops and the states they leave -/

/-- How the results of two computations compare, stops with the states they leave. -/
def EndsMatch (S : σ → τ → Prop) (F : ε → σ → δ → τ → Prop) :
    EStateM.Result ε σ α → EStateM.Result δ τ α → Prop
  | .ok a s, .ok b t => a = b ∧ S s t
  | .error e s, .error d t => F e s d t
  | _, _ => False

/-- **In tandem**: from related states to the same value, or to stops that are related with
their states. -/
def Tandem (S : σ → τ → Prop) (F : ε → σ → δ → τ → Prop) (x : EStateM ε σ α)
    (y : EStateM δ τ α) (S' : σ → τ → Prop) : Prop :=
  ∀ s t, S s t → EndsMatch S' F (x s) (y t)

variable {S S' S'' : σ → τ → Prop} {E : ε → δ → Prop} {F : ε → σ → δ → τ → Prop}

theorem Tandem.pure (a : α) :
    Tandem S F (Pure.pure a : EStateM ε σ α) (Pure.pure a : EStateM δ τ α) S :=
  fun _ _ h => ⟨rfl, h⟩

theorem Tandem.throw {e : ε} {d : δ} (h : ∀ s t, S s t → F e s d t) :
    Tandem S F (throw e : EStateM ε σ α) (throw d : EStateM δ τ α) S' :=
  h

/-- Both first steps return the same value, or both computations have stopped. -/
theorem Tandem.bind {x : EStateM ε σ α} {y : EStateM δ τ α} {f : α → EStateM ε σ β}
    {g : α → EStateM δ τ β} (hxy : Tandem S F x y S') (hfg : ∀ a, Tandem S' F (f a) (g a) S'') :
    Tandem S F (x >>= f) (y >>= g) S'' := by
  intro s t h
  have hr := hxy s t h
  show EndsMatch S'' F (EStateM.bind x f s) (EStateM.bind y g t)
  unfold EStateM.bind
  cases hx : x s with
  | ok a s' =>
    cases hy : y t with
    | ok b t' =>
      rw [hx, hy] at hr
      obtain ⟨rfl, hs⟩ := hr
      exact hfg a s' t' hs
    | error d t' =>
      rw [hx, hy] at hr
      exact hr.elim
  | error e s' =>
    cases hy : y t with
    | ok b t' =>
      rw [hx, hy] at hr
      exact hr.elim
    | error d t' =>
      rw [hx, hy] at hr
      exact hr

/-- A step that only changes the state. -/
theorem Tandem.modify {f : σ → σ} {g : τ → τ} (h : ∀ s t, S s t → S' (f s) (g t)) :
    Tandem S F (modify f : EStateM ε σ PUnit) (modify g : EStateM δ τ PUnit) S' :=
  fun s t hst => ⟨rfl, h s t hst⟩

theorem lockstep_iff {x : EStateM ε σ α} {y : EStateM δ τ α} :
    Lockstep S E x y S' ↔ Tandem S (fun e _ d _ => E e d) x y S' := by
  refine forall_congr' fun s => forall_congr' fun t => imp_congr_right fun _ => ?_
  cases x s with
  | ok a s' =>
    cases y t with
    | ok b t' => exact Iff.rfl
    | error d t' => exact Iff.rfl
  | error e s' =>
    cases y t with
    | ok b t' => exact Iff.rfl
    | error d t' => exact Iff.rfl

/-! ### Rules -/

theorem Lockstep.pure (a : α) :
    Lockstep S E (Pure.pure a : EStateM ε σ α) (Pure.pure a : EStateM δ τ α) S :=
  lockstep_iff.mpr (Tandem.pure a)

theorem Lockstep.bind {x : EStateM ε σ α} {y : EStateM δ τ α} {f : α → EStateM ε σ β}
    {g : α → EStateM δ τ β} (hxy : Lockstep S E x y S')
    (hfg : ∀ a, Lockstep S' E (f a) (g a) S'') : Lockstep S E (x >>= f) (y >>= g) S'' :=
  lockstep_iff.mpr ((lockstep_iff.mp hxy).bind fun a => lockstep_iff.mp (hfg a))

/-- The left computation starts with a step that returns a known value. -/
theorem Lockstep.bind_pure {x : EStateM ε σ α} {a : α} {f : α → EStateM ε σ β}
    {y : EStateM δ τ β} (hx : Lockstep S E x (Pure.pure a : EStateM δ τ α) S')
    (hf : Lockstep S' E (f a) y S'') : Lockstep S E (x >>= f) y S'' := by
  intro s t h
  have hr := hx s t h
  show ResultsMatch S'' E (EStateM.bind x f s) (y t)
  unfold EStateM.bind
  cases hxs : x s with
  | ok b s' =>
    rw [hxs] at hr
    obtain ⟨rfl, hs⟩ := hr
    exact hf s' t hs
  | error e s' =>
    rw [hxs] at hr
    exact hr.elim

theorem Lockstep.modify {f : σ → σ} {g : τ → τ} (h : ∀ s t, S s t → S' (f s) (g t)) :
    Lockstep S E (modify f : EStateM ε σ PUnit) (modify g : EStateM δ τ PUnit) S' :=
  lockstep_iff.mpr (Tandem.modify h)

theorem Lockstep.weaken {x : EStateM ε σ α} {y : EStateM δ τ α} {T : σ → τ → Prop}
    (h : Lockstep S E x y S') (hpre : ∀ s t, T s t → S s t) (hpost : ∀ s t, S' s t → S'' s t) :
    Lockstep T E x y S'' := by
  intro s t hT
  have hr := h s t (hpre s t hT)
  cases hx : x s with
  | ok a s' =>
    cases hy : y t with
    | ok b t' =>
      rw [hx, hy] at hr
      exact ⟨hr.1, hpost s' t' hr.2⟩
    | error d t' =>
      rw [hx, hy] at hr
      exact hr.elim
  | error e s' =>
    cases hy : y t with
    | ok b t' =>
      rw [hx, hy] at hr
      exact hr.elim
    | error d t' =>
      rw [hx, hy] at hr
      exact hr

/-! ### Values that are related -/

/-- **Agreement**: the right computation ends as the left one does. Both return, and `Q`
relates what they return and the states, or both stop, and `F` relates the stops and the
states. Nothing is said of a stop of the left one for a reason in `G`. -/
def Agree (G : ε → Prop) (F : ε → σ → δ → τ → Prop) (x : EStateM ε σ α) (s : σ)
    (y : EStateM δ τ β) (t : τ) (Q : α → σ → β → τ → Prop) : Prop :=
  Ends x s (fun a s' => ∃ b t', y t = .ok b t' ∧ Q a s' b t')
    fun e s' => G e ∨ ∃ d t', y t = .error d t' ∧ F e s' d t'

section Agree

variable {α' β' : Type u} {G : ε → Prop} {x : EStateM ε σ α} {y : EStateM δ τ β} {s : σ} {t : τ}
  {Q Q' : α → σ → β → τ → Prop} {f : α → EStateM ε σ α'} {g : β → EStateM δ τ β'}
  {P : α' → σ → β' → τ → Prop}

theorem Agree.pure {a : α} {b : β} (h : Q a s b t) :
    Agree G F (Pure.pure a) s (Pure.pure b) t Q :=
  ⟨b, t, rfl, h⟩

theorem Agree.throw {e : ε} {d : δ} (h : F e s d t) : Agree G F (throw e) s (throw d) t Q :=
  Or.inr ⟨d, t, rfl, h⟩

theorem Agree.mono (h : Agree G F x s y t Q) (hQ : ∀ a s' b t', Q a s' b t' → Q' a s' b t') :
    Agree G F x s y t Q' := by
  refine Ends.mono h (fun a s' hok => ?_) fun _ _ h => h
  obtain ⟨b, t', hy, hq⟩ := hok
  exact ⟨b, t', hy, hQ a s' b t' hq⟩

/-- Both take a step, and go on where it has led. -/
theorem Agree.bind (h : Agree G F x s y t Q)
    (hfg : ∀ a s' b t', Q a s' b t' → Agree G F (f a) s' (g b) t' P) :
    Agree G F (x >>= f) s (y >>= g) t P := by
  refine Ends.bind h (fun e s' herror => ?_) fun a s' hok => ?_
  · refine herror.imp_right ?_
    rintro ⟨d, t', hy, hF⟩
    exact ⟨d, t', bind_error hy, hF⟩
  · obtain ⟨b, t', hy, hq⟩ := hok
    have hgo := hfg a s' b t' hq
    unfold Agree at hgo
    rwa [← bind_ok (f := g) hy] at hgo

/-- The left computation takes a step of its own. -/
theorem Agree.left {P : α' → σ → β → τ → Prop}
    (h : Ends x s (fun a s' => Agree G F (f a) s' y t P) fun e _ => G e) :
    Agree G F (x >>= f) s y t P :=
  Ends.bind h (fun _ _ hG => Or.inl hG) fun _ _ hgo => hgo

/-- The right computation ends with a step of its own, in which it returns. -/
theorem Agree.right {P : α → σ → β' → τ → Prop} (h : Agree G F x s y t Q)
    (hg : ∀ a s' b t', Q a s' b t' → ∃ b' t'', g b t' = .ok b' t'' ∧ P a s' b' t'') :
    Agree G F x s (y >>= g) t P := by
  refine Ends.mono h (fun a s' hok => ?_) fun e s' herror => ?_
  · obtain ⟨b, t', hy, hq⟩ := hok
    obtain ⟨b', t'', hgo, hP⟩ := hg a s' b t' hq
    exact ⟨b', t'', (bind_ok hy).trans hgo, hP⟩
  · refine herror.imp_right ?_
    rintro ⟨d, t', hy, hF⟩
    exact ⟨d, t', bind_error hy, hF⟩

end Agree

end Lib
end Osrv
