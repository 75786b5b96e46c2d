import Mathlib.Logic.Basic

/-!
# How a computation ends

`Ends x s Q E` says how a computation `x` over a state ends when it starts from `s`:
with a value and a state that satisfy `Q`, or with an error and a state that satisfy `E`.
The state is kept in an error, so that both say what has happened up to the end.

The start is a variable of its own and both predicates may speak about it. A computation
put together by `>>=` ends as its parts do (`Ends.bind`), and what is known of an end may
be weakened (`Ends.mono`).
-/

namespace Osrv
namespace Lib

universe u

variable {ε σ : Type u} {α β : Type u}

/-- **How a computation ends** from a state. -/
def Ends (x : EStateM ε σ α) (s : σ) (Q : α → σ → Prop) (E : ε → σ → Prop) : Prop :=
  match x s with
  | .ok a t => Q a t
  | .error e t => E e t

variable {x : EStateM ε σ α} {f : α → EStateM ε σ β} {s t : σ} {Q Q' : α → σ → Prop}
  {P : β → σ → Prop} {E E' : ε → σ → Prop}

theorem bind_ok {a : α} (h : x s = .ok a t) : (x >>= f) s = f a t := by
  show EStateM.bind x f s = _
  rw [EStateM.bind, h]

theorem bind_error {e : ε} (h : x s = .error e t) : (x >>= f) s = .error e t := by
  show EStateM.bind x f s = _
  rw [EStateM.bind, h]

theorem ends_bind :
    Ends (x >>= f) s P E ↔ Ends x s (fun a t => Ends (f a) t P E) E := by
  show Ends (EStateM.bind x f) s P E ↔ _
  unfold Ends EStateM.bind
  cases x s with
  | ok a t => exact Iff.rfl
  | error e t => exact Iff.rfl

theorem Ends.mono (h : Ends x s Q E) (hQ : ∀ a t, Q a t → Q' a t) (hE : ∀ e t, E e t → E' e t) :
    Ends x s Q' E' := by
  unfold Ends at *
  cases hx : x s with
  | ok a t =>
    rw [hx] at h
    exact hQ a t h
  | error e t =>
    rw [hx] at h
    exact hE e t h

/-- The rest ends as it should wherever the first step has ended. -/
theorem Ends.bind (hx : Ends x s Q E') (hE : ∀ e t, E' e t → E e t)
    (hf : ∀ a t, Q a t → Ends (f a) t P E) : Ends (x >>= f) s P E :=
  ends_bind.mpr (hx.mono hf hE)

/-- An end has two properties when it has each of them. -/
theorem Ends.and (h : Ends x s Q E) (h' : Ends x s Q' E') :
    Ends x s (fun a t => Q a t ∧ Q' a t) (fun e t => E e t ∧ E' e t) := by
  unfold Ends at *
  cases hx : x s with
  | ok a t =>
    rw [hx] at h h'
    exact ⟨h, h'⟩
  | error e t =>
    rw [hx] at h h'
    exact ⟨h, h'⟩

/-- Nothing is said of the end. -/
theorem ends_true : Ends x s (fun _ _ => True) fun _ _ => True := by
  unfold Ends
  cases x s with
  | ok a t => trivial
  | error e t => trivial

theorem ends_get {Q : σ → σ → Prop} : Ends (get : EStateM ε σ σ) s Q E ↔ Q s s := Iff.rfl

theorem ends_modify {f : σ → σ} {Q : PUnit → σ → Prop} :
    Ends (modify f : EStateM ε σ PUnit) s Q E ↔ Q ⟨⟩ (f s) := Iff.rfl

/-- What is known of an end holds of the computation that has ended. -/
theorem Ends.ok {a : α} (h : Ends x s Q E) (hx : x s = .ok a t) : Q a t := by
  unfold Ends at h
  rwa [hx] at h

theorem Ends.error {e : ε} (h : Ends x s Q E) (hx : x s = .error e t) : E e t := by
  unfold Ends at h
  rwa [hx] at h

end Lib
end Osrv
