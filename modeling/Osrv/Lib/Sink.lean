import Mathlib.Data.List.Basic

/-!
# Writers that may stop

A writer takes items one after the other and puts out what each of them stands for, or it
stops with an error. `Fills` says that it has put out all it was given, or, when it has
stopped, a front of that with something missing. Fronts add up along a list of items
(`Fills.foldlM`), so that what has come out of a writer is always a front of the whole.

What a step puts out may be known only for runs in which nothing else has gone wrong. That is
a property of the last state that cannot be regained once it is lost.
-/

namespace Osrv
namespace Lib

variable {S A B : Type}

/-- The state in which a writer ends, stopped or not. -/
def last : Except S S → S
  | .ok s => s
  | .error s => s

/-- **How a writer ends** behind what it had put out in `s`: with all of `bs`, or stopped and
with a front of it that is not all. -/
def Fills (out : S → List B) (s : S) (bs : List B) : Except S S → Prop
  | .ok t => out t = out s ++ bs
  | .error t => ∃ front, front <+: bs ∧ front ≠ bs ∧ out t = out s ++ front

variable {out : S → List B} {s t : S} {bs cs : List B} {r : Except S S}

theorem Fills.refl (out : S → List B) (s : S) : Fills out s [] (.ok s) :=
  (List.append_nil _).symm

/-- A writer that has stopped with something missing. -/
theorem Fills.stopped (bs : List B) (hrest : cs ≠ []) (hout : out t = out s ++ bs) :
    Fills out s (bs ++ cs) (.error t) :=
  ⟨bs, List.prefix_append _ _, fun h => hrest (List.self_eq_append_right.mp h), hout⟩

/-- It stays stopped, with more missing. -/
theorem Fills.stays (h : Fills out s bs (.error t)) : Fills out s (bs ++ cs) (.error t) := by
  obtain ⟨front, ⟨rest, rfl⟩, hne, hout⟩ := h
  rw [List.append_assoc]
  refine Fills.stopped front (fun hnil => hne ?_) hout
  rw [(List.append_eq_nil_iff.mp hnil).1, List.append_nil]

/-- What is put out behind something else. -/
theorem Fills.after (h : out t = out s ++ bs) (hr : Fills out t cs r) :
    Fills out s (bs ++ cs) r := by
  cases r with
  | ok u =>
    have hu : out u = out t ++ cs := hr
    show out u = out s ++ (bs ++ cs)
    rw [hu, h, List.append_assoc]
  | error u =>
    obtain ⟨front, hfront, hne, hu⟩ := hr
    refine ⟨bs ++ front, (List.prefix_append_right_inj _).mpr hfront, fun heq => ?_, ?_⟩
    · exact hne (List.append_cancel_left heq)
    · rw [hu, h, List.append_assoc]

/-- **A list of items**, when each step does what it should unless something has gone wrong. -/
theorem Fills.foldlM {step : S → A → Except S S} {bytes : A → List B} (good : S → Prop)
    (hgood : ∀ s a, good (last (step s a)) → good s)
    (hstep : ∀ s a, good (last (step s a)) → Fills out s (bytes a) (step s a)) (as : List A)
    (s : S) (h : good (last (as.foldlM step s))) :
    good s ∧ Fills out s (as.flatMap bytes) (as.foldlM step s) := by
  induction as generalizing s with
  | nil => exact ⟨h, Fills.refl out s⟩
  | cons a as ih =>
    rw [List.foldlM_cons] at h ⊢
    rw [List.flatMap_cons]
    have hfirst := hstep s a
    have hback := hgood s a
    cases ha : step s a with
    | error t =>
      rw [ha] at h hfirst hback
      exact ⟨hback h, (hfirst h).stays⟩
    | ok t =>
      rw [ha] at h hfirst hback
      obtain ⟨ht, hrest⟩ := ih t h
      exact ⟨hback ht, Fills.after (hfirst ht) hrest⟩

end Lib
end Osrv
