import Osrv.Lib.Ends
import Osrv.Rheap.Decode

/-!
# What the calls of R's API leave alone

The calls of R's API have no part in what is read. They leave the state of the
callback and `dec_buf` as they are, whether they return or not, and nothing they put
into the trace is about reading (`QuietAct`). A property that does not depend on
anything else is kept by all of them (`QuietAct.keeps`).
-/

namespace Osrv
namespace Rheap

open Bytes Sfs Lib

variable {σ α β : Type}

/-! ### Acts that keep a property -/

/-- An act after which a property holds again when it returns, and `E` when it does not. -/
def Keeps (I : Machine σ → Prop) (E : Stop → Machine σ → Prop) (x : Act σ α) : Prop :=
  ∀ m, I m → Ends x m (fun _ m' => I m') E

/-- The machine at the end of a load. -/
def endState {α : Type} : EStateM.Result Stop (Machine σ) α → Machine σ
  | .ok _ m => m
  | .error _ m => m

section Keeps

variable {I : Machine σ → Prop} {E : Stop → Machine σ → Prop} {x : Act σ α} {f : α → Act σ β}

theorem Keeps.pure (a : α) : Keeps I E (Pure.pure a : Act σ α) := fun _ h => h

theorem Keeps.bind (hx : Keeps I E x) (hf : ∀ a, Keeps I E (f a)) : Keeps I E (x >>= f) :=
  fun m h => (hx m h).bind (fun _ _ h => h) fun a m' h => hf a m' h

theorem Keeps.ite {p : Prop} [Decidable p] {y : Act σ α} (hx : Keeps I E x) (hy : Keeps I E y) :
    Keeps I E (if p then x else y) := by
  split
  · exact hx
  · exact hy

/-- What is kept in any case holds at the end. -/
theorem Keeps.endState (hx : Keeps I (fun _ => I) x) {m : Machine σ} (h : I m) :
    I (endState (x m)) := by
  have hends := hx m h
  cases hx : x m with
  | ok a m' => exact hends.ok hx
  | error e m' => exact hends.error hx

end Keeps

/-! ### Quiet acts -/

/-- The events that are not about reading. -/
def Event.ofR : Event → Prop
  | .header => False
  | .fetch .. => False
  | .scan _ => False
  | _ => True

/-- Nothing has been read. -/
structure Quiet (m m' : Machine σ) : Prop where
  api : m'.api = m.api
  dec_buf : m'.dec_buf = m.dec_buf
  trace : ∃ es, m'.trace = es ++ m.trace ∧ ∀ e ∈ es, e.ofR

/-- An act that reads nothing, and does not reach the bound on the nesting. -/
def QuietAct (x : Act σ α) : Prop :=
  ∀ m, Ends x m (fun _ m' => Quiet m m') fun e m' => Quiet m m' ∧ e ≠ .tooDeep

theorem Quiet.refl (m : Machine σ) : Quiet m m := ⟨rfl, rfl, [], rfl, by simp⟩

theorem Quiet.trans {m₁ m₂ m₃ : Machine σ} (h : Quiet m₁ m₂) (h' : Quiet m₂ m₃) :
    Quiet m₁ m₃ := by
  obtain ⟨es, htrace, hes⟩ := h.trace
  obtain ⟨es', htrace', hes'⟩ := h'.trace
  refine ⟨h'.api.trans h.api, h'.dec_buf.trans h.dec_buf, es' ++ es, ?_, ?_⟩
  · rw [htrace', htrace, List.append_assoc]
  · intro e he
    exact (List.mem_append.mp he).elim (hes' e) (hes e)

/-- A quiet act keeps what does not depend on more than it leaves alone. -/
theorem QuietAct.keeps {I : Machine σ → Prop} {E : Stop → Machine σ → Prop} {x : Act σ α}
    (hx : QuietAct x) (hI : ∀ m m', Quiet m m' → I m → I m')
    (hE : ∀ e m, I m → e ≠ .tooDeep → E e m) : Keeps I E x := fun m h =>
  (hx m).mono (fun _ m' hq => hI m m' hq h) fun e m' hq => hE e m' (hI m m' hq.1 h) hq.2

namespace QuietAct

theorem pure (a : α) : QuietAct (Pure.pure a : Act σ α) := fun m => Quiet.refl m

theorem throw {e : Stop} (he : e ≠ .tooDeep) : QuietAct (throw e : Act σ α) := fun m =>
  ⟨Quiet.refl m, he⟩

theorem bind {x : Act σ α} {f : α → Act σ β} (hx : QuietAct x) (hf : ∀ a, QuietAct (f a)) :
    QuietAct (x >>= f) := fun m =>
  (hx m).bind (fun _ _ h => h) fun a m' h =>
    (hf a m').mono (fun _ _ h' => h.trans h') fun _ _ h' => ⟨h.trans h'.1, h'.2⟩

/-- A look at the state. -/
theorem get_bind {f : Machine σ → Act σ β} (hf : ∀ m, QuietAct (f m)) :
    QuietAct (get >>= f : Act σ β) := fun m => hf m m

/-- A change of the state of R. -/
theorem modify {f : Machine σ → Machine σ} (hf : ∀ m, Quiet m (f m)) :
    QuietAct (modify f : Act σ PUnit) := hf

theorem ite {p : Prop} [Decidable p] {x y : Act σ α} (hx : QuietAct x) (hy : QuietAct y) :
    QuietAct (if p then x else y) := by
  split
  · exact hx
  · exact hy

end QuietAct

/-! ### The calls of the API -/

section Api

variable (R : Runtime)

theorem quiet_log (e : Event) (he : e.ofR) : QuietAct (log e : Act σ Unit) :=
  QuietAct.modify fun _ => ⟨rfl, rfl, [e], rfl, fun _ h => List.mem_singleton.mp h ▸ he⟩

theorem quiet_use (r : Ref) : QuietAct (log (.use r) : Act σ Unit) := quiet_log _ trivial

/-- A change of the state of R that leaves the trace alone. -/
theorem quiet_modify {f : Machine σ → Machine σ} (hapi : ∀ m, (f m).api = m.api)
    (hbuf : ∀ m, (f m).dec_buf = m.dec_buf) (htrace : ∀ m, (f m).trace = m.trace) :
    QuietAct (modify f : Act σ PUnit) :=
  QuietAct.modify fun m => ⟨hapi m, hbuf m, [], htrace m, by simp⟩

theorem quiet_gc : QuietAct (gc : Act σ Unit) :=
  QuietAct.modify fun m =>
    ⟨rfl, rfl, [.collect m.stack m.heap], rfl, fun _ h => List.mem_singleton.mp h ▸ trivial⟩

theorem quiet_rf_error (e : RError) : QuietAct (rf_error e : Act σ α) :=
  QuietAct.throw fun h => Stop.noConfusion h

theorem quiet_rf_warning (text : String) : QuietAct (rf_warning text : Act σ Unit) :=
  quiet_gc.bind fun _ => quiet_modify (fun _ => rfl) (fun _ => rfl) fun _ => rfl

theorem quiet_new (c : Contents) : QuietAct (new c : Act σ Ref) := fun _ =>
  ⟨rfl, rfl, [], rfl, by simp⟩

theorem quiet_alloc (ok : Bool) (e : Stop) (c : Contents) (he : e ≠ .tooDeep) :
    QuietAct (alloc ok e c : Act σ Ref) :=
  quiet_gc.bind fun _ => .ite (quiet_new c) (.throw he)

theorem quiet_allocCell (c : Contents) : QuietAct (allocCell R c : Act σ Ref) :=
  .get_bind fun _ => quiet_alloc _ _ c Stop.noConfusion

theorem quiet_allocVector (t : SexpType) (len : ℕ) :
    QuietAct (allocVector R t len : Act σ Ref) :=
  quiet_alloc _ _ _ Stop.noConfusion

theorem quiet_CONS (lang : Bool) (val : Ref) : QuietAct (CONS R lang val : Act σ Ref) :=
  (quiet_allocCell R _).bind fun x => (quiet_use val).bind fun _ => .pure x

theorem quiet_intern (k : Interned) (s : CString) : QuietAct (intern R k s : Act σ Ref) := by
  unfold intern
  refine QuietAct.bind ?_ fun _ => .get_bind fun m => ?_
  · exact quiet_modify (fun _ => rfl) (fun _ => rfl) fun _ => rfl
  cases m.interned k s with
  | some r => exact quiet_gc.bind fun _ => (quiet_log (.obtain r) trivial).bind fun _ => .pure r
  | none =>
    refine (quiet_allocCell R _).bind fun r => QuietAct.bind ?_ fun _ => .pure r
    exact quiet_modify (fun _ => rfl) (fun _ => rfl) fun _ => rfl

theorem quiet_install (name : CString) : QuietAct (install R name : Act σ Ref) :=
  .ite (quiet_rf_error _) (.ite (quiet_rf_error _) (quiet_intern R .symbol name))

theorem quiet_mkChar (s : CString) : QuietAct (mkChar R s : Act σ Ref) :=
  quiet_intern R .string s

theorem quiet_malloc (len : ℕ) : QuietAct (malloc R len : Act σ (Option (List UInt8))) :=
  fun _ => ⟨rfl, rfl, [], rfl, by simp⟩

theorem quiet_PROTECT (r : Ref) : QuietAct (PROTECT r : Act σ Unit) :=
  (quiet_use r).bind fun _ => quiet_modify (fun _ => rfl) (fun _ => rfl) fun _ => rfl

theorem quiet_UNPROTECT (n : ℕ) : QuietAct (UNPROTECT n : Act σ Unit) :=
  quiet_modify (fun _ => rfl) (fun _ => rfl) fun _ => rfl

theorem quiet_change (r : Ref) (f : Object → Object) : QuietAct (change r f : Act σ Unit) :=
  (quiet_use r).bind fun _ => (quiet_log (.modify r) trivial).bind fun _ =>
    quiet_modify (fun _ => rfl) (fun _ => rfl) fun _ => rfl

theorem quiet_look (r : Ref) : QuietAct (look r : Act σ Contents) :=
  (quiet_use r).bind fun _ => .get_bind fun _ => .pure _

theorem quiet_TAG (c : Ref) : QuietAct (TAG c : Act σ Ref) :=
  (quiet_look c).bind fun u => .pure u.tag

theorem quiet_CDR (c : Ref) : QuietAct (CDR c : Act σ Ref) :=
  (quiet_look c).bind fun u => .pure u.cdr

theorem quiet_setContents (r v : Ref) (f : Contents → Contents) :
    QuietAct (setContents r v f : Act σ Unit) :=
  (quiet_use v).bind fun _ => quiet_change r _

theorem quiet_SET_STRING_ELT (res : Ref) (i : ℕ) (v : Ref) :
    QuietAct (SET_STRING_ELT res i v : Act σ Unit) :=
  (quiet_look v).bind fun _ => .ite (quiet_setContents _ _ _) (quiet_rf_error _)

theorem quiet_SET_ATTRIB (x attr : Ref) : QuietAct (SET_ATTRIB x attr : Act σ Unit) :=
  (quiet_use attr).bind fun _ => quiet_change x _

theorem quiet_classLoop (res : Ref) (n : ℕ) (c : Ref) :
    QuietAct (classLoop res n c : Act σ Unit) := by
  induction n generalizing c with
  | zero => exact .throw Stop.noConfusion
  | succ n ih =>
    refine .ite (.pure _) ((quiet_TAG c).bind fun tag => ?_)
    exact .ite (quiet_change res _) ((quiet_CDR c).bind ih)

theorem quiet_setAttributes (hdr : ℕ) (attr res : Ref) :
    QuietAct (setAttributes hdr attr res : Act σ Unit) := by
  refine .get_bind fun m => QuietAct.bind (quiet_log _ ?_) fun _ => ?_
  · exact trivial
  exact (quiet_classLoop _ _ _).bind fun _ => (quiet_PROTECT res).bind fun _ =>
    (quiet_SET_ATTRIB res attr).bind fun _ => quiet_UNPROTECT 2

end Api

end Rheap
end Osrv
