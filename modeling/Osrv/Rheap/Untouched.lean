import Osrv.Rheap.Collected
import Osrv.Rheap.Walk

/-!
# The objects a load changes

Everything `decode_one` stores goes into an object it has made. It may return an object that
has been there before: `R_NilValue`, an environment, the missing argument, or a symbol or
string R knows already. Which of them a record comes to can be told from the record and its
text (`Existing`). If it comes to one, and attributes are in front of it, `sfs_load`
attaches them to this object.

So a load changes nothing that was there before when it meets no such attributes, and only
then (`spared_iff`).
-/

namespace Osrv
namespace Rheap

open Bytes Sfs Lib

variable {σ α : Type} (S : Session) (P : Prop)

/-! ### What is left alone -/

/-- The record comes to an object that has been there before. -/
def Existing (ts len : ℕ) (text : CString) : Prop :=
  match SexpType.ofCode ts with
  | .NILSXP | .ENVSXP => True
  | .ATTRSXP | .LISTSXP | .LANGSXP => len = 0
  | .SYMSXP => len = 0 ∨ (S.interned .symbol text).isSome
  | .CHARSXP => (S.interned .string text).isSome
  | _ => False

/-- Nothing has been changed that was there before. -/
def Spared (m : Machine σ) : Prop :=
  (∀ r, .modify r ∈ m.trace → S.heap.top ≤ r) ∧
    ∀ r < S.heap.top, m.heap.objects r = S.heap.objects r

/-- No attributes have been given to an object that was there before. -/
def Unattributed (trace : List Event) : Prop :=
  ∀ ts len text, .attributed ts len text ∈ trace → ¬ Existing S ts len text

/-- The invariant. Where `P` holds attributes are being attached. -/
structure Apart (m : Machine σ) : Prop where
  base : S.heap.top ≤ m.heap.top
  known : ∀ k s r, S.interned k s = some r → m.interned k s = some r
  made : ∀ k s r, m.interned k s = some r → S.interned k s = some r ∨ S.heap.top ≤ r
  settled : P ∨ (Spared S m ↔ Unattributed S m.trace)

/-- The invariant holds when a load stops. -/
def Refused (e : Stop) (m : Machine σ) : Prop := e ≠ .spins → Apart S P m

abbrev KeepsApart (x : Act σ α) : Prop := Keeps (Apart S P) (Refused S P) x

variable {S P} {m m' : Machine σ} {r : Ref}

/-- What does not change an object that was there before, and attaches nothing. -/
theorem Apart.next (h : Apart S P m) (es : List Event) (htop : m.heap.top ≤ m'.heap.top)
    (hinterned : m'.interned = m.interned)
    (hobjects : ∀ r < S.heap.top, m'.heap.objects r = m.heap.objects r)
    (htrace : m'.trace = es ++ m.trace) (hmodify : ∀ r, .modify r ∈ es → S.heap.top ≤ r)
    (hattributed : ∀ ts len text, .attributed ts len text ∉ es) : Apart S P m' := by
  refine ⟨h.base.trans htop, hinterned ▸ h.known, hinterned ▸ h.made, h.settled.imp_right ?_⟩
  intro hset
  -- the new events are about new objects
  have hspared : Spared S m' ↔ Spared S m := by
    constructor
    · rintro ⟨hm, ho⟩
      refine ⟨fun r hr => hm r (htrace ▸ List.mem_append_right _ hr), fun r hr => ?_⟩
      rw [← hobjects r hr]
      exact ho r hr
    · rintro ⟨hm, ho⟩
      refine ⟨fun r hr => ?_, fun r hr => (hobjects r hr).trans (ho r hr)⟩
      rw [htrace] at hr
      exact (List.mem_append.mp hr).elim (hmodify r) (hm r)
  -- and none of them is about attributes
  have hun : Unattributed S m'.trace ↔ Unattributed S m.trace := by
    constructor
    · exact fun hu ts len text hmem => hu ts len text (htrace ▸ List.mem_append_right _ hmem)
    · intro hu ts len text hmem
      rw [htrace] at hmem
      exact (List.mem_append.mp hmem).elim (fun h => absurd h (hattributed ts len text))
        (hu ts len text)
  rw [hspared, hun]
  exact hset

/-- Nothing happens but for some events. -/
theorem Apart.log (h : Apart S P m) {e : Event} (hmodify : ∀ r, e ≠ .modify r)
    (hattributed : ∀ ts len text, e ≠ .attributed ts len text) :
    Apart S P { m with trace := e :: m.trace } :=
  h.next [e] (Nat.le_refl _) rfl (fun _ _ => rfl) rfl
    (fun r hr => absurd (List.mem_singleton.mp hr).symm (hmodify r))
    fun ts len text hmem => hattributed ts len text (List.mem_singleton.mp hmem).symm

/-! ### The calls of the API -/

section Api

variable (R : Runtime)

theorem apart_stop {e : Stop} : KeepsApart S P (throw e : Act σ α) := fun _ h _ => h

theorem apart_use (r : Ref) : KeepsApart S P (log (.use r) : Act σ Unit) := fun _ h =>
  h.log (fun _ => Event.noConfusion) fun _ _ _ => Event.noConfusion

theorem apart_gc : KeepsApart S P (gc : Act σ Unit) := fun _ h =>
  h.log (fun _ => Event.noConfusion) fun _ _ _ => Event.noConfusion

/-- A change of the state of R that touches neither objects nor tables. -/
theorem Apart.of_eq (h : Apart S P m) (hheap : m'.heap = m.heap)
    (hinterned : m'.interned = m.interned) (htrace : m'.trace = m.trace) : Apart S P m' :=
  h.next [] (congrArg Memory.top hheap).ge hinterned (fun _ _ => by rw [hheap]) htrace
    (fun _ hr => nomatch hr) fun _ _ _ hmem => nomatch hmem

theorem apart_rf_warning (text : String) : KeepsApart S P (rf_warning text : Act σ Unit) :=
  apart_gc.bind fun _ _ h => h.of_eq rfl rfl rfl

/-- A new object is none of those that were there before. -/
theorem apart_alloc {m : Machine σ} (h : Apart S P m) (ok : Bool) (e : Stop) (c : Contents) :
    Ends (alloc ok e c) m (fun r m' => Apart S P m' ∧ S.heap.top ≤ r ∧
      m'.interned = m.interned ∧ m'.text = m.text) (Refused S P) := by
  refine (show Ends gc m (fun _ m' => Apart S P m' ∧ m'.interned = m.interned ∧
    m'.text = m.text) (Refused S P) from ⟨apart_gc m h, rfl, rfl⟩).bind (fun _ _ h => h)
    fun _ m₁ hgc => ?_
  obtain ⟨h₁, hi, ht⟩ := hgc
  cases ok with
  | false => exact fun _ => h₁
  | true =>
    refine ⟨h₁.next [] (Nat.le_succ _) rfl (fun r hr => ?_) rfl (fun _ hr => nomatch hr)
      (fun _ _ _ hmem => nomatch hmem), h₁.base, hi, ht⟩
    exact Function.update_of_ne (Nat.lt_of_lt_of_le hr h₁.base).ne ..

/-- A symbol or string was there before when the session has it. -/
theorem apart_intern {m : Machine σ} (h : Apart S P m) (k : Interned) (s : CString) :
    Ends (intern R k s) m (fun r m' => Apart S P m' ∧ m'.text = s ∧
      (r < S.heap.top ↔ (S.interned k s).isSome)) (Refused S P) := by
  let m₁ : Machine σ := { m with text := s }
  have h₁ : Apart S P m₁ := h.of_eq rfl rfl rfl
  unfold intern
  rw [ends_bind, ends_modify, ends_bind, ends_get]
  dsimp only
  cases hk : m.interned k s with
  -- it is in the table, which the load has extended only with objects of its own
  | some r =>
    have hgc : KeepsApart S P (do
        gc
        log (.obtain r) : Act σ Unit) :=
      apart_gc.bind fun _ _ h => h.log (fun _ => Event.noConfusion) fun _ _ _ => Event.noConfusion
    refine ⟨hgc m₁ h₁, rfl, ?_⟩
    constructor
    -- it was there before, so it is not one that the load has made
    · intro hr
      obtain hS | hnew := h.made k s r hk
      · rw [hS]
        rfl
      · exact absurd hr (Nat.not_lt.mpr hnew)
    -- the session has it, and the table has kept it
    · intro hsome
      obtain ⟨q, hq⟩ := Option.isSome_iff_exists.mp hsome
      obtain rfl : q = r := Option.some.inj ((h.known k s q hq).symm.trans hk)
      exact S.interned_lt k s q hq
  -- it is not in the table, and so not in the session
  | none =>
    have hS : S.interned k s = none := by
      cases hq : S.interned k s with
      | none => rfl
      | some q =>
        rw [h.known k s q hq] at hk
        cases hk
    refine (apart_alloc h₁ (R.cell m₁.heap.top) .memory (k.contents s)).bind (fun _ _ h => h)
      fun r m₂ halloc => ?_
    obtain ⟨h₂, hnew, hi, ht⟩ := halloc
    -- the table has one entry more
    have hentered : ∀ k' s' r', enter m₂.interned k s r k' s' = some r' →
        (k' = k ∧ s' = s ∧ r' = r) ∨ m₂.interned k' s' = some r' := by
      intro k' s' r' hr'
      unfold enter at hr'
      obtain rfl | hne := eq_or_ne k' k
      · rw [Function.update_self] at hr'
        obtain rfl | hne := eq_or_ne s' s
        · rw [Function.update_self] at hr'
          exact Or.inl ⟨rfl, rfl, (Option.some.inj hr').symm⟩
        · rw [Function.update_of_ne hne] at hr'
          exact Or.inr hr'
      · rw [Function.update_of_ne hne] at hr'
        exact Or.inr hr'
    refine ⟨⟨h₂.base, fun k' s' q hq => ?_, fun k' s' q hq => ?_, h₂.settled⟩, ht, ?_⟩
    -- the session does not have this name, and the others are kept
    · show enter m₂.interned k s r k' s' = some q
      unfold enter
      obtain rfl | hne := eq_or_ne k' k
      · rw [Function.update_self]
        obtain rfl | hne := eq_or_ne s' s
        · rw [hS] at hq
          cases hq
        · rw [Function.update_of_ne hne]
          exact h₂.known _ s' q hq
      · rw [Function.update_of_ne hne]
        exact h₂.known k' s' q hq
    · obtain ⟨rfl, rfl, rfl⟩ | hq := hentered k' s' q hq
      · exact Or.inr hnew
      · exact h₂.made k' s' q hq
    · rw [hS]
      exact iff_of_false (Nat.not_lt.mpr hnew) (by simp)

theorem apart_PROTECT (r : Ref) : KeepsApart S P (PROTECT r : Act σ Unit) :=
  (apart_use r).bind fun _ _ h => h.of_eq rfl rfl rfl

theorem apart_UNPROTECT (n : ℕ) : KeepsApart S P (UNPROTECT n : Act σ Unit) := fun _ h =>
  h.of_eq rfl rfl rfl

theorem apart_look (r : Ref) : KeepsApart S P (look r : Act σ Contents) :=
  (apart_use r).bind fun _ _ h => h

/-- A change of an object that was not there before; of any object while attributes are
attached. -/
theorem apart_change (hr : P ∨ S.heap.top ≤ r) (f : Object → Object) :
    KeepsApart S P (change r f : Act σ Unit) := by
  refine (apart_use r).bind fun _ m h => ?_
  let m' : Machine σ := { m with trace := .modify r :: m.trace, heap := m.heap.change r f }
  show Apart S P m'
  obtain hP | hr := hr
  · exact ⟨h.base, h.known, h.made, Or.inl hP⟩
  · refine h.next [.modify r] (Nat.le_refl _) rfl (fun x hx => ?_) rfl
      (fun x hx => ?_) fun _ _ _ hmem => Event.noConfusion (List.mem_singleton.mp hmem)
    · exact Function.update_of_ne (Nat.lt_of_lt_of_le hx hr).ne ..
    · cases List.mem_singleton.mp hx
      exact hr

theorem apart_setContents (hr : S.heap.top ≤ r) (v : Ref) (f : Contents → Contents) :
    KeepsApart S P (setContents r v f : Act σ Unit) :=
  (apart_use v).bind fun _ => apart_change (Or.inr hr) _

theorem apart_SET_STRING_ELT (hr : S.heap.top ≤ r) (i : ℕ) (v : Ref) :
    KeepsApart S P (SET_STRING_ELT r i v : Act σ Unit) :=
  (apart_look v).bind fun _ => .ite (apart_setContents hr v _) apart_stop

end Api

/-! ### Fetching -/

section Fetch

variable (R : Runtime) (src : Source σ)

/-- A fetch into memory that was not there before. -/
theorem apart_fetch {sink : ℕ → List UInt8 → Act σ Unit}
    (hsink : ∀ i bs, KeepsApart S P (sink i bs)) (n : ℕ) : KeepsApart S P (fetch src n sink) :=
  fun _ h => (fetch_ends src (fun _ _ h => h.of_eq rfl rfl rfl) (fun _ _ h _ => h) apart_gc
    (fun i bs _ => hsink i bs) h).mono (fun _ _ h => h.1) fun _ _ h => h

theorem apart_fetchHdr : KeepsApart S P (fetchHdr src) := by
  refine Keeps.bind (fun _ h => ?_) fun _ => (apart_fetch src (fun _ _ => .pure _) 8).bind
    fun _ => .pure _
  exact Apart.log h (fun _ => Event.noConfusion) fun _ _ _ => Event.noConfusion

/-- The vectors of plain memory. -/
theorem apart_decodeAtoms (t : AtomType) (len : ℕ) (h : Apart S P m) :
    Ends (decodeAtoms R src t len) m (fun r m' => Apart S P m' ∧ S.heap.top ≤ r)
      (Refused S P) := by
  refine (apart_alloc h _ _ _).bind (fun _ _ h => h) fun res m₁ ⟨h₁, hnew, _⟩ => ?_
  have hfetch : KeepsApart S P (do
      let _ ← fetch src (byteCount t len) (writeElements res)
      pure ()) :=
    (apart_fetch src (fun _ _ => apart_change (Or.inr hnew) _) _).bind fun _ => .pure _
  refine Ends.bind (Q := fun _ => Apart S P) (hfetch _ ?_) (fun _ _ h => h)
    fun _ _ h₂ => ⟨h₂, hnew⟩
  exact (h₁.log (e := .fetch ..) (fun _ => Event.noConfusion) fun _ _ _ => Event.noConfusion).log
    (e := .elements _) (fun _ => Event.noConfusion) fun _ _ _ => Event.noConfusion

theorem apart_decodeText (noMemory : ℕ → RError) (len : ℕ) :
    KeepsApart S P (decodeText R src noMemory len) := by
  refine .ite ?_ ?_
  · have hwrite : ∀ i bs, KeepsApart S P (writeDecBuf i bs : Act σ Unit) := fun _ _ _ h =>
      Apart.of_eq h rfl rfl rfl
    have hfetch : KeepsApart S P (do
        let _ ← fetch src len writeDecBuf
        pure ()) := (apart_fetch src hwrite len).bind fun _ => .pure _
    refine Keeps.bind (fun _ h => hfetch _ (h.log (e := .fetch ..) (fun _ => Event.noConfusion)
      fun _ _ _ => Event.noConfusion)) fun _ _ h => ?_
    exact h.log (e := .scan _) (fun _ => Event.noConfusion) fun _ _ _ => Event.noConfusion
  · have hmalloc : KeepsApart S P (malloc R len : Act σ (Option (List UInt8))) := fun _ h =>
      Apart.of_eq h rfl rfl rfl
    refine hmalloc.bind fun buf => ?_
    cases buf with
    | none => exact apart_stop
    | some buf => exact .pure _

end Fetch

/-! ### The branches of `decode_one` -/

variable (S P) in
/-- An act that keeps the invariant and returns an object that was not there before. -/
def Makes (x : Act σ Ref) : Prop :=
  ∀ m, Apart S P m → Ends x m (fun r m' => Apart S P m' ∧ S.heap.top ≤ r) (Refused S P)

theorem Makes.pure (hr : S.heap.top ≤ r) : Makes S P (Pure.pure r : Act σ Ref) := fun _ h => ⟨h, hr⟩

theorem Makes.bind {x : Act σ Ref} {f : Ref → Act σ Ref} (hx : Makes S P x)
    (hf : ∀ r, S.heap.top ≤ r → Makes S P (f r)) : Makes S P (x >>= f) := fun m h =>
  (hx m h).bind (fun _ _ h => h) fun r m' h' => hf r h'.2 m' h'.1

theorem Makes.after {β : Type} {x : Act σ β} {f : β → Act σ Ref} (hx : KeepsApart S P x)
    (hf : ∀ b, Makes S P (f b)) : Makes S P (x >>= f) := fun m h =>
  (hx m h).bind (fun _ _ h => h) fun b m' h' => hf b m' h'

theorem Makes.keeps {x : Act σ Ref} (hx : Makes S P x) : KeepsApart S P x := fun m h =>
  (hx m h).mono (fun _ _ h => h.1) fun _ _ h => h

theorem makes_alloc (ok : Bool) (e : Stop) (c : Contents) : Makes S P (alloc ok e c : Act σ Ref) :=
  fun _ h => (apart_alloc h ok e c).mono (fun _ _ h => ⟨h.1, h.2.1⟩) fun _ _ h => h

theorem makes_allocCell (R : Runtime) (c : Contents) : Makes S P (allocCell R c : Act σ Ref) :=
  fun m h => makes_alloc (R.cell m.heap.top) .memory c m h

section Load

variable (R : Runtime) (src : Source σ) {load : Act σ Ref} (hload : KeepsApart S P load)
include hload

/-- A vector that is filled with what is loaded. -/
theorem makes_decodeElts (t : SexpType) {set : Ref → ℕ → Ref → Act σ Unit}
    (hset : ∀ res i v, S.heap.top ≤ res → KeepsApart S P (set res i v)) (len : ℕ) :
    Makes S P (decodeElts R load t set len) := by
  refine (makes_alloc _ _ _).bind fun res hnew => .after (apart_PROTECT res) fun _ => ?_
  have hloop : ∀ i n, KeepsApart S P (eltLoop load set res i n) := by
    intro i n
    induction n generalizing i with
    | zero => exact .pure _
    | succ n ih => exact hload.bind fun v => (hset res i v hnew).bind fun _ => ih _
  exact .after (hloop 0 len) fun _ => .after (apart_UNPROTECT 1) fun _ => .pure hnew

theorem makes_decodeClosure : Makes S P (decodeClosure R load) := by
  refine (makes_allocCell R _).bind fun res hnew => .after (apart_PROTECT res) fun _ => ?_
  have hfield : ∀ (set : Ref → Ref → Act σ Unit), (∀ v, KeepsApart S P (set res v)) →
      KeepsApart S P (closureField load set res) := fun set hset =>
    hload.bind fun v => .ite (hset v) (.pure _)
  exact .after (hfield _ fun v => apart_setContents hnew v _) fun _ =>
    .after (hfield _ fun v => apart_setContents hnew v _) fun _ =>
      .after (hfield _ fun v => apart_setContents hnew v _) fun _ =>
        .after (apart_UNPROTECT 1) fun _ => .pure hnew

/-- One round of the loop over a pairlist. -/
theorem makes_decodeCell (lang : Bool) : Makes S P (decodeCell R load lang) := by
  refine .after hload fun tag => .after (apart_PROTECT tag) fun _ => .after hload fun val =>
    .after (apart_PROTECT val) fun _ => Makes.bind ?_ fun x hnew => ?_
  · exact (makes_allocCell R _).bind fun x hnew => .after (apart_use val) fun _ => .pure hnew
  · exact .after (apart_PROTECT x) fun _ =>
      .after (.ite (apart_setContents hnew tag _) (.pure _)) fun _ => .pure hnew

/-- A pairlist with a cell. -/
theorem makes_decodeCells (lang : Bool) (n : ℕ) : Makes S P (decodeCells R load lang (n + 1)) := by
  have hloop : ∀ last, S.heap.top ≤ last → KeepsApart S P (cellLoop R load lang last n) := by
    induction n with
    | zero => exact fun _ _ => .pure _
    | succ n ih =>
      intro last hlast m h
      refine (makes_decodeCell R hload lang m h).bind (fun _ _ h => h) fun x m₁ ⟨h₁, hx⟩ => ?_
      exact Keeps.bind (apart_setContents hlast x _) (fun _ => (apart_UNPROTECT 3).bind fun _ =>
        ih x hx) m₁ h₁
  exact (makes_decodeCell R hload lang).bind fun res hnew => .after (hloop res hnew) fun _ =>
    .after (apart_UNPROTECT 3) fun _ => .pure hnew

/-- **`decode_one`** comes to an object that was there before exactly when the record is one of
those for which it does. -/
theorem apart_decode_one {m : Machine σ} (hdr : ℕ) (h : Apart S P m) :
    Ends (decode_one R src load hdr) m (fun r m' => Apart S P m' ∧
      (r < S.heap.top ↔ Existing S (hdr % 256) (hdr >>> 8) m'.text)) (Refused S P) := by
  have hfixed : ∀ r : Ref, r < R_BlankString → r < S.heap.top := fun r hr => hr.trans S.fixed
  -- a record that makes an object
  have hmakes : ∀ {x : Act σ Ref}, Makes S P x →
      (∀ text, ¬ Existing S (hdr % 256) (hdr >>> 8) text) →
      Ends x m (fun r m' => Apart S P m' ∧
        (r < S.heap.top ↔ Existing S (hdr % 256) (hdr >>> 8) m'.text)) (Refused S P) :=
    fun hx hnot => (hx m h).mono
      (fun _ m' h' => ⟨h'.1, iff_of_false (Nat.not_lt.mpr h'.2) (hnot m'.text)⟩) fun _ _ h => h
  unfold decode_one decodeSwitch
  unfold Existing at hmakes ⊢
  generalize hdr >>> 8 = len at hmakes ⊢
  generalize hts : SexpType.ofCode (hdr % 256) = ts at hmakes ⊢
  cases ts with
  | NILSXP => exact ⟨h, iff_of_true (hfixed _ (by decide)) trivial⟩
  | INTSXP => exact hmakes (fun _ => apart_decodeAtoms R src .INTSXP len) fun _ => id
  | LGLSXP => exact hmakes (fun _ => apart_decodeAtoms R src .LGLSXP len) fun _ => id
  | REALSXP => exact hmakes (fun _ => apart_decodeAtoms R src .REALSXP len) fun _ => id
  | CPLXSXP => exact hmakes (fun _ => apart_decodeAtoms R src .CPLXSXP len) fun _ => id
  -- a symbol is the unbound value, or it is found or made
  | SYMSXP =>
    show Ends (decodeSymbol R src len) m (fun r m' => Apart S P m' ∧
      (r < S.heap.top ↔ len = 0 ∨ (S.interned .symbol m'.text).isSome)) _
    unfold decodeSymbol
    split
    · next hlen => exact ⟨h, iff_of_true (hfixed _ (by decide)) (Or.inl hlen)⟩
    · next hlen =>
      refine (apart_decodeText R src _ len m h).bind (fun _ _ h => h) fun s m₁ h₁ => ?_
      unfold install
      split
      · exact fun _ => h₁
      split
      · exact fun _ => h₁
      · refine (apart_intern R h₁ .symbol s).mono (fun r m₂ ⟨h₂, ht, hr⟩ => ⟨h₂, ?_⟩) fun _ _ h => h
        rw [hr, ht]
        exact (or_iff_right hlen).symm
  | VECSXP =>
    exact hmakes (makes_decodeElts R hload .VECSXP (fun res i v hr => apart_setContents hr v _) len)
      fun _ => id
  | STRSXP =>
    exact hmakes (makes_decodeElts R hload .STRSXP
      (fun res i v hr => apart_SET_STRING_ELT hr i v) len) fun _ => id
  -- a string is found or made
  | CHARSXP =>
    refine (apart_decodeText R src _ len m h).bind (fun _ _ h => h) fun s m₁ h₁ => ?_
    refine (apart_intern R h₁ .string s).mono (fun r m₂ ⟨h₂, ht, hr⟩ => ⟨h₂, ?_⟩) fun _ _ h => h
    rw [hr, ht]
  | CLOSXP => exact hmakes (makes_decodeClosure R hload) fun _ => id
  -- an empty list is `R_NilValue`
  | ATTRSXP | LISTSXP | LANGSXP =>
    cases len with
    | zero => exact ⟨h, iff_of_true (hfixed _ (by decide)) rfl⟩
    | succ n => exact hmakes (makes_decodeCells R hload _ n) fun _ => Nat.succ_ne_zero n
  -- an environment is one of those that are fixed, with or without a warning
  | ENVSXP =>
    show Ends (decodeEnv len) m (fun r m' => Apart S P m' ∧ (r < S.heap.top ↔ True)) _
    unfold decodeEnv
    split
    · exact ⟨h, iff_of_true (hfixed _ (by decide)) trivial⟩
    split
    · exact ⟨h, iff_of_true (hfixed _ (by decide)) trivial⟩
    split
    · exact ⟨h, iff_of_true (hfixed _ (by decide)) trivial⟩
    · exact (apart_rf_warning _ m h).bind (fun _ _ h => h) fun _ _ h' =>
        ⟨h', iff_of_true (hfixed _ (by decide)) trivial⟩
  | _ => exact fun _ => h

end Load

/-! ### The attributes -/

/-- The loop over the attributes changes the object only, and goes on to an end. -/
theorem classLoop_ends {res : Ref} (hr : P ∨ S.heap.top ≤ res) (n : ℕ) (c : Ref) {m : Machine σ}
    (h : Apart S P m) :
    Ends (classLoop res n c) m (fun _ m' => Apart S P m' ∧ m.trace <:+ m'.trace)
      fun e _ => e = .spins := by
  induction n generalizing c m with
  | zero => exact rfl
  | succ n ih =>
    unfold classLoop
    split
    -- the end of the cells
    · exact ⟨h, List.suffix_refl _⟩
    · have huse : Apart S P { m with trace := .use c :: m.trace } :=
        h.log (fun _ => Event.noConfusion) fun _ _ _ => Event.noConfusion
      show Ends (if _ = R_ClassSymbol then SET_OBJECT res else _)
        { m with trace := .use c :: m.trace } _ _
      split
      -- the class attribute
      · have hchange := apart_change hr (fun o => { o with obj := true }) _ huse
        exact ⟨hchange, (((List.suffix_cons _ _).trans (List.suffix_cons _ _)).trans
          (List.suffix_cons _ _))⟩
      -- another one
      · have huse₂ : Apart S P { m with trace := .use c :: .use c :: m.trace } :=
          huse.log (fun _ => Event.noConfusion) fun _ _ _ => Event.noConfusion
        refine (ih _ huse₂).mono (fun _ m' h' => ⟨h'.1, ?_⟩) fun _ _ h => h
        exact ((List.suffix_cons _ _).trans (List.suffix_cons _ _)).trans h'.2

/-- What is left to do when the attributes have been noted. -/
theorem attach_ends {attr res : Ref} (hr : P ∨ S.heap.top ≤ res) (n : ℕ) {m : Machine σ}
    (h : Apart S P m) :
    Ends (do
      classLoop res n attr
      PROTECT res
      SET_ATTRIB res attr
      UNPROTECT 2) m (fun _ m' => Apart S P m' ∧ m.trace <:+ m'.trace ∧ .modify res ∈ m'.trace)
      fun e _ => e = .spins := by
  refine (classLoop_ends hr n attr h).bind (fun _ _ h => h) fun _ m₁ ⟨h₁, hsuffix⟩ => ?_
  have huse : Apart S P { m₁ with trace := .use attr :: .use res :: m₁.trace } :=
    (h₁.log (e := .use res) (fun _ => Event.noConfusion) fun _ _ _ => Event.noConfusion).log
      (e := .use attr) (fun _ => Event.noConfusion) fun _ _ _ => Event.noConfusion
  have h₂ : Apart S P { m₁ with
      stack := res :: m₁.stack
      trace := .use attr :: .use res :: m₁.trace } := huse.of_eq rfl rfl rfl
  have h₃ := apart_change hr (fun o => { o with attrib := attr }) _ h₂
  refine ⟨Apart.of_eq (m := _) h₃ rfl rfl rfl, hsuffix.trans ?_, List.mem_cons_self ..⟩
  exact ((List.suffix_cons _ _).trans (List.suffix_cons _ _)).trans
    ((List.suffix_cons _ _).trans (List.suffix_cons _ _))

/-- **The attributes of a record** change an object that was there before exactly when the
record comes to one. -/
theorem setAttributes_ends {hdr : ℕ} {attr res : Ref} {m : Machine σ} (h : Apart S False m)
    (hres : res < S.heap.top ↔ Existing S (hdr % 256) (hdr >>> 8) m.text) :
    Ends (setAttributes hdr attr res) m (fun _ m' => Apart S False m') (Refused S False) := by
  let m₁ : Machine σ :=
    { m with trace := .attributed (hdr % 256) (hdr >>> 8) m.text :: m.trace }
  show Ends (do
    classLoop res (m.heap.top + 1) attr
    PROTECT res
    SET_ATTRIB res attr
    UNPROTECT 2) m₁ _ _
  have hspins : ∀ e (m' : Machine σ), e = .spins → Refused S False e m' := fun e _ he hne =>
    absurd he hne
  -- the event in front is about no change
  have hspared : Spared S m₁ ↔ Spared S m := by
    refine and_congr_left fun _ => forall_congr' fun r => imp_congr_left ?_
    exact (List.mem_cons.trans (or_iff_right Event.noConfusion))
  by_cases hold : res < S.heap.top
  · -- the object was there before
    have h₁ : Apart S True m₁ := ⟨h.base, h.known, h.made, Or.inl trivial⟩
    refine (attach_ends (Or.inl trivial) _ h₁).mono (fun _ m₂ ⟨h₂, hsuffix, hmem⟩ => ?_)
      fun e m' he => hspins e m' he
    refine ⟨h₂.base, h₂.known, h₂.made, Or.inr (iff_of_false (fun hs => ?_) fun hu => ?_)⟩
    · exact Nat.not_lt.mpr (hs.1 res hmem) hold
    · exact hu _ _ _ (hsuffix.subset (List.mem_cons_self ..)) (hres.mp hold)
  -- the object is new
  · have h₁ : Apart S False m₁ := by
      refine ⟨h.base, h.known, h.made,
        h.settled.imp_right fun hset => hspared.trans (hset.trans ?_)⟩
      constructor
      · intro hu ts len text hmem
        obtain heq | hmem := List.mem_cons.mp hmem
        · cases heq
          exact fun hex => hold (hres.mpr hex)
        · exact hu ts len text hmem
      · exact fun hu ts len text hmem => hu ts len text (List.mem_cons_of_mem _ hmem)
    exact (attach_ends (Or.inr (Nat.not_lt.mp hold)) _ h₁).mono (fun _ _ h₂ => h₂.1)
      fun e m' he => hspins e m' he

/-! ### `sfs_load` -/

theorem apart_sfs_load (S : Session) (R : Runtime) (src : Source σ) (depth : ℕ) :
    KeepsApart S False (sfs_load R src depth) := by
  induction depth with
  | zero => exact apart_stop
  | succ depth hload =>
    refine (apart_fetchHdr src).bind fun hdr => ?_
    have hdecode : ∀ hdr, KeepsApart S False (decode_one R src (sfs_load R src depth) hdr) :=
      fun hdr _ h => (apart_decode_one R src hload hdr h).mono (fun _ _ h => h.1) fun _ _ h => h
    have hprefix : KeepsApart S False (loadPrefix R src (sfs_load R src depth) hdr) := by
      refine .ite ((hdecode hdr).bind fun attr => ?_) (.pure _)
      exact Keeps.bind (.ite (apart_PROTECT attr) (.pure _)) fun _ =>
        (apart_fetchHdr src).bind fun _ => .pure _
    refine hprefix.bind fun p m h => ?_
    refine (apart_decode_one R src hload p.2 h).bind (fun _ _ h => h) fun res m₁ ⟨h₁, hres⟩ => ?_
    refine Ends.bind (Q := fun _ => Apart S False) ?_ (fun _ _ h => h) fun _ m₂ h₂ => ?_
    · split
      · exact setAttributes_ends h₁ hres
      · exact h₁
    · exact Keeps.bind (apart_use res) (fun _ => .pure res) m₂ h₂

/-- **What a load changes.** A load over any callback changes only objects that it has made,
and leaves the attributes, the flag and the contents of every object as they are that was
there before, exactly when it gives no attributes to a record that comes to such an object: a
`NULL`, an environment, an empty pairlist, the missing argument, or a symbol or string that R
knows already. -/
theorem spared_iff (S : Session) (R : Runtime) (src : Source σ) (s : σ) (dec_buf : List UInt8)
    (depth : ℕ) :
    ((∀ r, .modify r ∈ (endState (sfs_load R src depth (.start S s dec_buf))).trace →
          S.heap.top ≤ r) ∧
        ∀ r < S.heap.top, (endState (sfs_load R src depth (.start S s dec_buf))).heap.objects r =
          S.heap.objects r) ↔
      ∀ ts len text,
        .attributed ts len text ∈ (endState (sfs_load R src depth (.start S s dec_buf))).trace →
          ¬ Existing S ts len text := by
  have hstart : Apart S False (.start S s dec_buf : Machine σ) := by
    refine ⟨Nat.le_refl _, fun _ _ _ h => h, fun _ _ _ h => Or.inl h, Or.inr ?_⟩
    exact iff_of_true ⟨fun _ h => (nomatch h), fun _ _ => rfl⟩ fun _ _ _ h => (nomatch h)
  have hends := apart_sfs_load S R src depth _ hstart
  have hprotected := protected_sfs_load R src depth _ (S.ok_start s dec_buf)
  cases hrun : sfs_load R src depth (.start S s dec_buf) with
  | ok v m =>
    have h : Apart S False m := hends.ok hrun
    exact h.settled.resolve_left id
  | error e m =>
    have h : Apart S False m := hends.error hrun (hprotected.error hrun).1
    exact h.settled.resolve_left id

/-- An attribute in front of a `NULL`: a pairlist of one cell, with no tag and no value. -/
def attributedNull : List UInt8 :=
  [255, 1, 0, 0, 0, 0, 0, 0] ++ List.replicate 24 0

/-- The event is a change of an object below a bound. -/
def Event.modifiesBelow (top : Ref) : Event → Bool
  | .modify r => decide (r < top)
  | _ => false

/-- `R_NilValue` is given an attribute. -/
theorem modified_attributedNull :
    ¬ ∀ r, .modify r ∈ (endState (sfs_load .ample Mem.fetch 2
      (.start .bare attributedNull (List.replicate sizeofDecBuf 0)))).trace →
        Session.bare.heap.top ≤ r := by
  have hany : (endState (sfs_load .ample Mem.fetch 2 (.start .bare attributedNull
      (List.replicate sizeofDecBuf 0)))).trace.any (Event.modifiesBelow 7) := by
    decide +kernel
  intro h
  obtain ⟨e, hmem, he⟩ := List.any_eq_true.mp hany
  cases e with
  | modify r => exact absurd (h r hmem) (Nat.not_le.mpr (of_decide_eq_true he))
  | _ => cases he

end Rheap
end Osrv
