import Osrv.Rheap.Held

/-!
# The calls of the API on what is held

One lemma for each call of R's API, with what it does to the invariant and to what is
held. Symbols and strings are made or found; an object that is new gets contents
(`ends_setContents`); any object gets attributes; and while something is fetched R may
collect, but for the vector whose elements arrive (`ends_fetchElements`).
-/

namespace Osrv
namespace Rheap

open Bytes Sfs Lib

variable {σ α β : Type} {S : Session} {P : Prop} {m m₀ m' : Machine σ} {r v : Ref}

/-! ### New objects -/

theorem anchored_nil (S : Session) (m : Machine σ) : Anchored S m R_NilValue :=
  Or.inl ((show R_NilValue < R_BlankString by decide).trans S.fixed)

theorem ends_allocVector (R : Runtime) (h : Ok S P m) (t : SexpType) (len : ℕ) :
    Ends (allocVector R t len) m (fun r m' => Yields S P m r m' ∧ r = m.heap.top ∧
      m'.heap = m.heap.push (vector t len).fresh) (Stopped S P) := by
  refine ends_alloc h (fun q hq => ?_) _ Stop.noConfusion
  have hblank : Anchored S m R_BlankString := Or.inl S.fixed
  unfold vector at hq
  split at hq
  case h_6 =>
    rw [List.eq_of_mem_replicate hq]
    exact hblank
  case h_7 =>
    rw [List.eq_of_mem_replicate hq]
    exact anchored_nil S m
  all_goals cases hq

theorem ends_allocClosure (R : Runtime) (h : Ok S P m) :
    Ends (allocClosure R) m (fun r m' => Yields S P m r m' ∧ r = m.heap.top) (Stopped S P) := by
  refine (ends_allocCell R h fun q hq => ?_).mono (fun _ _ h => ⟨h.1, h.2.1⟩) fun _ _ h => h
  have hnil : q = R_NilValue := by simpa [Contents.refs] using hq
  exact hnil ▸ anchored_nil S m

/-- A cell of a protected value. -/
theorem ends_CONS (R : Runtime) (h : Ok S P m) (lang : Bool) (hv : Held S m v)
    (hpin : Pinned m.heap m.stack v) :
    Ends (CONS R lang v) m (fun x m' => Yields S P m x m' ∧ x = m.heap.top ∧
      (m'.heap.objects x).contents = .cons lang R_NilValue v R_NilValue) (Stopped S P) := by
  have hrefs : ∀ q ∈ (Contents.cons lang R_NilValue v R_NilValue).refs, Anchored S m q := by
    intro q hq
    simp only [Contents.refs, List.mem_cons, List.not_mem_nil, or_false] at hq
    obtain rfl | rfl | rfl := hq
    · exact anchored_nil S m
    · exact Or.inr ⟨hv, hpin⟩
    · exact anchored_nil S m
  refine (ends_allocCell R h hrefs).bind (fun _ _ h => h) fun x m₁ h₁ => ?_
  obtain ⟨hx, htop, hheap⟩ := h₁
  refine (ends_use hx.ok (hv.grows hx.grows h hpin)).bind (fun _ _ h => h) fun _ m₂ h₂ => ?_
  exact ⟨⟨h₂.ok, hx.grows.trans h₂.grows h, h₂.stack.trans hx.stack, h₂.held hx.held⟩, htop,
    by rw [h₂.heap, hheap, htop, contents_push]⟩

/-- A symbol or a string that is found or made. -/
theorem ends_intern (R : Runtime) (h : Ok S P m) (k : Interned) (s : CString) :
    Ends (intern R k s) m (Yields S P m) (Stopped S P) := by
  -- the contents refer to nothing
  have hrefs : (k.contents s).refs = [] := by cases k <;> rfl
  have hnote : Ok S P { m with text := s } :=
    ⟨h.base, h.closed, h.old, h.null, h.stack, h.interned, h.lost, h.settled⟩
  have hgrows : Grows S m { m with text := s } :=
    ⟨Nat.le_refl _, fun _ _ => rfl, List.suffix_refl _, List.suffix_refl _, fun _ _ h => h⟩
  unfold intern
  rw [ends_bind, ends_modify, ends_bind, ends_get]
  dsimp only
  cases hk : m.interned k s with
  -- found: the object is older than the load or made by it, and nothing changes but the trace
  | some r =>
    refine (ends_gc hnote).bind (fun _ _ h => h) fun _ m₁ hgc => ?_
    obtain ⟨h₁, hg₁, hs₁, hh₁⟩ := hgc
    obtain ⟨htop, hcontents⟩ := h.interned k s r hk
    have hcontents' : (m₁.heap.objects r).contents = k.contents s := by rw [hh₁]; exact hcontents
    -- what has been lost is not what has just been obtained
    have hlost : ∀ q, Lost S.heap.top (.obtain r :: m₁.trace) q →
        q ≠ r ∧ Lost S.heap.top m₁.trace q := fun q => lost_obtain.mp
    have hok : Ok S P { m₁ with trace := .obtain r :: m₁.trace } := by
      refine ⟨h₁.base, h₁.closed, h₁.old, h₁.null, h₁.stack, h₁.interned,
        fun q hq => h₁.lost q (hlost q hq).2, ?_⟩
      refine h₁.settled.imp_right fun hset => ?_
      show Steady (_ :: m₁.trace) ↔ Safe S.heap.top (_ :: m₁.trace)
      rw [steady_cons, safe_of_ne_use fun _ => Event.noConfusion]
      exact (and_iff_right fun _ => Event.noConfusion).trans hset
    refine ⟨hok, (hgrows.trans hg₁ h).trans ⟨Nat.le_refl _, fun _ _ => rfl, List.suffix_refl _,
      List.suffix_cons _ _, fun q _ hq => (hlost q hq).2⟩ h, hs₁, ?_, fun _ q hq hq' => ?_⟩
    · show r < m₁.heap.top
      rw [hh₁]
      exact htop
    -- it has no parts, so that it is itself all that can be reached from it
    · have hnil : m₁.heap.parts r = [] := by rw [Memory.parts, hcontents', hrefs]
      exact (hlost q hq').1 (hq.eq_of_nil hnil)
  -- made: it is entered under its name
  | none =>
    refine (ends_allocCell R hnote (c := k.contents s) fun q hq => ?_).bind (fun _ _ h => h)
      fun r m₁ hnew => ?_
    · rw [hrefs] at hq
      cases hq
    obtain ⟨h₁, htop, hheap⟩ := hnew
    have hok : Ok S P { m₁ with interned := enter m₁.interned k s r } := by
      refine ⟨h₁.ok.base, h₁.ok.closed, h₁.ok.old, h₁.ok.null, h₁.ok.stack,
        fun k' s' r' hr' => ?_, h₁.ok.lost, h₁.ok.settled⟩
      -- the new entry is the new object, the others are as they were
      change enter m₁.interned k s r k' s' = some r' at hr'
      unfold enter at hr'
      obtain rfl | hne := eq_or_ne k' k
      · rw [Function.update_self] at hr'
        obtain rfl | hne := eq_or_ne s' s
        · rw [Function.update_self] at hr'
          cases hr'
          exact ⟨h₁.held.1, by rw [hheap, htop, contents_push]⟩
        · rw [Function.update_of_ne hne] at hr'
          exact h₁.ok.interned _ s' r' hr'
      · rw [Function.update_of_ne hne] at hr'
        exact h₁.ok.interned k' s' r' hr'
    refine ⟨hok, (hgrows.trans h₁.grows h).trans ?_ h, h₁.stack, h₁.held.of_eq rfl rfl⟩
    exact ⟨Nat.le_refl _, fun _ _ => rfl, List.suffix_refl _, List.suffix_refl _, fun _ _ h => h⟩

theorem ends_install (R : Runtime) (h : Ok S P m) (name : CString) :
    Ends (install R name) m (Yields S P m) (Stopped S P) := by
  unfold install
  split
  · exact h.stopped Stop.noConfusion
  split
  · exact h.stopped Stop.noConfusion
  · exact ends_intern R h .symbol name

/-! ### Changes -/

/-- A change of contents that adds at most a reference to `v`. -/
structure Adds (v : Ref) (f : Contents → Contents) : Prop where
  refs : ∀ c, ∀ q ∈ (f c).refs, q ∈ c.refs ∨ q = v
  null : f .null = .null
  interned : ∀ (k : Interned) s, f (k.contents s) = k.contents s

theorem adds_setElt (i : ℕ) (v : Ref) : Adds v (Contents.setElt i v) where
  refs c q hq := by
    cases c with
    | elements t elts => exact List.mem_or_eq_of_mem_set hq
    | _ => exact Or.inl hq
  null := rfl
  interned k s := by cases k <;> rfl

theorem adds_setTag (v : Ref) : Adds v (Contents.setTag v) where
  refs c q hq := by
    cases c with
    | cons lang tag car cdr =>
      simp only [Contents.setTag, Contents.refs, List.mem_cons] at hq ⊢
      tauto
    | _ => exact Or.inl hq
  null := rfl
  interned k s := by cases k <;> rfl

theorem adds_setCdr (v : Ref) : Adds v (Contents.setCdr v) where
  refs c q hq := by
    cases c with
    | cons lang tag car cdr =>
      simp only [Contents.setCdr, Contents.refs, List.mem_cons, List.not_mem_nil] at hq ⊢
      tauto
    | _ => exact Or.inl hq
  null := rfl
  interned k s := by cases k <;> rfl

theorem adds_closure (v : Ref) :
    Adds v (Contents.setFormals v) ∧ Adds v (Contents.setBody v) ∧
      Adds v (Contents.setCloenv v) := by
  refine ⟨⟨fun c q hq => ?_, rfl, fun k s => by cases k <;> rfl⟩,
    ⟨fun c q hq => ?_, rfl, fun k s => by cases k <;> rfl⟩,
    ⟨fun c q hq => ?_, rfl, fun k s => by cases k <;> rfl⟩⟩
  all_goals
    cases c with
    | closure formals body cloenv =>
      simp only [Contents.setFormals, Contents.setBody, Contents.setCloenv, Contents.refs,
        List.mem_cons, List.not_mem_nil] at hq ⊢
      tauto
    | _ => exact Or.inl hq

theorem adds_write (i : ℕ) (bs : List UInt8) (v : Ref) : Adds v (Contents.write i bs) where
  refs c q hq := by
    cases c with
    | _ => exact Or.inl hq
  null := rfl
  interned k s := by cases k <;> rfl

/-- What has become of the machine when an object that is new since `m₀` has been changed. -/
structure Changed (S : Session) (P : Prop) (m₀ m : Machine σ) (r : Ref) (f : Contents → Contents)
    (m' : Machine σ) : Prop where
  ok : Ok S P m'
  grows : Grows S m₀ m'
  stack : m'.stack = m.stack
  trace : m.trace <:+ m'.trace
  held : ∀ x, Held S m x → Held S m' x
  top : m'.heap.top = m.heap.top
  self : (m'.heap.objects r).contents = f (m.heap.objects r).contents
  other : ∀ x, x ≠ r → m'.heap.objects x = m.heap.objects x

/-- **An object that is new** gets a reference to one that is held. -/
theorem ends_change (h : Ok S P m) (h₀ : Grows S m₀ m) (hbase : S.heap.top ≤ m₀.heap.top)
    (hnew : m₀.heap.top ≤ r) (hr : Held S m r) (hv : Held S m v) {f : Contents → Contents}
    (hf : Adds v f) :
    Ends (change r fun o => { o with contents := f o.contents }) m
      (fun _ => Changed S P m₀ m r f) (Stopped S P) := by
  refine (ends_use h hr).bind (fun _ _ h => h) fun _ m₁ h₁ => ?_
  -- the change is logged before it is made
  have h₂ := h₁.ok.logged (e := .modify r) trivial (fun _ => Event.noConfusion)
    (fun _ => Event.noConfusion)
  let m₂ : Machine σ := { m₁ with trace := .modify r :: m₁.trace }
  show Changed S P m₀ m r f { m₂ with heap := m₂.heap.change r _ }
  have hstill : Still S P m m₂ := h₁.trans h₂
  have hheap : m₂.heap = m.heap := hstill.heap
  have hself : ∀ f', (m.heap.change r f').objects r = f' (m.heap.objects r) :=
    fun _ => Function.update_self ..
  -- nothing but `r` changes, and `r` is none of the objects of the session
  have hother : ∀ f', ∀ x ≠ r, (m.heap.change r f').objects x = m.heap.objects x :=
    fun _ x hx => Function.update_of_ne hx ..
  have hrold : S.heap.top ≤ r := hbase.trans hnew
  have hnil : R_NilValue ≠ r :=
    (Nat.lt_of_lt_of_le ((show R_NilValue < R_BlankString by decide).trans S.fixed) hrold).ne
  rw [hheap]
  generalize hf' : (fun o : Object => { o with contents := f o.contents }) = f'
  have hparts : ∀ q ∈ (m.heap.change r f').parts r, q ∈ m.heap.parts r ∨ q = v := by
    intro q hq
    rw [Memory.parts, hself, ← hf'] at hq
    exact hf.refs _ q hq
  -- what can be reached now could be reached from where it was, or from `v`
  have hreach : ∀ {x q}, Reaches (m.heap.change r f').parts x q →
      Reaches m.heap.parts x q ∨ Reaches m.heap.parts v q := fun h =>
    h.of_update hparts fun x hx => congrArg (fun o : Object => o.contents.refs) (hother f' x hx)
  refine ⟨⟨?_, fun x hx q hq => ?_, fun x hx q hq => ?_, ?_, ?_, fun k s x hk => ?_, ?_, ?_⟩,
    ⟨?_, fun x hx => ?_, ?_, ?_, ?_⟩, hstill.stack, hstill.trace, fun x hx => ⟨hx.1, ?_⟩, rfl, ?_,
    fun x hx => hother f' x hx⟩
  · exact h.base
  · -- references are in use
    obtain rfl | hne := eq_or_ne x r
    · obtain rfl | hq := List.mem_cons.mp hq
      · refine h.closed x hx _ (List.mem_cons.mpr (Or.inl ?_))
        rw [hself, ← hf']
      · obtain hq | rfl := hparts q hq
        · exact h.parts_closed x hx q hq
        · exact hv.1
    · rw [Memory.refs, hother f' x hne] at hq
      exact h.closed x hx q hq
  -- the objects of the session refer to one another as before
  · have hne : x ≠ r := (Nat.lt_of_lt_of_le hx hrold).ne
    rw [Memory.parts, hother f' x hne] at hq
    exact h.old x hx q hq
  -- the fixed objects are not changed
  · show ((m.heap.change r f').objects R_NilValue).contents = .null
    rw [hother f' _ hnil]
    exact h.null
  · intro x hx
    exact h.stack x (hstill.stack ▸ hx)
  -- the names are those of the same objects
  · obtain ⟨hx, hcontents⟩ := hheap ▸ h₂.ok.interned k s x hk
    refine ⟨hx, ?_⟩
    -- `f` leaves alone what a symbol or a string has
    obtain rfl | hne := eq_or_ne x r
    · show ((m.heap.change x f').objects x).contents = k.contents s
      rw [hself, ← hf']
      show f (m.heap.objects x).contents = k.contents s
      rw [hcontents]
      exact hf.interned k s
    · show ((m.heap.change r f').objects x).contents = k.contents s
      rw [hother f' x hne]
      exact hcontents
  · exact fun x hx => hheap ▸ h₂.ok.lost x hx
  · exact h₂.ok.settled
  · exact h₀.top
  -- `r` is newer than the start
  · show ((m.heap.change r f').objects x).contents = (m₀.heap.objects x).contents
    rw [hother f' x (Nat.lt_of_lt_of_le hx hnew).ne]
    exact h₀.contents x hx
  · exact hstill.stack ▸ h₀.stack
  · exact h₀.trace.trans hstill.trace
  · exact fun q hq hlost => h₀.lost q hq ((hstill.lost q).mp hlost)
  -- what was held is held
  · intro hsteady q hq hlost
    have hsteady' : Steady m.trace := hsteady.of_suffix hstill.trace
    have hlost' := (hstill.lost q).mp hlost
    obtain hq | hq := hreach hq
    · exact hx.2 hsteady' q hq hlost'
    · exact hv.2 hsteady' q hq hlost'
  · show ((m.heap.change r f').objects r).contents = _
    rw [hself, ← hf']

theorem Still.change {f : Contents → Contents} {m₁ : Machine σ} (h : Still S P m m₁)
    (h' : Changed S P m₀ m₁ r f m') : Changed S P m₀ m r f m' where
  ok := h'.ok
  grows := h'.grows
  stack := h'.stack.trans h.stack
  trace := h.trace.trans h'.trace
  held x hx := h'.held x (h.held hx)
  top := h'.top.trans (congrArg Memory.top h.heap)
  self := by rw [h'.self, h.heap]
  other x hx := by rw [h'.other x hx, h.heap]

section Store

variable (h : Ok S P m) (h₀ : Grows S m₀ m) (hm₀ : Ok S P m₀) (hnew : m₀.heap.top ≤ r)
  (hr : Held S m r) (hv : Held S m v)
include h h₀ hm₀ hnew hr hv

/-- **A reference is stored in an object that is new.** -/
theorem ends_setContents {f : Contents → Contents} (hf : Adds v f) :
    Ends (setContents r v f) m (fun _ => Changed S P m₀ m r f) (Stopped S P) := by
  refine (ends_use h hv).bind (fun _ _ h => h) fun _ m₁ h₁ => ?_
  refine (ends_change h₁.ok (h₀.trans h₁.grows hm₀) hm₀.base hnew (h₁.held hr) (h₁.held hv)
    hf).mono (fun _ _ h' => h₁.change h') fun _ _ h => h

theorem ends_SET_STRING_ELT (i : ℕ) :
    Ends (SET_STRING_ELT r i v) m (fun _ => Changed S P m₀ m r (Contents.setElt i v))
      (Stopped S P) := by
  refine (ends_look h hv).bind (fun _ _ h => h) fun u m₁ ⟨_, h₁⟩ => ?_
  split
  · exact (ends_setContents h₁.ok (h₀.trans h₁.grows hm₀) hm₀ hnew (h₁.held hr) (h₁.held hv)
      (adds_setElt i v)).mono (fun _ _ h' => h₁.change h') fun _ _ h => h
  · exact h₁.ok.stopped Stop.noConfusion

end Store

/-- A change of the attributes and the flag of any object. -/
theorem ends_header (h : Ok S P m) (hr : Held S m r) {f : Object → Object}
    (hcontents : ∀ o, (f o).contents = o.contents)
    (hattr : (f (m.heap.objects r)).attrib < m.heap.top) :
    Ends (change r f) m (fun _ m' => Ok S P m' ∧ Grows S m m' ∧ m'.stack = m.stack ∧
      m'.heap.top = m.heap.top ∧ ∀ x, Held S m x → Held S m' x) (Stopped S P) := by
  refine (ends_use h hr).bind (fun _ _ h => h) fun _ m₁ h₁ => ?_
  have h₂ := h₁.ok.logged (e := .modify r) trivial (fun _ => Event.noConfusion)
    (fun _ => Event.noConfusion)
  let m₂ : Machine σ := { m₁ with trace := .modify r :: m₁.trace }
  have hstill : Still S P m m₂ := h₁.trans h₂
  have hheap : m₂.heap = m.heap := hstill.heap
  let m₃ : Machine σ := { m₂ with heap := m₂.heap.change r f }
  show Ok S P m₃ ∧ Grows S m m₃ ∧ m₃.stack = m.stack ∧ m₃.heap.top = m.heap.top ∧
    ∀ x, Held S m x → Held S m₃ x
  -- the contents of all objects are as they were
  have hobjects : ∀ x, (m₃.heap.objects x).contents = (m.heap.objects x).contents := by
    intro x
    show ((m₂.heap.change r f).objects x).contents = _
    rw [hheap]
    obtain rfl | hne := eq_or_ne x r
    · exact (congrArg Object.contents (Function.update_self ..)).trans (hcontents _)
    · exact congrArg Object.contents (Function.update_of_ne hne ..)
  have hparts : m₃.heap.parts = m.heap.parts := funext fun x => congrArg Contents.refs (hobjects x)
  have htop : m₃.heap.top = m.heap.top := by
    show m₂.heap.top = m.heap.top
    rw [hheap]
  refine ⟨⟨htop ▸ h.base, fun x hx q hq => ?_, hparts ▸ h.old, (hobjects _).trans h.null,
    fun x hx => htop ▸ h.stack x (hstill.stack ▸ hx), fun k s x hk => ?_, fun x hx => ?_,
    h₂.ok.settled⟩, ⟨htop.ge, fun x _ => hobjects x, hstill.stack ▸ List.suffix_refl _,
    hstill.trace, fun q _ => (hstill.lost q).mp⟩, hstill.stack, htop, fun x hx => ?_⟩
  -- references are in use, also the attributes that have been set
  · rw [htop] at hx ⊢
    obtain rfl | hq := List.mem_cons.mp hq
    · obtain rfl | hne := eq_or_ne x r
      · have hself : (m₂.heap.change x f).objects x = f (m.heap.objects x) := by
          rw [hheap]
          exact Function.update_self ..
        show ((m₂.heap.change x f).objects x).attrib < m.heap.top
        rw [hself]
        exact hattr
      · have hother : (m₂.heap.change r f).objects x = m.heap.objects x := by
          rw [hheap]
          exact Function.update_of_ne hne ..
        show ((m₂.heap.change r f).objects x).attrib < m.heap.top
        rw [hother]
        exact h.closed x hx _ (List.mem_cons_self ..)
    · exact h.parts_closed x hx q (hparts ▸ hq)
  -- the names
  · obtain ⟨hx, hnamed⟩ := hheap ▸ h₂.ok.interned k s x hk
    exact ⟨htop ▸ hx, (hobjects x).trans hnamed⟩
  · exact htop ▸ hheap ▸ h₂.ok.lost x hx
  -- what was held is held
  · refine ⟨htop ▸ hx.1, fun hsteady q hq hlost => ?_⟩
    exact hx.2 (hsteady.of_suffix hstill.trace) q (hparts ▸ hq) ((hstill.lost q).mp hlost)

/-! ### Fetching -/

section Fetch

variable {sink : ℕ → List UInt8 → Act σ Unit}

/-- A fetch into memory R does not know of. R may collect while it waits. -/
theorem ends_receive
    (hsink : ∀ i bs (m : Machine σ), Ok S P m →
      Ends (sink i bs) m (fun _ m' => Still S P m m') (Stopped S P))
    (i : ℕ) (ps : List Piece) (h : Ok S P m) :
    Ends (receive sink i ps) m (fun _ m' => Ok S P m' ∧ Grows S m m' ∧ m'.stack = m.stack ∧
      m'.heap = m.heap) (Stopped S P) := by
  induction ps generalizing i m with
  | nil => exact ⟨h, .refl S m, rfl, rfl⟩
  | cons p ps ih =>
    cases p with
    | bytes bs =>
      refine (hsink i bs m h).bind (fun _ _ h => h) fun _ m₁ h₁ => ?_
      exact (ih _ h₁.ok).mono (fun _ _ ⟨h₂, hg, hs, hh⟩ =>
        ⟨h₂, h₁.grows.trans hg h, hs.trans h₁.stack, hh.trans h₁.heap⟩) fun _ _ h => h
    | check =>
      refine (ends_gc h).bind (fun _ _ h => h) fun _ m₁ ⟨h₁, hg₁, hs₁, hh₁⟩ => ?_
      exact (ih _ h₁).mono (fun _ _ ⟨h₂, hg, hs, hh⟩ =>
        ⟨h₂, hg₁.trans hg h, hs.trans hs₁, hh.trans hh₁⟩) fun _ _ h => h

theorem ends_fetch (src : Source σ)
    (hsink : ∀ i bs (m : Machine σ), Ok S P m →
      Ends (sink i bs) m (fun _ m' => Still S P m m') (Stopped S P))
    (n : ℕ) (h : Ok S P m) :
    Ends (fetch src n sink) m (fun _ m' => Ok S P m' ∧ Grows S m m' ∧ m'.stack = m.stack ∧
      m'.heap = m.heap) (Stopped S P) := by
  let m₁ : Machine σ := { m with api := (src.fetch m.api n).state }
  have h₁ : Ok S P m₁ :=
    ⟨h.base, h.closed, h.old, h.null, h.stack, h.interned, h.lost, h.settled⟩
  have hg₁ : Grows S m m₁ :=
    ⟨Nat.le_refl _, fun _ _ => rfl, List.suffix_refl _, List.suffix_refl _, fun _ _ h => h⟩
  refine (ends_receive hsink 0 (src.fetch m.api n).pieces h₁).bind (fun _ _ h => h)
    fun _ m₂ ⟨h₂, hg₂, hs₂, hh₂⟩ => ?_
  cases (src.fetch m.api n).error with
  | some e => exact h₂.stopped Stop.noConfusion
  | none => exact ⟨h₂, hg₁.trans hg₂ h, hs₂, hh₂⟩

theorem ends_fetchHdr (src : Source σ) (h : Ok S P m) :
    Ends (fetchHdr src) m (fun _ m' => Ok S P m' ∧ Grows S m m' ∧ m'.stack = m.stack ∧
      m'.heap = m.heap) (Stopped S P) := by
  have h₁ := h.logged (e := .header) trivial (fun _ => Event.noConfusion)
    (fun _ => Event.noConfusion)
  have hsink : ∀ (i : ℕ) (bs : List UInt8) (m : Machine σ), Ok S P m →
      Ends (pure () : Act σ Unit) m (fun _ m' => Still S P m m') (Stopped S P) :=
    fun _ _ _ hm => Still.refl hm
  refine (ends_fetch src hsink 8 h₁.ok).bind (fun _ _ h => h)
    fun bs m₂ ⟨h₂, hg, hs, hh⟩ => ⟨h₂, h₁.grows.trans hg h, hs, hh⟩

theorem ends_fetchDecBuf (src : Source σ) (len : ℕ) (h : Ok S P m) :
    Ends (fetchDecBuf src len) m (fun _ m' => Ok S P m' ∧ Grows S m m' ∧ m'.stack = m.stack ∧
      m'.heap = m.heap) (Stopped S P) := by
  have h₁ := h.logged (e := .fetch 1 len len sizeofDecBuf) trivial (fun _ => Event.noConfusion)
    (fun _ => Event.noConfusion)
  have hsink : ∀ i bs (m : Machine σ), Ok S P m →
      Ends (writeDecBuf i bs) m (fun _ m' => Still S P m m') (Stopped S P) := fun i bs m h =>
    ⟨⟨h.base, h.closed, h.old, h.null, h.stack, h.interned, h.lost, h.settled⟩, rfl, rfl,
      List.suffix_refl _, fun _ => Iff.rfl⟩
  exact (ends_fetch src hsink len h₁.ok).bind (fun _ _ h => h)
    fun _ m₂ ⟨h₂, hg, hs, hh⟩ => ⟨h₂, h₁.grows.trans hg h, hs, hh⟩

end Fetch

end Rheap
end Osrv
