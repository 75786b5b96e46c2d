import Mathlib.Data.List.Perm.Subperm
import Osrv.Rheap.Elements

/-!
# Decoding is safe against garbage collection, but for a vector that is filled

Every branch of `decode_one` hands its caller an object that is held, has left the protect
stack as it was, and has changed no object that was there before but for its attributes
(`Yields`). The branches that recurse keep what they still use on the protect stack. In a
pairlist this is the first cell, from which the others are reached (`Spine`), and
`sfs_load` keeps the attributes there until they are attached.

So a load in which no piece of the elements of a vector arrives after a retry loses nothing
that is still used, and only such a load (`gc_safe_iff`).
-/

namespace Osrv
namespace Rheap

open Bytes Sfs Lib

variable {σ : Type} {S : Session} {m m₀ m' : Machine σ} {r : Ref}

/-! ### Pairlists in memory -/

/-- A pairlist from `r` with the cells `cs`. -/
def Spine (h : Memory) : Ref → List Ref → Prop
  | r, [] => r = R_NilValue
  | r, c :: cs => r = c ∧ ∃ lang tag car cdr,
    (h.objects c).contents = .cons lang tag car cdr ∧ Spine h cdr cs

theorem Spine.congr {h h' : Memory} {cs : List Ref}
    (heq : ∀ c ∈ cs, (h'.objects c).contents = (h.objects c).contents) {r : Ref}
    (hr : Spine h r cs) : Spine h' r cs := by
  induction cs generalizing r with
  | nil => exact hr
  | cons c cs ih =>
    obtain ⟨rfl, lang, tag, car, cdr, hcell, hrest⟩ := hr
    refine ⟨rfl, lang, tag, car, cdr, ?_, ih (fun c hc => heq c (List.mem_cons_of_mem _ hc)) hrest⟩
    rw [heq _ (List.mem_cons_self ..)]
    exact hcell

/-- The cells are reached from the first one. -/
theorem Spine.reaches {h : Memory} {cs : List Ref} {r c : Ref} (hr : Spine h r cs) (hc : c ∈ cs) :
    Reaches h.parts r c := by
  induction cs generalizing r with
  | nil => cases hc
  | cons d cs ih =>
    obtain ⟨rfl, lang, tag, car, cdr, hcell, hrest⟩ := hr
    obtain rfl | hc := List.mem_cons.mp hc
    · exact Reaches.refl _ _
    · refine Reaches.head ?_ (ih hrest hc)
      rw [Memory.parts, hcell]
      simp [Contents.refs]

/-- **A cell behind the last one.** -/
theorem Spine.snoc {h h' : Memory} {cs : List Ref} {r last x : Ref}
    (hr : Spine h r (cs ++ [last])) (hlast : last ∉ cs)
    (heq : ∀ c, c ≠ last → (h'.objects c).contents = (h.objects c).contents)
    (hset : (h'.objects last).contents = (h.objects last).contents.setCdr x)
    (hx : ∃ lang tag car, (h'.objects x).contents = .cons lang tag car R_NilValue) :
    Spine h' r (cs ++ [last, x]) := by
  induction cs generalizing r with
  | nil =>
    obtain ⟨rfl, lang, tag, car, cdr, hcell, -⟩ := hr
    obtain ⟨lang', tag', car', hx⟩ := hx
    refine ⟨rfl, lang, tag, car, x, ?_, rfl, lang', tag', car', _, hx, rfl⟩
    rw [hset, hcell]
    rfl
  | cons c cs ih =>
    obtain ⟨rfl, lang, tag, car, cdr, hcell, hrest⟩ := hr
    have hne : r ≠ last := fun h => hlast (h ▸ List.mem_cons_self ..)
    refine ⟨rfl, lang, tag, car, cdr, ?_, ih hrest fun hmem => hlast (List.mem_cons_of_mem _ hmem)⟩
    rw [heq r hne]
    exact hcell

/-- A pairlist of cells that were made one after the other, none of them before `m₀`. -/
structure Cells (m₀ m : Machine σ) (r : Ref) (cs : List Ref) : Prop where
  spine : Spine m.heap r cs
  sorted : cs.Pairwise (· < ·)
  new : ∀ c ∈ cs, m₀.heap.top ≤ c ∧ c < m.heap.top

theorem Cells.grows {m₁ : Machine σ} {cs : List Ref} (h : Cells m₀ m r cs) (hg : Grows S m m₁) :
    Cells m₀ m₁ r cs :=
  ⟨h.spine.congr fun c hc => hg.contents c (h.new c hc).2, h.sorted,
    fun c hc => ⟨(h.new c hc).1, Nat.lt_of_lt_of_le (h.new c hc).2 hg.top⟩⟩

/-- There are no more cells than objects. -/
theorem Cells.length_le {cs : List Ref} (h : Cells m₀ m r cs) : cs.length ≤ m.heap.top := by
  have hnodup : cs.Nodup := h.sorted.imp fun hlt => hlt.ne
  have hsub : cs ⊆ List.range m.heap.top := fun c hc => List.mem_range.mpr (h.new c hc).2
  have hle := (List.subperm_of_subset hnodup hsub).length_le
  rwa [List.length_range] at hle

/-! ### The branches of `decode_one` -/

/-- A load hands over an object that is held, wherever it starts. -/
def Protected (S : Session) (load : Act σ Ref) : Prop :=
  ∀ m, Ok S False m → Ends load m (Yields S False m) (Stopped S False)

section Load

variable (R : Runtime) (src : Source σ) {load : Act σ Ref} (h : Ok S False m)

include h in
theorem ends_decodeText (noMemory : ℕ → RError) (len : ℕ) :
    Ends (decodeText R src noMemory len) m (fun _ m' => Ok S False m' ∧ Grows S m m' ∧
      m'.stack = m.stack) (Stopped S False) := by
  unfold decodeText
  split
  · refine (ends_fetchDecBuf src len h).bind (fun _ _ h => h) fun _ m₁ hread => ?_
    obtain ⟨h₁, hg, hs, -⟩ := hread
    have h₂ := h₁.logged (e := .scan m₁.dec_buf) trivial (fun _ => Event.noConfusion)
      (fun _ => Event.noConfusion)
    exact ⟨h₂.ok, hg.trans h₂.grows h, hs⟩
  · have hmalloc : Ends (malloc R len) m (fun _ m' => Ok S False m' ∧ Grows S m m' ∧
        m'.stack = m.stack) (Stopped S False) :=
      ⟨⟨h.base, h.closed, h.old, h.null, h.stack, h.interned, h.lost, h.settled⟩,
        ⟨Nat.le_refl _, fun _ _ => rfl, List.suffix_refl _, List.suffix_refl _, fun _ _ h => h⟩,
        rfl⟩
    refine hmalloc.bind (fun _ _ h => h) fun buf m₁ h₁ => ?_
    cases buf with
    | none => exact h₁.1.stopped Stop.noConfusion
    | some buf => exact h₁

/-- An object that the code has at hand behind something that was read. -/
theorem Yields.after {m₁ m₂ : Machine σ} (h : Ok S False m) (hg : Grows S m m₁)
    (hs : m₁.stack = m.stack) (h₂ : Yields S False m₁ r m₂) : Yields S False m r m₂ :=
  ⟨h₂.ok, hg.trans h₂.grows h, h₂.stack.trans hs, h₂.held⟩

theorem Ok.yields_old (h : Ok S False m) (hr : r < S.heap.top) : Yields S False m r m :=
  ⟨h, .refl S m, rfl, h.held_old hr⟩

include h in
theorem ends_decodeSymbol (len : ℕ) :
    Ends (decodeSymbol R src len) m (Yields S False m) (Stopped S False) := by
  unfold decodeSymbol
  split
  · exact h.yields_old ((show R_MissingArg < R_BlankString by decide).trans S.fixed)
  · refine (ends_decodeText R src h _ len).bind (fun _ _ h => h) fun s m₁ ⟨h₁, hg, hs⟩ => ?_
    exact (ends_install R h₁ s).mono (fun _ _ h₂ => h₂.after h hg hs) fun _ _ h => h

include h in
theorem ends_decodeString (len : ℕ) :
    Ends (decodeString R src len) m (Yields S False m) (Stopped S False) := by
  refine (ends_decodeText R src h _ len).bind (fun _ _ h => h) fun s m₁ ⟨h₁, hg, hs⟩ => ?_
  exact (ends_intern R h₁ .string s).mono (fun _ _ h₂ => h₂.after h hg hs) fun _ _ h => h

include h in
theorem ends_decodeEnv (len : ℕ) :
    Ends (decodeEnv len : Act σ Ref) m (Yields S False m) (Stopped S False) := by
  have hbase : R_BaseEnv < S.heap.top := (show R_BaseEnv < R_BlankString by decide).trans S.fixed
  unfold decodeEnv
  split
  · exact h.yields_old ((show R_GlobalEnv < R_BaseEnv by decide).trans hbase)
  split
  · exact h.yields_old ((show R_EmptyEnv < R_BaseEnv by decide).trans hbase)
  split
  · exact h.yields_old hbase
  · refine Ends.bind (Q := fun _ m' => Ok S False m' ∧ Grows S m m' ∧ m'.stack = m.stack)
      ?_ (fun _ _ h => h) fun _ m₁ ⟨h₁, hg, hs⟩ => (h₁.yields_old hbase).after h hg hs
    refine (ends_gc h).bind (fun _ _ h => h) fun _ m₁ ⟨h₁, hg, hs, _⟩ => ?_
    exact ⟨⟨h₁.base, h₁.closed, h₁.old, h₁.null, h₁.stack, h₁.interned, h₁.lost, h₁.settled⟩,
      ⟨hg.top, hg.contents, hg.stack, hg.trace, hg.lost⟩, hs⟩

/-- What the code has while it fills an object it has made since `m₀` and protects. -/
structure Filling (S : Session) (m₀ m : Machine σ) (res : Ref) : Prop where
  ok : Ok S False m
  grows : Grows S m₀ m
  stack : m.stack = res :: m₀.stack
  held : Held S m res

/-- The object at the end. -/
theorem Filling.done {res : Ref} (hf : Filling S m₀ m res) :
    Ends (do
      UNPROTECT 1
      return res : Act σ Ref) m (Yields S False m₀) (Stopped S False) := by
  refine (ends_UNPROTECT hf.ok [res] hf.stack rfl).bind (fun _ _ h => h)
    fun _ m₁ ⟨h₁, hs, hh, ht⟩ => ?_
  exact ⟨h₁, hf.grows.unprotect hh ht (hs ▸ List.suffix_refl _), hs, hf.held.of_eq hh ht⟩

/-- A new object that the code protects. -/
theorem Yields.filling {res : Ref} (h : Ok S False m₀) (hy : Yields S False m₀ res m) :
    Ends (PROTECT res) m (fun _ m' => Filling S m₀ m' res) (Stopped S False) := by
  refine (ends_PROTECT hy.ok hy.held).mono (fun _ m' ⟨h₁, hg, hs, _, hheld⟩ => ?_) fun _ _ h => h
  exact ⟨h₁, hy.grows.trans hg h, hs.trans (congrArg (res :: ·) hy.stack), hheld _ hy.held⟩

theorem Changed.filling {res : Ref} {f : Contents → Contents}
    (hc : Changed S False m₀ m res f m') (hf : Filling S m₀ m res) : Filling S m₀ m' res :=
  ⟨hc.ok, hc.grows, hc.stack.trans hf.stack, hc.held res hf.held⟩

variable (hload : Protected S load)
include hload

/-- The code loads an object while it fills another one. -/
theorem Filling.next {res : Ref} (hf : Filling S m₀ m res) (h₀ : Ok S False m₀) :
    Ends load m (fun v m' => Filling S m₀ m' res ∧ Held S m' v) (Stopped S False) := by
  refine (hload m hf.ok).mono (fun v m' hy => ?_) fun _ _ h => h
  have hpin : Pinned m.heap m.stack res := pinned_of_mem (hf.stack ▸ List.mem_cons_self ..)
  exact ⟨⟨hy.ok, hf.grows.trans hy.grows h₀, hy.stack.trans hf.stack,
    hf.held.grows hy.grows hf.ok hpin⟩, hy.held⟩

/-- The loop over the elements of a vector. -/
theorem ends_eltLoop {set : Ref → ℕ → Ref → Act σ Unit} {res : Ref} (h₀ : Ok S False m₀)
    (hset : ∀ i v m, Filling S m₀ m res → Held S m v →
      Ends (set res i v) m (fun _ m' => Filling S m₀ m' res) (Stopped S False))
    (i n : ℕ) (hf : Filling S m₀ m res) :
    Ends (eltLoop load set res i n) m (fun _ m' => Filling S m₀ m' res) (Stopped S False) := by
  induction n generalizing i m with
  | zero => exact hf
  | succ n ih =>
    refine (hf.next hload h₀).bind (fun _ _ h => h) fun v m₁ ⟨h₁, hv⟩ => ?_
    exact (hset i v m₁ h₁ hv).bind (fun _ _ h => h) fun _ m₂ h₂ => ih (i + 1) h₂

/-- The generic and character vectors. -/
theorem ends_decodeElts (t : SexpType) {set : Ref → ℕ → Ref → Act σ Unit}
    (hset : ∀ {m₀ m : Machine σ} {res : Ref} (i : ℕ) (v : Ref), Ok S False m₀ →
      m₀.heap.top ≤ res → Filling S m₀ m res → Held S m v →
      Ends (set res i v) m (fun _ => Changed S False m₀ m res (Contents.setElt i v))
        (Stopped S False))
    (len : ℕ) (h : Ok S False m) :
    Ends (decodeElts R load t set len) m (Yields S False m) (Stopped S False) := by
  refine (ends_allocVector R h t len).bind (fun _ _ h => h) fun res m₁ ⟨hy, htop, _⟩ => ?_
  refine (hy.filling h).bind (fun _ _ h => h) fun _ m₂ h₂ => ?_
  refine (ends_eltLoop hload h (fun i v m' hf hv => ?_) 0 len h₂).bind (fun _ _ h => h)
    fun _ m₃ h₃ => h₃.done
  exact (hset i v h htop.ge hf hv).mono (fun _ _ hc => hc.filling hf) fun _ _ h => h

/-- A field of a closure that is being filled. -/
theorem ends_closureField {set : Ref → Ref → Act σ Unit} {f : Ref → Contents → Contents}
    {res : Ref} (hset : ∀ res v, set res v = setContents res v (f v)) (hadds : ∀ v, Adds v (f v))
    (h₀ : Ok S False m₀) (hnew : m₀.heap.top ≤ res) (hf : Filling S m₀ m res) :
    Ends (closureField load set res) m (fun _ m' => Filling S m₀ m' res) (Stopped S False) := by
  refine (hf.next hload h₀).bind (fun _ _ h => h) fun v m₁ ⟨h₁, hv⟩ => ?_
  split
  · rw [hset]
    exact (ends_setContents h₁.ok h₁.grows h₀ hnew h₁.held hv (hadds v)).mono
      (fun _ _ hc => hc.filling h₁) fun _ _ h => h
  · exact h₁

theorem ends_decodeClosure (h : Ok S False m) :
    Ends (decodeClosure R load) m (Yields S False m) (Stopped S False) := by
  refine (ends_allocClosure R h).bind (fun _ _ h => h) fun res m₁ ⟨hy, htop⟩ => ?_
  refine (hy.filling h).bind (fun _ _ h => h) fun _ m₂ h₂ => ?_
  refine (ends_closureField hload (fun _ _ => rfl) (fun v => (adds_closure v).1) h htop.ge
    h₂).bind (fun _ _ h => h) fun _ m₃ h₃ => ?_
  refine (ends_closureField hload (fun _ _ => rfl) (fun v => (adds_closure v).2.1) h htop.ge
    h₃).bind (fun _ _ h => h) fun _ m₄ h₄ => ?_
  refine (ends_closureField hload (fun _ _ => rfl) (fun v => (adds_closure v).2.2) h htop.ge
    h₄).bind (fun _ _ h => h) fun _ m₅ h₅ => h₅.done

/-! ### Pairlists -/

/-- What a round of the loop over a pairlist has made: a cell that ends the list, with its tag
and its value on the stack. -/
structure Cell (S : Session) (m : Machine σ) (x : Ref) (m' : Machine σ) : Prop where
  ok : Ok S False m'
  grows : Grows S m m'
  stack : ∃ val tag, m'.stack = x :: val :: tag :: m.stack
  held : Held S m' x
  new : m.heap.top ≤ x
  contents : ∃ lang tag car, (m'.heap.objects x).contents = .cons lang tag car R_NilValue

theorem ends_decodeCell (lang : Bool) (h : Ok S False m) :
    Ends (decodeCell R load lang) m (Cell S m) (Stopped S False) := by
  refine (hload m h).bind (fun _ _ h => h) fun tag m₁ h₁ => ?_
  refine (ends_PROTECT h₁.ok h₁.held).bind (fun _ _ h => h) fun _ m₂ ⟨h₂, hg₂, hs₂, _, hheld₂⟩ => ?_
  have htag₂ : Held S m₂ tag := hheld₂ tag h₁.held
  refine (hload m₂ h₂).bind (fun _ _ h => h) fun val m₃ h₃ => ?_
  -- the tag is protected while the value is loaded
  have htag₃ : Held S m₃ tag :=
    htag₂.grows h₃.grows h₂ (pinned_of_mem (hs₂ ▸ List.mem_cons_self ..))
  have hs₃ : m₃.stack = tag :: m.stack := by rw [h₃.stack, hs₂, h₁.stack]
  refine (ends_PROTECT h₃.ok h₃.held).bind (fun _ _ h => h) fun _ m₄ ⟨h₄, hg₄, hs₄, _, hheld₄⟩ => ?_
  rw [hs₃] at hs₄
  have hval₄ : Held S m₄ val := hheld₄ val h₃.held
  have htag₄ : Held S m₄ tag := hheld₄ tag htag₃
  refine (ends_CONS R h₄ lang hval₄ (pinned_of_mem (hs₄ ▸ List.mem_cons_self ..))).bind
    (fun _ _ h => h) fun x m₅ ⟨h₅, htop, hcell⟩ => ?_
  -- both are while the cell is made
  have htag₅ : Held S m₅ tag := by
    refine htag₄.grows h₅.grows h₄ (pinned_of_mem (hs₄ ▸ ?_))
    exact List.mem_cons_of_mem _ (List.mem_cons_self ..)
  refine (ends_PROTECT h₅.ok h₅.held).bind (fun _ _ h => h)
    fun _ m₆ ⟨h₆, hg₆, hs₆, hh₆, hheld₆⟩ => ?_
  rw [h₅.stack, hs₄] at hs₆
  have hg₁₄ : Grows S m m₄ := (h₁.grows.trans hg₂ h).trans (h₃.grows.trans hg₄ h₂) h
  have hg : Grows S m m₆ := hg₁₄.trans (h₅.grows.trans hg₆ h₄) h
  -- the cell is newer than the start
  have hnew : m.heap.top ≤ x := htop ▸ hg₁₄.top
  have hx : Held S m₆ x := hheld₆ x h₅.held
  rw [← hh₆] at hcell
  refine Ends.bind (Q := fun _ => Cell S m x) ?_ (fun _ _ h => h) fun _ _ hc => hc
  -- a tag other than `R_NilValue` is put into the cell
  split
  · refine (ends_setContents h₆ hg h hnew hx (hheld₆ tag htag₅) (adds_setTag tag)).mono
      (fun _ m₇ hc => ?_) fun _ _ h => h
    refine ⟨hc.ok, hc.grows, ⟨val, tag, hc.stack.trans hs₆⟩, hc.held x hx, hnew, lang, tag, val, ?_⟩
    rw [hc.self, hcell]
    rfl
  · exact ⟨h₆, hg, ⟨val, tag, hs₆⟩, hx, hnew, lang, R_NilValue, val, hcell⟩

/-- What the code has while it makes a pairlist: the first cell is on the stack with its tag
and its value, and the last cell is reached from it. -/
structure Listing (S : Session) (m₀ m : Machine σ) (res last : Ref) : Prop where
  ok : Ok S False m
  grows : Grows S m₀ m
  stack : ∃ val tag, m.stack = res :: val :: tag :: m₀.stack
  held : Held S m res
  cells : ∃ cs, Cells m₀ m res (cs ++ [last])

theorem ends_cellLoop (lang : Bool) {res : Ref} (h₀ : Ok S False m₀) (n : ℕ) {last : Ref}
    (hl : Listing S m₀ m res last) :
    Ends (cellLoop R load lang last n) m (fun _ m' => ∃ last, Listing S m₀ m' res last)
      (Stopped S False) := by
  induction n generalizing m last with
  | zero => exact ⟨last, hl⟩
  | succ n ih =>
    obtain ⟨val, tag, hstack⟩ := hl.stack
    obtain ⟨cs, hcells⟩ := hl.cells
    refine (ends_decodeCell R hload lang hl.ok).bind (fun _ _ h => h) fun x m₁ hx => ?_
    obtain ⟨val', tag', hstack₁⟩ := hx.stack
    -- the list so far is reached from its first cell, which is protected
    have hres : Held S m₁ res :=
      hl.held.grows hx.grows hl.ok (pinned_of_mem (hstack ▸ List.mem_cons_self ..))
    have hcells₁ : Cells m₀ m₁ res (cs ++ [last]) := hcells.grows hx.grows
    have hmem : last ∈ cs ++ [last] := List.mem_append_right _ (List.mem_singleton_self _)
    have hlast : Held S m₁ last := hres.part hx.ok (hcells₁.spine.reaches hmem)
    have hg₁ : Grows S m₀ m₁ := hl.grows.trans hx.grows h₀
    refine (ends_setContents hx.ok hg₁ h₀ (hcells.new last hmem).1 hlast hx.held
      (adds_setCdr x)).bind (fun _ _ h => h) fun _ m₂ hc => ?_
    have hstack₂ : m₂.stack = [x, val', tag'] ++ m.stack := hc.stack.trans hstack₁
    refine (ends_UNPROTECT hc.ok _ hstack₂ rfl).bind (fun _ _ h => h)
      fun _ m₃ ⟨h₃, hs₃, hh₃, ht₃⟩ => ?_
    have hbelow : ∀ c ∈ cs ++ [last], c < x := fun c hmem =>
      Nat.lt_of_lt_of_le (hcells.new c hmem).2 hx.new
    -- the list is longer by the new cell
    refine ih ⟨h₃, hc.grows.unprotect hh₃ ht₃ (hs₃ ▸ hl.grows.stack), ⟨val, tag, hs₃.trans hstack⟩,
      (hc.held res hres).of_eq hh₃ ht₃, cs ++ [last], ?_, ?_, fun c hmem => ?_⟩
    -- the last cell now leads to it
    · rw [List.append_assoc, hh₃]
      have hsorted := List.pairwise_append.mp hcells.sorted
      refine hcells₁.spine.snoc (fun hmem => ?_) (fun c hne => by rw [hc.other c hne]) hc.self ?_
      · exact Nat.lt_irrefl _ (hsorted.2.2 last hmem last (List.mem_singleton_self _))
      · rw [hc.other x (hbelow last hmem).ne']
        exact hx.contents
    -- it is the newest
    · refine List.pairwise_append.mpr ⟨hcells.sorted, List.pairwise_singleton _ _, ?_⟩
      intro c hmem y hy
      rw [List.mem_singleton.mp hy]
      exact hbelow c hmem
    -- the cells are newer than the start
    · rw [hh₃, hc.top]
      obtain hmem | hmem := List.mem_append.mp hmem
      · exact hcells₁.new c hmem
      · rw [List.mem_singleton.mp hmem]
        exact ⟨hl.grows.top.trans hx.new, hx.held.1⟩

/-- A pairlist that is returned, with its cells. -/
theorem ends_decodeCells (lang : Bool) (len : ℕ) (h : Ok S False m) :
    Ends (decodeCells R load lang len) m
      (fun r m' => Yields S False m r m' ∧ ∃ cs, Cells m m' r cs) (Stopped S False) := by
  cases len with
  -- an empty list
  | zero =>
    refine ⟨⟨h, .refl S m, rfl, h.held_nil⟩, [], rfl, List.Pairwise.nil, fun c hc => ?_⟩
    cases hc
  | succ n =>
    refine (ends_decodeCell R hload lang h).bind (fun _ _ h => h) fun res m₁ hx => ?_
    -- the first cell is a list of its own
    have hlisting : Listing S m m₁ res res := by
      obtain ⟨lang', tag, car, hcell⟩ := hx.contents
      refine ⟨hx.ok, hx.grows, hx.stack, hx.held, [], ⟨rfl, lang', tag, car, _, hcell, rfl⟩,
        List.pairwise_singleton _ _, fun c hc => ?_⟩
      rw [List.mem_singleton.mp hc]
      exact ⟨hx.new, hx.held.1⟩
    refine (ends_cellLoop R hload lang h n hlisting).bind (fun _ _ h => h)
      fun _ m₂ ⟨last, h₂⟩ => ?_
    obtain ⟨val, tag, hstack⟩ := h₂.stack
    obtain ⟨cs, hcells⟩ := h₂.cells
    -- the three entries of the first cell are still on the stack
    refine (ends_UNPROTECT h₂.ok [res, val, tag] hstack rfl).bind (fun _ _ h => h)
      fun _ m₃ ⟨h₃, hs₃, hh₃, ht₃⟩ => ?_
    refine ⟨⟨h₃, h₂.grows.unprotect hh₃ ht₃ (hs₃ ▸ List.suffix_refl _), hs₃,
      h₂.held.of_eq hh₃ ht₃⟩, _, ?_, hcells.sorted, ?_⟩
    · rw [hh₃]
      exact hcells.spine
    · rw [hh₃]
      exact hcells.new

/-- **`decode_one`** hands over an object that is held, and a pairlist with its cells. -/
theorem ends_decode_one (hdr : ℕ) (h : Ok S False m) :
    Ends (decode_one R src load hdr) m (fun r m' => Yields S False m r m' ∧
      (SexpType.ofCode (hdr % 256) = .ATTRSXP → ∃ cs, Cells m m' r cs)) (Stopped S False) := by
  -- for the other types there is nothing to show about cells
  have hother : ∀ {x : Act σ Ref}, SexpType.ofCode (hdr % 256) ≠ .ATTRSXP →
      Ends x m (Yields S False m) (Stopped S False) →
      Ends x m (fun r m' => Yields S False m r m' ∧
        (SexpType.ofCode (hdr % 256) = .ATTRSXP → ∃ cs, Cells m m' r cs)) (Stopped S False) :=
    fun hne hx => hx.mono (fun _ _ hy => ⟨hy, fun heq => absurd heq hne⟩) fun _ _ h => h
  unfold decode_one decodeSwitch
  generalize hdr >>> 8 = len
  split
  · next heq => exact hother (by rw [heq]; decide) ⟨h, .refl S m, rfl, h.held_nil⟩
  · next heq => exact hother (by rw [heq]; decide) (ends_decodeAtoms R src .INTSXP len h)
  · next heq => exact hother (by rw [heq]; decide) (ends_decodeAtoms R src .LGLSXP len h)
  · next heq => exact hother (by rw [heq]; decide) (ends_decodeAtoms R src .REALSXP len h)
  · next heq => exact hother (by rw [heq]; decide) (ends_decodeAtoms R src .CPLXSXP len h)
  · next heq => exact hother (by rw [heq]; decide) (ends_decodeSymbol R src h len)
  · next heq =>
    refine hother (by rw [heq]; decide) (ends_decodeElts R hload .VECSXP ?_ len h)
    exact fun i v h₀ hnew hf hv =>
      ends_setContents hf.ok hf.grows h₀ hnew hf.held hv (adds_setElt i v)
  · next heq =>
    refine hother (by rw [heq]; decide) (ends_decodeElts R hload .STRSXP ?_ len h)
    exact fun i v h₀ hnew hf hv => ends_SET_STRING_ELT hf.ok hf.grows h₀ hnew hf.held hv i
  · next heq => exact hother (by rw [heq]; decide) (ends_decodeString R src h len)
  · next heq => exact hother (by rw [heq]; decide) (ends_decodeClosure R hload h)
  · exact (ends_decodeCells R hload false len h).mono (fun _ _ hy => ⟨hy.1, fun _ => hy.2⟩)
      fun _ _ h => h
  · exact (ends_decodeCells R hload false len h).mono (fun _ _ hy => ⟨hy.1, fun _ => hy.2⟩)
      fun _ _ h => h
  · exact (ends_decodeCells R hload true len h).mono (fun _ _ hy => ⟨hy.1, fun _ => hy.2⟩)
      fun _ _ h => h
  · next heq => exact hother (by rw [heq]; decide) (ends_decodeEnv h len)
  · exact h.stopped Stop.noConfusion

end Load

end Rheap
end Osrv
