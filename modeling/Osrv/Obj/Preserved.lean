import Mathlib.Algebra.BigOperators.Group.List.Basic
import Osrv.Obj.Robj

/-!
# R objects that the store refers to

R frees an object unless it has been told, by `R_PreserveObject`, that somebody refers
to it, and that holds until `R_ReleaseObject` is called as many times. The store calls
the first for an object that `C_put` adds and for one that `C_get` keeps in an entry,
and the second when `obj_gc` frees the entry.

The R thread is not alone. While it is in `obj_add` or between the lookup of `C_get` and
the assignment of `sWhat`, worker threads may add and remove entries, also the one that
was found, which is then in the pool. `preserved_while_referred` says that for every
object other than `R_NilValue` the calls stay in balance with the entries.
-/

namespace Osrv
namespace Obj

open Bytes Heap Sfs

/-! ### The R thread -/

/-- R objects as the program sees them. Two objects may have the same value. -/
structure RObjects (R : Type) where
  value : R → SEXP
  /-- Whether the object is `R_NilValue`. -/
  isNil : R → Bool

/-- Where the R thread is. -/
inductive RPos (R : Type)
  /-- Not in a function of the store. -/
  | idle
  /-- In `obj_add`, at its critical section. -/
  | adding (key : CString) (sWhat : R) (data : Option (List UInt8)) (len : ℕ)
  /-- In `C_get`, behind `obj_get`. -/
  | reading (o : Ptr) (use_sfs rm : Bool)

/-- The store with its data and the R objects that its entries refer to. -/
abbrev RStore (R : Type) : Type := Store (Option (List UInt8)) R

variable {R : Type}

/-- What `C_put` stores besides the object: the data pointer and the length. Without SFS
the object must be a raw vector. -/
def putData (o : RObjects R) (x : R) (use_sfs : Bool) : Option (Option (List UInt8) × ℕ) :=
  if use_sfs then some (none, 0) else (RAW (o.value x)).map fun bytes => (some bytes, bytes.length)

/-- `obj_add` up to its critical section. The entry is private and is a value until then. -/
def addPreserve (sWhat : Option R) (s : RStore R) : RStore R :=
  { s with rcalls := s.rcalls ++ (sWhat.map .R_PreserveObject).toList }

/-- The critical section of `obj_add`. -/
def addLink (key : CString) (sWhat : Option R) (data : Option (List UInt8)) (len : ℕ)
    (s : RStore R) : RStore R :=
  let (e, heap) := s.heap.alloc ⟨⟨len, data, sWhat, key⟩, s.obj_root⟩
  { s with heap := heap, obj_root := some e }

/-- An object that `C_get` keeps. -/
def keepCalls (o : RObjects R) (x : R) : List (RCall R) :=
  if o.isNil x then [] else [.R_PreserveObject x]

/-- `C_get` behind `obj_get`. `new` is the object that R makes of a value. -/
def finishGet (o : RObjects R) (r : RSession) (new : SEXP → R) (p : Ptr) (use_sfs rm : Bool)
    (s : RStore R) : Option (Option R × RStore R) := do
  match p with
  | none => pure (some (new .NULL), s)
  | some a =>
    let cell ← s.heap.load a
    match cell.val.sWhat with
    | some x => pure (some x, s)
    | none =>
      match ← materialise r use_sfs cell.val.len cell.val.obj with
      | none => pure (none, s)
      | some v =>
        if rm then pure (some (new v), s)
        else
          let heap ← s.heap.write a { cell with val := { cell.val with sWhat := some (new v) } }
          pure (some (new v), { s with heap := heap, rcalls := s.rcalls ++ keepCalls o (new v) })

/-- The two parts of `obj_add`, with nothing in between. -/
theorem obj_add_eq (key : CString) (sWhat : Option R) (data : Option (List UInt8)) (len : ℕ)
    (s : RStore R) :
    obj_add key sWhat data len s = addLink key sWhat data len (addPreserve sWhat s) := rfl

/-- Values taken for the objects themselves. -/
def valueObjects : RObjects SEXP where
  value := id
  isNil
    | .NULL => true
    | _ => false

theorem keepCalls_valueObjects (v : SEXP) : keepCalls valueObjects v = preserve v := by
  cases v <;> rfl

/-- The two parts of `C_get`, with nothing in between. -/
theorem C_get_eq (r : RSession) (key : CString) (use_sfs rm : Bool) (s : Objects) :
    C_get r key use_sfs rm s = (obj_get key rm s).bind fun found =>
      finishGet valueObjects r id found.1 use_sfs rm found.2 := by
  rw [C_get]
  cases obj_get key rm s with
  | none => rfl
  | some found =>
    obtain ⟨p, s⟩ := found
    show _ = finishGet valueObjects r id p use_sfs rm s
    cases p with
    | none => rfl
    | some a =>
      simp only [finishGet, keep, keepCalls_valueObjects, id_eq, Option.bind_eq_bind,
        Option.bind_some, Option.bind_assoc]
      cases s.heap.load a with
      | none => rfl
      | some cell =>
        obtain ⟨⟨len, obj, _ | x, k⟩, next⟩ := cell
        · show (materialise r use_sfs len obj).bind _ = (materialise r use_sfs len obj).bind _
          rcases materialise r use_sfs len obj with _ | _ | v <;> rfl
        · rfl

/-! ### The system -/

/-- The store and the R thread. Worker threads keep nothing between their steps. -/
structure Interp (R : Type) where
  store : RStore R
  r : RPos R

def Interp.init : Interp R := ⟨.init, .idle⟩

/-- The steps: what the R thread does between two points where others may come in, and the
critical sections of the workers. -/
inductive RAct (R : Type)
  | C_put (key : CString) (sWhat : R) (use_sfs : Bool)
  /-- `C_put` gets the lock. -/
  | link
  | C_get (key : CString) (use_sfs rm : Bool)
  /-- The rest of `C_get`. -/
  | finish (session : RSession) (new : SEXP → R)
  | C_clean
  /-- A worker adds an entry of bytes. -/
  | remoteAdd (key : CString) (data : Option (List UInt8)) (len : ℕ)
  /-- A worker looks an entry up, or removes it. -/
  | remoteGet (key : CString) (rm : Bool)

/-- Performs a step. The R thread does one thing after the other. -/
def Interp.step (o : RObjects R) (s : Interp R) : RAct R → Option (Interp R)
  | .C_put key x use_sfs =>
    match s.r with
    | .idle =>
      match putData o x use_sfs with
      | none => some s
      | some d => some ⟨addPreserve (some x) s.store, .adding key x d.1 d.2⟩
    | _ => none
  | .link =>
    match s.r with
    | .adding key x data len => some ⟨addLink key (some x) data len s.store, .idle⟩
    | _ => none
  | .C_get key use_sfs rm =>
    match s.r with
    | .idle => do
      let found ← obj_get key rm s.store
      pure ⟨found.2, .reading found.1 use_sfs rm⟩
    | _ => none
  | .finish session new =>
    match s.r with
    | .reading p use_sfs rm => do
      let result ← finishGet o session new p use_sfs rm s.store
      pure ⟨result.2, .idle⟩
    | _ => none
  | .C_clean =>
    match s.r with
    | .idle => do
      let store ← obj_gc s.store
      pure ⟨store, .idle⟩
    | _ => none
  | .remoteAdd key data len => some { s with store := obj_add key none data len s.store }
  | .remoteGet key rm => do
    let found ← obj_get key rm s.store
    pure { s with store := found.2 }

/-- The R thread is where the step starts. -/
def Interp.Ready (s : Interp R) : RAct R → Prop
  | .C_put _ _ _ | .C_get _ _ _ | .C_clean => s.r = .idle
  | .link => ∃ key x data len, s.r = .adding key x data len
  | .finish _ _ => ∃ p use_sfs rm, s.r = .reading p use_sfs rm
  | .remoteAdd _ _ _ | .remoteGet _ _ => True

/-- What a worker adds has the length that it is stored with. -/
def RAct.Complete : RAct R → Prop
  | .remoteAdd _ data len => len ≤ (data.getD []).length
  | _ => True

/-! ### Counting -/

section Counting

variable [DecidableEq R]

/-- What a call adds to the number of outstanding calls of `R_PreserveObject`. -/
def RCall.weight (x : R) : RCall R → ℤ
  | .R_PreserveObject y => if y = x then 1 else 0
  | .R_ReleaseObject y => if y = x then -1 else 0

/-- The calls of `R_PreserveObject` for an object that have not been taken back. -/
def outstanding (x : R) (calls : List (RCall R)) : ℤ := (calls.map (RCall.weight x)).sum

/-- The number of entries that refer to the object. -/
def references (x : R) (es : Entries (Option (List UInt8)) R) : ℕ :=
  es.countP fun e => e.2.sWhat = some x

/-- The object that `obj_add` has preserved and not stored yet. -/
def RPos.pending (x : R) : RPos R → ℕ
  | .adding _ y _ _ => if y = x then 1 else 0
  | _ => 0

@[simp] theorem outstanding_append (x : R) (calls calls' : List (RCall R)) :
    outstanding x (calls ++ calls') = outstanding x calls + outstanding x calls' := by
  rw [outstanding, List.map_append, List.sum_append]
  rfl

theorem references_perm {x : R} {es es' : Entries (Option (List UInt8)) R} (h : es.Perm es') :
    references x es = references x es' :=
  h.countP_eq _

theorem references_append (x : R) (es es' : Entries (Option (List UInt8)) R) :
    references x (es ++ es') = references x es + references x es' :=
  List.countP_append

theorem references_cons (x : R) (e : Addr × Entry (Option (List UInt8)) R)
    (es : Entries (Option (List UInt8)) R) :
    references x (e :: es) = references x es + if e.2.sWhat = some x then 1 else 0 := by
  rw [references, List.countP_cons]
  simp only [decide_eq_true_eq]
  rfl

theorem outstanding_preserve (x : R) (sWhat : Option R) :
    outstanding x (sWhat.map RCall.R_PreserveObject).toList = if sWhat = some x then 1 else 0 := by
  cases sWhat <;> simp [outstanding, RCall.weight]

theorem outstanding_release (x : R) (sWhat : Option R) :
    outstanding x (sWhat.map RCall.R_ReleaseObject).toList = if sWhat = some x then -1 else 0 := by
  cases sWhat <;> simp [outstanding, RCall.weight]

/-- Releasing what the entries of a list refer to. -/
theorem outstanding_released (x : R) (es : Entries (Option (List UInt8)) R) :
    outstanding x (es.flatMap fun e => (e.2.sWhat.map RCall.R_ReleaseObject).toList)
      = -references x es := by
  induction es with
  | nil => rfl
  | cons e es ih =>
    rw [List.flatMap_cons, outstanding_append, ih, outstanding_release, references_cons]
    split <;> push_cast <;> ring

end Counting

/-! ### What the functions do to the calls -/

section Calls

variable {D : Type} {s s' : Store D R}

theorem unlink_rcalls {prev next : Ptr} (h : unlink prev next s = some s') :
    s'.rcalls = s.rcalls := by
  cases prev with
  | none =>
    obtain rfl := Option.some.inj h
    rfl
  | some p =>
    obtain ⟨heap, -, hs⟩ := Option.bind_eq_some_iff.mp h
    obtain rfl := Option.some.inj hs
    rfl

theorem moveToPool_rcalls {e : Addr} {prev next : Ptr} (h : moveToPool e prev next s = some s') :
    s'.rcalls = s.rcalls := by
  obtain ⟨s₁, hunlink, h⟩ := Option.bind_eq_some_iff.mp h
  obtain ⟨heap, -, hs⟩ := Option.bind_eq_some_iff.mp h
  obtain rfl := Option.some.inj hs
  show s₁.rcalls = s.rcalls
  exact unlink_rcalls hunlink

/-- Looking up and removing tells R nothing. -/
theorem getLoop_rcalls {key : CString} {rm : Bool} {n : ℕ} {e prev p : Ptr}
    (h : getLoop key rm n e prev s = some (p, s')) : s'.rcalls = s.rcalls := by
  induction n generalizing e prev with
  | zero => cases h
  | succ n ih =>
    cases e with
    | none =>
      obtain ⟨-, rfl⟩ := Prod.mk.inj (Option.some.inj h)
      rfl
    | some a =>
      simp only [getLoop, Option.bind_eq_bind] at h
      obtain ⟨cell, -, h⟩ := Option.bind_eq_some_iff.mp h
      split at h
      · split at h
        · obtain ⟨s₁, hmove, h⟩ := Option.bind_eq_some_iff.mp h
          obtain ⟨-, rfl⟩ := Prod.mk.inj (Option.some.inj h)
          exact moveToPool_rcalls hmove
        · obtain ⟨-, rfl⟩ := Prod.mk.inj (Option.some.inj h)
          rfl
      · exact ih h

/-- Collecting releases what the entries of the pool refer to. -/
theorem gcLoop_rcalls {n : ℕ} {ys : Entries D R} (hseg : Seg s.heap s.obj_gc_pool ys none)
    (hnd : (addrs ys).Nodup) (h : gcLoop n s = some s') :
    s'.rcalls = s.rcalls ++ ys.flatMap fun y => (y.2.sWhat.map RCall.R_ReleaseObject).toList := by
  induction ys generalizing n s with
  | nil =>
    have hpool : s.obj_gc_pool = none := hseg
    cases n with
    | zero => cases h
    | succ n =>
      simp only [gcLoop, hpool] at h
      obtain rfl := Option.some.inj h
      simp
  | cons y ys ih =>
    obtain ⟨hpool, next, hc, hrest⟩ := hseg
    obtain ⟨hy, hnd⟩ := List.nodup_cons.mp hnd
    cases n with
    | zero => cases h
    | succ n =>
      obtain ⟨heap, hfree, hcells, -⟩ := free_eq hc
      have hload : s.heap.load y.1 = some ⟨y.2, next⟩ := hc
      simp only [gcLoop, hpool, hload, hfree, Option.bind_eq_bind, Option.bind_some] at h
      rw [ih (hrest.update hcells hy) hnd h, List.flatMap_cons, List.append_assoc]

end Calls

/-! ### The invariant -/

/-- The entries without an object have their data. -/
def Whole (es : Entries (Option (List UInt8)) R) : Prop :=
  ∀ e ∈ es, e.2.sWhat = none → e.2.len ≤ (e.2.obj.getD []).length

/-- **The invariant of the system.** `xs` are the entries in the store and `ys` those in
the pool. -/
structure Balanced [DecidableEq R] (o : RObjects R) (s : Interp R)
    (xs ys : Entries (Option (List UInt8)) R) : Prop where
  rep : Rep s.store xs ys
  /-- R knows of an object exactly as often as it is referred to. -/
  balance : ∀ x, o.isNil x = false →
    outstanding x s.store.rcalls = references x (xs ++ ys) + s.r.pending x
  /-- What `C_get` has found has not been freed, though it may be in the pool by now. -/
  found : ∀ a use_sfs rm, s.r = .reading (some a) use_sfs rm → a ∈ addrs (xs ++ ys)

/-! ### The entries -/

section Entries

variable {s : RStore R} {xs ys : Entries (Option (List UInt8)) R}

/-- Adding puts an entry in front of the store. -/
theorem Rep.addLink {s : RStore R} (h : Rep s xs ys) (key : CString) (sWhat : Option R)
    (data : Option (List UInt8)) (len : ℕ) :
    Rep (addLink key sWhat data len s) ((s.heap.top, ⟨len, data, sWhat, key⟩) :: xs) ys := by
  have hadd := h.obj_add key sWhat data len
  exact ⟨hadd.root, hadd.pool, hadd.nodup, hadd.all⟩

/-- The entries with another one at an address. -/
def overwriteAt (a : Addr) (e' : Entry (Option (List UInt8)) R)
    (es : Entries (Option (List UInt8)) R) : Entries (Option (List UInt8)) R :=
  es.map fun x => if x.1 = a then (x.1, e') else x

theorem addrs_overwriteAt (a : Addr) (e' : Entry (Option (List UInt8)) R)
    (es : Entries (Option (List UInt8)) R) : addrs (overwriteAt a e' es) = addrs es := by
  rw [addrs, overwriteAt, List.map_map]
  refine List.map_congr_left fun x _ => ?_
  show (if x.1 = a then (x.1, e') else x).1 = x.1
  split <;> rfl

/-- Nothing happens to a list without that address. -/
theorem overwriteAt_of_notMem {a : Addr} (e' : Entry (Option (List UInt8)) R)
    {es : Entries (Option (List UInt8)) R} (ha : a ∉ addrs es) : overwriteAt a e' es = es := by
  have hid : ∀ x ∈ es, (if x.1 = a then (x.1, e') else x) = x := by
    intro x hx
    refine if_neg ?_
    rintro rfl
    exact ha (List.mem_map_of_mem hx)
  rw [overwriteAt, List.map_congr_left hid, List.map_id']

theorem mem_overwriteAt {a : Addr} {e' : Entry (Option (List UInt8)) R}
    {es : Entries (Option (List UInt8)) R} {x : Addr × Entry (Option (List UInt8)) R}
    (hx : x ∈ overwriteAt a e' es) : x.2 = e' ∨ x ∈ es := by
  obtain ⟨y, hy, rfl⟩ := List.mem_map.mp hx
  show (if y.1 = a then (y.1, e') else y).2 = e' ∨ (if y.1 = a then (y.1, e') else y) ∈ es
  split
  · exact .inl rfl
  · exact .inr hy

/-- A write to an entry, in the store or in the pool. -/
theorem Rep.overwrite (h : Rep s xs ys) {a : Addr} {e : Entry (Option (List UInt8)) R} {next : Ptr}
    (hcell : s.heap.cells a = some ⟨e, next⟩) (e' : Entry (Option (List UInt8)) R) :
    ∃ heap, s.heap.write a ⟨e', next⟩ = some heap ∧ ∀ calls,
      Rep { s with heap := heap, rcalls := calls } (overwriteAt a e' xs) (overwriteAt a e' ys) := by
  obtain ⟨heap, hwrite, hcells, -⟩ := write_eq hcell
    (⟨e', next⟩ : Cell (Entry (Option (List UInt8)) R))
  have haddrs : addrs (overwriteAt a e' xs ++ overwriteAt a e' ys) = addrs (xs ++ ys) := by
    simp only [addrs, List.map_append]
    exact congrArg₂ (· ++ ·) (addrs_overwriteAt a e' xs) (addrs_overwriteAt a e' ys)
  refine ⟨heap, hwrite, fun calls => ⟨h.root.overwrite hcell hcells, h.pool.overwrite hcell hcells,
    ?_, fun b hb => ?_⟩⟩
  · rw [haddrs]
    exact h.nodup
  · rw [haddrs]
    by_cases hba : b = a
    · exact h.all b (by rw [hba, hcell]; exact Option.some_ne_none _)
    · refine h.all b ?_
      rwa [← cells_update hcells hba]

/-- An entry at an address of the store or the pool. -/
theorem Rep.exists_cell (h : Rep s xs ys) {a : Addr} (ha : a ∈ addrs (xs ++ ys)) :
    ∃ e next, (a, e) ∈ xs ++ ys ∧ s.heap.cells a = some ⟨e, next⟩ := by
  obtain ⟨x, hx, rfl⟩ := List.mem_map.mp ha
  rcases List.mem_append.mp hx with hxs | hys
  · obtain ⟨next, hcell⟩ := h.root.cells_of_mem hxs
    exact ⟨x.2, next, hx, hcell⟩
  · obtain ⟨next, hcell⟩ := h.pool.cells_of_mem hys
    exact ⟨x.2, next, hx, hcell⟩

/-- The data of an entry suffices for what `C_get` makes of it. -/
theorem exists_materialise (r : RSession) (use_sfs : Bool) {len : ℕ} {obj : Option (List UInt8)}
    (hlen : len ≤ (obj.getD []).length) : ∃ v, materialise r use_sfs len obj = some v := by
  unfold materialise
  cases obj with
  | none =>
    obtain rfl : len = 0 := Nat.le_zero.mp hlen
    split
    · exact ⟨none, by simp⟩
    · split <;> exact ⟨_, rfl⟩
  | some bytes =>
    have hbytes : ¬bytes.length < len := Nat.not_lt.mpr hlen
    simp only [if_neg hbytes]
    split
    · split <;> exact ⟨_, rfl⟩
    · split <;> exact ⟨_, rfl⟩

variable [DecidableEq R]

/-- An entry that had no object refers to one now. -/
theorem references_overwriteAt {a : Addr} {e : Entry (Option (List UInt8)) R}
    {es : Entries (Option (List UInt8)) R} (hnd : (addrs es).Nodup) (hmem : (a, e) ∈ es)
    (hnone : e.sWhat = none) (x y : R) :
    references x (overwriteAt a { e with sWhat := some y } es)
      = references x es + if y = x then 1 else 0 := by
  obtain ⟨pre, post, rfl⟩ := List.append_of_mem hmem
  rw [addrs, List.map_append, List.map_cons, List.nodup_middle, List.nodup_cons, List.mem_append,
    not_or] at hnd
  obtain ⟨⟨hpre, hpost⟩, -⟩ := hnd
  have hsplit : overwriteAt a { e with sWhat := some y } (pre ++ (a, e) :: post)
      = pre ++ (a, { e with sWhat := some y }) :: post := by
    have hp := overwriteAt_of_notMem { e with sWhat := some y } hpre
    have hq := overwriteAt_of_notMem { e with sWhat := some y } hpost
    rw [overwriteAt] at hp hq
    rw [overwriteAt, List.map_append, List.map_cons, hp, hq, if_pos rfl]
  rw [hsplit, references_append, references_append, references_cons, references_cons, hnone]
  simp only [Option.some.injEq, reduceCtorEq, if_false]
  ring

end Entries

section Steps

variable [DecidableEq R] {o : RObjects R} {s : Interp R}
  {xs ys : Entries (Option (List UInt8)) R}

theorem Balanced.init : Balanced o (Interp.init : Interp R) [] [] where
  rep := Rep.init
  balance _ _ := rfl
  found a use_sfs rm h := by cases h

/-- `C_put` up to the lock. -/
theorem Balanced.C_put (h : Balanced o s xs ys) (hidle : s.r = .idle) (key : CString) (x : R)
    (data : Option (List UInt8)) (len : ℕ) :
    Balanced o ⟨addPreserve (some x) s.store, .adding key x data len⟩ xs ys where
  rep := ⟨h.rep.root, h.rep.pool, h.rep.nodup, h.rep.all⟩
  balance y hy := by
    have hbal := h.balance y hy
    rw [hidle] at hbal
    show outstanding y (s.store.rcalls ++ _) = _ + ((if x = y then 1 else 0 : ℕ) : ℤ)
    rw [outstanding_append, hbal, outstanding_preserve]
    simp [RPos.pending]
  found a use_sfs rm hr := by cases hr

/-- The critical section of `obj_add` in `C_put`. -/
theorem Balanced.link (h : Balanced o s xs ys) {key : CString} {x : R}
    {data : Option (List UInt8)} {len : ℕ} (hr : s.r = .adding key x data len) :
    Balanced o ⟨addLink key (some x) data len s.store, .idle⟩
      ((s.store.heap.top, ⟨len, data, some x, key⟩) :: xs) ys where
  rep := h.rep.addLink key (some x) data len
  balance y hy := by
    have hbal := h.balance y hy
    rw [hr] at hbal
    rw [List.cons_append, references_cons]
    show outstanding y s.store.rcalls = _ + ((0 : ℕ) : ℤ)
    rw [hbal]
    simp only [RPos.pending, Option.some.injEq]
    push_cast
    ring
  found a use_sfs rm hr := by cases hr

/-- A worker adds an entry. -/
theorem Balanced.remoteAdd (h : Balanced o s xs ys) (key : CString) (data : Option (List UInt8))
    (len : ℕ) :
    Balanced o { s with store := obj_add key none data len s.store }
      ((s.store.heap.top, ⟨len, data, none, key⟩) :: xs) ys where
  rep := h.rep.obj_add key none data len
  balance y hy := by
    rw [List.cons_append, references_cons]
    show outstanding y (s.store.rcalls ++ []) = _
    rw [List.append_nil, h.balance y hy]
    simp
  found a use_sfs rm hr := List.mem_cons_of_mem _ (h.found a use_sfs rm hr)

theorem remove_perm {α : Type} (p : α → Bool) (xs ys : List α) :
    (xs.eraseP p ++ ((xs.find? p).toList ++ ys)).Perm (xs ++ ys) := by
  induction xs with
  | nil => exact .refl _
  | cons x xs ih =>
    cases hx : p x with
    | true =>
      simp only [List.eraseP_cons_of_pos hx, List.find?_cons_of_pos hx, Option.toList_some]
      exact List.perm_middle
    | false =>
      have hneg : ¬p x = true := by simp [hx]
      simp only [List.eraseP_cons_of_neg hneg, List.find?_cons_of_neg hneg, List.cons_append]
      exact ih.cons x

/-- A critical section of `obj_get`, by the R thread or a worker. What it returns is
an entry of the store or the pool. -/
theorem Balanced.obj_get (h : Balanced o s xs ys) (key : CString) (rm : Bool) :
    ∃ p store xs' ys', obj_get key rm s.store = some (p, store) ∧
      Balanced o { s with store := store } xs' ys' ∧ (xs' ++ ys').Perm (xs ++ ys) ∧
      ∀ a, p = some a → a ∈ addrs (xs' ++ ys') := by
  cases rm with
  | false =>
    refine ⟨_, _, xs, ys, h.rep.obj_get_find key, h, .refl _, fun a ha => ?_⟩
    obtain ⟨x, hx, rfl⟩ := Option.map_eq_some_iff.mp ha
    exact List.mem_map_of_mem (List.mem_append_left _ (List.mem_of_find?_eq_some hx))
  | true =>
    obtain ⟨store, hget, hrep, -⟩ := h.rep.obj_get_remove key
    have hperm := remove_perm (hasKey key) xs ys
    refine ⟨_, store, _, _, hget, ⟨hrep, fun x hx => ?_, fun a use_sfs rm hr => ?_⟩, hperm,
      fun a ha => ?_⟩
    · rw [references_perm hperm]
      show outstanding x store.rcalls = _
      rw [getLoop_rcalls hget]
      exact h.balance x hx
    · exact (hperm.map Prod.fst).mem_iff.mpr (h.found a use_sfs rm hr)
    · obtain ⟨x, hx, rfl⟩ := Option.map_eq_some_iff.mp ha
      refine (hperm.map Prod.fst).mem_iff.mpr (List.mem_map_of_mem ?_)
      exact List.mem_append_left _ (List.mem_of_find?_eq_some hx)

/-- `C_clean` empties the pool. -/
theorem Balanced.C_clean (h : Balanced o s xs ys) (hidle : s.r = .idle) :
    ∃ store, obj_gc s.store = some store ∧ Balanced o ⟨store, .idle⟩ xs [] := by
  obtain ⟨store, hgc, hrep, -⟩ := h.rep.obj_gc
  refine ⟨store, hgc, hrep, fun x hx => ?_, fun a use_sfs rm hr => by cases hr⟩
  have hbal := h.balance x hx
  rw [hidle, references_append] at hbal
  show outstanding x store.rcalls = (references x (xs ++ []) : ℤ) + ((0 : ℕ) : ℤ)
  rw [gcLoop_rcalls h.rep.pool h.rep.nodup_pool hgc, outstanding_append, outstanding_released,
    hbal, List.append_nil]
  simp only [RPos.pending]
  push_cast
  ring

theorem outstanding_keepCalls {x : R} (hx : o.isNil x = false) (y : R) :
    outstanding x (keepCalls o y) = if y = x then 1 else 0 := by
  rw [keepCalls]
  by_cases hyx : y = x
  · subst hyx
    rw [hx]
    simp [outstanding, RCall.weight]
  · split <;> simp [outstanding, RCall.weight, hyx]

/-- The rest of `C_get`. The entry may have been moved to the pool since the lookup, and
then the object is kept there. -/
theorem Balanced.finish (h : Balanced o s xs ys) {p : Ptr} {use_sfs rm : Bool}
    (hr : s.r = .reading p use_sfs rm) {session : RSession} {new : SEXP → R}
    {result : Option R} {store : RStore R}
    (hfin : finishGet o session new p use_sfs rm s.store = some (result, store)) :
    ∃ xs' ys', Balanced o ⟨store, .idle⟩ xs' ys' ∧ (Whole (xs ++ ys) → Whole (xs' ++ ys')) := by
  -- the call that is pending has no reference of its own
  have hidle : Balanced o ⟨s.store, .idle⟩ xs ys := by
    refine ⟨h.rep, fun x hx => ?_, fun a use_sfs rm hr => by cases hr⟩
    have hbal := h.balance x hx
    rwa [hr] at hbal
  cases p with
  -- nothing was found
  | none =>
    obtain ⟨-, rfl⟩ := Prod.mk.inj (Option.some.inj hfin)
    exact ⟨xs, ys, hidle, id⟩
  | some a =>
    obtain ⟨e, next, hmem, hcell⟩ := h.rep.exists_cell (h.found a use_sfs rm hr)
    have hload : s.store.heap.load a = some ⟨e, next⟩ := hcell
    simp only [finishGet, hload, Option.bind_eq_bind, Option.bind_some] at hfin
    cases hwhat : e.sWhat with
    -- the entry has a value
    | some x =>
      simp only [hwhat] at hfin
      obtain ⟨-, rfl⟩ := Prod.mk.inj (Option.some.inj hfin)
      exact ⟨xs, ys, hidle, id⟩
    | none =>
      simp only [hwhat] at hfin
      obtain ⟨v, -, hfin⟩ := Option.bind_eq_some_iff.mp hfin
      -- an object is made of the data, or the data is none
      cases v with
      | none =>
        obtain ⟨-, rfl⟩ := Prod.mk.inj (Option.some.inj hfin)
        exact ⟨xs, ys, hidle, id⟩
      | some v =>
        cases rm with
        -- an entry that is removed does not keep the object
        | true =>
          obtain ⟨-, rfl⟩ := Prod.mk.inj (Option.some.inj hfin)
          exact ⟨xs, ys, hidle, id⟩
        -- the object is kept in the entry, and preserved for it
        | false =>
          obtain ⟨heap, hwrite, hrep⟩ := h.rep.overwrite hcell { e with sWhat := some (new v) }
          have hmap : overwriteAt a { e with sWhat := some (new v) } xs
              ++ overwriteAt a { e with sWhat := some (new v) } ys
                = overwriteAt a { e with sWhat := some (new v) } (xs ++ ys) :=
            List.map_append.symm
          simp only [Bool.false_eq_true, if_false, hwrite, Option.bind_some] at hfin
          obtain ⟨-, rfl⟩ := Prod.mk.inj (Option.some.inj hfin)
          refine ⟨_, _, ⟨hrep (s.store.rcalls ++ keepCalls o (new v)), fun x hx => ?_,
            fun a use_sfs rm hr => by cases hr⟩, fun hwhole y hy hnone => ?_⟩
          · show outstanding x (s.store.rcalls ++ keepCalls o (new v))
              = (references x (_ ++ _) : ℤ) + (0 : ℕ)
            have hbal := hidle.balance x hx
            rw [outstanding_append, outstanding_keepCalls hx, hbal, hmap,
              references_overwriteAt h.rep.nodup hmem hwhat]
            simp only [RPos.pending]
            push_cast
            ring
          · rw [hmap] at hy
            rcases mem_overwriteAt hy with hy | hy
            · rw [hy] at hnone
              cases hnone
            · exact hwhole y hy hnone

/-- The rest of `C_get` reads no memory that is not there. -/
theorem Balanced.exists_finish (h : Balanced o s xs ys) (hwhole : Whole (xs ++ ys)) {p : Ptr}
    {use_sfs rm : Bool} (hr : s.r = .reading p use_sfs rm) (session : RSession)
    (new : SEXP → R) :
    ∃ result, finishGet o session new p use_sfs rm s.store = some result := by
  cases p with
  | none => exact ⟨_, rfl⟩
  | some a =>
    obtain ⟨e, next, hmem, hcell⟩ := h.rep.exists_cell (h.found a use_sfs rm hr)
    have hload : s.store.heap.load a = some ⟨e, next⟩ := hcell
    simp only [finishGet, hload, Option.bind_eq_bind, Option.bind_some]
    cases hwhat : e.sWhat with
    | some x => exact ⟨_, rfl⟩
    | none =>
      obtain ⟨v, hv⟩ := exists_materialise session use_sfs (hwhole (a, e) hmem hwhat)
      simp only [hv, Option.bind_some]
      cases v with
      | none => exact ⟨_, rfl⟩
      | some v =>
        cases rm with
        | true => exact ⟨_, rfl⟩
        | false =>
          obtain ⟨heap, hwrite, -⟩ := h.rep.overwrite hcell ⟨e.len, e.obj, some (new v), e.key⟩
          simp only [Bool.false_eq_true, if_false, hwrite, Option.bind_some]
          exact ⟨_, rfl⟩

/-- **One step**, of the R thread or of a worker. -/
theorem Balanced.step (h : Balanced o s xs ys) {a : RAct R} {s' : Interp R}
    (hs : s.step o a = some s') :
    ∃ xs' ys', Balanced o s' xs' ys' ∧
      (Whole (xs ++ ys) → a.Complete → Whole (xs' ++ ys')) := by
  obtain ⟨store, r⟩ := s
  cases a with
  | C_put key x use_sfs =>
    cases r with
    | idle =>
      simp only [Interp.step] at hs
      split at hs
      -- a value that cannot be stored leaves all as it is
      · obtain rfl := Option.some.inj hs
        exact ⟨xs, ys, h, fun hwhole _ => hwhole⟩
      -- the value is preserved before it is linked
      · obtain rfl := Option.some.inj hs
        exact ⟨xs, ys, h.C_put rfl key x _ _, fun hwhole _ => hwhole⟩
    | adding | reading => cases hs
  | link =>
    cases r with
    | adding key x data len =>
      obtain rfl := Option.some.inj hs
      -- an entry with a value is whole
      refine ⟨_, ys, h.link rfl, fun hwhole _ e he hnone => ?_⟩
      rcases List.mem_cons.mp he with rfl | he
      · cases hnone
      · exact hwhole e he hnone
    | idle | reading => cases hs
  | C_get key use_sfs rm =>
    cases r with
    | idle =>
      obtain ⟨p, store', xs', ys', hget, h', hperm, hp⟩ := h.obj_get key rm
      simp only [Interp.step, hget, Option.bind_eq_bind, Option.bind_some] at hs
      obtain rfl := Option.some.inj hs
      -- the entries are the same ones, moved or not
      refine ⟨xs', ys', ⟨h'.rep, h'.balance, fun a use_sfs rm hr => ?_⟩,
        fun hwhole _ e he => hwhole e (hperm.mem_iff.mp he)⟩
      cases hr
      exact hp a rfl
    | adding | reading => cases hs
  | finish session new =>
    cases r with
    | reading p use_sfs rm =>
      obtain ⟨⟨result, store'⟩, hfin, hs⟩ := Option.bind_eq_some_iff.mp hs
      obtain rfl := Option.some.inj hs
      obtain ⟨xs', ys', h', hwhole'⟩ := h.finish rfl hfin
      exact ⟨xs', ys', h', fun hwhole _ => hwhole' hwhole⟩
    | idle | adding => cases hs
  | C_clean =>
    cases r with
    | idle =>
      obtain ⟨store', hgc, h'⟩ := h.C_clean rfl
      simp only [Interp.step, hgc, Option.bind_eq_bind, Option.bind_some] at hs
      obtain rfl := Option.some.inj hs
      -- the pool is emptied, the store is not touched
      refine ⟨xs, [], h', fun hwhole _ e he => hwhole e ?_⟩
      rw [List.append_nil] at he
      exact List.mem_append_left _ he
    | adding | reading => cases hs
  | remoteAdd key data len =>
    obtain rfl := Option.some.inj hs
    -- an entry without a value is whole if it has its data
    refine ⟨_, ys, h.remoteAdd key data len, fun hwhole hlen e he hnone => ?_⟩
    rcases List.mem_cons.mp he with rfl | he
    · exact hlen
    · exact hwhole e he hnone
  | remoteGet key rm =>
    obtain ⟨p, store', xs', ys', hget, h', hperm, -⟩ := h.obj_get key rm
    simp only [Interp.step, hget, Option.bind_eq_bind, Option.bind_some] at hs
    obtain rfl := Option.some.inj hs
    exact ⟨xs', ys', h', fun hwhole _ e he => hwhole e (hperm.mem_iff.mp he)⟩

/-- A step that can start goes through, if the entries have their data. -/
theorem Balanced.exists_step (h : Balanced o s xs ys) (hwhole : Whole (xs ++ ys)) {a : RAct R}
    (ha : s.Ready a) : ∃ s', s.step o a = some s' := by
  obtain ⟨store, r⟩ := s
  cases a with
  | C_put key x use_sfs =>
    obtain rfl : r = .idle := ha
    simp only [Interp.step]
    split <;> exact ⟨_, rfl⟩
  | link =>
    obtain ⟨key, x, data, len, rfl⟩ := ha
    exact ⟨_, rfl⟩
  | C_get key use_sfs rm =>
    obtain rfl : r = .idle := ha
    obtain ⟨p, store', xs', ys', hget, -⟩ := h.obj_get key rm
    exact ⟨⟨store', .reading p use_sfs rm⟩, by simp [Interp.step, hget]⟩
  | finish session new =>
    obtain ⟨p, use_sfs, rm, rfl⟩ := ha
    obtain ⟨result, hfin⟩ := h.exists_finish hwhole rfl session new
    exact ⟨⟨result.2, .idle⟩, by simp [Interp.step, hfin]⟩
  | C_clean =>
    obtain rfl : r = .idle := ha
    obtain ⟨store', hgc, -⟩ := h.C_clean rfl
    exact ⟨⟨store', .idle⟩, by simp [Interp.step, hgc]⟩
  | remoteAdd key data len => exact ⟨_, rfl⟩
  | remoteGet key rm =>
    obtain ⟨p, store', xs', ys', hget, -⟩ := h.obj_get key rm
    exact ⟨⟨store', r⟩, by simp [Interp.step, hget]⟩

/-! ### Runs -/

/-- Every state of a run. -/
theorem run_balanced {acts : List (RAct R)}
    (hrun : Run.run (Interp.step o) Interp.init acts = some s) : ∃ xs ys, Balanced o s xs ys := by
  refine Run.induction (P := fun _ s => ∃ xs ys, Balanced o s xs ys) ⟨[], [], .init⟩ ?_ hrun
  rintro acts s a s' ⟨xs, ys, h⟩ hs
  obtain ⟨xs', ys', h', -⟩ := h.step hs
  exact ⟨xs', ys', h'⟩

/-- **No run goes wrong** if workers add data of the length that it is stored with: no
freed entry is read or written, though `C_get` uses what it has found without the lock. -/
theorem run_total {acts : List (RAct R)}
    (hready : Run.Guarded (Interp.step o) Interp.init (fun s a => s.Ready a ∧ a.Complete) acts) :
    ∃ s, Run.run (Interp.step o) Interp.init acts = some s := by
  have hstep : ∀ (acts : List (RAct R)) (s : Interp R) (a : RAct R),
      (∃ xs ys, Balanced o s xs ys ∧ Whole (xs ++ ys)) → s.Ready a ∧ a.Complete →
      ∃ s', s.step o a = some s' ∧ ∃ xs ys, Balanced o s' xs ys ∧ Whole (xs ++ ys) := by
    rintro acts s a ⟨xs, ys, h, hwhole⟩ ⟨ha, hcomplete⟩
    obtain ⟨s', hs⟩ := h.exists_step hwhole ha
    obtain ⟨xs', ys', h', hwhole'⟩ := h.step hs
    exact ⟨s', hs, xs', ys', h', hwhole' hwhole hcomplete⟩
  have hinit : ∃ xs ys, Balanced o Interp.init xs ys ∧ Whole (xs ++ ys) :=
    ⟨[], [], .init, fun e he => by cases he⟩
  obtain ⟨s, hrun, -⟩ := Run.total_guarded hinit hstep hready
  exact ⟨s, hrun⟩

/-- **R objects are protected while the store refers to them.** In every state that the R
thread and the workers lead to, for every object other than `R_NilValue`, the outstanding
calls of `R_PreserveObject` are as many as the entries, in the store and in the pool,
that refer to it. Only `C_put` has preserved its object one step before the entry is in
the store. If the R thread cleans then, the pool is empty, and an object to which no
entry of the store refers is released. -/
theorem preserved_while_referred {acts : List (RAct R)}
    (hrun : Run.run (Interp.step o) Interp.init acts = some s) :
    ∃ xs ys, Rep s.store xs ys ∧
      (∀ x, o.isNil x = false →
        outstanding x s.store.rcalls = references x (xs ++ ys) + s.r.pending x) ∧
      (s.r = .idle → ∃ s', s.step o .C_clean = some s' ∧ Rep s'.store xs [] ∧
        ∀ x, o.isNil x = false → (∀ e ∈ xs, e.2.sWhat ≠ some x) →
          outstanding x s'.store.rcalls = 0) := by
  obtain ⟨xs, ys, h⟩ := run_balanced hrun
  refine ⟨xs, ys, h.rep, h.balance, fun hidle => ?_⟩
  obtain ⟨store, hgc, h'⟩ := h.C_clean hidle
  refine ⟨⟨store, .idle⟩, by simp [Interp.step, hidle, hgc], h'.rep, fun x hx hnone => ?_⟩
  have hzero : references x xs = 0 := by
    rw [references, List.countP_eq_zero]
    intro e he
    simpa using hnone e he
  rw [h'.balance x hx, List.append_nil, hzero]
  simp [RPos.pending]

end Steps

/-- Objects that are numbers, with `R_NilValue` for `0`. -/
def numbered : RObjects ℕ := ⟨fun _ => .NULL, fun x => x == 0⟩

/-- A worker removes the entry that `C_get` has found, and the object is kept in the pool. -/
def keptInPool : List (RAct ℕ) :=
  [.remoteAdd ⟨[107], by decide⟩ (some []) 0, .C_get ⟨[107], by decide⟩ false false,
    .remoteGet ⟨[107], by decide⟩ true,
    .finish ⟨⟨fun _ _ => true, fun _ _ => none⟩, [], fun _ => 0⟩ fun _ => 5]

theorem preserved_while_referred_pool :
    ∃ s, Run.run (Interp.step numbered) Interp.init keptInPool = some s ∧
      outstanding 5 s.store.rcalls = 1 ∧
      ∃ xs ys, Rep s.store xs ys ∧ references 5 (xs ++ ys) = 1 := by
  have hrun : ∃ s, Run.run (Interp.step numbered) Interp.init keptInPool = some s ∧
      s.store.rcalls = [.R_PreserveObject 5] ∧ s.r = .idle := ⟨_, rfl, rfl, rfl⟩
  obtain ⟨s, hrun, hcalls, hidle⟩ := hrun
  obtain ⟨xs, ys, hrep, hbal, -⟩ := preserved_while_referred hrun
  have hout : outstanding 5 s.store.rcalls = 1 := by
    rw [hcalls]
    rfl
  have h := hbal 5 rfl
  rw [hout, hidle] at h
  refine ⟨s, hrun, hout, xs, ys, hrep, ?_⟩
  simpa [RPos.pending] using h.symm

end Obj
end Osrv
