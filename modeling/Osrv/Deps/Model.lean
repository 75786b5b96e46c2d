import Osrv.Obj.Store

/-!
# Dependencies

The functions of `deps.c`. A request names keys to wait for. It is a node of a
singly linked list, with a status byte for each key; `head` leads through the
list and `tail` to the node added last. When a key is added to the store,
`deps_complete` marks it in every request, and a request with all bytes set is
unlinked, freed and reported on `dep_queue`.

As in the model of `obj.c`, a read or write through a pointer to a freed node
gives `none`. Allocations succeed. `ev_push` at the end of `dep_queue` is modelled
as appending to a list.
-/

namespace Osrv
namespace Deps

open Bytes Heap

/-! ### Requests -/

/-- `depent_t`, without the link: the keys, each with its status byte, and what to
report. `nreq` is the number of keys. -/
structure Depent where
  msg : ℤ
  keys : List (CString × Bool)
  name : CString

/-- `ev_resolved_t`: the message that reports a request. -/
structure Resolved where
  msg : ℤ
  name : CString

/-- The message for a request. -/
def Depent.resolved (e : Depent) : Resolved := ⟨e.msg, e.name⟩

/-- The state of `deps.c`. -/
structure State where
  heap : Heap Depent
  head : Ptr
  tail : Ptr
  dep_queue : List Resolved

/-- The state at the start of the process. -/
def State.init : State := ⟨.empty, none, none, []⟩

/-! ### The functions -/

/-- The loop over the keys of a request: the status bytes, with the byte of `key`
set, and their sum. Without a key nothing is set. -/
def checkStatus (key : Option CString) : List (CString × Bool) → List (CString × Bool) × ℕ
  | [] => ([], 0)
  | (k, st) :: keys =>
    let st := if key = some k then true else st
    let (keys, sat) := checkStatus key keys
    ((k, st) :: keys, (if st then 1 else 0) + sat)

/-- `if (prev) prev->next = next`. -/
def relink (prev next : Ptr) (heap : Heap Depent) : Option (Heap Depent) :=
  match prev with
  | some p => heap.setNext p next
  | none => some heap

/-- The loop of `deps_complete`. -/
def completeLoop (key : Option CString) : ℕ → Ptr → Ptr → State → Option State
  | 0, _, _, _ => none
  | n + 1, e, prev, s =>
    match e with
    | none => some s
    | some cur => do
      let cell ← s.heap.load cur
      let (keys, sat) := checkStatus key cell.val.keys
      let heap ← s.heap.write cur ⟨{ cell.val with keys := keys }, cell.next⟩
      if sat = keys.length then
        let heap ← relink prev cell.next heap
        let heap ← heap.free cur
        completeLoop key n cell.next prev { s with
          heap := heap
          -- `tail` stays, also if this was the last node
          head := if s.head = some cur then cell.next else s.head
          dep_queue := s.dep_queue ++ [cell.val.resolved] }
      else completeLoop key n cell.next (some cur) { s with heap := heap }

/-- Marks a key in all requests, or none, and reports those that wait for nothing
more. -/
def deps_complete (key : Option CString) (s : State) : Option State :=
  completeLoop key (s.heap.top + 1) s.head none s

/-- The critical section of `deps_add`: the request becomes the last one. -/
def deps_append (e : Depent) (s : State) : Option State :=
  let (a, heap) := s.heap.alloc ⟨e, none⟩
  if s.head = none then some { s with heap := heap, head := some a, tail := some a }
  else do
    let t ← s.tail
    let heap ← heap.setNext t (some a)
    pure { s with heap := heap, tail := some a }

/-! ### The store and the dependencies together -/

/-- The state of `obj.c` and `deps.c`. -/
structure Server (D R : Type) where
  store : Obj.Store D R
  deps : State

variable {D R : Type}

def Server.init : Server D R := ⟨.init, .init⟩

/-- `obj_add` with its notification. -/
def obj_add (key : CString) (sWhat : Option R) (data : D) (len : ℕ) (s : Server D R) :
    Option (Server D R) := do
  let deps ← deps_complete (some key) s.deps
  pure ⟨Obj.obj_add key sWhat data len s.store, deps⟩

/-- `obj_get` touches the store alone. -/
def obj_get (key : CString) (rm : Bool) (s : Server D R) : Option (Ptr × Server D R) := do
  let (e, store) ← Obj.obj_get key rm s.store
  pure (e, { s with store := store })

/-- One round of the loop in `deps_add` that looks for the keys: the status byte of
a key is whether it is in the store. -/
def deps_check (key : CString) (s : Server D R) : Option ((CString × Bool) × Server D R) := do
  let (e, s) ← obj_get key false s
  pure ((key, e.isSome), s)

/-- That loop. -/
def checkLoop : List CString → Server D R → Option (List (CString × Bool) × Server D R)
  | [], s => some ([], s)
  | k :: ks, s => do
    let (k, s) ← deps_check k s
    let (ks, s) ← checkLoop ks s
    pure (k :: ks, s)

/-- Registers a request. The entry is private until it is appended, so it is a value
until then. The sweep at the end reports it if no key is missing. -/
def deps_add (name : CString) (keys : List CString) (msg : ℤ) (s : Server D R) :
    Option (Server D R) := do
  let (keys, s) ← checkLoop keys s
  let deps ← deps_append ⟨msg, keys, name⟩ s.deps
  let deps ← deps_complete none deps
  pure { s with deps := deps }

/-! ### Marking -/

/-- A request after `key` has been marked in it. -/
def Depent.mark (key : Option CString) (e : Depent) : Depent :=
  { e with keys := e.keys.map fun k => (k.1, k.2 || decide (key = some k.1)) }

/-- A request that waits for nothing more. -/
def Depent.satisfied (e : Depent) : Bool := e.keys.all Prod.snd

@[simp] theorem Depent.resolved_mark (key : Option CString) (e : Depent) :
    (e.mark key).resolved = e.resolved := rfl

theorem Depent.mark_none (e : Depent) : e.mark none = e := by
  simp [mark]

theorem checkStatus_fst (key : Option CString) (keys : List (CString × Bool)) :
    (checkStatus key keys).1 = keys.map fun k => (k.1, k.2 || decide (key = some k.1)) := by
  induction keys with
  | nil => rfl
  | cons k keys ih =>
    obtain ⟨k, st⟩ := k
    by_cases h : key = some k
    · subst h
      simp [checkStatus, ih]
    · simp [checkStatus, ih, h]

/-- The sum of the status bytes reaches the number of keys if all are set. -/
theorem checkStatus_snd (key : Option CString) (keys : List (CString × Bool)) :
    (checkStatus key keys).2 ≤ (checkStatus key keys).1.length ∧
      ((checkStatus key keys).2 = (checkStatus key keys).1.length ↔
        (checkStatus key keys).1.all Prod.snd = true) := by
  induction keys with
  | nil => simp [checkStatus]
  | cons k keys ih =>
    obtain ⟨k, st⟩ := k
    obtain ⟨hle, hiff⟩ := ih
    simp only [checkStatus, List.length_cons, List.all_cons]
    cases hst : (if key = some k then true else st) with
    | false =>
      simp only [Bool.false_eq_true, if_false, Bool.false_and, iff_false]
      omega
    | true =>
      simp only [if_true, Bool.true_and, ← hiff]
      omega

/-- What the loop over the keys of a request computes. -/
theorem checkStatus_eq (key : Option CString) (e : Depent) :
    (checkStatus key e.keys).1 = (e.mark key).keys ∧
      ((checkStatus key e.keys).2 = (checkStatus key e.keys).1.length ↔
        (e.mark key).satisfied = true) := by
  refine ⟨checkStatus_fst key e.keys, ?_⟩
  rw [(checkStatus_snd key e.keys).2, checkStatus_fst]
  rfl

end Deps
end Osrv
