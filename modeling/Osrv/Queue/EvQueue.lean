import Osrv.Lib.Links

/-!
# Event queues

The functions of `evqueue.c`. An entry is a node with a link in either direction,
and a queue has a link to its first and its last entry. Each function runs in one
critical section of the mutex of its queue, so each is one step of the state.
The contents of an entry are a parameter here, since the queues do not look at
them.

`calloc` may return any memory that is not in use, also that of an entry that has
been freed. Using an entry that is not in use gives `none`.
-/

namespace Osrv
namespace Queue

open Links

/-- `ev_queue_t`, without its mutex and its condition. -/
structure EvQueue where
  head : Ptr
  tail : Ptr
  fd : Option ℕ

/-- The queues, by number, and the entries. `notified` are the descriptors to which a
byte has been written. -/
structure State (α : Type) where
  mem : Mem α
  queue : ℕ → EvQueue
  notified : List ℕ

variable {α : Type}

/-- Empty queues, as `ev_queue_create` makes them, and no entries. -/
def State.init : State α := ⟨fun _ => none, fun _ => ⟨none, none, none⟩, []⟩

/-- Changes the links of a queue. -/
def State.set (s : State α) (q : ℕ) (head tail : Ptr) : State α :=
  { s with queue := Function.update s.queue q { s.queue q with head := head, tail := tail } }

/-- Registers a descriptor. There can be only one for a queue. -/
def ev_queue_notify_fd (q fd : ℕ) (s : State α) : ℕ × State α :=
  if (s.queue q).fd = none ∨ (s.queue q).fd = some fd then
    (0, { s with queue := Function.update s.queue q { s.queue q with fd := some fd } })
  else (1, s)

/-- An entry in memory that is not in use, with its links zeroed. -/
def ev_create (a : Addr) (v : α) (s : State α) : Option (State α) :=
  if s.mem a = none then some { s with mem := Function.update s.mem a (some ⟨v, none, none⟩) }
  else none

/-- Frees an entry. -/
def ev_free (a : Addr) (s : State α) : Option (State α) :=
  if s.mem a ≠ none then some { s with mem := Function.update s.mem a none } else none

/-- Writes a byte to the descriptor of a queue. -/
def notify (q : ℕ) (s : State α) : State α :=
  { s with notified := s.notified ++ (s.queue q).fd.toList }

/-- Puts an entry on a queue, at the front or at the end. If it is the only one, its own
links stay as they are. -/
def ev_push (q : ℕ) (e : Ptr) (front : Bool) (s : State α) : Option (Ptr × State α) :=
  match e with
  | none => some (none, s)
  | some a =>
    match (s.queue q).head with
    | none => some (some a, notify q (s.set q (some a) (some a)))
    | some head =>
      -- in front of the first one
      if front then do
        let mem ← setNext s.mem a (some head)
        let mem ← setPrev mem head (some a)
        some (some a, notify q ({ s with mem := mem }.set q (some a) (s.queue q).tail))
      -- behind the last one
      else do
        let tail ← (s.queue q).tail
        let mem ← setPrev s.mem a (some tail)
        let mem ← setNext mem tail (some a)
        some (some a, notify q ({ s with mem := mem }.set q (s.queue q).head (some a)))

/-- Takes an entry off a queue. Its links are zeroed, so that it can be put on a queue
again. -/
def ev_rm_ (q : ℕ) (a : Addr) (s : State α) : Option (State α) := do
  let e ← s.mem a
  let head := if (s.queue q).head = some a then e.next else (s.queue q).head
  let tail := if (s.queue q).tail = some a then e.prev else (s.queue q).tail
  let mem ← relinkPrev s.mem e.next e.prev
  let e ← mem a
  let mem ← relinkNext mem e.prev e.next
  let mem ← setPrev mem a none
  let mem ← setNext mem a none
  some ({ s with mem := mem }.set q head tail)

/-- The entry at the front of a queue, or null. -/
def ev_pop (q : ℕ) (s : State α) : Option (Ptr × State α) :=
  match (s.queue q).head with
  | none => some (none, s)
  | some a => do
    let s ← ev_rm_ q a s
    some (some a, s)

/-- How a call that may wait goes on. -/
inductive Wait (β : Type)
  | waiting
  | over (result : β)

/-- One round of the loop in `ev_pop_wait`, with what the timer says. The call waits on as
long as there is no entry and there is time. -/
def ev_pop_wait (q : ℕ) (timedOut : Bool) (s : State α) : Option (Wait (Ptr × State α)) :=
  if (s.queue q).head = none ∧ ¬ timedOut then some .waiting
  else do
    let r ← ev_pop q s
    some (.over r)

end Queue
end Osrv
