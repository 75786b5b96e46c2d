import Osrv.Lib.Ledger
import Osrv.Obj.Cells
import Osrv.Remote.Payload

/-!
# Who has a block

The owners of blocks are the TCP workers, the requests of the HTTP workers, the entries of
the store, also those that have been removed, and the events. `Inv` is the balance between
them and `malloc`: the events have the blocks that `Owned` speaks of, and the others are on
a `Ledger`. `Inv.released_iff` says what this means behind a collection: the blocks that
are allocated are those that are needed exactly if none has been lost.
-/

namespace Osrv
namespace Remote

open Bytes Net
open Heap (Addr Ptr Seg addrs)
open Obj (Entries Rep Entry hasKey obj_add obj_get obj_gc)
open Revq (Process Blocks Owned Apart)
open Sfs (SEXP)

variable {T H : Type}

/-! ### The blocks that are needed -/

/-- The block is the payload of an entry in the store. -/
def State.Stored (s : State T H) (b : Addr) : Prop :=
  ∃ xs, Seg s.store.heap s.store.obj_root xs none ∧ ∃ x ∈ xs, x.2.obj = .block b

/-- A worker has it for a request that it has not done with. -/
def State.Receiving (s : State T H) (b : Addr) : Prop :=
  (∃ t x, s.tcp t = some x ∧ x.db = b) ∨ ∃ h, (s.http h).request.body = some b

/-- It is the payload of an event that has not been freed. -/
def State.Queued (s : State T H) (b : Addr) : Prop :=
  ∃ a n, s.process.events.mem a = some n ∧ n.val.data = .block b

/-- **The blocks that are allocated** are those that are still needed. -/
def State.Released (s : State T H) : Prop :=
  ∀ b, s.process.blocks b ≠ none ↔ s.Stored b ∨ s.Receiving b ∨ s.Queued b

/-! ### Owners -/

/-- Who can have a block, besides events. -/
inductive Owner (T H : Type)
  | tcp (t : T)
  | http (h : H)
  | entry (a : Addr)
  deriving DecidableEq

/-- The block that each of them has. -/
def State.held (s : State T H) : Owner T H → Ptr
  | .tcp t => (s.tcp t).map Fetch.db
  | .http h => (s.http h).request.body
  | .entry a => (s.store.entryAt a).bind fun e => e.obj.toPtr

section Held

variable {s : State T H}

theorem Payload.toPtr_eq_some_iff {p : Payload} {b : Addr} :
    p.toPtr = some b ↔ p = .block b := by
  cases p <;> simp [Payload.toPtr]

theorem held_store {store : Objects} (h : store.entryAt = s.store.entryAt) :
    ({ s with store := store } : State T H).held = s.held := by
  funext o
  cases o with
  | tcp t => rfl
  | http h => rfl
  | entry a =>
    show (store.entryAt a).bind _ = (s.store.entryAt a).bind _
    rw [h]

/-- The address of the next entry has no payload yet. -/
theorem held_top : s.held (.entry s.store.heap.top) = none := by
  show (s.store.entryAt s.store.heap.top).bind _ = none
  rw [Obj.entryAt_top]
  rfl

variable [DecidableEq T] [DecidableEq H]

theorem held_setTcp (t : T) (x : Option Fetch) :
    (s.setTcp t x).held = Function.update s.held (.tcp t) (x.map Fetch.db) := by
  funext o
  by_cases ho : o = .tcp t
  · subst ho
    rw [Function.update_self]
    show (Function.update s.tcp t x t).map Fetch.db = _
    rw [Function.update_self]
  · rw [Function.update_of_ne ho]
    cases o with
    | tcp t' =>
      have ht : t' ≠ t := fun heq => ho (heq ▸ rfl)
      show (Function.update s.tcp t x t').map Fetch.db = _
      rw [Function.update_of_ne ht]
      rfl
    | http h => rfl
    | entry a => rfl

theorem held_setHttp (h : H) (c : Connection) :
    (s.setHttp h c).held = Function.update s.held (.http h) c.request.body := by
  funext o
  by_cases ho : o = .http h
  · subst ho
    rw [Function.update_self]
    show (Function.update s.http h c h).request.body = _
    rw [Function.update_self]
  · rw [Function.update_of_ne ho]
    cases o with
    | tcp t => rfl
    | http h' =>
      have hh : h' ≠ h := fun heq => ho (heq ▸ rfl)
      show (Function.update s.http h c h').request.body = _
      rw [Function.update_of_ne hh]
      rfl
    | entry a => rfl

/-- A worker that goes on with the same buffer. -/
theorem held_setTcp_same {t : T} {x : Option Fetch}
    (hx : x.map Fetch.db = (s.tcp t).map Fetch.db) : (s.setTcp t x).held = s.held := by
  rw [held_setTcp, hx]
  exact Function.update_eq_self (Owner.tcp t : Owner T H) s.held

/-- A connection that goes on with the same body. -/
theorem held_setHttp_same {h : H} {c : Connection}
    (hc : c.request.body = (s.http h).request.body) : (s.setHttp h c).held = s.held := by
  rw [held_setHttp, hc]
  exact Function.update_eq_self (Owner.http h : Owner T H) s.held

theorem held_obj_add (key : CString) (sWhat : Option SEXP) (data : Payload) (len : ℕ) :
    ({ s with store := obj_add key sWhat data len s.store } : State T H).held
      = Function.update s.held (.entry s.store.heap.top) data.toPtr := by
  funext o
  cases o with
  | tcp t => rw [Function.update_of_ne (by simp)]; rfl
  | http h => rw [Function.update_of_ne (by simp)]; rfl
  | entry a =>
    show ((obj_add key sWhat data len s.store).entryAt a).bind _ = _
    rw [Obj.entryAt_obj_add]
    by_cases ha : a = s.store.heap.top
    · subst ha
      rw [Function.update_self, Function.update_self]
      rfl
    · have hne : (Owner.entry a : Owner T H) ≠ .entry s.store.heap.top := by simpa using ha
      rw [Function.update_of_ne ha, Function.update_of_ne hne]
      rfl

/-- An entry that is added without a block. -/
theorem held_obj_add_none (key : CString) (sWhat : Option SEXP) {data : Payload} (len : ℕ)
    (hdata : data.toPtr = none) :
    ({ s with store := obj_add key sWhat data len s.store } : State T H).held = s.held := by
  rw [held_obj_add, hdata, ← held_top (s := s), Function.update_eq_self]

end Held

/-! ### The sizes of the blocks -/

/-- The size of a block. -/
def sizeAt (f : Blocks) (b : Addr) : Option ℕ := (f b).map List.length

/-- The buffers of the workers have the length that the workers go by. -/
structure Sized (s : State T H) (f : Blocks) : Prop where
  tcp : ∀ t x, s.tcp t = some x → x.pos < x.len ∧ sizeAt f x.db = some x.len
  http : ∀ h b, (s.http h).request.body = some b →
    (s.http h).body_pos ≤ (s.http h).request.content_length.toNat ∧
      sizeAt f b = some (s.http h).request.content_length.toNat

section Sized

variable {s : State T H} {f f' : Blocks}

theorem Sized.congr (h : Sized s f)
    (hf : ∀ o b, s.held o = some b → sizeAt f' b = sizeAt f b) : Sized s f' where
  tcp t x hx := by
    obtain ⟨hpos, hsize⟩ := h.tcp t x hx
    have hheld : s.held (.tcp t) = some x.db := by
      show (s.tcp t).map Fetch.db = some x.db
      rw [hx]
      rfl
    exact ⟨hpos, (hf _ _ hheld).trans hsize⟩
  http w b hb := ⟨(h.http w b hb).1, (hf (.http w) b hb).trans (h.http w b hb).2⟩

theorem Sized.process (h : Sized s f) (p : Process) :
    Sized ({ s with process := p } : State T H) f :=
  ⟨h.tcp, h.http⟩

theorem sizeAt_update_of_ne {b c : Addr} (h : c ≠ b) (v : Option (List UInt8)) :
    sizeAt (Function.update f b v) c = sizeAt f c := by
  rw [sizeAt, Function.update_of_ne h]
  rfl

theorem sizeAt_update_self (b : Addr) (mem : List UInt8) :
    sizeAt (Function.update f b (some mem)) b = some mem.length := by
  rw [sizeAt, Function.update_self]
  rfl

theorem Sized.setTcp [DecidableEq T] (h : Sized s f) {t : T} {x : Option Fetch}
    (hx : ∀ y, x = some y → y.pos < y.len ∧ sizeAt f y.db = some y.len) :
    Sized (s.setTcp t x) f where
  tcp t' y hy := by
    have hy : Function.update s.tcp t x t' = some y := hy
    by_cases ht : t' = t
    · rw [ht, Function.update_self] at hy
      exact hx y hy
    · rw [Function.update_of_ne ht] at hy
      exact h.tcp t' y hy
  http := h.http

theorem Sized.setHttp [DecidableEq H] (h : Sized s f) {w : H} {c : Connection}
    (hc : ∀ b, c.request.body = some b → c.body_pos ≤ c.request.content_length.toNat ∧
      sizeAt f b = some c.request.content_length.toNat) :
    Sized (s.setHttp w c) f where
  tcp := h.tcp
  http w' b hb := by
    by_cases hw : w' = w
    · have hself : (s.setHttp w c).http w' = c := by
        show Function.update s.http w c w' = c
        rw [hw, Function.update_self]
      rw [hself] at hb ⊢
      exact hc b hb
    · have hother : (s.setHttp w c).http w' = s.http w' :=
        Function.update_of_ne hw ..
      rw [hother] at hb ⊢
      exact h.http w' b hb

end Sized

/-! ### Operations on blocks -/

section Blocks

variable {q : Process} {f : Blocks} {b : Addr} {mem bs junk : List UInt8} {pos : ℕ}

theorem length_overlay (h : pos + bs.length ≤ mem.length) :
    (overlay pos bs mem).length = mem.length := by
  simp only [overlay, List.length_append, List.length_take, List.length_drop]
  omega

theorem malloc_beside (hq : q.blocks b = none) (hf : f b = none) (junk : List UInt8) :
    malloc b junk (q.beside f) = some (q.beside (Function.update f b (some junk))) := by
  rw [malloc, if_pos ((Revq.beside_blocks_of_own hq).trans hf), Revq.beside_update_other hq]

theorem fill_beside (hq : q.blocks b = none) (hf : f b = some mem)
    (hle : pos + bs.length ≤ mem.length) :
    fill b pos bs (q.beside f)
      = some (q.beside (Function.update f b (some (overlay pos bs mem)))) := by
  have hmem : (q.beside f).blocks b = some mem := (Revq.beside_blocks_of_own hq).trans hf
  rw [fill, hmem, Option.bind_eq_bind, Option.bind_some, if_pos hle,
    Revq.beside_update_other hq]

/-- Writing into a block that was just allocated or written to. -/
theorem fill_again (hq : q.blocks b = none) (hle : pos + bs.length ≤ mem.length) :
    fill b pos bs (q.beside (Function.update f b (some mem)))
      = some (q.beside (Function.update f b (some (overlay pos bs mem)))) := by
  rw [fill_beside hq (Function.update_self ..) hle, Function.update_idem]

theorem free_beside (hq : q.blocks b = none) (hf : f b ≠ none) :
    Revq.freeBlock b (q.beside f) = some (q.beside (Function.update f b none)) := by
  have hne : (q.beside f).blocks b ≠ none := Revq.beside_blocks_ne_none.mpr (.inr hf)
  rw [Revq.freeBlock, if_pos hne, Revq.beside_update_other hq]

end Blocks

/-! ### The invariant -/

/-- **The invariant.** `q` are the events and their payloads, `f` all other blocks, and `xs`
and `ys` the entries in the store and in the pool. -/
structure Inv (s : State T H) (q : Process) (f : Blocks) (xs ys : Entries Payload SEXP)
    (lost : Set Addr) : Prop where
  process : s.process = q.beside f
  apart : Apart f q
  /-- Each event has its payload. -/
  owned : ∃ d σ, Owned q [] d σ
  rep : Rep s.store xs ys
  /-- The other blocks have an owner or are lost. -/
  ledger : Ledger s.held f lost
  sized : Sized s f
  /-- In the lines of a request there is no body. -/
  lines : ∀ h, (s.http h).part ≠ .BODY → (s.http h).request.body = none

theorem Inv.init : Inv (State.init : State T H) .init (fun _ => none) [] [] ∅ where
  process := rfl
  apart b hb := absurd rfl hb
  owned := ⟨_, _, Owned.init⟩
  rep := Rep.init
  ledger := by
    have hheld : (State.init : State T H).held = fun _ => none := by
      funext o
      cases o <;> rfl
    rw [hheld]
    exact Ledger.init
  sized := ⟨fun t x hx => (by cases hx), fun h b hb => (by cases hb)⟩
  lines _ _ := rfl

section Steps

variable {s : State T H} {q : Process} {f : Blocks} {xs ys : Entries Payload SEXP}
  {lost : Set Addr}

/-- What is not in use is in use by nobody. -/
theorem Inv.fresh (h : Inv s q f xs ys lost) {b : Addr} (hb : s.process.blocks b = none) :
    q.blocks b = none ∧ f b = none := by
  rw [h.process] at hb
  have hnot : ¬ (q.blocks b ≠ none ∨ f b ≠ none) := fun hor =>
    Revq.beside_blocks_ne_none.mpr hor hb
  push Not at hnot
  exact hnot

/-- A block with an owner is not the payload of an event. -/
theorem Inv.not_event (h : Inv s q f xs ys lost) {o : Owner T H} {b : Addr}
    (ho : s.held o = some b) : f b ≠ none ∧ q.blocks b = none :=
  ⟨h.ledger.allocated ho, h.apart b (h.ledger.allocated ho)⟩

/-- **The end of a collection.** The blocks that are allocated are those that are needed
exactly if none has been lost. -/
theorem Inv.released_iff (h : Inv s q f xs [] lost) : s.Released ↔ lost = ∅ := by
  obtain ⟨d, σ, howned⟩ := h.owned
  -- what the queue owns and the payloads are two parts of the memory
  have hqueued : ∀ b, s.Queued b ↔ q.blocks b ≠ none := by
    intro b
    have hevents : s.process.events = q.events := by
      rw [h.process]
      rfl
    rw [howned.linear.payload b, State.Queued, hevents]
  have hblocks : ∀ b, s.process.blocks b ≠ none ↔ q.blocks b ≠ none ∨ f b ≠ none := by
    intro b
    rw [h.process]
    exact Revq.beside_blocks_ne_none
  -- a payload has an owner in the store, or one that receives it
  have hheld : ∀ b, (∃ o, s.held o = some b) ↔ s.Stored b ∨ s.Receiving b := by
    intro b
    constructor
    · rintro ⟨o, ho⟩
      cases o with
      | tcp t =>
        obtain ⟨x, hx, hdb⟩ := Option.map_eq_some_iff.mp ho
        exact .inr (.inl ⟨t, x, hx, hdb⟩)
      | http w => exact .inr (.inr ⟨w, ho⟩)
      | entry a =>
        obtain ⟨e, he, hobj⟩ := Option.bind_eq_some_iff.mp ho
        have hmem := h.rep.entryAt_eq_some_iff.mp he
        rw [List.append_nil] at hmem
        exact .inl ⟨xs, h.rep.root, (a, e), hmem, Payload.toPtr_eq_some_iff.mp hobj⟩
    · rintro (⟨zs, hseg, x, hx, hobj⟩ | ⟨t, x, hx, hdb⟩ | ⟨w, hb⟩)
      · obtain ⟨next, hc⟩ := hseg.cells_of_mem hx
        refine ⟨.entry x.1, ?_⟩
        show ((s.store.heap.cells x.1).map Heap.Cell.val).bind _ = some b
        rw [hc]
        exact Payload.toPtr_eq_some_iff.mpr hobj
      · refine ⟨.tcp t, ?_⟩
        show (s.tcp t).map Fetch.db = some b
        rw [hx, ← hdb]
        rfl
      · exact ⟨.http w, hb⟩
  rw [h.ledger.lost_eq_empty_iff, State.Released]
  -- block by block
  refine forall_congr' fun b => ?_
  rw [hblocks, hqueued, hheld, ← or_assoc]
  constructor
  -- the two parts have no block in common
  · intro hall
    refine ⟨fun hf => ?_, fun ho => ?_⟩
    · refine (hall.mp (.inr hf)).resolve_right ?_
      rw [h.apart b hf]
      exact fun hne => hne rfl
    · obtain ⟨o, ho⟩ := (hheld b).mpr ho
      exact h.ledger.allocated ho
  · intro hall
    rw [hall]
    exact or_comm

end Steps

end Remote
end Osrv
