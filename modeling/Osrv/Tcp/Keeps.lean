import Osrv.Tcp.DoProcess

/-!
# What a request can do

A request sends, calls the object store and receives; it touches nothing else. So a
property of the world that each of these steps keeps is kept by every request,
whatever its bytes are (`Keeps.request`). A request that is known to leave some keys
alone keeps what the steps on other keys keep (`KeepsOn.request`).
-/

namespace Osrv
namespace Tcp

open Bytes Net Obj Sfs

/-- The connection a serialisation leaves behind, whether it came to its end or not. -/
def left : Except Conn Conn → Conn
  | .ok c => c
  | .error c => c

/-- A property that every step of a request keeps. -/
structure Keeps (send : SendFn) (Q : World → Prop) : Prop where
  /-- Sending a buffer. -/
  sent : ∀ w buf, Q w → Q (send_buf send w buf).2
  /-- Serialising an object. -/
  stored : ∀ w sWhat, Q w → Q { w with conn := left (fd_store send w.conn sWhat) }
  /-- Looking up or removing an entry. -/
  got : ∀ w key rm o store, Q w → obj_get key rm w.store = some (o, store) →
    Q { w with store := store }
  /-- Adding a payload, with its length. -/
  added : ∀ w key data, Q w →
    Q { w with store := obj_add key none (some data) data.length w.store }
  /-- Receiving. -/
  input : ∀ w cap, Q w → Q { w with input := (recv cap w.input).2 }
  /-- Asking for memory. -/
  mallocs : ∀ w n, Q w → Q { w with mallocs := n }

/-- A property that the steps keep which look up or remove as `G` allows and add under the
keys that `A` allows. -/
structure KeepsOn (send : SendFn) (G : CString → Bool → Prop) (A : CString → Prop)
    (Q : World → Prop) : Prop where
  sent : ∀ w buf, Q w → Q (send_buf send w buf).2
  stored : ∀ w sWhat, Q w → Q { w with conn := left (fd_store send w.conn sWhat) }
  got : ∀ w key rm o store, G key rm → Q w → obj_get key rm w.store = some (o, store) →
    Q { w with store := store }
  added : ∀ w key data, A key → Q w →
    Q { w with store := obj_add key none (some data) data.length w.store }
  input : ∀ w cap, Q w → Q { w with input := (recv cap w.input).2 }
  mallocs : ∀ w n, Q w → Q { w with mallocs := n }

/-- What a command does to the store is allowed. -/
structure Command.Within (c : Command) (G : CString → Bool → Prop) (A : CString → Prop) :
    Prop where
  get : c.cmd.bytes = GET ∨ c.cmd.bytes = HAS → G c.arg false
  del : c.cmd.bytes = DEL → G c.arg true
  put : c.cmd.bytes = PUT → A c.arg

namespace KeepsOn

variable {send : SendFn} {malloc : Malloc} {G : CString → Bool → Prop} {A : CString → Prop}
  {Q : World → Prop} {w w' : World} {flow : Flow}

theorem reply (h : KeepsOn send G A Q) (hw : Q w) (buf : List UInt8) : Q (reply send w buf).2 :=
  h.sent w buf hw

theorem get (h : KeepsOn send G A Q) (hw : Q w) {has : Bool} {a : CString} (ha : G a false)
    (hget : get send has a w = some (flow, w')) : Q w' := by
  simp only [Tcp.get, Option.bind_eq_bind, Option.bind_eq_some_iff] at hget
  obtain ⟨⟨o, store⟩, hobj, hget⟩ := hget
  have hgot : Q { w with store := store } := h.got w a false o store ha hw hobj
  cases o with
  -- no such entry
  | none =>
    obtain rfl := (Prod.mk.inj (Option.some.inj hget)).2
    exact h.reply hgot NF
  | some o =>
    dsimp only at hget
    split at hget
    · obtain rfl := (Prod.mk.inj (Option.some.inj hget)).2
      exact h.reply hgot OK
    · obtain ⟨cell, -, hget⟩ := Option.bind_eq_some_iff.mp hget
      split at hget
      · -- the reply line, then the records of the object
        have hline := h.sent _ (ascii "OK ?\n") hgot
        split at hget
        · obtain rfl := (Prod.mk.inj (Option.some.inj hget)).2
          exact hline
        · obtain ⟨sWhat, -, hget⟩ := Option.bind_eq_some_iff.mp hget
          have hstored := h.stored _ sWhat hline
          split at hget
          · next conn heq =>
            rw [heq] at hstored
            obtain rfl := (Prod.mk.inj (Option.some.inj hget)).2
            exact hstored
          · next conn heq =>
            rw [heq] at hstored
            obtain rfl := (Prod.mk.inj (Option.some.inj hget)).2
            exact hstored
      -- the reply line with the length, then the bytes
      · have hline := h.sent _ (ascii "OK " ++ decimal cell.val.len ++ [10]) hgot
        split at hget
        · obtain rfl := (Prod.mk.inj (Option.some.inj hget)).2
          exact hline
        · split at hget
          · exact absurd hget (by simp)
          · obtain rfl := (Prod.mk.inj (Option.some.inj hget)).2
            exact h.reply hline _

theorem del (h : KeepsOn send G A Q) (hw : Q w) {a : CString} (ha : G a true)
    (hdel : del send a w = some (flow, w')) : Q w' := by
  simp only [Tcp.del, Option.bind_eq_bind, Option.bind_eq_some_iff] at hdel
  obtain ⟨⟨o, store⟩, hobj, hdel⟩ := hdel
  obtain rfl := (Prod.mk.inj (Option.some.inj hdel)).2
  exact h.reply (h.got w a true o store ha hw hobj) _

theorem fetchLoop (h : KeepsOn send G A Q) (len : ℕ) (db : Memory) (pos : ℕ) (hw : Q w) :
    Q (fetchLoop len db pos w).2 := by
  induction hn : len - pos using Nat.strong_induction_on generalizing db pos w with
  | _ n ih =>
    rw [Tcp.fetchLoop]
    split
    · next hlt =>
      have hrecv := h.input w (if len - pos > FETCH_SIZE then FETCH_SIZE else len - pos) hw
      dsimp only
      split
      · next bs _ =>
        split
        · exact hrecv
        · exact ih (len - (pos + bs.length)) (by omega) (write db pos bs) (pos + bs.length) hrecv
            rfl
      · exact hrecv
      · exact hrecv
      · exact hrecv
    · exact hw

theorem putPayload (h : KeepsOn send G A Q) {a : CString} (ha : A a) (len d be : ℕ) (buf : Memory)
    (hw : Q w) : Q (putPayload send malloc a len d be buf w).2 := by
  have hmalloc := h.mallocs w (w.mallocs + 1) hw
  rw [Tcp.putPayload]
  dsimp only
  split
  · exact h.sent _ ERR hmalloc
  · split
    · -- the acknowledgement, if there is one, and then what the loop does
      have hack : Q (if len ≤ be - d then
          (send_buf send { w with
            mallocs := w.mallocs + 1
            store := obj_add a none (some (read (fun j => buf (d + j)) len)) len w.store } OK).2
          else { w with mallocs := w.mallocs + 1 }) := by
        split
        · have hadd := h.added _ a (read (fun j => buf (d + j)) len) ha hmalloc
          rw [length_read] at hadd
          exact h.sent _ OK hadd
        · exact hmalloc
      split
      · exact hack
      · exact h.fetchLoop _ _ _ hack
    · exact h.fetchLoop _ _ _ hmalloc

theorem put (h : KeepsOn send G A Q) (hw : Q w) {a : CString} (ha : A a) {d : Option ℕ} {be : ℕ}
    {buf : Memory} (hput : put send malloc a d be buf w = some (flow, w')) : Q w' := by
  simp only [Tcp.put, Option.bind_eq_bind, Option.bind_eq_some_iff] at hput
  obtain ⟨d, -, hput⟩ := hput
  split at hput
  · simp only [Option.bind_eq_some_iff] at hput
    obtain ⟨d', -, size, -, hput⟩ := hput
    cases size with
    | none =>
      obtain rfl := (Prod.mk.inj (Option.some.inj hput)).2
      exact h.sent w INV hw
    | some size =>
      dsimp only at hput
      split at hput
      · obtain rfl := congrArg Prod.snd (Option.some.inj hput)
        exact h.putPayload ha _ _ _ _ hw
      · obtain rfl := (Prod.mk.inj (Option.some.inj hput)).2
        exact h.reply hw UNSUPP
  · obtain rfl := (Prod.mk.inj (Option.some.inj hput)).2
    exact h.sent w INV hw

/-- **What the steps of its command keep, a request keeps.** -/
theorem request (h : KeepsOn send G A Q) (hw : Q w) {buf buf' : Memory} {bs : List UInt8}
    (hwithin : ∀ buf₁ c, commandLine (write buf 0 (bs ++ [0])) = some (buf₁, some c) →
      c.Within G A)
    (hrequest : request send malloc buf bs w = some (buf', flow, w')) : Q w' := by
  simp only [Tcp.request, Option.bind_eq_bind, Option.bind_eq_some_iff] at hrequest
  obtain ⟨⟨buf₁, c⟩, hline, hrequest⟩ := hrequest
  cases c with
  | none =>
    obtain ⟨-, -, rfl⟩ := Prod.mk.inj (Option.some.inj hrequest) |>.imp id fun h => Prod.mk.inj h
    exact hw
  | some c =>
    obtain ⟨⟨flow₁, w₁⟩, hperform, hrequest⟩ := Option.bind_eq_some_iff.mp hrequest
    obtain ⟨-, rfl, rfl⟩ := Prod.mk.inj (Option.some.inj hrequest) |>.imp id fun h => Prod.mk.inj h
    have hc := hwithin buf₁ c hline
    simp only [perform] at hperform
    split at hperform
    · next hcmd => exact h.get hw (hc.get hcmd) hperform
    · split at hperform
      · next hcmd => exact h.del hw (hc.del hcmd) hperform
      · split at hperform
        · next hcmd => exact h.put hw (hc.put hcmd) hperform
        · obtain rfl := (Prod.mk.inj (Option.some.inj hperform)).2
          exact h.reply hw UNSUPP

end KeepsOn

namespace Keeps

variable {send : SendFn} {malloc : Malloc} {Q : World → Prop} {w w' : World} {flow : Flow}

theorem on (h : Keeps send Q) (G : CString → Bool → Prop) (A : CString → Prop) :
    KeepsOn send G A Q where
  sent := h.sent
  stored := h.stored
  got w key rm o store _ := h.got w key rm o store
  added w key data _ := h.added w key data
  input := h.input
  mallocs := h.mallocs

/-- **What every step keeps, a request keeps.** -/
theorem request (h : Keeps send Q) (hw : Q w) {buf buf' : Memory} {bs : List UInt8}
    (hrequest : request send malloc buf bs w = some (buf', flow, w')) : Q w' :=
  (h.on (fun _ _ => True) fun _ => True).request hw
    (fun _ _ _ => ⟨fun _ => trivial, fun _ => trivial, fun _ => trivial⟩) hrequest

end Keeps

/-! ### Sending only appends -/

theorem sendAll_extends (send : SendFn) (max : ℕ) (c : Conn) (buf : List UInt8) :
    c.out <+: (sendAll send max c buf).2.out := by
  induction hlen : buf.length using Nat.strong_induction_on generalizing c buf with
  | _ len ih =>
    rw [sendAll]
    split
    · exact List.prefix_refl _
    · next hne =>
      have hpos : 0 < buf.length := List.length_pos_of_ne_nil hne
      dsimp only
      split
      · next n hn hle _ =>
        have hdrop : (buf.drop n).length < len := by
          rw [List.length_drop]
          omega
        have hrest := ih _ hdrop ⟨c.calls + 1, c.out ++ buf.take n⟩ (buf.drop n) rfl
        exact (List.prefix_append _ _).trans hrest
      · exact List.prefix_refl _
      · exact List.prefix_refl _

theorem add_extends (write : SendFn) (c : Conn) (r : Record) :
    c.out <+: (left (add write c r)).out := by
  have hpayload : ∀ c, c.out <+: (left (addPayload write c r)).out := by
    intro c
    have hall := sendAll_extends write MAX_SEND_SIZE c r.payload
    rw [addPayload]
    dsimp only
    split <;> exact hall
  rw [add]
  split
  · next n _ _ _ =>
    dsimp only
    split
    · exact List.prefix_append _ _
    · exact (List.prefix_append _ _).trans
        (hpayload ⟨c.calls + 1, c.out ++ (le 8 r.hdr).take n⟩)
  · exact List.prefix_refl _
  · exact hpayload { c with calls := c.calls + 1 }

theorem fd_store_extends (write : SendFn) (c : Conn) (sWhat : SEXP) :
    c.out <+: (left (fd_store write c sWhat)).out := by
  rw [fd_store]
  induction Sfs.store sWhat generalizing c with
  | nil => exact List.prefix_refl _
  | cons r rs ih =>
    have hone := add_extends write c r
    rw [List.foldlM_cons]
    cases hadd : add write c r with
    | ok c' =>
      rw [hadd] at hone
      exact hone.trans (ih c')
    | error c' =>
      rw [hadd] at hone
      exact hone

end Tcp
end Osrv
