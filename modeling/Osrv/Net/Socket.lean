import Mathlib.Algebra.Order.Ring.Int
import Mathlib.Data.List.Basic

/-!
# Sockets

What the server sees of a connection. A call of `send` may accept any positive
number of the bytes it is offered, so the kernel is a function from the number
of the call and the size of the offer to a `SendResult`; `Conn` is what has gone
out so far. `sendAll` is the loop around `send` that the servers share.

What comes in is an `Input`: the pieces in which the bytes arrive and how the
stream goes on behind them. A call of `recv` returns at most one piece, and the
rest of a piece that does not fit stays for the next call.
-/

namespace Osrv
namespace Net

/-! ### Sending -/

/-- What a call of `send` with `ts` bytes returns: a positive count of accepted
bytes, zero, or a negative number. -/
inductive SendResult (ts : ℕ) where
  | accepted (n : ℕ) (pos : 0 < n) (le : n ≤ ts)
  | closed
  | failed

/-- The kernel's answers, by the number of the call and the size of the offer. -/
abbrev SendFn : Type := ℕ → (ts : ℕ) → SendResult ts

/-- The sending half of a connection: the calls made and the bytes accepted. -/
structure Conn where
  calls : ℕ
  out : List UInt8

/-- Every `send` succeeds. -/
def SendFn.Succeeds (send : SendFn) : Prop :=
  ∀ i ts, 0 < ts → ∃ n pos le, send i ts = .accepted n pos le

/-- A kernel that accepts whatever it is offered. -/
def SendFn.whole : SendFn := fun _ ts =>
  if h : 0 < ts then .accepted ts h (Nat.le_refl _) else .closed

theorem SendFn.whole_succeeds : SendFn.whole.Succeeds := fun i ts h =>
  ⟨ts, h, Nat.le_refl _, by rw [SendFn.whole, dif_pos h]⟩

/-- Offers a buffer in pieces of at most `max` bytes: `0` if all of it went out, `1` if
the connection is closed, `-1` on an error. -/
def sendAll (send : SendFn) (max : ℕ) (c : Conn) (buf : List UInt8) : ℤ × Conn :=
  if _h : buf = [] then (0, c)
  else
    let ts := if buf.length > max then max else buf.length
    match send c.calls ts with
    | .accepted n _ _ => sendAll send max ⟨c.calls + 1, c.out ++ buf.take n⟩ (buf.drop n)
    | .closed => (1, { c with calls := c.calls + 1 })
    | .failed => (-1, { c with calls := c.calls + 1 })
termination_by buf.length
decreasing_by
  have : 0 < buf.length := List.length_pos_of_ne_nil _h
  rw [List.length_drop]
  omega

/-- **All of the buffer goes out** when every send succeeds. -/
theorem sendAll_ok {send : SendFn} (hs : send.Succeeds) {max : ℕ} (hmax : 0 < max) (c : Conn)
    (buf : List UInt8) : ∃ k, sendAll send max c buf = (0, ⟨k, c.out ++ buf⟩) := by
  induction hlen : buf.length using Nat.strong_induction_on generalizing c buf with
  | _ len ih =>
    rw [sendAll]
    split
    · next h =>
      subst h
      exact ⟨c.calls, by rw [List.append_nil]⟩
    · next h =>
      have hpos : 0 < buf.length := List.length_pos_of_ne_nil h
      have hts : 0 < (if buf.length > max then max else buf.length) := by
        split
        · exact hmax
        · exact hpos
      obtain ⟨n, hn, hle, hsend⟩ := hs c.calls _ hts
      simp only [hsend]
      have hdrop : (buf.drop n).length < len := by
        rw [List.length_drop]
        omega
      obtain ⟨k, hk⟩ := ih _ hdrop ⟨c.calls + 1, c.out ++ buf.take n⟩ (buf.drop n) rfl
      exact ⟨k, by rw [hk, List.append_assoc, List.take_append_drop]⟩

/-! ### Receiving -/

/-- A piece of the stream. -/
abbrev Segment : Type := { bs : List UInt8 // bs ≠ [] }

/-- What follows the last piece: nothing for as long as the server waits, the end of
the stream, or an error. -/
inductive Ending
  | waiting
  | closed
  | failed
  deriving DecidableEq

/-- What is still to be received. -/
structure Input where
  segments : List Segment
  ending : Ending

/-- What a call of `recv` comes to. A blocked call has not returned. -/
inductive RecvResult
  | data (bs : List UInt8)
  | closed
  | failed
  | blocked

/-- Receives at most `cap` bytes. No room gives no bytes, as at the end of the stream. -/
def recv (cap : ℕ) (input : Input) : RecvResult × Input :=
  match input.segments with
  | [] =>
    match input.ending with
    | .waiting => (.blocked, input)
    | .closed => (.closed, input)
    | .failed => (.failed, input)
  | seg :: segs =>
    if cap = 0 then (.closed, input)
    else
      (.data (seg.1.take cap), { input with
        segments := if h : seg.1.drop cap = [] then segs else ⟨seg.1.drop cap, h⟩ :: segs })

/-- The bytes that are still to come. -/
def Input.bytes (input : Input) : List UInt8 := input.segments.flatMap Subtype.val

theorem Input.bytes_eq_nil {input : Input} (h : input.bytes = []) : input.segments = [] := by
  obtain ⟨segments, ending⟩ := input
  cases segments with
  | nil => rfl
  | cons seg segs => exact absurd (List.append_eq_nil_iff.mp h).1 seg.2

/-- A call that asks for something takes something of a piece. -/
theorem take_ne_nil {n : ℕ} (hn : n ≠ 0) (seg : Segment) : seg.1.take n ≠ [] := by
  rw [Ne, List.take_eq_nil_iff]
  rintro (h0 | hnil)
  · exact hn h0
  · exact seg.2 hnil

/-- A piece that fits is received whole. -/
theorem recv_cons {cap : ℕ} {seg : Segment} {segs : List Segment} {ending : Ending}
    (h : seg.1.length ≤ cap) :
    recv cap ⟨seg :: segs, ending⟩ = (.data seg.1, ⟨segs, ending⟩) := by
  have hpos : 0 < seg.1.length := List.length_pos_of_ne_nil seg.2
  have hcap : cap ≠ 0 := by omega
  simp [recv, hcap, List.take_of_length_le h, List.drop_of_length_le h]

/-- **Receiving** takes bytes from the front of what is still to come, at least one and
at most as many as there is room for. -/
theorem recv_spec {cap : ℕ} {input input' : Input} {bs : List UInt8}
    (h : recv cap input = (.data bs, input')) :
    bs ≠ [] ∧ bs.length ≤ cap ∧ bs ++ input'.bytes = input.bytes ∧
      input'.ending = input.ending := by
  obtain ⟨segments, ending⟩ := input
  cases segments with
  | nil => cases ending <;> cases h
  | cons seg segs =>
    rw [recv] at h
    by_cases hcap : cap = 0
    · simp only [hcap, if_true] at h
      cases h
    · simp only [hcap, if_false] at h
      cases h
      refine ⟨take_ne_nil hcap seg, ?_, ?_, rfl⟩
      · rw [List.length_take]
        exact Nat.min_le_left _ _
      · -- what did not fit is put back in front of the other pieces
        have hsplit : seg.1.take cap ++ seg.1.drop cap = seg.1 := List.take_append_drop cap seg.1
        split
        · next hdrop =>
          rw [hdrop, List.append_nil] at hsplit
          rw [hsplit]
          rfl
        · next hdrop =>
          change seg.1.take cap ++ (seg.1.drop cap ++ _) = seg.1 ++ _
          rw [← List.append_assoc, hsplit]

/-- Receiving takes, and never adds. -/
theorem length_recv_le (cap : ℕ) (input : Input) :
    (recv cap input).2.bytes.length ≤ input.bytes.length := by
  cases h : recv cap input with
  | mk result input' =>
    cases result with
    | data bs =>
      obtain ⟨-, -, hsplit, -⟩ := recv_spec h
      rw [← hsplit, List.length_append]
      exact Nat.le_add_left _ _
    -- without data the input stays as it is
    | _ =>
      obtain rfl : input' = input := by
        rw [recv] at h
        split at h <;> split at h <;> cases h <;> rfl
      exact Nat.le_refl _

/-- Something is received as long as there is something, and room for it. -/
theorem recv_data {cap : ℕ} {input : Input} (hcap : 0 < cap) (h : input.bytes ≠ []) :
    ∃ bs input', recv cap input = (.data bs, input') := by
  obtain ⟨segments, ending⟩ := input
  cases segments with
  | nil => exact absurd rfl h
  | cons seg segs => exact ⟨_, _, by simp only [recv, Nat.ne_of_gt hcap, if_false]; rfl⟩

/-- What comes in behind some pieces stays behind what is left of them. -/
theorem recv_append (cap : ℕ) {segs : List Segment} (more : List Segment) (ending : Ending)
    (h : segs ≠ []) : recv cap ⟨segs ++ more, ending⟩
      = ((recv cap ⟨segs, ending⟩).1, ⟨(recv cap ⟨segs, ending⟩).2.segments ++ more, ending⟩) := by
  obtain ⟨seg, segs, rfl⟩ := List.exists_cons_of_ne_nil h
  simp only [recv, List.cons_append]
  split
  · rfl
  · split <;> rfl

/-- Nothing is received while the client waits. -/
theorem recv_waits {cap : ℕ} {input : Input} (h : input.bytes = [])
    (hending : input.ending = .waiting) : recv cap input = (.blocked, input) := by
  have hnil := Input.bytes_eq_nil h
  obtain ⟨segments, ending⟩ := input
  obtain rfl : segments = [] := hnil
  obtain rfl : ending = .waiting := hending
  rfl

/-- A call that waits has nothing to receive. -/
theorem recv_blocked {cap : ℕ} {input input' : Input} (h : recv cap input = (.blocked, input')) :
    input' = input ∧ input.bytes = [] ∧ input.ending = .waiting := by
  obtain ⟨segments, ending⟩ := input
  cases segments with
  | nil =>
    cases ending with
    | waiting =>
      cases h
      exact ⟨rfl, rfl, rfl⟩
    | closed => cases h
    | failed => cases h
  | cons seg segs =>
    rw [recv] at h
    by_cases hcap : cap = 0
    · simp only [hcap, if_true] at h
      cases h
    · simp only [hcap, if_false] at h
      cases h

/-- While the client keeps the stream open, it ends only for want of room. -/
theorem recv_ended {cap : ℕ} {input input' : Input} {r : RecvResult}
    (h : recv cap input = (r, input')) (hr : r = .closed ∨ r = .failed)
    (hending : input.ending = .waiting) : cap = 0 := by
  obtain ⟨segments, ending⟩ := input
  obtain rfl : ending = .waiting := hending
  cases segments with
  | nil =>
    cases h
    cases hr with
    | inl heq => cases heq
    | inr heq => cases heq
  | cons seg segs =>
    by_contra hcap
    rw [recv] at h
    simp only [hcap, if_false] at h
    cases h
    cases hr with
    | inl heq => cases heq
    | inr heq => cases heq

end Net
end Osrv
