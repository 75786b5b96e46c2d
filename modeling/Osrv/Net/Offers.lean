import Osrv.Net.Socket

/-!
# The calls of `send`

A loop around `send` tells its caller how it went by its result alone. `offers` lists the
calls that `sendAll` makes, each with the size of its offer, so that the result can be
compared with what the kernel answered: it is `0` exactly if every call was accepted, and
whatever it is, the bytes that went out are the first ones of the buffer. `sendSeq` sends
several buffers in a row, up to the first one that does not go out.
-/

namespace Osrv
namespace Net

/-- Whether a call has accepted bytes. -/
def SendResult.isAccepted {ts : ℕ} : SendResult ts → Bool
  | .accepted _ _ _ => true
  | .closed => false
  | .failed => false

/-- A call of `send`: its number and the size of the offer. -/
structure Offer where
  call : ℕ
  size : ℕ

/-- Whether the kernel accepts bytes in a call. -/
def SendFn.Accepts (send : SendFn) (o : Offer) : Prop := (send o.call o.size).isAccepted = true

theorem SendFn.accepts_iff {send : SendFn} {o : Offer} :
    send.Accepts o ↔ ∃ n pos le, send o.call o.size = .accepted n pos le := by
  rw [SendFn.Accepts]
  cases h : send o.call o.size with
  | accepted n pos le => exact ⟨fun _ => ⟨n, pos, le, rfl⟩, fun _ => rfl⟩
  | closed => exact ⟨fun h => (by cases h), fun ⟨_, _, _, h⟩ => (by cases h)⟩
  | failed => exact ⟨fun h => (by cases h), fun ⟨_, _, _, h⟩ => (by cases h)⟩

/-- The calls that `sendAll` makes. -/
def offers (send : SendFn) (max : ℕ) (c : Conn) (buf : List UInt8) : List Offer :=
  if _h : buf = [] then []
  else
    let ts := if buf.length > max then max else buf.length
    ⟨c.calls, ts⟩ ::
      match send c.calls ts with
      | .accepted n _ _ => offers send max ⟨c.calls + 1, c.out ++ buf.take n⟩ (buf.drop n)
      | .closed => []
      | .failed => []
termination_by buf.length
decreasing_by
  have : 0 < buf.length := List.length_pos_of_ne_nil _h
  rw [List.length_drop]
  omega

/-- How sending `bytes` went: all of them have gone out, in calls that were accepted, or
a call was not, and what has gone out are the first ones of them but not all. -/
inductive Outcome (send : SendFn) (os : List Offer) (c : Conn) (bytes : List UInt8) :
    ℤ × Conn → Prop
  | sent {c' : Conn} (accepted : ∀ o ∈ os, send.Accepts o) (out : c'.out = c.out ++ bytes) :
      Outcome send os c bytes (0, c')
  | stopped {r : ℤ} {c' : Conn} {o : Offer} {front : List UInt8} (mem : o ∈ os)
      (refused : ¬ send.Accepts o) (result : r ≠ 0) (isFront : front <+: bytes)
      (short : front.length < bytes.length) (out : c'.out = c.out ++ front) :
      Outcome send os c bytes (r, c')

section

variable {send : SendFn} {max : ℕ} {c : Conn} {buf : List UInt8}

/-- **The result of the loop** says whether every call was accepted. -/
theorem sendAll_outcome (c : Conn) (buf : List UInt8) :
    Outcome send (offers send max c buf) c buf (sendAll send max c buf) := by
  induction hlen : buf.length using Nat.strong_induction_on generalizing c buf with
  | _ len ih =>
    rw [sendAll, offers]
    by_cases hnil : buf = []
    -- all has been sent
    · rw [dif_pos hnil, dif_pos hnil]
      refine .sent (fun o ho => absurd ho List.not_mem_nil) ?_
      rw [hnil, List.append_nil]
    · rw [dif_neg hnil, dif_neg hnil]
      generalize hts : (if buf.length > max then max else buf.length) = ts
      -- a call that is not accepted is one that is refused
      have hrefused : (send c.calls ts).isAccepted = false → ¬ send.Accepts ⟨c.calls, ts⟩ := by
        intro h haccepts
        rw [SendFn.Accepts, h] at haccepts
        cases haccepts
      have hpos : 0 < buf.length := List.length_pos_of_ne_nil hnil
      cases hsend : send c.calls ts with
      | closed =>
        simp only [hsend]
        refine .stopped List.mem_cons_self (hrefused ?_) (by decide) List.nil_prefix hpos ?_
        · rw [hsend]
          rfl
        · rw [List.append_nil]
      | failed =>
        simp only [hsend]
        refine .stopped List.mem_cons_self (hrefused ?_) (by decide) List.nil_prefix hpos ?_
        · rw [hsend]
          rfl
        · rw [List.append_nil]
      -- the loop goes on with the rest
      | accepted n pos le =>
        simp only [hsend]
        have hdrop : (buf.drop n).length < len := by
          rw [List.length_drop]
          omega
        have hrest := ih _ hdrop ⟨c.calls + 1, c.out ++ buf.take n⟩ (buf.drop n) rfl
        generalize sendAll send max ⟨c.calls + 1, c.out ++ buf.take n⟩ (buf.drop n) = res at hrest
        generalize offers send max ⟨c.calls + 1, c.out ++ buf.take n⟩ (buf.drop n) = os at hrest
        have hsplit : buf.take n ++ buf.drop n = buf := List.take_append_drop n buf
        cases hrest with
        -- and the rest is accepted as well
        | sent accepted out =>
          refine .sent (fun o ho => ?_) ?_
          · cases List.mem_cons.mp ho with
            | inl heq =>
              rw [heq]
              exact SendFn.accepts_iff.mpr ⟨n, pos, le, hsend⟩
            | inr hmem => exact accepted o hmem
          · rw [out, List.append_assoc, hsplit]
        -- or the loop stops in it
        | @stopped r c' o front mem refused result isFront short out =>
          obtain ⟨t, ht⟩ := isFront
          refine @Outcome.stopped _ _ _ _ _ _ _ (buf.take n ++ front)
            (List.mem_cons_of_mem _ mem) refused result ⟨t, ?_⟩ ?_ ?_
          · rw [List.append_assoc, ht, hsplit]
          · have hlength := congrArg List.length hsplit
            rw [List.length_append] at hlength ⊢
            omega
          · rw [out, List.append_assoc]

/-! ### Buffers in a row -/

/-- Sends buffers in a row, up to the first one that does not go out. -/
def sendSeq (send : SendFn) (max : ℕ) (c : Conn) : List (List UInt8) → ℤ × Conn
  | [] => (0, c)
  | buf :: bufs =>
    let (r, c) := sendAll send max c buf
    if r ≠ 0 then (r, c) else sendSeq send max c bufs

/-- The calls that it makes. -/
def seqOffers (send : SendFn) (max : ℕ) (c : Conn) : List (List UInt8) → List Offer
  | [] => []
  | buf :: bufs =>
    let (r, c') := sendAll send max c buf
    offers send max c buf ++ if r ≠ 0 then [] else seqOffers send max c' bufs

theorem sendSeq_singleton (c : Conn) (buf : List UInt8) :
    sendSeq send max c [buf] = sendAll send max c buf := by
  rcases hres : sendAll send max c buf with ⟨r, c'⟩
  simp only [sendSeq, hres]
  split
  · rfl
  · next h => rw [not_not.mp h]

theorem sendSeq_outcome (c : Conn) (bufs : List (List UInt8)) :
    Outcome send (seqOffers send max c bufs) c bufs.flatten (sendSeq send max c bufs) := by
  induction bufs generalizing c with
  | nil => exact .sent (fun o ho => absurd ho List.not_mem_nil) (List.append_nil _).symm
  | cons buf bufs ih =>
    have hfirst : Outcome send (offers send max c buf) c buf (sendAll send max c buf) :=
      sendAll_outcome c buf
    rw [sendSeq, seqOffers, List.flatten_cons]
    generalize sendAll send max c buf = res at hfirst
    cases hfirst with
    | @sent c' accepted out =>
      have hrest := ih c'
      simp only [ne_eq, not_true_eq_false, if_false]
      generalize sendSeq send max c' bufs = res at hrest
      generalize seqOffers send max c' bufs = os at hrest
      cases hrest with
      | sent accepted' out' =>
        refine .sent (fun o ho => ?_) ?_
        · cases List.mem_append.mp ho with
          | inl hmem => exact accepted o hmem
          | inr hmem => exact accepted' o hmem
        · rw [out', out, List.append_assoc]
      | @stopped r c'' o front mem refused result isFront short out' =>
        refine @Outcome.stopped _ _ _ _ _ _ _ (buf ++ front)
          (List.mem_append_right _ mem) refused result ?_ ?_ ?_
        · exact (List.prefix_append_right_inj buf).mpr isFront
        · rw [List.length_append, List.length_append]
          omega
        · rw [out', out, List.append_assoc]
    | stopped mem refused result isFront short out =>
      simp only [result, ne_eq, not_false_eq_true, if_true]
      refine .stopped (List.mem_append_left _ mem) refused result
        (isFront.trans (List.prefix_append _ _)) ?_ out
      rw [List.length_append]
      omega

end

end Net
end Osrv
