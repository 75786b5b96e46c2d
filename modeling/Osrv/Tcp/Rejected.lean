import Osrv.Tcp.Segments

/-!
# What follows a rejected `PUT`

A `PUT` that is rejected leaves its payload unread. After `INV` and `ERR` the server
closes the connection, so that nothing is made of it. After `UNSUPP` the branch falls
back into the loop, and the next bytes to arrive are taken for a request.
`rejected_payload_iff` says when this happens: if the `UNSUPP` could be sent and some byte of
the payload is received after it.
-/

namespace Osrv
namespace Tcp

open Bytes Net Obj Sfs

/-! ### Rejections -/

/-- The replies that reject a `PUT`. -/
inductive Rejection
  | INV
  | ERR
  | UNSUPP
  deriving DecidableEq

def Rejection.text : Rejection → List UInt8
  | .INV => Tcp.INV
  | .ERR => Tcp.ERR
  | .UNSUPP => Tcp.UNSUPP

/-- How a `PUT` is rejected, if it is. Nothing stands for a null pointer that is followed. -/
def rejection (malloc : Malloc) (d : Option ℕ) (be : ℕ) (buf : Memory) (mallocs : ℕ) :
    Option (Option Rejection) := do
  let d ← d
  if d < be then
    let d ← skipWhile MAX_BUF isEol buf (d + 1)
    match ← putSize buf d with
    | none => pure (some .INV)
    | some (len, _) =>
      if len > 0 then
        pure (if (malloc.alloc mallocs len.toNat).isNone then some .ERR else none)
      else pure (some .UNSUPP)
  else pure (some .INV)

/-- **A round rejects a `PUT`** that it finds in the bytes `bs`. -/
def Rejects (malloc : Malloc) (buf : Memory) (bs : List UInt8) (mallocs : ℕ) (r : Rejection) :
    Prop :=
  ∃ buf' c, commandLine (write buf 0 (bs ++ [0])) = some (buf', some c) ∧ c.cmd.bytes = PUT ∧
    rejection malloc c.d bs.length buf' mallocs = some (some r)

section Round

variable (send : SendFn) {malloc : Malloc} {buf : Memory} {w : World} {bs : List UInt8}
  {r : Rejection}

/-- What the server does when it rejects a `PUT`: only `UNSUPP` leads back to the loop. -/
theorem put_of_rejection (a : CString) {d : Option ℕ} {be : ℕ}
    (h : rejection malloc d be buf w.mallocs = some (some r)) :
    ∃ mallocs, put send malloc a d be buf w =
      some (if r = .UNSUPP then reply send w UNSUPP
        else refuse send { w with mallocs := mallocs } r.text) := by
  rw [rejection] at h
  rw [put]
  cases d with
  -- without a place for the size there is no rejection
  | none => cases h
  -- blanks in front of the size are skipped
  | some d =>
    simp only [Option.bind_eq_bind, Option.bind_some] at h ⊢
    by_cases hd : d < be
    · rw [if_pos hd] at h ⊢
      cases hskip : skipWhile MAX_BUF isEol buf (d + 1) with
      | none =>
        rw [hskip] at h
        cases h
      | some d =>
        rw [hskip] at h
        simp only [Option.bind_some] at h ⊢
        cases hsize : putSize buf d with
        | none =>
          rw [hsize] at h
          cases h
        | some size =>
          rw [hsize] at h
          simp only [Option.bind_some] at h ⊢
          cases size with
          | none =>
            -- the size is not a number
            obtain rfl : Rejection.INV = r := Option.some.inj (Option.some.inj h)
            exact ⟨w.mallocs, rfl⟩
          | some size =>
            obtain ⟨len, d'⟩ := size
            dsimp only at h ⊢
            by_cases hlen : len > 0
            · rw [if_pos hlen] at h ⊢
              -- a size above zero is rejected for want of memory alone
              cases halloc : malloc.alloc w.mallocs len.toNat with
              | none =>
                rw [halloc] at h
                obtain rfl : Rejection.ERR = r := Option.some.inj (Option.some.inj h)
                refine ⟨w.mallocs + 1, ?_⟩
                rw [putPayload, halloc]
                rfl
              -- with memory there is no rejection
              | some db =>
                rw [halloc] at h
                cases h
            · rw [if_neg hlen] at h ⊢
              -- a size that is not above zero
              obtain rfl : Rejection.UNSUPP = r := Option.some.inj (Option.some.inj h)
              exact ⟨w.mallocs, rfl⟩
    -- no size
    · rw [if_neg hd] at h ⊢
      obtain rfl : Rejection.INV = r := Option.some.inj (Option.some.inj h)
      exact ⟨w.mallocs, rfl⟩

theorem request_of_rejects (h : Rejects malloc buf bs w.mallocs r) :
    ∃ buf' mallocs, request send malloc buf bs w =
      some (buf', if r = .UNSUPP then reply send w UNSUPP
        else refuse send { w with mallocs := mallocs } r.text) := by
  obtain ⟨buf', c, hline, hcmd, hrejection⟩ := h
  obtain ⟨mallocs, hput⟩ := put_of_rejection send c.arg hrejection
  have hperform : perform send malloc c bs.length buf' w
      = put send malloc c.arg c.d bs.length buf' w := by
    rw [perform, hcmd]
    rfl
  refine ⟨buf', mallocs, ?_⟩
  rw [request_perform hline, hperform, hput]
  rfl

end Round

/-! ### What the bytes behind it are taken for -/

/-- In the loop, from the given state on, a round starts in the world `w₁`. -/
inductive Starts (send : SendFn) (malloc : Malloc) : Memory → World → World → Prop
  | now {buf : Memory} {w : World} {bs : List UInt8} {input : Input}
      (hrecv : recv (MAX_BUF - 1) w.input = (.data bs, input)) : Starts send malloc buf w w
  | later {buf buf' : Memory} {w w' w₁ : World} {bs : List UInt8} {input : Input}
      (hrecv : recv (MAX_BUF - 1) w.input = (.data bs, input))
      (hrequest : request send malloc buf bs { w with input := input } = some (buf', .again, w'))
      (hstarts : Starts send malloc buf' w' w₁) : Starts send malloc buf w w₁

/-- One of the next `left` bytes to arrive is taken for the start of another request. -/
def Interpreted (send : SendFn) (malloc : Malloc) (buf : Memory) (bs : List UInt8) (w : World)
    (left : ℕ) : Prop :=
  ∃ buf' w' w₁, request send malloc buf bs w = some (buf', .again, w') ∧
    Starts send malloc buf' w' w₁ ∧ w.input.bytes.length < w₁.input.bytes.length + left

/-- No step of a request makes the input longer. -/
theorem keeps_input (send : SendFn) (n : ℕ) :
    Keeps send fun w => w.input.bytes.length ≤ n where
  sent _ _ h := h
  stored _ _ h := h
  got _ _ _ _ _ h _ := h
  added _ _ _ h := h
  input w cap h := (length_recv_le cap w.input).trans h
  mallocs _ _ h := h

/-- The rounds take the input in order. -/
theorem Starts.length_le {send : SendFn} {malloc : Malloc} {buf : Memory} {w w₁ : World}
    (h : Starts send malloc buf w w₁) : w₁.input.bytes.length ≤ w.input.bytes.length := by
  induction h with
  | now hrecv => exact Nat.le_refl _
  | @later buf buf' w w' w₁ bs input hrecv hrequest hstarts ih =>
    refine ih.trans ((keeps_input send w.input.bytes.length).request ?_ hrequest)
    have hle := length_recv_le (MAX_BUF - 1) w.input
    rw [hrecv] at hle
    exact hle

/-- **The payload of a rejected `PUT`** is left alone exactly if the server closes the
connection, because of `INV`, `ERR` or a reply that cannot be sent, or if all of it came with
the lines. The world is that behind the `recv` of the round, `got` is what came behind the
lines, and the payload is followed by `rest`. -/
theorem rejected_payload_iff {send : SendFn} {malloc : Malloc} {buf : Memory} {w : World}
    {lines got payload rest : List UInt8} {r : Rejection}
    (h : Rejects malloc buf (lines ++ got) w.mallocs r)
    (hpayload : got ++ w.input.bytes = payload ++ rest) :
    ¬ Interpreted send malloc buf (lines ++ got) w (payload.length - got.length) ↔
      r ≠ .UNSUPP ∨ (send_buf send w UNSUPP).1 ≠ 0 ∨ payload.length ≤ got.length := by
  obtain ⟨buf', mallocs, hrequest⟩ := request_of_rejects send h
  by_cases hr : r = .UNSUPP
  · rw [if_pos hr] at hrequest
    by_cases hsent : (send_buf send w UNSUPP).1 ≠ 0
    · -- the reply cannot be sent
      refine iff_of_true ?_ (Or.inr (Or.inl hsent))
      rintro ⟨buf'', w', w₁, hagain, -⟩
      rw [hrequest, reply] at hagain
      simp only [if_pos hsent] at hagain
      cases hagain
    -- the round ends with the reply, and what arrives next is the next command
    · have hreply : reply send w UNSUPP = (.again, (send_buf send w UNSUPP).2) := by
        rw [reply]
        simp only [if_neg hsent]
      rw [hreply] at hrequest
      have hinput : (send_buf send w UNSUPP).2.input = w.input := rfl
      by_cases hle : payload.length ≤ got.length
      · -- nothing of the payload is still to come
        refine iff_of_true ?_ (Or.inr (Or.inr hle))
        rintro ⟨buf'', w', w₁, hagain, hstarts, hlt⟩
        rw [hrequest] at hagain
        cases hagain
        have hlen := hstarts.length_le
        rw [hinput] at hlen
        omega
      · refine iff_of_false (not_not.mpr ?_) ?_
        · have hne : (send_buf send w UNSUPP).2.input.bytes ≠ [] := by
            intro hnil
            rw [← hinput, hnil, List.append_nil] at hpayload
            rw [hpayload, List.length_append] at hle
            omega
          obtain ⟨bs, input, hrecv⟩ := recv_data (show 0 < MAX_BUF - 1 by decide) hne
          refine ⟨buf', _, _, hrequest, .now hrecv, ?_⟩
          rw [hinput]
          omega
        · rintro (hne | hfail | hall)
          · exact hne hr
          · exact hsent hfail
          · exact hle hall
  · -- the connection is closed
    rw [if_neg hr] at hrequest
    refine iff_of_true ?_ (Or.inl hr)
    rintro ⟨buf'', w', w₁, hagain, -⟩
    rw [hrequest] at hagain
    cases hagain

/-! ### A `PUT` of unknown size -/

/-- The lines of a `PUT` of unknown size. -/
def unknownSize (key : CString) : List UInt8 := lineOf (cstr PUT) key ++ 10 :: [63, 10]

/-- It is rejected with `UNSUPP`, whatever comes behind the lines. -/
theorem rejects_unknownSize (malloc : Malloc) {key : CString} (hkey : Nameable key)
    {got : List UInt8} (hfit : (unknownSize key).length + got.length < MAX_BUF) (buf : Memory)
    (mallocs : ℕ) : Rejects malloc buf (unknownSize key ++ got) mallocs .UNSUPP := by
  have hat : At (write buf 0 (unknownSize key ++ got ++ [0])) 0
      (lineOf (cstr PUT) key ++ 10 :: (63 :: 10 :: (got ++ [0]))) := by
    have hshape : lineOf (cstr PUT) key ++ 10 :: (63 :: 10 :: (got ++ [0]))
        = unknownSize key ++ got ++ [0] := by
      rw [unknownSize, List.append_assoc, List.append_assoc]
      rfl
    rw [hshape]
    exact at_write _ _ _
  have hlen : (unknownSize key).length = (cstr PUT).length + 1 + key.length + 3 := by
    rw [unknownSize, List.length_append, length_lineOf]
    rfl
  rw [hlen] at hfit
  have hupper : ∀ b ∈ (cstr PUT).bytes, isUpper b = true :=
    List.all_eq_true.mp (by decide : PUT.all isUpper = true)
  obtain ⟨buf', hline, hrest⟩ := commandLine_eq hat hupper hkey (by omega)
  refine ⟨buf', _, hline, rfl, ?_⟩
  -- the size line starts at once
  have hfirst : peek MAX_BUF buf' ((cstr PUT).length + 1 + key.length + 1) = some 63 :=
    peek_eq hrest (by omega)
  have hskip : skipWhile MAX_BUF isEol buf' ((cstr PUT).length + 1 + key.length + 1)
      = some ((cstr PUT).length + 1 + key.length + 1) := by
    have hfront : At buf' ((cstr PUT).length + 1 + key.length + 1) ([] ++ [63]) :=
      at_cons.mpr ⟨(at_cons.mp hrest).1, at_nil _ _⟩
    exact skipWhile_eq hfront (by simp) (by decide) (by simp only [List.length_nil]; omega)
  have hnext : peek MAX_BUF buf' ((cstr PUT).length + 1 + key.length + 1 + 1) = some 10 :=
    peek_eq (at_cons.mp hrest).2 (by omega)
  have hsize : putSize buf' ((cstr PUT).length + 1 + key.length + 1)
      = some (some (-1, (cstr PUT).length + 1 + key.length + 1 + 1 + 1)) := by
    have heol : isEol 10 = true := rfl
    have h13 : ¬ (10 : UInt8) = 13 := by decide
    simp only [putSize, hfirst, Option.bind_eq_bind, Option.bind_some, if_true, hnext, heol,
      skipEol, h13, if_false]
    rfl
  have hlt : (cstr PUT).length + 1 + key.length < (unknownSize key ++ got).length := by
    rw [List.length_append]
    omega
  simp only [rejection, Option.bind_eq_bind, Option.bind_some, hlt, if_true, hskip, hsize]
  rfl

theorem nameable_k : Nameable (cstr [107]) := Plain.nameable (by decide)

/-- A payload that reads as a command. -/
def payload : Segment := ⟨lineOf (cstr DEL) (cstr [107]) ++ [10], by decide⟩

/-- The next request of the client. -/
def nextRequest : Segment := ⟨lineOf (cstr HAS) (cstr [107]) ++ [10], by decide⟩

/-- All of the payload comes with the lines, and is dropped. -/
theorem rejected_payload_unknownSize :
    ¬ Interpreted SendFn.whole .plenty (fun _ => 0) (unknownSize (cstr [107]) ++ payload.1)
        (arrive [nextRequest] [] [] Store.init) (payload.1.length - payload.1.length) ↔
      Rejection.UNSUPP ≠ .UNSUPP ∨
        (send_buf SendFn.whole (arrive [nextRequest] [] [] Store.init) UNSUPP).1 ≠ 0 ∨
        payload.1.length ≤ payload.1.length := by
  have hrejects : Rejects .plenty (fun _ => 0) (unknownSize (cstr [107]) ++ payload.1) 0 .UNSUPP :=
    rejects_unknownSize _ nameable_k (by decide) _ _
  have hbytes : payload.1 ++ (arrive [nextRequest] [] [] Store.init).input.bytes
      = payload.1 ++ nextRequest.1 := rfl
  exact rejected_payload_iff hrejects hbytes

/-- It removes the object of the key. -/
theorem payload_removes : ∃ w',
    do_process SendFn.whole .plenty
      (arrive [⟨unknownSize (cstr [107]), by decide⟩, payload] [] [] (holding (cstr [107])))
        = some (.waiting, w') ∧
      w'.conn.out = UNSUPP ++ OK ∧ lookup (cstr [107]) w'.store = some none := by
  set w := arrive [] [] [] (holding (cstr [107])) with hw
  have hsend := SendFn.whole_succeeds
  -- the round of the `PUT`
  have hrejects : Rejects .plenty (fun _ => 0) (unknownSize (cstr [107]) ++ []) w.mallocs
      .UNSUPP := rejects_unknownSize _ nameable_k (by decide) _ _
  rw [List.append_nil] at hrejects
  obtain ⟨buf₁, mallocs, hput⟩ := request_of_rejects SendFn.whole hrejects
    (w := { w with input := ⟨[payload], .waiting⟩ })
  obtain ⟨calls, hreply⟩ := reply_ok hsend { w with input := ⟨[payload], .waiting⟩ } UNSUPP
  rw [if_pos rfl, hreply] at hput
  -- the round of the payload
  set w₁ : World := { w with input := ⟨[payload], .waiting⟩, conn := ⟨calls, UNSUPP⟩ } with hw₁
  obtain ⟨store, hremove, hrep, -⟩ := (holding_rep (cstr [107])).obj_get_remove (cstr [107])
  obtain ⟨calls', hreply'⟩ := reply_ok hsend
    { w₁ with input := ⟨[], .waiting⟩, store := store } OK
  obtain ⟨buf₂, hdel⟩ := request_line SendFn.whole .plenty (q := .del)
    (w := { w₁ with input := ⟨[], .waiting⟩ }) nameable_k (by decide) buf₁
  have hanswer : answer SendFn.whole .del (cstr [107]) { w₁ with input := ⟨[], .waiting⟩ }
      = some (.again, { w₁ with
        input := ⟨[], .waiting⟩
        store := store
        conn := ⟨calls', UNSUPP ++ OK⟩ }) := by
    rw [find?_held] at hremove
    have hstore : obj_get (cstr [107]) true w₁.store = some (some (held (cstr [107])).1, store) :=
      hremove
    simp only [answer, del, hstore]
    exact congrArg some hreply'
  rw [hanswer] at hdel
  refine ⟨{ w₁ with input := ⟨[], .waiting⟩, store := store, conn := ⟨calls', UNSUPP ++ OK⟩ },
    ?_, rfl, ?_⟩
  · rw [do_process_arrive]
    show loop _ _ (12 + 1 + 1 + 1) _ _ = _
    rw [loop_again (x := ⟨unknownSize (cstr [107]), by decide⟩) (by decide) hput]
    show loop _ _ (12 + 1 + 1) _ { w₁ with input := ⟨[payload], .waiting⟩ } = _
    rw [loop_again (x := payload) (by decide) hdel]
    rfl
  · show lookup (cstr [107]) store = _
    rw [lookup_of_rep hrep]
    rfl

end Tcp
end Osrv
