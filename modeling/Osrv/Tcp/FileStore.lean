import Osrv.Tcp.FdStore

/-!
# Writing to a file

`C_file_store` of `fd_store.c` with its descriptor: whether it is open, and what the calls
of `write` returned. The descriptor is closed at the end, and wherever the function jumps
out with an error.

A short header ends the function with an error, and so does a part of a body that makes no
progress. But the count of a header is compared with the unsigned size of the header: a
call that returns `-1` passes for one that has written everything, and the header is not
in the file (`file_store_loses_nothing_iff`).
-/

namespace Osrv
namespace Tcp

open Bytes Net Sfs

/-! ### The descriptor -/

/-- What a call of `write` is for. -/
inductive Part
  | header
  | body
  deriving DecidableEq

/-- A call of `write` and what it returned. -/
structure Call where
  part : Part
  res : ℤ

/-- The descriptor that is written to. -/
structure Fd where
  conn : Conn
  isOpen : Bool
  calls : List Call

/-- A call of `write` that has taken `bytes`. -/
def Fd.wrote (f : Fd) (part : Part) (res : ℤ) (bytes : List UInt8) : Fd where
  conn := ⟨f.conn.calls + 1, f.conn.out ++ bytes⟩
  isOpen := f.isOpen
  calls := f.calls ++ [⟨part, res⟩]

def close (f : Fd) : Fd := { f with isOpen := false }

/-- `if (n < sizeof(hdr))`, a comparison of unsigned numbers of 64 bits. -/
def lessThanHeader (n : ℤ) : Bool := n % 2 ^ 64 < 8

/-! ### The function -/

variable (write : SendFn)

/-- The loop for the payload. -/
def writeBody (f : Fd) (buf : List UInt8) : Except Fd Fd :=
  if _h : buf = [] then .ok f
  else
    let need := if buf.length > MAX_SEND_SIZE then MAX_SEND_SIZE else buf.length
    match write f.conn.calls need with
    | .accepted n _ _ => writeBody (f.wrote .body n (buf.take n)) (buf.drop n)
    | .closed => .error (close (f.wrote .body 0 []))
    | .failed => .error (close (f.wrote .body (-1) []))
termination_by buf.length
decreasing_by
  have : 0 < buf.length := List.length_pos_of_ne_nil _h
  rw [List.length_drop]
  omega

/-- What a call for a header returns, and how many bytes it takes. -/
def headerResult : SendResult 8 → ℤ × ℕ
  | .accepted n _ _ => (n, n)
  | .closed => (0, 0)
  | .failed => (-1, 0)

/-- `add` with the descriptor. -/
def addFd (f : Fd) (r : Record) : Except Fd Fd :=
  let (n, taken) := headerResult (write f.conn.calls 8)
  let f := f.wrote .header n ((le 8 r.hdr).take taken)
  if lessThanHeader n then .error (close f) else writeBody write f r.payload

/-- `C_file_store`. `opened` says whether `open` has succeeded. -/
def C_file_store (opened : Bool) (sWhat : SEXP) : Except Fd Fd :=
  if opened then do
    let f ← (store sWhat).foldlM (addFd write) ⟨⟨0, []⟩, true, []⟩
    pure (close f)
  else .error ⟨⟨0, []⟩, false, []⟩

/-- The descriptor at the end. -/
def descriptor : Except Fd Fd → Fd
  | .ok f => f
  | .error f => f

/-! ### What is written -/

/-- What is left of a result without the descriptor. -/
def written : Except Fd Fd → Except Conn Conn
  | .ok f => .ok f.conn
  | .error f => .error f.conn

theorem written_writeBody (f : Fd) (buf : List UInt8) :
    written (writeBody write f buf) = (let (res, c) := sendAll write MAX_SEND_SIZE f.conn buf
      if res ≠ 0 then .error c else .ok c) := by
  induction hlen : buf.length using Nat.strong_induction_on generalizing f buf with
  | _ len ih =>
    rw [writeBody, sendAll]
    by_cases hnil : buf = []
    · rw [dif_pos hnil, dif_pos hnil]
      rfl
    · rw [dif_neg hnil, dif_neg hnil]
      generalize (if buf.length > MAX_SEND_SIZE then MAX_SEND_SIZE else buf.length) = need
      cases hwrite : write f.conn.calls need with
      | closed =>
        simp only [hwrite, written, close, Fd.wrote, List.append_nil]
        rfl
      | failed =>
        simp only [hwrite, written, close, Fd.wrote, List.append_nil]
        rfl
      | accepted n pos le =>
        have hpos : 0 < buf.length := List.length_pos_of_ne_nil hnil
        have hdrop : (buf.drop n).length < len := by
          rw [List.length_drop]
          omega
        simp only [hwrite]
        exact ih _ hdrop (f.wrote .body n (buf.take n)) (buf.drop n) rfl

/-- **The sink is that of `fd_store`**, with the descriptor. -/
theorem written_addFd (f : Fd) (r : Record) :
    written (addFd write f r) = add write f.conn r := by
  rw [addFd, add]
  cases hwrite : write f.conn.calls 8 with
  | accepted n pos le =>
    have hless : lessThanHeader n = decide (n < 8) := by
      rw [lessThanHeader]
      congr 1
      apply propext
      omega
    simp only [headerResult, hless, decide_eq_true_eq]
    split
    · rfl
    · exact written_writeBody write _ _
  | closed =>
    have hless : lessThanHeader 0 = true := by decide
    simp only [headerResult, hless, if_true, List.take_zero, written, close, Fd.wrote,
      List.append_nil]
  | failed =>
    -- -1 is the greatest of the unsigned numbers
    have hless : lessThanHeader (-1) = false := by decide
    simp only [headerResult, hless, Bool.false_eq_true, if_false, List.take_zero,
      written_writeBody, Fd.wrote, List.append_nil]
    rfl

theorem written_foldlM (f : Fd) (rs : List Record) :
    written (rs.foldlM (addFd write) f) = rs.foldlM (add write) f.conn := by
  induction rs generalizing f with
  | nil => rfl
  | cons r rs ih =>
    have hadd := written_addFd write f r
    rw [List.foldlM_cons, List.foldlM_cons, ← hadd]
    cases addFd write f r with
    | ok f' => exact ih f'
    | error f' => rfl

/-- So what `C_file_store` leaves in the file is what `fd_store` writes. -/
theorem written_file_store (sWhat : SEXP) :
    written (C_file_store write true sWhat) = fd_store write ⟨0, []⟩ sWhat := by
  have hfold := written_foldlM write ⟨⟨0, []⟩, true, []⟩ (store sWhat)
  rw [fd_store, ← hfold, C_file_store, if_pos rfl]
  cases (store sWhat).foldlM (addFd write) ⟨⟨0, []⟩, true, []⟩ with
  | ok f => rfl
  | error f => rfl

/-! ### Calls that fail -/

/-- A call that fails: a header that is not written as a whole, or a part of a body that
makes no progress. -/
def Call.Fails (call : Call) : Prop :=
  (call.part = .header ∧ call.res < 8) ∨ (call.part = .body ∧ call.res < 1)

/-- One that is seen to fail. -/
def Call.Stops (call : Call) : Prop :=
  (call.part = .header ∧ 0 ≤ call.res ∧ call.res < 8) ∨ (call.part = .body ∧ call.res < 1)

/-- One that is taken for a success. -/
def Call.Lost (call : Call) : Prop := call.part = .header ∧ call.res = -1

/-- How many headers are missing. -/
def lost (calls : List Call) : ℕ :=
  calls.countP fun call => call.part = .header ∧ call.res = -1

theorem lost_append (calls calls' : List Call) :
    lost (calls ++ calls') = lost calls + lost calls' :=
  List.countP_append

theorem lost_eq_zero {calls : List Call} : lost calls = 0 ↔ ∀ call ∈ calls, ¬ call.Lost := by
  rw [lost, List.countP_eq_zero]
  simp [Call.Lost]

/-- **What a part of the run does** that is to write `bytes`: it goes on, and what is
missing of them are the headers that are lost, or it ends with a call that is seen to
fail and the descriptor closed. -/
inductive Writes (f : Fd) (bytes : List UInt8) : Except Fd Fd → Prop
  | on {f' : Fd} {calls : List Call} (isOpen : f'.isOpen = f.isOpen)
      (trace : f'.calls = f.calls ++ calls)
      (seen : ∀ call ∈ calls, ¬ call.Stops ∧ (call.Fails → call.Lost))
      (length : f'.conn.out.length + 8 * lost calls = f.conn.out.length + bytes.length)
      (out : lost calls = 0 → f'.conn.out = f.conn.out ++ bytes) : Writes f bytes (.ok f')
  | stopped {f' : Fd} {calls : List Call} (isOpen : f'.isOpen = false)
      (trace : f'.calls = f.calls ++ calls) (stops : ∃ call ∈ calls, call.Stops) :
      Writes f bytes (.error f')

variable {write} {f : Fd} {bytes bytes' : List UInt8}

theorem Writes.refl : Writes f [] (.ok f) :=
  .on rfl (List.append_nil _).symm (fun _ hcall => absurd hcall List.not_mem_nil) rfl
    fun _ => (List.append_nil _).symm

/-- One part after another. -/
theorem Writes.next {f₁ : Fd} {r : Except Fd Fd} (h : Writes f bytes (.ok f₁))
    (hrest : Writes f₁ bytes' r) : Writes f (bytes ++ bytes') r := by
  cases h with
  | @on f₁ calls₁ isOpen trace seen length out =>
    cases hrest with
    | @stopped f₂ calls₂ isOpen' trace' stops =>
      obtain ⟨call, hcall, hstops⟩ := stops
      refine @Writes.stopped _ _ _ (calls₁ ++ calls₂) isOpen' ?_
        ⟨call, List.mem_append_right _ hcall, hstops⟩
      rw [trace', trace, List.append_assoc]
    | @on f₂ calls₂ isOpen' trace' seen' length' out' =>
      refine @Writes.on _ _ _ (calls₁ ++ calls₂) (isOpen'.trans isOpen) ?_ (fun call hcall => ?_) ?_
        fun hlost => ?_
      · rw [trace', trace, List.append_assoc]
      · cases List.mem_append.mp hcall with
        | inl hmem => exact seen call hmem
        | inr hmem => exact seen' call hmem
      · rw [lost_append, List.length_append]
        omega
      · rw [lost_append] at hlost
        rw [out' (by omega), out (by omega), List.append_assoc]

/-- A call that is seen to fail. -/
theorem Writes.fails {part : Part} {res : ℤ} {taken : List UInt8}
    (h : (⟨part, res⟩ : Call).Stops) : Writes f bytes (.error (close (f.wrote part res taken))) :=
  .stopped rfl rfl ⟨_, List.mem_singleton_self _, h⟩

/-- A call that is taken for a success. -/
theorem Writes.wrote {part : Part} {res : ℤ} {taken : List UInt8}
    (hstops : ¬ (⟨part, res⟩ : Call).Stops)
    (hfails : (⟨part, res⟩ : Call).Fails → (⟨part, res⟩ : Call).Lost)
    (hlen : taken.length + 8 * lost [⟨part, res⟩] = bytes.length)
    (hout : lost [⟨part, res⟩] = 0 → taken = bytes) :
    Writes f bytes (.ok (f.wrote part res taken)) := by
  refine .on rfl rfl (fun call hcall => ?_) ?_ fun hlost => ?_
  · rw [List.mem_singleton.mp hcall]
    exact ⟨hstops, hfails⟩
  · show (f.conn.out ++ taken).length + _ = _
    rw [List.length_append]
    omega
  · rw [← hout hlost]
    rfl

theorem writes_writeBody (f : Fd) (buf : List UInt8) : Writes f buf (writeBody write f buf) := by
  induction hlen : buf.length using Nat.strong_induction_on generalizing f buf with
  | _ len ih =>
    rw [writeBody]
    by_cases hnil : buf = []
    · rw [dif_pos hnil, hnil]
      exact .refl
    · rw [dif_neg hnil]
      generalize hneed : (if buf.length > MAX_SEND_SIZE then MAX_SEND_SIZE else buf.length) = need
      cases hwrite : write f.conn.calls need with
      | closed =>
        simp only [hwrite]
        exact .fails (Or.inr ⟨rfl, by decide⟩)
      | failed =>
        simp only [hwrite]
        exact .fails (Or.inr ⟨rfl, by decide⟩)
      | accepted n pos le =>
        have hpos : 0 < buf.length := List.length_pos_of_ne_nil hnil
        have hdrop : (buf.drop n).length < len := by
          rw [List.length_drop]
          omega
        have hsome : ¬ (⟨.body, n⟩ : Call).Fails := by
          rintro (⟨hpart, -⟩ | ⟨-, hlt⟩)
          · cases hpart
          · simp only at hlt
            omega
        have hfirst : Writes f (buf.take n) (.ok (f.wrote .body n (buf.take n))) := by
          refine .wrote (fun hstops => ?_) (fun hfails => absurd hfails hsome) rfl fun _ => rfl
          exact hsome (hstops.imp (fun h => ⟨h.1, h.2.2⟩) id)
        have hrest := ih _ hdrop (f.wrote .body n (buf.take n)) (buf.drop n) rfl
        have hboth := hfirst.next hrest
        rw [List.take_append_drop] at hboth
        simp only [hwrite]
        exact hboth

/-- A header that is written is written as a whole, and one that is not is seen to fail or
lost. -/
theorem writes_addFd (f : Fd) (r : Record) : Writes f r.bytes (addFd write f r) := by
  rw [addFd, Record.bytes]
  have hlen : (le 8 r.hdr).length = 8 := length_le 8 _
  cases hwrite : write f.conn.calls 8 with
  -- a result of zero is seen: it is less than a header
  | closed =>
    have hless : lessThanHeader 0 = true := by decide
    simp only [headerResult, hless, if_true]
    exact .fails (Or.inl ⟨rfl, by decide, by decide⟩)
  -- a result of -1 is not, as it is compared without its sign
  | failed =>
    have hless : lessThanHeader (-1) = false := by decide
    simp only [headerResult, hless, Bool.false_eq_true, if_false]
    refine Writes.next (.wrote ?_ (fun _ => ⟨rfl, rfl⟩) ?_ fun hlost => ?_) (writes_writeBody _ _)
    · rintro (⟨-, hle, -⟩ | ⟨hpart, -⟩)
      · exact absurd hle (by decide)
      · cases hpart
    · rw [List.take_zero, hlen]
      rfl
    · exact absurd hlost (by decide)
  -- a part of a header is seen
  | accepted n pos le =>
    by_cases hshort : n < 8
    · have hless : lessThanHeader n = true := by
        rw [lessThanHeader, decide_eq_true_eq]
        omega
      simp only [headerResult, hless, if_true]
      exact .fails (Or.inl ⟨rfl, Int.natCast_nonneg n, by simp only; omega⟩)
    · have hless : lessThanHeader n = false := by
        rw [lessThanHeader, decide_eq_false_iff_not]
        omega
      -- a whole header
      have hwhole : ¬ (⟨.header, n⟩ : Call).Fails := by
        rintro (⟨-, hlt⟩ | ⟨hpart, -⟩)
        · simp only at hlt
          omega
        · cases hpart
      simp only [headerResult, hless, Bool.false_eq_true, if_false]
      refine Writes.next (.wrote ?_ (fun hfails => absurd hfails hwhole) ?_ fun _ => ?_)
        (writes_writeBody _ _)
      · exact fun hstops => hwhole (hstops.imp (fun h => ⟨h.1, h.2.2⟩) id)
      · have hnone : lost [⟨.header, n⟩] = 0 := lost_eq_zero.mpr fun call hcall hlost => by
          rw [List.mem_singleton.mp hcall] at hlost
          have heq : (n : ℤ) = -1 := hlost.2
          omega
        rw [hnone, List.length_take, hlen]
        omega
      · exact List.take_of_length_le (by omega)

theorem writes_foldlM (f : Fd) (rs : List Record) :
    Writes f (wire rs) (rs.foldlM (addFd write) f) := by
  induction rs generalizing f with
  | nil => exact .refl
  | cons r rs ih =>
    have hfirst : Writes f r.bytes (addFd write f r) := writes_addFd f r
    rw [List.foldlM_cons, wire_cons]
    cases hadd : addFd write f r with
    | error f' =>
      rw [hadd] at hfirst
      cases hfirst with
      | stopped isOpen trace stops => exact .stopped isOpen trace stops
    | ok f' =>
      rw [hadd] at hfirst
      exact hfirst.next (ih f')

/-! ### Nothing is lost silently -/

variable (write) in
/-- **Writing a value to a file.** If the function returns, the bytes of the stream are in
the file in order, and wherever a header is not written as a whole or a part of a body
makes no progress it ends in an error with the descriptor closed: this is so exactly if no
call for a header has returned `-1`, or if another call is seen to fail. -/
theorem file_store_loses_nothing_iff (opened : Bool) (sWhat : SEXP) :
    ((∀ f, C_file_store write opened sWhat = .ok f → f.conn.out = emit sWhat) ∧
      ∀ call ∈ (descriptor (C_file_store write opened sWhat)).calls, call.Fails →
        ∃ f, C_file_store write opened sWhat = .error f ∧ f.isOpen = false) ↔
    (∀ call ∈ (descriptor (C_file_store write opened sWhat)).calls, ¬ call.Lost) ∨
      ∃ call ∈ (descriptor (C_file_store write opened sWhat)).calls, call.Stops := by
  cases opened with
  | false =>
    refine iff_of_true ⟨fun f h => (by cases h), fun call hcall => ?_⟩ (Or.inl fun call hcall => ?_)
    · exact absurd hcall List.not_mem_nil
    · exact absurd hcall List.not_mem_nil
  | true =>
    have hwrites := @writes_foldlM write ⟨⟨0, []⟩, true, []⟩ (store sWhat)
    rw [C_file_store, if_pos rfl]
    generalize (store sWhat).foldlM (addFd write) ⟨⟨0, []⟩, true, []⟩ = r at hwrites
    cases hwrites with
    | @stopped f calls isOpen trace stops =>
      have hcalls : f.calls = calls := trace
      refine iff_of_true ⟨fun f' h => (by cases h), fun call _ _ => ⟨f, rfl, isOpen⟩⟩ (Or.inr ?_)
      show ∃ call ∈ f.calls, call.Stops
      rw [hcalls]
      exact stops
    | @on f calls isOpen trace seen length out =>
      have hcalls : f.calls = calls := trace
      have hlength : f.conn.out.length + 8 * lost calls = (emit sWhat).length := by
        rw [length]
        exact Nat.zero_add _
      show ((∀ f', (Except.ok (close f) : Except Fd Fd) = .ok f' → f'.conn.out = emit sWhat) ∧
        ∀ call ∈ f.calls, call.Fails →
          ∃ f', (Except.ok (close f) : Except Fd Fd) = .error f' ∧ f'.isOpen = false) ↔
        (∀ call ∈ f.calls, ¬ call.Lost) ∨ ∃ call ∈ f.calls, call.Stops
      rw [hcalls]
      constructor
      · rintro ⟨hout, -⟩
        -- each header that is lost is missing in the file
        have heq := congrArg List.length (hout (close f) rfl)
        have hlen : f.conn.out.length = (emit sWhat).length := heq
        exact Or.inl (lost_eq_zero.mp (by omega))
      · rintro (hnone | ⟨call, hcall, hstops⟩)
        · refine ⟨fun f' h => ?_, fun call hcall hfails => ?_⟩
          · obtain rfl := Except.ok.inj h
            exact out (lost_eq_zero.mpr hnone)
          · exact absurd ((seen call hcall).2 hfails) (hnone call hcall)
        · exact absurd hstops (seen call hcall).1

/-- A kernel whose first `write` fails. -/
def firstFails : SendFn := fun i ts => if i = 0 then .failed else SendFn.whole i ts

/-- **A header that is lost.** The first `write` fails for lack of room, say. The function
returns, and the file is empty. -/
theorem file_store_loses_header :
    ¬ ∀ (write : SendFn) (opened : Bool) (sWhat : SEXP),
      (∀ f, C_file_store write opened sWhat = .ok f → f.conn.out = emit sWhat) ∧
      ∀ call ∈ (descriptor (C_file_store write opened sWhat)).calls, call.Fails →
        ∃ f, C_file_store write opened sWhat = .error f ∧ f.isOpen = false := by
  intro hall
  obtain ⟨hout, -⟩ := hall firstFails true .NULL
  have hrun : C_file_store firstFails true .NULL
      = .ok ⟨⟨1, []⟩, false, [⟨.header, -1⟩]⟩ := by
    simp [C_file_store, store, addFd, firstFails, headerResult, lessThanHeader, writeBody,
      Record.payload, Fd.wrote, close]
  have hempty : [] = emit .NULL := hout _ hrun
  exact absurd hempty (by decide)

end Tcp
end Osrv
