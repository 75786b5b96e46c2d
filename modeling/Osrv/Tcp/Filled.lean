import Osrv.Lib.Sink
import Osrv.Net.Offers
import Osrv.Tcp.FileStore

/-!
# How much of a value goes out

`fd_store` puts out all of a value or stops somewhere in it, and what has gone out by then
is a front of the value. The exception is a call for a header that returns `-1`, which
passes for one that has written it. Over a connection whose calls all succeed there is none
(`fd_store_fills`); for a file it can be told from the calls that were made
(`file_store_fills`).
-/

namespace Osrv
namespace Tcp

open Bytes Lib Net Sfs

variable {write : SendFn}

/-- A record, if the call for its header does not return `-1`. -/
theorem add_fills {c : Conn} (hheader : write c.calls 8 ≠ .failed) (r : Record) :
    Fills Conn.out c r.bytes (add write c r) := by
  have hlen : (le 8 r.hdr).length = 8 := length_le 8 _
  rw [add]
  cases hwrite : write c.calls 8 with
  | failed => exact absurd hwrite hheader
  | closed =>
    refine Fills.stopped [] (fun h => ?_) (List.append_nil _).symm
    have hhdr : Bytes.le 8 r.hdr ++ r.payload = [] := h
    rw [(List.append_eq_nil_iff.mp hhdr).1] at hlen
    cases hlen
  | accepted n pos le =>
    simp only
    split
    -- a part of the header
    · next hshort =>
      have hsplit : r.bytes = (Bytes.le 8 r.hdr).take n
          ++ ((Bytes.le 8 r.hdr).drop n ++ r.payload) := by
        rw [← List.append_assoc, List.take_append_drop]
        rfl
      rw [hsplit]
      refine Fills.stopped ((Bytes.le 8 r.hdr).take n) (fun h => ?_) rfl
      have hnil := congrArg List.length (List.append_eq_nil_iff.mp h).1
      rw [List.length_drop, hlen, List.length_nil] at hnil
      omega
    -- the header, and of the payload what the loop around `write` gets rid of
    · next hwhole =>
      refine Fills.after (t := ⟨c.calls + 1, c.out ++ (Bytes.le 8 r.hdr).take n⟩) ?_ ?_
      · show c.out ++ (Bytes.le 8 r.hdr).take n = c.out ++ Bytes.le 8 r.hdr
        rw [List.take_of_length_le (by omega)]
      · have hsent := @sendAll_outcome write MAX_SEND_SIZE
          ⟨c.calls + 1, c.out ++ (Bytes.le 8 r.hdr).take n⟩ r.payload
        rw [addPayload]
        generalize sendAll write MAX_SEND_SIZE _ r.payload = result at hsent
        cases hsent with
        | sent accepted out => exact out
        | stopped mem refused result isFront short out =>
          simp only [ne_eq, result, not_false_eq_true, if_true]
          exact ⟨_, isFront, fun h => absurd (congrArg List.length h) short.ne, out⟩

/-- **A value over a connection** goes out as a whole, or up to a header that is cut. -/
theorem fd_store_fills (hwrite : write.Succeeds) (c : Conn) (v : SEXP) :
    Fills Conn.out c (emit v) (fd_store write c v) := by
  refine (Fills.foldlM (fun _ => True) (fun _ _ _ => trivial) (fun c r _ => ?_)
    (store v) c trivial).2
  obtain ⟨n, pos, le, h⟩ := hwrite c.calls 8 (by decide)
  exact add_fills (by rw [h]; exact nofun) r

/-! ### Files -/

/-- What is written to a file. -/
def Fd.out (f : Fd) : List UInt8 := f.conn.out

/-- No header is lost. -/
def Fd.Kept (f : Fd) : Prop := ∀ call ∈ f.calls, ¬ call.Lost

/-- The calls of a part of the run are behind those of the parts before it. -/
theorem Writes.calls {f : Fd} {bytes : List UInt8} {r : Except Fd Fd} (h : Writes f bytes r) :
    ∃ calls, (last r).calls = f.calls ++ calls := by
  cases h with
  | @on f' calls isOpen trace => exact ⟨calls, trace⟩
  | @stopped f' calls isOpen trace => exact ⟨calls, trace⟩

theorem Writes.kept {f : Fd} {bytes : List UInt8} {r : Except Fd Fd} (h : Writes f bytes r)
    (hkept : (last r).Kept) : f.Kept := by
  obtain ⟨calls, hcalls⟩ := h.calls
  intro call hcall
  refine hkept call ?_
  rw [hcalls]
  exact List.mem_append_left _ hcall

theorem addFd_fills (f : Fd) (r : Record) (hkept : (last (addFd write f r)).Kept) :
    Fills Fd.out f r.bytes (addFd write f r) := by
  have hadd := written_addFd write f r
  -- a header that is lost is among the calls
  have hheader : write f.conn.calls 8 ≠ .failed := by
    intro hfailed
    have hless : lessThanHeader (-1) = false := by decide
    rw [addFd, hfailed] at hkept
    simp only [headerResult, hless, Bool.false_eq_true, if_false] at hkept
    refine (writes_writeBody _ _).kept hkept ⟨.header, -1⟩ ?_ ⟨rfl, rfl⟩
    exact List.mem_append_right _ (List.mem_singleton_self _)
  have hfills := add_fills hheader r
  rw [← hadd] at hfills
  cases h : addFd write f r with
  | ok f' =>
    rw [h] at hfills
    exact hfills
  | error f' =>
    rw [h] at hfills
    exact hfills

/-- **A value in a file** is there as a whole, or up to where the function has stopped, if no
header is lost. -/
theorem file_store_fills (v : SEXP) (hkept : (descriptor (C_file_store write true v)).Kept) :
    ∃ front, front <+: emit v ∧ (descriptor (C_file_store write true v)).conn.out = front ∧
      (front = emit v ↔ ∃ f, C_file_store write true v = .ok f) := by
  have hfold := Fills.foldlM Fd.Kept
    (fun f r hkept => (@writes_addFd write f r).kept hkept) addFd_fills (store v)
    ⟨⟨0, []⟩, true, []⟩
  rw [C_file_store, if_pos rfl] at hkept ⊢
  cases hrun : (store v).foldlM (addFd write) ⟨⟨0, []⟩, true, []⟩ with
  | ok f =>
    rw [hrun] at hkept hfold
    obtain ⟨-, hfills⟩ := hfold hkept
    exact ⟨emit v, List.prefix_rfl, hfills, iff_of_true rfl ⟨_, rfl⟩⟩
  | error f =>
    rw [hrun] at hkept hfold
    obtain ⟨-, front, hfront, hne, hout⟩ := hfold hkept
    refine ⟨front, hfront, hout, iff_of_false hne ?_⟩
    rintro ⟨_, h⟩
    cases h

end Tcp
end Osrv
