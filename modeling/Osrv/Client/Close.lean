import Osrv.Client.Ask

/-!
# The end of a reply

The loop of `C_ask` for the reply line, turn by turn. `errno` is not written when `recv`
returns zero, so that behind the end of the stream the loop looks at what an earlier call
has left there: after a timeout it takes the end of the stream for another one, and the
next call comes to the same.

`turn` is one turn of the loop and `turns` a number of them. The loop ends in no number of
turns exactly when nothing else ends it (`ends_iff`), and it is then that `headerLoop`
says that it spins (`headerLoop_turns`).
-/

namespace Osrv
namespace Client

open Bytes Net Sfs

/-! ### Turns of the loop -/

/-- It is the same number as `EWOULDBLOCK`. -/
def EAGAIN : ℤ := 11

/-- The variables of the loop, and what calls of `recv` come to before the end of the
stream. -/
structure Loop where
  buf : Memory
  p : ℕ
  errno : ℤ
  arrivals : List Arrival

/-- What a turn comes to: the loop goes on or it has ended. -/
inductive Turn
  | next (l : Loop)
  | stop (h : Header)

/-- A call that has returned zero. -/
def Loop.closed (l : Loop) : Turn := if l.errno = EAGAIN then .next l else .stop .error

/-- One turn. A timeout sets `errno`, and so does another error, which ends the loop. -/
def turn (use_sfs : Bool) (l : Loop) : Option Turn := do
  let (buf, c) ← findEol l.buf l.p
  match c with
  -- the line has its end
  | some c => pure (.stop (.line (write buf c [0]) c l.p l.arrivals))
  | none =>
    -- too long a line
    if l.p > BUF_SIZE - 8 then pure (.stop .error)
    else
      let l := { l with buf := buf }
      match l.arrivals with
      | [] => pure l.closed
      -- a timeout, so that R can look for interrupts
      | .again :: rest => pure (.next { l with errno := EAGAIN, arrivals := rest })
      | .failed _ :: _ => pure (.stop .error)
      | .data seg :: rest =>
        let got := seg.1.take (ask use_sfs l.p)
        if got = [] then pure l.closed
        else pure (.next { l with
          buf := write l.buf l.p got
          p := l.p + got.length
          arrivals := putBack (seg.1.drop (ask use_sfs l.p)) rest })

/-- What `n` turns come to. -/
def turns (use_sfs : Bool) : ℕ → Loop → Option Turn
  | 0, l => some (.next l)
  | n + 1, l => do
    match ← turn use_sfs l with
    | .next l => turns use_sfs n l
    | .stop h => pure (.stop h)

/-- A complete line or an error. -/
def Header.IsEnd : Header → Prop
  | .line _ _ _ _ => True
  | .error => True
  | .spins => False

/-- **The loop ends** after finitely many turns. -/
def Ends (use_sfs : Bool) (l : Loop) : Prop :=
  ∃ n h, turns use_sfs n l = some (.stop h) ∧ h.IsEnd

section

variable {use_sfs : Bool} {l l' : Loop} {buf : Memory} {got : List UInt8}

theorem Ends.stop {h : Header} (hturn : turn use_sfs l = some (.stop h)) (hend : h.IsEnd) :
    Ends use_sfs l := by
  refine ⟨1, h, ?_, hend⟩
  rw [turns, hturn]
  rfl

theorem ends_next (hturn : turn use_sfs l = some (.next l')) :
    Ends use_sfs l ↔ Ends use_sfs l' := by
  have hstep : ∀ n, turns use_sfs (n + 1) l = turns use_sfs n l' := by
    intro n
    rw [turns, hturn]
    rfl
  constructor
  · rintro ⟨n, h, hrun, hend⟩
    cases n with
    | zero => cases hrun
    | succ n => exact ⟨n, h, hstep n ▸ hrun, hend⟩
  · rintro ⟨n, h, hrun, hend⟩
    exact ⟨n + 1, h, (hstep n).trans hrun, hend⟩

/-! ### The end of a line -/

/-- A NUL ends the string. -/
theorem findEol_nul {pre rest : List UInt8} (hline : IsLine pre) (h : At buf 0 (pre ++ 0 :: rest))
    (hfit : (pre ++ 0 :: rest).length < BUF_SIZE) :
    ∃ buf', findEol buf (pre ++ 0 :: rest).length = some (buf', none) ∧
      At buf' 0 (pre ++ 0 :: rest) := by
  have hat : At (write buf (pre ++ 0 :: rest).length [0]) 0 (pre ++ 0 :: rest) :=
    h.write_after (Nat.le_of_eq (Nat.zero_add _))
  have hlen : pre.length < (pre ++ 0 :: rest).length := by
    rw [List.length_append, List.length_cons]
    omega
  have hfront : At (write buf (pre ++ 0 :: rest).length [0]) 0 (pre ++ [0]) := by
    refine at_append.mpr ⟨(at_append.mp hat).1, ?_⟩
    exact at_cons.mpr ⟨(at_cons.mp (at_append.mp hat).2).1, at_nil _ _⟩
  exact ⟨_, findEol_stops hline hfit hfront rfl (by omega), hat⟩

/-- **A newline is found** exactly if there is one in the string that has been received,
which a NUL ends. -/
theorem findEol_spec (h : At buf 0 got) (hfit : got.length < BUF_SIZE) :
    ∃ buf' c, findEol buf got.length = some (buf', c) ∧ At buf' 0 got ∧
      (c.isSome = true ↔ 10 ∈ (cstr got).bytes) ∧
      ∀ k, c = some k → ∃ head carried, got = head ++ 10 :: carried ∧ IsLine head ∧
        k = head.length := by
  have hsplit : (cstr got).bytes ++ got.dropWhile (fun b => b != 0) = got :=
    List.takeWhile_append_dropWhile
  have hzero := (cstr got).zero_notMem
  by_cases hmem : 10 ∈ (cstr got).bytes
  -- a newline: the line is what is in front of the first one
  · obtain ⟨head, r, hbytes, hhead⟩ := List.eq_append_cons_of_mem hmem
    have hgot : head ++ 10 :: (r ++ got.dropWhile fun b => b != 0) = got := by
      rw [hbytes, List.append_assoc] at hsplit
      exact hsplit
    have hline : IsLine head :=
      ⟨fun h => hzero (hbytes ▸ List.mem_append_left _ h), hhead⟩
    have hlen : head.length + 1 + (r ++ got.dropWhile fun b => b != 0).length = got.length := by
      have hlen := congrArg List.length hgot
      rw [List.length_append, List.length_cons] at hlen
      omega
    obtain ⟨buf', hfind, hat⟩ := findEol_line hline (hgot.symm ▸ h) (hlen.symm ▸ hfit)
    rw [hlen] at hfind
    refine ⟨buf', some head.length, hfind, hgot ▸ hat, iff_of_true rfl hmem, fun k hk => ?_⟩
    exact ⟨head, _, hgot.symm, hline, (Option.some.inj hk).symm⟩
  -- no newline in front of a NUL or of the end
  · have hline : IsLine (cstr got).bytes := ⟨hzero, hmem⟩
    rcases hrest : got.dropWhile (fun b => b != 0) with _ | ⟨b, rest⟩
    · -- there is no NUL at all
      rw [hrest, List.append_nil] at hsplit
      obtain ⟨buf', hfind, hat⟩ := findEol_open (hsplit ▸ hline) h hfit
      exact ⟨buf', none, hfind, hat, iff_of_false (by simp) hmem, fun k hk => (by cases hk)⟩
    -- a NUL ends the loop
    · obtain rfl : b = 0 := by
        have hhead := List.head?_dropWhile_not (fun b : UInt8 => b != 0) got
        rw [hrest] at hhead
        simpa using hhead
      rw [hrest] at hsplit
      obtain ⟨buf', hfind, hat⟩ := findEol_nul hline (hsplit.symm ▸ h) (hsplit.symm ▸ hfit)
      rw [hsplit] at hfind hat
      exact ⟨buf', none, hfind, hat, iff_of_false (by simp) hmem, fun k hk => (by cases hk)⟩

/-! ### The turns, one by one -/

section Turns

variable {buf' : Memory} {rest : List Arrival}

/-- The line has its end. -/
theorem turn_line {c : ℕ} (hfind : findEol l.buf l.p = some (buf', some c)) :
    turn use_sfs l = some (.stop (.line (write buf' c [0]) c l.p l.arrivals)) := by
  rw [turn, hfind]
  rfl

/-- Too long a line. -/
theorem turn_long (hfind : findEol l.buf l.p = some (buf', none)) (hlong : l.p > BUF_SIZE - 8) :
    turn use_sfs l = some (.stop .error) := by
  simp only [turn, hfind, Option.bind_eq_bind, Option.bind_some, hlong, if_true]
  rfl

/-- The end of the stream. -/
theorem turn_closed (hfind : findEol l.buf l.p = some (buf', none))
    (hshort : ¬ l.p > BUF_SIZE - 8) (hnil : l.arrivals = []) :
    turn use_sfs l = some { l with buf := buf' }.closed := by
  simp only [turn, hfind, Option.bind_eq_bind, Option.bind_some, hshort, if_false, hnil]
  rfl

/-- A timeout sets `errno`. -/
theorem turn_again (hfind : findEol l.buf l.p = some (buf', none))
    (hshort : ¬ l.p > BUF_SIZE - 8) (hcons : l.arrivals = .again :: rest) :
    turn use_sfs l = some (.next { l with buf := buf', errno := EAGAIN, arrivals := rest }) := by
  simp only [turn, hfind, Option.bind_eq_bind, Option.bind_some, hshort, if_false, hcons]
  rfl

theorem turn_failed {e : String} (hfind : findEol l.buf l.p = some (buf', none))
    (hshort : ¬ l.p > BUF_SIZE - 8) (hcons : l.arrivals = .failed e :: rest) :
    turn use_sfs l = some (.stop .error) := by
  simp only [turn, hfind, Option.bind_eq_bind, Option.bind_some, hshort, if_false, hcons]
  rfl

/-- Something is received, which leaves `errno` as it is. -/
theorem turn_data {seg : Segment} (hfind : findEol l.buf l.p = some (buf', none))
    (hshort : ¬ l.p > BUF_SIZE - 8) (hcons : l.arrivals = .data seg :: rest) :
    turn use_sfs l = some (.next { l with
      buf := write buf' l.p (seg.1.take (ask use_sfs l.p))
      p := l.p + (seg.1.take (ask use_sfs l.p)).length
      arrivals := putBack (seg.1.drop (ask use_sfs l.p)) rest }) := by
  have hpos := (ask_spec use_sfs (Nat.not_lt.mp hshort)).1
  have htake : seg.1.take (ask use_sfs l.p) ≠ [] := take_ne_nil (Nat.ne_of_gt hpos) seg
  simp only [turn, hfind, Option.bind_eq_bind, Option.bind_some, hshort, if_false, hcons, htake]
  rfl

end Turns

/-! ### When the loop ends -/

/-- What ends the loop: there has been no timeout, or there is another error, a newline or
more than the buffer is good for. `received` is all that is received. -/
def Decided (errno : ℤ) (arrivals : List Arrival) (received : List UInt8) : Prop :=
  (errno ≠ EAGAIN ∧ Arrival.again ∉ arrivals) ∨ (∃ e, Arrival.failed e ∈ arrivals) ∨
    10 ∈ (cstr received).bytes ∨ BUF_SIZE - 8 < received.length

theorem again_mem_putBack {bs : List UInt8} {arrivals : List Arrival} :
    .again ∈ putBack bs arrivals ↔ .again ∈ arrivals := by
  unfold putBack
  split
  · rfl
  · simp

theorem mem_cstr_append {bs : List UInt8} (h : 10 ∈ (cstr bs).bytes) (rest : List UInt8) :
    10 ∈ (cstr (bs ++ rest)).bytes := by
  rw [cstr_bytes] at h ⊢
  rw [List.takeWhile_append]
  split
  · exact List.mem_append_left _ ((List.takeWhile_sublist _).mem h)
  · exact h

/-- At the end of the stream the loop goes on for ever. -/
theorem not_ends_closed (hat : At l.buf 0 got) (hp : l.p = got.length)
    (hshort : ¬ l.p > BUF_SIZE - 8) (hline : 10 ∉ (cstr got).bytes) (hnil : l.arrivals = [])
    (herrno : l.errno = EAGAIN) : ¬ Ends use_sfs l := by
  rintro ⟨n, h, hrun, -⟩
  induction n generalizing l with
  | zero => cases hrun
  | succ n ih =>
    have hsize : BUF_SIZE = 64 := rfl
    obtain ⟨buf', c, hfind, hat', hsome, -⟩ := findEol_spec hat (by omega)
    obtain rfl : c = none := by
      cases c with
      | none => rfl
      | some c => exact absurd (hsome.mp rfl) hline
    rw [← hp] at hfind
    have hturn : turn use_sfs l = some (.next { l with buf := buf' }) := by
      rw [turn_closed hfind hshort hnil, Loop.closed, if_pos herrno]
    rw [turns, hturn] at hrun
    exact ih (l := { l with buf := buf' }) hat' hp hshort hnil herrno hrun

variable (use_sfs) in
/-- What is received in a turn: something, not more than there is room for, and less is
still to arrive behind it. -/
theorem piece_received {p : ℕ} (hp : p ≤ BUF_SIZE - 8) (seg : Segment) (rest : List Arrival) :
    0 < (seg.1.take (ask use_sfs p)).length ∧
      p + (seg.1.take (ask use_sfs p)).length < BUF_SIZE ∧
      ((putBack (seg.1.drop (ask use_sfs p)) rest).flatMap Arrival.bytes).length
          + (putBack (seg.1.drop (ask use_sfs p)) rest).length
        < (seg.1.length + (rest.flatMap Arrival.bytes).length) + (rest.length + 1) := by
  obtain ⟨hask, hroom⟩ := ask_spec use_sfs hp
  have hseg := List.length_pos_of_ne_nil seg.2
  have hback := length_putBack_le (seg.1.drop (ask use_sfs p)) rest
  rw [flatMap_putBack, List.length_append, List.length_drop, List.length_take]
  omega

/-- **When the loop ends**, from any of its turns on. -/
theorem ends_iff (hat : At l.buf 0 got) (hp : l.p = got.length) (hfit : got.length < BUF_SIZE) :
    Ends use_sfs l ↔
      Decided l.errno l.arrivals (got ++ l.arrivals.flatMap Arrival.bytes) := by
  have hsize : BUF_SIZE = 64 := rfl
  induction hm : (l.arrivals.flatMap Arrival.bytes).length + l.arrivals.length
    using Nat.strong_induction_on generalizing l got with
  | _ m ih =>
  obtain ⟨buf', c, hfind, hat', hsome, -⟩ := findEol_spec hat hfit
  rw [← hp] at hfind
  cases c with
  | some c =>
    -- the line has its end already, and what arrives does not matter
    have hline := mem_cstr_append (hsome.mp rfl) (l.arrivals.flatMap Arrival.bytes)
    exact iff_of_true (.stop (turn_line hfind) trivial) (Or.inr (Or.inr (Or.inl hline)))
  | none =>
    -- no newline so far
    have hline : 10 ∉ (cstr got).bytes := fun h => by cases hsome.mpr h
    by_cases hlong : l.p > BUF_SIZE - 8
    · -- the line is too long
      refine iff_of_true (.stop (turn_long hfind hlong) trivial) (Or.inr (Or.inr (Or.inr ?_)))
      rw [List.length_append]
      omega
    · obtain ⟨hask, hroom⟩ := ask_spec use_sfs (Nat.not_lt.mp hlong)
      cases harr : l.arrivals with
      | nil =>
        rw [List.flatMap_nil, List.append_nil]
        by_cases herrno : l.errno = EAGAIN
        · -- an old `EAGAIN` makes each further turn like this one
          refine iff_of_false (not_ends_closed hat hp hlong hline harr herrno) ?_
          rintro (⟨hne, -⟩ | ⟨e, he⟩ | hmem | hlt)
          · exact hne herrno
          · exact absurd he List.not_mem_nil
          · exact hline hmem
          · omega
        · -- the end of the stream is seen for what it is
          have hturn : turn use_sfs l = some (.stop .error) := by
            rw [turn_closed hfind hlong harr, Loop.closed, if_neg herrno]
          exact iff_of_true (.stop hturn trivial) (Or.inl ⟨herrno, List.not_mem_nil⟩)
      | cons a rest =>
        rw [harr, List.flatMap_cons, List.length_append, List.length_cons] at hm
        cases a with
        | failed e =>
          -- an error ends the loop
          exact iff_of_true (.stop (turn_failed hfind hlong harr) trivial)
            (Or.inr (Or.inl ⟨e, List.mem_cons_self⟩))
        | again =>
          rw [ends_next (turn_again hfind hlong harr)]
          refine (ih ((rest.flatMap Arrival.bytes).length + rest.length) (by omega)
            (l := { l with buf := buf', errno := EAGAIN, arrivals := rest }) hat' hp hfit rfl).trans
              ?_
          -- the timeout has set `errno`
          have hfirst : ¬ (EAGAIN ≠ EAGAIN ∧ Arrival.again ∉ rest) := fun h => h.1 rfl
          have hfirst' : ¬ (l.errno ≠ EAGAIN ∧ Arrival.again ∉ Arrival.again :: rest) :=
            fun h => h.2 List.mem_cons_self
          have hfailed : (∃ e, Arrival.failed e ∈ Arrival.again :: rest) ↔
              ∃ e, Arrival.failed e ∈ rest := by simp
          show Decided EAGAIN rest _ ↔ _
          rw [Decided, Decided, hfailed]
          exact or_congr (iff_of_false hfirst hfirst') Iff.rfl
        | data seg =>
          -- what has been received and what is still to arrive make the same bytes
          have hbytes : got ++ seg.1.take (ask use_sfs l.p) ++
              (putBack (seg.1.drop (ask use_sfs l.p)) rest).flatMap Arrival.bytes
                = got ++ (Arrival.data seg :: rest).flatMap Arrival.bytes := by
            rw [List.append_assoc, take_putBack]
          obtain ⟨hpos, hlen, hless⟩ := piece_received use_sfs (Nat.not_lt.mp hlong) seg rest
          have hagain : Arrival.again ∈ putBack (seg.1.drop (ask use_sfs l.p)) rest ↔
              Arrival.again ∈ Arrival.data seg :: rest := by
            rw [again_mem_putBack]
            simp
          have hfailed : (∃ e, Arrival.failed e ∈ putBack (seg.1.drop (ask use_sfs l.p)) rest) ↔
              ∃ e, Arrival.failed e ∈ Arrival.data seg :: rest := by
            simp [failed_mem_putBack]
          rw [ends_next (turn_data hfind hlong harr)]
          refine (ih _ (hm ▸ hless)
            (hat'.write_end (hp.trans (Nat.zero_add _).symm) _) ?_ ?_ rfl).trans ?_
          · rw [List.length_append, ← hp]
          · rw [List.length_append]
            omega
          · rw [hbytes, Decided, Decided, hagain, hfailed]

/-- What a loop comes to: it does not end, or it ends in a number of turns. -/
def ComesTo (use_sfs : Bool) (l : Loop) (h : Header) : Prop :=
  (h = .spins ∧ ¬ Ends use_sfs l) ∨ ∃ n, turns use_sfs n l = some (.stop h)

theorem ComesTo.stop {h : Header} (hturn : turn use_sfs l = some (.stop h)) :
    ComesTo use_sfs l h := by
  refine Or.inr ⟨1, ?_⟩
  rw [turns, hturn]
  rfl

theorem ComesTo.next {h : Header} (hturn : turn use_sfs l = some (.next l'))
    (hrest : ComesTo use_sfs l' h) : ComesTo use_sfs l h := by
  obtain ⟨hspins, hnot⟩ | ⟨n, hrun⟩ := hrest
  · exact Or.inl ⟨hspins, fun hends => hnot ((ends_next hturn).mp hends)⟩
  · refine Or.inr ⟨n + 1, ?_⟩
    rw [turns, hturn]
    exact hrun

/-- **The loop as a whole** comes to what its turns come to. -/
theorem headerLoop_turns (hat : At l.buf 0 got) (hp : l.p = got.length)
    (hfit : got.length < BUF_SIZE) :
    ∃ h, headerLoop use_sfs l.buf l.p (decide (l.errno = EAGAIN)) l.arrivals = some h ∧
      ComesTo use_sfs l h := by
  have hsize : BUF_SIZE = 64 := rfl
  induction hm : (l.arrivals.flatMap Arrival.bytes).length + l.arrivals.length
    using Nat.strong_induction_on generalizing l got with
  | _ m ih =>
  obtain ⟨buf', c, hfind, hat', hsome, -⟩ := findEol_spec hat hfit
  rw [← hp] at hfind
  rw [headerLoop.eq_def, hfind]
  cases c with
  -- the line has its end: the next turn is the last
  | some c =>
    exact ⟨.line (write buf' c [0]) c l.p l.arrivals, rfl, .stop (turn_line hfind)⟩
  | none =>
    -- without an end of the line in the buffer
    have hline : 10 ∉ (cstr got).bytes := fun h => by cases hsome.mpr h
    simp only
    by_cases hlong : l.p > BUF_SIZE - 8
    · rw [if_pos hlong]
      exact ⟨.error, rfl, .stop (turn_long hfind hlong)⟩
    · rw [if_neg hlong]
      obtain ⟨hask, hroom⟩ := ask_spec use_sfs (Nat.not_lt.mp hlong)
      cases harr : l.arrivals with
      | nil =>
        by_cases herrno : l.errno = EAGAIN
        -- `errno` is still that of the last retry, which is taken for one of this turn
        · have hspin : ¬ Ends use_sfs l := not_ends_closed hat hp hlong hline harr herrno
          exact ⟨.spins, by simp [herrno], Or.inl ⟨rfl, hspin⟩⟩
        · refine ⟨.error, by simp [herrno], .stop ?_⟩
          rw [turn_closed hfind hlong harr, Loop.closed, if_neg herrno]
      | cons a rest =>
        rw [harr, List.flatMap_cons, List.length_append, List.length_cons] at hm
        cases a with
        | failed e =>
          exact ⟨.error, rfl, .stop (turn_failed hfind hlong harr)⟩
        -- a retry sets `errno`
        | again =>
          obtain ⟨h, hrun, hrest⟩ := ih ((rest.flatMap Arrival.bytes).length + rest.length)
            (by omega) (l := { l with buf := buf', errno := EAGAIN, arrivals := rest }) hat' hp
            hfit rfl
          exact ⟨h, hrun, .next (turn_again hfind hlong harr) hrest⟩
        -- a piece leaves `errno` as it is
        | data seg =>
          obtain ⟨hpos, hlen, hless⟩ := piece_received use_sfs (Nat.not_lt.mp hlong) seg rest
          obtain ⟨h, hrun, hrest⟩ := ih _ (hm ▸ hless)
            (l := { l with
              buf := write buf' l.p (seg.1.take (ask use_sfs l.p))
              p := l.p + (seg.1.take (ask use_sfs l.p)).length
              arrivals := putBack (seg.1.drop (ask use_sfs l.p)) rest })
            (hat'.write_end (hp.trans (Nat.zero_add _).symm) _)
            (by rw [List.length_append, ← hp]) (by rw [List.length_append]; omega) rfl
          refine ⟨h, ?_, .next (turn_data hfind hlong harr) hrest⟩
          simp only [dif_neg (List.ne_nil_of_length_pos hpos)]
          exact hrun

end

/-! ### The stream ends -/

/-- **The loop for the reply line at the end of the stream.** For every sequence of outcomes
that ends with the close of the connection, and whatever is in `errno` before, the loop
ends after finitely many turns, with a complete line or an error, exactly if there has
been no timeout, or if another error, a complete line or too long a one ends it before
the close. -/
theorem header_loop_ends_iff (use_sfs : Bool) (buf : Memory) (errno : ℤ)
    (arrivals : List Arrival) :
    Ends use_sfs ⟨buf, 0, errno, arrivals⟩ ↔
      (errno ≠ EAGAIN ∧ Arrival.again ∉ arrivals) ∨ (∃ e, Arrival.failed e ∈ arrivals) ∨
        10 ∈ (cstr (arrivals.flatMap Arrival.bytes)).bytes ∨
        BUF_SIZE - 8 < (arrivals.flatMap Arrival.bytes).length :=
  ends_iff (at_nil _ _) rfl (by decide)

/-- **A timeout before the close.** The loop does not end. -/
theorem header_loop_spins :
    ¬ ∀ (use_sfs : Bool) (buf : Memory) (errno : ℤ) (arrivals : List Arrival),
      Ends use_sfs ⟨buf, 0, errno, arrivals⟩ := by
  intro hall
  have hends := hall false (fun _ => 0) 0 [.again]
  rw [ends_iff (at_nil _ _) rfl (by decide)] at hends
  rcases hends with ⟨-, hnone⟩ | ⟨e, he⟩ | hline | hlong
  · exact hnone (List.mem_singleton_self _)
  · exact absurd (List.mem_singleton.mp he) (by simp)
  · exact absurd hline (by decide)
  · exact absurd hlong (by decide)

end Client
end Osrv
