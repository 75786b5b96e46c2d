import Osrv.Sfs.Transport
import Osrv.Tcp.DoProcess

/-!
# The client

`C_ask` of `ocli.c`, from the command on: `headerLoop` receives the reply line and
`C_ask` what the line announces.

The reply line is received into a buffer of 64 bytes. A raw payload may follow it
there, so that its first bytes are carried over. If the payload is left to
`sock_restore`, nothing of it may be received with the line: the loop then asks for no
more than the shortest line with a length has, and for single bytes behind that.

A call of `recv` times out after a second and is repeated. The user interrupts nothing.
-/

namespace Osrv
namespace Client

open Bytes Net Sfs

/-! ### The reply line -/

/-- The size of `buf`. -/
def BUF_SIZE : ℕ := 64

/-- How the loop for the reply line ends: with a line, whose end is at `c` in a buffer
of `p` bytes, with an error, or not at all. -/
inductive Header
  | line (buf : Memory) (c p : ℕ) (arrivals : List Arrival)
  | error
  | spins

/-- Ends what has been received with a NUL and looks for a newline in it. -/
def findEol (buf : Memory) (p : ℕ) : Option (Memory × Option ℕ) := do
  let buf ← if p < BUF_SIZE then some (write buf p [0]) else none
  let c ← skipWhile BUF_SIZE (fun b => b != 10 && b != 0) buf 0
  let b ← peek BUF_SIZE buf c
  pure (buf, if b = 10 then some c else none)

/-- How many bytes the loop asks for. -/
def ask (use_sfs : Bool) (p : ℕ) : ℕ :=
  if use_sfs then if p < 5 then 5 - p else 1 else BUF_SIZE - 1 - p

/-- The loop for the reply line. `eagain` is what an earlier call has left in `errno`,
which the loop looks at after the end of the stream as well. -/
def headerLoop (use_sfs : Bool) (buf : Memory) (p : ℕ) (eagain : Bool)
    (arrivals : List Arrival) : Option Header :=
  match findEol buf p with
  | none => none
  | some (buf, some c) => some (.line (write buf c [0]) c p arrivals)
  | some (buf, none) =>
    -- too long a line
    if p > BUF_SIZE - 8 then some .error
    else
      match arrivals with
      -- the other end has closed, and `errno` is of an earlier call
      | [] => some (if eagain then .spins else .error)
      -- a timeout, so that R can look for interrupts
      | .again :: rest => headerLoop use_sfs buf p true rest
      | .failed _ :: _ => some .error
      | .data seg :: rest =>
        let got := seg.1.take (ask use_sfs p)
        if _hgot : got = [] then some (if eagain then .spins else .error)
        else
          headerLoop use_sfs (write buf p got) (p + got.length) eagain
            (putBack (seg.1.drop (ask use_sfs p)) rest)
termination_by (arrivals.flatMap Arrival.bytes).length + arrivals.length
decreasing_by
  · simp [Arrival.bytes]
  · have hpos : 0 < (seg.1.take (ask use_sfs p)).length := List.length_pos_of_ne_nil _hgot
    have hback := length_putBack_le (seg.1.drop (ask use_sfs p)) rest
    rw [flatMap_putBack, List.flatMap_cons, List.length_append, List.length_append,
      List.length_cons]
    have hsplit : seg.1.length = (seg.1.take (ask use_sfs p)).length
        + (seg.1.drop (ask use_sfs p)).length := by
      rw [← List.length_append, List.take_append_drop]
    change _ < seg.1.length + _ + _
    omega

/-! ### The reply -/

/-- What `os.ask` comes to: a string, a raw vector, a call of `sock_restore` with what is
still to arrive, an error, or nothing. -/
inductive Answer
  | string (s : CString)
  | raw (bs : List UInt8)
  | sock_restore (d : Descriptor)
  | error
  | spins

def FETCH_SIZE : ℕ := 512 * 1024

variable (R : Runtime)

/-- A payload of `pl` bytes, of which those from `start` on are in the buffer of `p` bytes
already. -/
def rawPayload (pl : ℕ) (buf : Memory) (start p : ℕ) (arrivals : List Arrival) : Answer :=
  if R.allocVector .RAWSXP pl then
    -- it cannot exceed the payload
    let carried := read (fun j => buf (start + j)) (min (p - start) pl)
    match recvLoop FETCH_SIZE carried pl arrivals with
    | .got bs _ => .raw bs
    | .failed _ _ _ => .error
  else .error

/-- `C_ask`, when `send` has returned `n` for the command. `eagain` is what is left in `errno`
by then. -/
def C_ask (use_sfs : Bool) (cmd : List UInt8) (n : ℤ) (buf : Memory) (eagain : Bool)
    (d : Descriptor) : Option Answer :=
  if n < cmd.length then some .error
  else do
    match ← headerLoop use_sfs buf 0 eagain d.arrivals with
    | .error => pure .error
    | .spins => pure .spins
    | .line buf c p arrivals =>
      let line := stringAt BUF_SIZE buf 0
      if line.length = 2 ∨ line.bytes = ascii "UNSUPP" then pure (.string line)
      else if (ascii "OK ").isPrefixOf line.bytes then
        if use_sfs then pure (.sock_restore ⟨arrivals, false⟩)
        else
          let pl := (atol (stringAt BUF_SIZE buf 3) % 2 ^ 64).toNat
          pure (rawPayload R pl buf (c + 1) p arrivals)
      else pure .error

/-! ### The loop receives a line -/

section Spec

/-- What the loop for the reply line comes to: the line `head` is in the buffer, ended by
a NUL, the first bytes of the payload are behind it and the others are still to arrive. -/
structure Line (use_sfs : Bool) (head payload : List UInt8) (buf : Memory) (c p : ℕ)
    (arrivals : List Arrival) (carried : List UInt8) : Prop where
  eol : c = head.length
  held : At buf 0 (head ++ 0 :: carried)
  pos : p = head.length + 1 + carried.length
  arriving : carried ++ arrivals.flatMap Arrival.bytes = payload
  delivers : ∀ e, Arrival.failed e ∉ arrivals
  /-- For `sock_restore` nothing has been received of the payload. -/
  whole : use_sfs = true → carried = []

variable {use_sfs eagain : Bool} {buf : Memory} {p : ℕ} {arrivals : List Arrival}
  {head payload got : List UInt8}

/-- The bytes of a line neither end it nor the string. -/
def IsLine (head : List UInt8) : Prop := (0 : UInt8) ∉ head ∧ (10 : UInt8) ∉ head

/-- The loop for the newline stops behind a line, at a newline or a NUL. -/
theorem findEol_stops {b : UInt8} (hline : IsLine head) (hfit : p < BUF_SIZE)
    (hat : At (write buf p [0]) 0 (head ++ [b])) (hstop : (b != 10 && b != 0) = false)
    (hlen : head.length < BUF_SIZE) :
    findEol buf p = some (write buf p [0], if b = 10 then some head.length else none) := by
  obtain ⟨hskip, hpeek⟩ := skipWhile_start hat (line_inner hline.2 hline.1) hstop hlen
  simp only [findEol, hfit, if_true, Option.bind_eq_bind, Option.bind_some, hskip, hpeek]
  rfl

/-- The line has been received up to its end. -/
theorem findEol_line (hline : IsLine head) {carried : List UInt8}
    (h : At buf 0 (head ++ 10 :: carried)) (hfit : head.length + 1 + carried.length < BUF_SIZE) :
    ∃ buf', findEol buf (head.length + 1 + carried.length) = some (buf', some head.length) ∧
      At buf' 0 (head ++ 10 :: carried) := by
  have hat : At (write buf (head.length + 1 + carried.length) [0]) 0
      (head ++ 10 :: carried) := by
    refine h.write_after ?_
    rw [List.length_append, List.length_cons]
    omega
  have hfront := (at_append.mp (List.append_cons .. ▸ hat)).1
  exact ⟨_, findEol_stops hline hfit hfront rfl (by omega), hat⟩

/-- It has not. -/
theorem findEol_open (hline : IsLine got) (h : At buf 0 got) (hfit : got.length < BUF_SIZE) :
    ∃ buf', findEol buf got.length = some (buf', none) ∧ At buf' 0 got := by
  have hat : At (write buf got.length [0]) 0 (got ++ [0]) := h.write_end (Nat.zero_add _).symm _
  exact ⟨_, findEol_stops hline hfit hat rfl hfit, (at_append.mp hat).1⟩

variable (use_sfs) in
/-- The loop asks for something and leaves room for the NUL. -/
theorem ask_spec (hp : p ≤ BUF_SIZE - 8) : 0 < ask use_sfs p ∧ p + ask use_sfs p < BUF_SIZE := by
  have hsize : BUF_SIZE = 64 := rfl
  unfold ask
  split
  · split <;> omega
  · omega

/-- For `sock_restore` it does not ask for more than the rest of the line, unless there is
nothing behind the line. -/
theorem ask_restore (hp : p ≤ head.length) (hlong : 4 ≤ head.length) :
    p + ask true p ≤ head.length + 1 := by
  rw [ask, if_pos rfl]
  split <;> omega

/-- Either what has been received has the end of the line in it, or it is a front of the line. -/
theorem line_cases {arriving : List UInt8} (h : got ++ arriving = head ++ 10 :: payload) :
    (∃ carried, got = head ++ 10 :: carried ∧ carried ++ arriving = payload) ∨
      ∃ rest, head = got ++ rest ∧ arriving = rest ++ 10 :: payload := by
  obtain ⟨rest, hhead, hrest⟩ | ⟨t, hgot, ht⟩ := List.append_eq_append_iff.mp h
  · exact Or.inr ⟨rest, hhead, hrest⟩
  · cases t with
    | nil => exact Or.inr ⟨[], by simpa using hgot.symm, by simpa using ht.symm⟩
    | cons b t =>
      obtain ⟨rfl, hpayload⟩ := List.cons.inj ht
      exact Or.inl ⟨t, hgot, hpayload.symm⟩

variable (use_sfs eagain) in
/-- **The loop for the reply line** receives the line, in whatever pieces it arrives, and
nothing of a payload for `sock_restore`. -/
theorem headerLoop_spec (hline : IsLine head) (hshort : head.length ≤ BUF_SIZE - 8)
    (hlong : 4 ≤ head.length ∨ payload = []) (hat : At buf 0 got) (hp : got.length < BUF_SIZE)
    (hbytes : got ++ arrivals.flatMap Arrival.bytes = head ++ 10 :: payload)
    (hwhole : use_sfs = true → got.length ≤ head.length + 1 ∨ payload = [])
    (hok : ∀ e, Arrival.failed e ∉ arrivals) :
    ∃ buf' c p' arrivals' carried,
      headerLoop use_sfs buf got.length eagain arrivals = some (.line buf' c p' arrivals') ∧
        Line use_sfs head payload buf' c p' arrivals' carried := by
  induction hm : (arrivals.flatMap Arrival.bytes).length + arrivals.length
    using Nat.strong_induction_on generalizing buf got arrivals eagain with
  | _ m ih =>
  rw [headerLoop.eq_def]
  obtain ⟨carried, rfl, hpayload⟩ | ⟨rest, rfl, hrest⟩ := line_cases hbytes
  · -- the line is there
    have hlen : (head ++ 10 :: carried).length = head.length + 1 + carried.length := by
      rw [List.length_append, List.length_cons]
      omega
    rw [hlen] at hp hwhole ⊢
    obtain ⟨buf', hfind, hat'⟩ := findEol_line hline hat hp
    rw [hfind]
    refine ⟨_, _, _, _, carried, rfl, rfl, ?_, rfl, hpayload, hok, fun hsfs => ?_⟩
    -- the NUL that ends the line goes to where its end was
    · exact hat'.replace (Nat.zero_add _).symm 0
    -- for `sock_restore` nothing is received beyond the line
    · obtain hle | hnil := hwhole hsfs
      · exact List.length_eq_zero_iff.mp (by omega)
      · exact (List.append_eq_nil_iff.mp (hpayload.trans hnil)).1
  · -- the line has not been received to its end
    have hle : got.length ≤ (got ++ rest).length := by
      rw [List.length_append]
      omega
    have hgot : IsLine got :=
      ⟨fun h => hline.1 (List.mem_append_left _ h), fun h => hline.2 (List.mem_append_left _ h)⟩
    obtain ⟨buf', hfind, hat'⟩ := findEol_open hgot hat hp
    rw [hfind]
    simp only
    rw [if_neg (by omega)]
    obtain ⟨hask, hroom⟩ := ask_spec use_sfs (p := got.length) (by omega)
    cases arrivals with
    -- the stream is not over before the line is
    | nil =>
      rw [List.flatMap_nil] at hrest
      exact absurd hrest.symm (by simp)
    | cons a arrivals =>
      have hok' : ∀ e, Arrival.failed e ∉ arrivals := fun e h =>
        hok e (List.mem_cons_of_mem _ h)
      cases a with
      | failed e => exact absurd (List.mem_cons_self ..) (hok e)
      -- a retry receives nothing
      | again => exact ih _ (by rw [← hm]; simp [Arrival.bytes]) true hat' hp hbytes hwhole hok' rfl
      | data seg =>
        -- a piece: it is received up to where the reader may go
        have htake : seg.1.take (ask use_sfs got.length) ≠ [] :=
          take_ne_nil (Nat.ne_of_gt hask) seg
        simp only [dif_neg htake]
        have hpos := List.length_pos_of_ne_nil htake
        have hcap : (seg.1.take (ask use_sfs got.length)).length ≤ ask use_sfs got.length :=
          List.length_take_le _ _
        have hback := length_putBack_le (seg.1.drop (ask use_sfs got.length)) arrivals
        have hflat := take_putBack (ask use_sfs got.length) seg arrivals
        have hmeasure := congrArg List.length hflat
        rw [List.length_append] at hmeasure
        rw [List.length_cons] at hm
        rw [← List.length_append]
        refine ih _ ?_ eagain ?_ ?_ ?_ (fun hsfs => ?_) ?_ rfl
        · omega
        · exact hat'.write_end (Nat.zero_add _).symm _
        · rw [List.length_append]
          omega
        -- nothing is lost on the way
        · rw [List.append_assoc, hflat]
          exact hbytes
        -- what is asked for does not go beyond the line
        · refine hlong.imp (fun hlong => ?_) id
          subst hsfs
          have hrestore := ask_restore hle hlong
          rw [List.length_append]
          omega
        · exact fun e h => hok' e (failed_mem_putBack.mp h)

end Spec

/-! ### What is returned -/

section Answers

variable {R : Runtime} {use_sfs eagain : Bool} {cmd payload : List UInt8}
  {buf : Memory} {d : Descriptor}

/-- A string with its NUL in an area. -/
theorem stringAt_line {size i : ℕ} {s : CString} {rest : List UInt8}
    (h : At buf i (s.bytes ++ 0 :: rest)) (hi : i + s.length < size) : stringAt size buf i = s := by
  rw [List.append_cons] at h
  exact stringAt_eq (at_append.mp h).1 hi

variable (R use_sfs cmd buf) in
/-- **A reply of a line alone** is returned. -/
theorem C_ask_string {s : CString} (hten : (10 : UInt8) ∉ s.bytes)
    (hs : s.length = 2 ∨ s.bytes = ascii "UNSUPP") (hd : Carries d (s.bytes ++ [10])) :
    C_ask R use_sfs cmd cmd.length buf eagain d = some (.string s) := by
  obtain ⟨hok, hbytes⟩ := hd
  have hshort : s.length ≤ 6 := by
    obtain hs | hs := hs
    · omega
    · rw [CString.length, hs]
      exact Nat.le_refl _
  obtain ⟨buf', c, p, arrivals, carried, hloop, hline⟩ := headerLoop_spec use_sfs eagain
    ⟨s.zero_notMem, hten⟩ (hshort.trans (by decide)) (Or.inr rfl)
    (at_nil buf 0) (show 0 < BUF_SIZE by decide) hbytes (fun _ => Or.inr rfl) hok
  have hstring : stringAt BUF_SIZE buf' 0 = s :=
    stringAt_line hline.held (by
      rw [Nat.zero_add]
      exact Nat.lt_of_le_of_lt hshort (by decide))
  rw [C_ask, if_neg (Int.lt_irrefl _)]
  change headerLoop use_sfs buf 0 eagain d.arrivals = _ at hloop
  simp only [hloop, Option.bind_eq_bind, Option.bind_some, hstring, hs, if_true]
  rfl

/-- The reply line in front of a raw payload. -/
def lengthLine (n : ℕ) : CString := cstr (ascii "OK " ++ decimal n)

theorem isDigit_zero : isDigit 0 = false := rfl
theorem isDigit_newline : isDigit 10 = false := rfl

theorem notMem_lengthLine {b : UInt8} (hdigit : isDigit b = false) (hb : b ∉ ascii "OK ") (n : ℕ) :
    b ∉ ascii "OK " ++ decimal n := by
  intro h
  obtain h | h := List.mem_append.mp h
  · exact hb h
  · rw [isDigit_of_mem_decimal h] at hdigit
    cases hdigit

theorem bytes_lengthLine (n : ℕ) : (lengthLine n).bytes = ascii "OK " ++ decimal n := by
  rw [lengthLine, cstr_bytes, List.takeWhile_eq_self_iff]
  intro b hb
  rw [bne_iff_ne]
  rintro rfl
  exact notMem_lengthLine isDigit_zero (by decide) n hb

theorem length_lengthLine {n : ℕ} (hn : n ≤ LONG_MAX) :
    4 ≤ (lengthLine n).length ∧ (lengthLine n).length ≤ 22 := by
  have hpos := List.length_pos_of_ne_nil (decimal_ne_nil n)
  have hle := length_decimal_le (k := 19) (by decide) (Nat.lt_of_le_of_lt hn (by decide))
  rw [CString.length, bytes_lengthLine, List.length_append,
    show (ascii "OK ").length = 3 from rfl]
  omega

variable (use_sfs eagain buf) in
/-- The loop for the reply line in front of a raw payload. -/
theorem headerLoop_raw (hlen : payload.length ≤ LONG_MAX)
    (hd : Carries d ((lengthLine payload.length).bytes ++ 10 :: payload)) :
    ∃ buf' c p arrivals carried,
      headerLoop use_sfs buf 0 eagain d.arrivals = some (.line buf' c p arrivals) ∧
        Line use_sfs (lengthLine payload.length).bytes payload buf' c p arrivals carried := by
  obtain ⟨hok, hbytes⟩ := hd
  obtain ⟨hlow, hhigh⟩ := length_lengthLine hlen
  have hten : (10 : UInt8) ∉ (lengthLine payload.length).bytes := by
    rw [bytes_lengthLine]
    exact notMem_lengthLine isDigit_newline (by decide) _
  exact headerLoop_spec use_sfs eagain ⟨CString.zero_notMem _, hten⟩ (hhigh.trans (by decide))
    (Or.inl hlow) (at_nil buf 0) (show 0 < BUF_SIZE by decide) hbytes
    (fun _ => Or.inl (Nat.zero_le _)) hok

variable (R use_sfs cmd buf) in
/-- What is done behind such a line. -/
theorem C_ask_line {n c p : ℕ} {arrivals : List Arrival} {buf' : Memory} {carried : List UInt8}
    (hn : n ≤ LONG_MAX) (hloop : headerLoop use_sfs buf 0 eagain d.arrivals
      = some (.line buf' c p arrivals))
    (hline : Line use_sfs (lengthLine n).bytes payload buf' c p arrivals carried) :
    C_ask R use_sfs cmd cmd.length buf eagain d
      = some (if use_sfs then .sock_restore ⟨arrivals, false⟩
        else rawPayload R n buf' (c + 1) p arrivals) := by
  obtain ⟨hlow, hhigh⟩ := length_lengthLine hn
  have hsize : BUF_SIZE = 64 := rfl
  have hstring : stringAt BUF_SIZE buf' 0 = lengthLine n := stringAt_line hline.held (by omega)
  -- the digits behind `OK ` are the length
  have hnumber : atol (stringAt BUF_SIZE buf' 3) = n := by
    have hheld := hline.held
    rw [bytes_lengthLine, List.append_assoc] at hheld
    have hdigits := (at_append.mp hheld).2
    have hzero : (0 : UInt8) ∉ decimal n := fun h => by
      cases isDigit_of_mem_decimal h
    obtain ⟨s, hs⟩ : ∃ s : CString, s.bytes = decimal n := ⟨⟨decimal n, hzero⟩, rfl⟩
    have hat : At buf' 3 (s.bytes ++ 0 :: carried) := hs ▸ hdigits
    rw [stringAt_line hat ?_]
    · exact atol_decimal_self hs hn
    · have hlength : (lengthLine n).length = 3 + s.length := by
        rw [CString.length, bytes_lengthLine, List.length_append, CString.length, hs]
        rfl
      omega
  -- the line is neither of the two without a length
  have hnot : ¬ ((lengthLine n).length = 2 ∨ (lengthLine n).bytes = ascii "UNSUPP") := by
    rintro (h | h)
    · omega
    · rw [bytes_lengthLine] at h
      have hhead : some (79 : UInt8) = some 85 := congrArg List.head? h
      exact absurd hhead (by decide)
  have hok : (ascii "OK ").isPrefixOf (lengthLine n).bytes = true := by
    rw [bytes_lengthLine, List.isPrefixOf_iff_prefix]
    exact List.prefix_append _ _
  -- a length of type `long` is the same as a `size_t`
  have hmod : ((n : ℤ) % 2 ^ 64).toNat = n := by
    have hmax : LONG_MAX = 2 ^ 63 - 1 := rfl
    omega
  rw [C_ask, if_neg (Int.lt_irrefl _)]
  simp only [hloop, Option.bind_eq_bind, Option.bind_some, hstring, hnot, if_false, hok, if_true,
    hnumber, hmod]
  split <;> rfl

variable (R cmd buf) in
/-- **A raw payload** is returned as it is. -/
theorem C_ask_raw (hlen : payload.length ≤ LONG_MAX)
    (hroom : R.allocVector .RAWSXP payload.length = true)
    (hd : Carries d ((lengthLine payload.length).bytes ++ 10 :: payload)) :
    C_ask R false cmd cmd.length buf eagain d = some (.raw payload) := by
  obtain ⟨buf', c, p, arrivals, carried, hloop, hline⟩ := headerLoop_raw false eagain buf hlen hd
  rw [C_ask_line R false cmd buf hlen hloop hline]
  have hcount : min (p - (c + 1)) payload.length = carried.length := by
    rw [hline.pos, hline.eol, ← hline.arriving, List.length_append]
    omega
  have hcarried : read (fun j => buf' (c + 1 + j)) carried.length = carried := by
    have htail := (at_cons.mp (at_append.mp hline.held).2).2
    rw [Nat.zero_add, ← hline.eol] at htail
    exact htail.read_eq
  have hle : carried.length ≤ payload.length := by
    rw [← hline.arriving, List.length_append]
    omega
  have hrest : (arrivals.flatMap Arrival.bytes).length = payload.length - carried.length := by
    rw [← hline.arriving, List.length_append]
    omega
  have hspec := recvLoop_spec (show 0 < FETCH_SIZE by decide) carried payload.length arrivals hle
    hline.delivers
  rw [if_neg (by omega)] at hspec
  obtain ⟨d', -, -, hrun⟩ := hspec
  rw [List.take_of_length_le (Nat.le_of_eq hrest), hline.arriving] at hrun
  simp only [Bool.false_eq_true, if_false, rawPayload, hroom, if_true, hcount, hcarried, hrun]

variable (R cmd buf) in
/-- **`sock_restore` is called** when exactly the payload is still to arrive. -/
theorem C_ask_sfs (hlen : payload.length ≤ LONG_MAX)
    (hd : Carries d ((lengthLine payload.length).bytes ++ 10 :: payload)) :
    ∃ d', Carries d' payload ∧
      C_ask R true cmd cmd.length buf eagain d = some (.sock_restore d') := by
  obtain ⟨buf', c, p, arrivals, carried, hloop, hline⟩ := headerLoop_raw true eagain buf hlen hd
  have harriving := hline.arriving
  rw [hline.whole rfl, List.nil_append] at harriving
  exact ⟨⟨arrivals, false⟩, ⟨hline.delivers, harriving⟩,
    C_ask_line R true cmd buf hlen hloop hline⟩

end Answers

end Client
end Osrv
