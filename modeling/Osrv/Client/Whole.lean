import Osrv.Client.Agree
import Osrv.Client.Close
import Osrv.Net.Offers

/-!
# Raw results

What `C_ask` returns as a raw vector, for every stream of bytes, delivered in any pieces
and with any timeouts and errors: the bytes behind a line `OK x`, as many of them as
`atol` makes of `x` (`C_ask_raw_sound`).

The server announces the length of an entry that it holds as bytes, so that such a vector
is the payload and the whole of it. An entry that was stored for serialisation is announced
by a question mark, of which `atol` makes zero. A client that does not ask for the value
gets an empty vector (`raw_result_whole_iff`).
-/

namespace Osrv
namespace Client

open Bytes Net Obj Sfs Tcp

/-! ### What a client accepts -/

section Accept

variable {R : Runtime} {use_sfs eagain : Bool} {buf : Memory} {arrivals : List Arrival}
  {got : List UInt8}

/-- **A line that the loop has received** is at the start of the stream. -/
theorem headerLoop_sound (hat : At buf 0 got) (hfit : got.length < BUF_SIZE) {buf' : Memory}
    {c p : ℕ} {arrivals' : List Arrival}
    (hrun : headerLoop use_sfs buf got.length eagain arrivals = some (.line buf' c p arrivals')) :
    ∃ head carried, IsLine head ∧ c = head.length ∧ p = head.length + 1 + carried.length ∧
      p < BUF_SIZE ∧ At buf' 0 (head ++ 0 :: carried) ∧
      head ++ 10 :: (carried ++ arrivals'.flatMap Arrival.bytes)
        = got ++ arrivals.flatMap Arrival.bytes := by
  have hsize : BUF_SIZE = 64 := rfl
  induction hm : (arrivals.flatMap Arrival.bytes).length + arrivals.length
    using Nat.strong_induction_on generalizing buf got arrivals eagain with
  | _ m ih =>
  obtain ⟨buf₁, c₁, hfind, hat₁, -, hline⟩ := findEol_spec hat hfit
  rw [headerLoop.eq_def, hfind] at hrun
  cases c₁ with
  -- the line is there: what is behind it has been received already
  | some c₁ =>
    obtain ⟨head, carried, rfl, hhead, rfl⟩ := hline c₁ rfl
    cases hrun
    have hlen : (head ++ 10 :: carried).length = head.length + 1 + carried.length := by
      rw [List.length_append, List.length_cons]
      omega
    refine ⟨head, carried, hhead, rfl, hlen, hfit, ?_, ?_⟩
    -- its end has become the NUL
    · exact hat₁.replace (Nat.zero_add _).symm 0
    · rw [List.append_assoc, List.cons_append]
  -- the loop goes on, and each of its errors is no line
  | none =>
    simp only at hrun
    by_cases hlong : got.length > BUF_SIZE - 8
    · rw [if_pos hlong] at hrun
      cases hrun
    · rw [if_neg hlong] at hrun
      cases arrivals with
      | nil =>
        cases eagain with
        | true => cases hrun
        | false => cases hrun
      | cons a rest =>
        rw [List.flatMap_cons, List.length_append, List.length_cons] at hm
        cases a with
        | failed e => cases hrun
        -- a retry receives nothing
        | again =>
          have hrest : headerLoop use_sfs buf₁ got.length true rest
              = some (.line buf' c p arrivals') := hrun
          have hsound := ih _ (by omega) hat₁ hfit hrest rfl
          exact hsound
        | data seg =>
          obtain ⟨hpos, hroom, hless⟩ := piece_received use_sfs (Nat.not_lt.mp hlong) seg rest
          simp only [dif_neg (List.ne_nil_of_length_pos hpos)] at hrun
          have hlen : (got ++ seg.1.take (ask use_sfs got.length)).length
              = got.length + (seg.1.take (ask use_sfs got.length)).length := List.length_append
          rw [← hlen] at hrun hroom
          obtain ⟨head, carried, hhead, hc, hp, hpfit, hheld, hbytes⟩ :=
            ih _ (hm ▸ hless) (hat₁.write_end (Nat.zero_add _).symm _) hroom hrun rfl
          -- the piece and what is put back are what has arrived
          refine ⟨head, carried, hhead, hc, hp, hpfit, hheld, hbytes.trans ?_⟩
          rw [List.append_assoc, take_putBack]

/-- What has been got is at the start of what arrives. -/
theorem recvLoop_sound {max len : ℕ} {bs : List UInt8} {d : Descriptor} (hle : got.length ≤ len)
    (hrun : recvLoop max got len arrivals = .got bs d) :
    bs.length = len ∧ bs <+: got ++ arrivals.flatMap Arrival.bytes := by
  induction hm : len - got.length + arrivals.length using Nat.strong_induction_on
    generalizing got arrivals with
  | _ m ih =>
  rw [recvLoop.eq_def] at hrun
  by_cases hlen : len ≤ got.length
  -- all has been got
  · rw [dif_pos hlen] at hrun
    cases hrun
    exact ⟨Nat.le_antisymm hle hlen, List.prefix_append _ _⟩
  · rw [dif_neg hlen] at hrun
    cases arrivals with
    | nil => cases hrun
    | cons a rest =>
      rw [List.length_cons] at hm
      cases a with
      | failed e => cases hrun
      -- a retry gets nothing
      | again =>
        have hrest : recvLoop max got len rest = .got bs d := hrun
        have hsound := ih _ (by omega) hle hrest rfl
        exact hsound
      | data seg =>
        simp only at hrun
        split at hrun
        · cases hrun
        · next hgot =>
          have hpos := List.length_pos_of_ne_nil hgot
          have hback := length_putBack_le (seg.1.drop (need max (len - got.length))) rest
          -- no more is asked for than is missing
          have hneed : need max (len - got.length) ≤ len - got.length := by
            unfold need
            split <;> omega
          have htake : (seg.1.take (need max (len - got.length))).length
              ≤ need max (len - got.length) := List.length_take_le _ _
          obtain ⟨hlength, hprefix⟩ := ih _ (by rw [← hm, List.length_append]; omega)
            (by rw [List.length_append]; omega) hrun rfl
          refine ⟨hlength, ?_⟩
          rw [List.append_assoc, take_putBack] at hprefix
          exact hprefix

/-- **What `C_ask` returns as a raw vector**, whatever arrives: the bytes behind a line
`OK x`, as many as the number at the start of `x` says. -/
theorem C_ask_raw_sound {cmd : List UInt8} {n : ℤ} {eagain : Bool} {d : Descriptor}
    {bs : List UInt8} (h : C_ask R false cmd n buf eagain d = some (.raw bs)) :
    ∃ s : CString, 10 ∉ s.bytes ∧ ascii "OK " ++ s.bytes ++ 10 :: bs <+: d.bytes ∧
      R.allocVector .RAWSXP bs.length = true ∧ bs.length = (atol s % 2 ^ 64).toNat := by
  have hsize : BUF_SIZE = 64 := rfl
  rw [C_ask] at h
  split at h
  · cases h
  simp only [Option.bind_eq_bind, Option.bind_eq_some_iff] at h
  obtain ⟨header, hloop, h⟩ := h
  cases header with
  | error => cases h
  | spins => cases h
  | line buf' c p arrivals =>
    obtain ⟨head, carried, hhead, rfl, rfl, hp, hheld, hbytes⟩ :=
      headerLoop_sound (at_nil buf 0) (show 0 < BUF_SIZE by decide) hloop
    rw [List.nil_append] at hbytes
    simp only [Bool.false_eq_true, if_false] at h
    -- the line in the buffer
    obtain ⟨s₀, hs₀⟩ : ∃ s₀ : CString, s₀.bytes = head := ⟨⟨head, hhead.1⟩, rfl⟩
    have hstring : stringAt BUF_SIZE buf' 0 = s₀ :=
      stringAt_line (hs₀.symm ▸ hheld) (by rw [CString.length, hs₀]; omega)
    rw [hstring] at h
    split at h
    · cases h
    split at h
    · next hok =>
      rw [hs₀, List.isPrefixOf_iff_prefix] at hok
      obtain ⟨x, rfl⟩ := hok
      have hx : (0 : UInt8) ∉ x := fun hmem => hhead.1 (List.mem_append_right _ hmem)
      obtain ⟨s, rfl⟩ : ∃ s : CString, s.bytes = x := ⟨⟨x, hx⟩, rfl⟩
      have hlen : (ascii "OK " ++ s.bytes).length = 3 + s.length := List.length_append
      have hnumber : stringAt BUF_SIZE buf' 3 = s := by
        have htail := (at_append.mp (List.append_assoc .. ▸ hheld)).2
        exact stringAt_line htail (by omega)
      rw [hnumber, rawPayload] at h
      have hcarried := (at_cons.mp (at_append.mp hheld).2).2
      rw [Nat.zero_add] at hcarried
      generalize hpl : (atol s % 2 ^ 64).toNat = pl at h
      split at h
      · next halloc =>
        have hcount : (ascii "OK " ++ s.bytes).length + 1 + carried.length
            - ((ascii "OK " ++ s.bytes).length + 1) = carried.length := by omega
        simp only [hcount, hcarried.read_take (Nat.min_le_left _ _)] at h
        cases hrecv : recvLoop FETCH_SIZE (carried.take (min carried.length pl)) pl arrivals with
        | failed part e d' =>
          rw [hrecv] at h
          cases h
        | got bs' d' =>
          rw [hrecv] at h
          cases h
          have htake : (carried.take (min carried.length pl)).length = min carried.length pl :=
            List.length_take_of_le (Nat.min_le_left _ _)
          obtain ⟨hlength, hprefix⟩ := recvLoop_sound (by omega) hrecv
          refine ⟨s, fun hmem => hhead.2 (List.mem_append_right _ hmem), ?_, hlength ▸ halloc,
            hlength.trans hpl.symm⟩
          -- the bytes carried over are the first ones, or all
          have hfront : bs <+: carried ++ arrivals.flatMap Arrival.bytes := by
            rcases Nat.le_total carried.length pl with hle | hle
            · rw [Nat.min_eq_left hle, List.take_length] at hprefix
              exact hprefix
            · rw [Nat.min_eq_right hle] at hprefix htake
              have hshort : bs <+: carried.take pl :=
                List.prefix_of_prefix_length_le hprefix (List.prefix_append _ _) (by omega)
              exact (hshort.trans (List.take_prefix _ _)).trans (List.prefix_append _ _)
          show _ <+: d.arrivals.flatMap Arrival.bytes
          rw [← hbytes]
          exact (List.prefix_append_right_inj _).mpr ((List.prefix_cons_inj _).mpr hfront)
      · cases h
    · cases h

end Accept

/-! ### What the server replies -/

section Reply

variable {send : SendFn} {key : CString} {w w' : World} {flow : Flow} {out : List UInt8}

/-- How much of a buffer goes out. -/
theorem send_buf_front (send : SendFn) (w : World) (buf : List UInt8) :
    ∃ front, front <+: buf ∧ (send_buf send w buf).2.conn.out = w.conn.out ++ front ∧
      ((send_buf send w buf).1 = 0 → front = buf) ∧
      ((send_buf send w buf).1 ≠ 0 → front.length < buf.length) := by
  have hsent : Outcome send (offers send Tcp.MAX_SEND w.conn buf) w.conn buf
      (sendAll send Tcp.MAX_SEND w.conn buf) := sendAll_outcome w.conn buf
  rw [send_buf]
  generalize sendAll send Tcp.MAX_SEND w.conn buf = r at hsent
  cases hsent with
  | sent accepted out => exact ⟨buf, List.prefix_rfl, out, fun _ => rfl, fun h => absurd rfl h⟩
  | stopped mem refused result isFront short out =>
    exact ⟨_, isFront, out, fun h => absurd h result, fun _ => short⟩

/-- The entry of a key is one that has to be serialised. -/
def Serialised (key : CString) (w : World) : Prop :=
  ∃ o store cell, obj_get key false w.store = some (some o, store) ∧
    store.heap.load o = some cell ∧ cell.val.obj = none

/-- The reply line in front of a serialised value. -/
def serialisedLine : List UInt8 := ascii "OK ?\n"

/-- **The replies to a `GET`**, as far as they go out. -/
inductive GetReply (send : SendFn) (key : CString) (w : World) (out : List UInt8) : Prop
  | missing (bytes : ¬ Serialised key w) (h : out <+: NF)
  | raw (bytes : ¬ Serialised key w) (payload : List UInt8) (h : out <+: rawReply payload)
  | unsent (sent : (send_buf send w serialisedLine).1 ≠ 0) (h : out <+: serialisedLine)
      (short : out.length < serialisedLine.length)
  | serialised (serialised : Serialised key w) (sent : (send_buf send w serialisedLine).1 = 0)
      (rest : List UInt8) (h : out = serialisedLine ++ rest)

/-- A reply of one buffer. -/
theorem reply_front {buf : List UInt8} (hreply : reply send w buf = (flow, w'))
    (hout : w'.conn.out = w.conn.out ++ out) : out <+: buf := by
  obtain ⟨front, hfront, hsent, -⟩ := send_buf_front send w buf
  rw [reply] at hreply
  obtain rfl : (send_buf send w buf).2 = w' := (Prod.mk.inj hreply).2
  rw [List.append_cancel_left (hout.symm.trans hsent)]
  exact hfront

theorem get_reply (hget : get send false key w = some (flow, w'))
    (hout : w'.conn.out = w.conn.out ++ out) : GetReply send key w out := by
  rw [Tcp.get] at hget
  simp only [Option.bind_eq_bind, Option.bind_eq_some_iff] at hget
  obtain ⟨⟨o, store⟩, hfind, hget⟩ := hget
  cases o with
  | none =>
    -- there is no entry, and `NF` or a front of it goes out
    refine .missing ?_ ?_
    · rintro ⟨o, store', cell, hfind', -⟩
      rw [hfind] at hfind'
      cases hfind'
    · exact reply_front (w := { w with store := store }) (Option.some.inj hget) hout
  | some o =>
    simp only [Bool.false_eq_true, if_false, Option.bind_eq_some_iff] at hget
    obtain ⟨cell, hload, hget⟩ := hget
    cases hobj : cell.val.obj with
    | none =>
      -- the entry has a value, which follows the line `OK ?`
      have hser : Serialised key w := ⟨o, store, cell, hfind, hload, hobj⟩
      obtain ⟨front, hfront, hsent, hwhole, hshort⟩ :=
        send_buf_front send { w with store := store } serialisedLine
      have hsame : (send_buf send w serialisedLine).1
          = (send_buf send { w with store := store } serialisedLine).1 := rfl
      simp only [hobj] at hget
      rw [← show serialisedLine = ascii "OK ?\n" from rfl] at hget
      generalize send_buf send { w with store := store } serialisedLine = r
        at hget hsent hwhole hshort hsame
      obtain ⟨res, w₁⟩ := r
      simp only at hget hsent hwhole hshort hsame
      split at hget
      · next hres =>
        -- the line was cut short, and nothing follows it
        obtain rfl : w₁ = w' := (Prod.mk.inj (Option.some.inj hget)).2
        rw [List.append_cancel_left (hout.symm.trans hsent)]
        exact .unsent (hsame ▸ hres) hfront (hshort hres)
      · next hres =>
        rw [not_not] at hres
        obtain rfl := hwhole hres
        simp only [Option.bind_eq_some_iff] at hget
        obtain ⟨sWhat, -, hget⟩ := hget
        -- the value goes out behind the line, all of it or not
        have hextends : w.conn.out ++ serialisedLine <+: w'.conn.out := by
          have hstored := fd_store_extends send w₁.conn sWhat
          rw [hsent] at hstored
          cases hfd : fd_store send w₁.conn sWhat with
          | ok conn =>
            simp only [hfd] at hget hstored
            obtain rfl := (Prod.mk.inj (Option.some.inj hget)).2
            exact hstored
          | error conn =>
            simp only [hfd] at hget hstored
            obtain rfl := (Prod.mk.inj (Option.some.inj hget)).2
            exact hstored
        obtain ⟨rest, hrest⟩ := hextends
        rw [hout, List.append_assoc] at hrest
        exact .serialised hser (hsame.trans hres) rest (List.append_cancel_left hrest).symm
    | some obj =>
      -- the entry has bytes, so the reply announces their number
      have hnot : ¬ Serialised key w := by
        rintro ⟨o', store', cell', hfind', hload', hobj'⟩
        rw [hfind] at hfind'
        cases hfind'
        rw [hload] at hload'
        cases hload'
        rw [hobj] at hobj'
        cases hobj'
      simp only [hobj] at hget
      obtain ⟨front, hfront, hsent, hwhole, -⟩ :=
        send_buf_front send { w with store := store } (ascii "OK " ++ decimal cell.val.len ++ [10])
      change (if (send_buf send { w with store := store }
        (ascii "OK " ++ decimal cell.val.len ++ [10])).1 ≠ 0 then _ else _) = _ at hget
      split at hget
      · -- the reply line does not go out
        obtain rfl : (send_buf send { w with store := store }
            (ascii "OK " ++ decimal cell.val.len ++ [10])).2 = w' :=
          (Prod.mk.inj (Option.some.inj hget)).2
        rw [List.append_cancel_left (hout.symm.trans hsent)]
        -- any payload of that length would do
        refine .raw hnot (List.replicate cell.val.len 0) (hfront.trans ?_)
        rw [rawReply, List.length_replicate]
        exact List.prefix_append _ _
      · next hres =>
        obtain rfl := hwhole (not_not.mp hres)
        split at hget
        · cases hget
        · next hlen =>
          -- the line is out, and as much of the bytes as the sends have taken
          have htake : (obj.take cell.val.len).length = cell.val.len :=
            List.length_take_of_le (by omega)
          generalize (send_buf send { w with store := store }
            (ascii "OK " ++ decimal cell.val.len ++ [10])).2 = w₁ at hget hsent
          obtain ⟨front, hfront₂, hsent₂, -⟩ := send_buf_front send w₁ (obj.take cell.val.len)
          obtain rfl : (send_buf send w₁ (obj.take cell.val.len)).2 = w' :=
            (Prod.mk.inj (Option.some.inj hget)).2
          rw [hsent, List.append_assoc] at hsent₂
          rw [List.append_cancel_left (hout.symm.trans hsent₂)]
          refine .raw hnot (obj.take cell.val.len) ?_
          rw [rawReply, htake]
          exact (List.prefix_append_right_inj _).mpr hfront₂

end Reply

/-! ### Raw results are whole -/

/-- What R does for vectors of bytes: an empty one can be had, and none is longer than the
longest vector. -/
structure AllocatesRaw (R : Runtime) : Prop where
  empty : R.allocVector .RAWSXP 0 = true
  max : ∀ n, R.allocVector .RAWSXP n = true → n ≤ R_XLEN_T_MAX

/-- **A raw result is the whole payload** of a reply that is announced by its length in
decimal digits, however much of the reply arrives, in whatever pieces and with whatever
timeouts and errors. -/
def RawWhole (R : Runtime) (out : List UInt8) : Prop :=
  ∀ cmd n buf eagain d bs, d.bytes <+: out → C_ask R false cmd n buf eagain d = some (.raw bs) →
    out = rawReply bs

section Whole

variable {R : Runtime} {out : List UInt8}

/-- A line that is at the start of a reply with a line is that line. -/
theorem line_unique {x y bs rest : List UInt8} (hx : (10 : UInt8) ∉ x) (hy : (10 : UInt8) ∉ y)
    (h : x ++ 10 :: bs <+: y ++ 10 :: rest) : x = y ∧ bs <+: rest := by
  obtain ⟨t, ht⟩ := h
  rw [List.append_assoc, List.cons_append] at ht
  obtain ⟨a, hya, hr⟩ | ⟨a, hxa, hr⟩ := List.append_eq_append_iff.mp ht
  · cases a with
    | nil =>
      rw [List.append_nil] at hya
      exact ⟨hya.symm, t, (List.cons.inj hr).2⟩
    | cons b a =>
      obtain rfl : 10 = b := (List.cons.inj hr).1
      exact absurd (hya ▸ List.mem_append_right x List.mem_cons_self) hy
  · cases a with
    | nil =>
      rw [List.append_nil] at hxa
      exact ⟨hxa, t, (List.cons.inj hr).2.symm⟩
    | cons b a =>
      obtain rfl : 10 = b := (List.cons.inj hr).1
      exact absurd (hxa ▸ List.mem_append_right y List.mem_cons_self) hx

theorem newline_notMem_ok {s : CString} (hs : (10 : UInt8) ∉ s.bytes) :
    (10 : UInt8) ∉ ascii "OK " ++ s.bytes := by
  rw [List.mem_append, not_or]
  exact ⟨by decide, hs⟩

/-- A reply with a length and a payload. -/
theorem rawWhole_raw (hR : AllocatesRaw R) {payload : List UInt8}
    (hout : out <+: rawReply payload) : RawWhole R out := by
  intro cmd n buf eagain d bs hd hask
  obtain ⟨s, hten, hfront, halloc, hlen⟩ := C_ask_raw_sound hask
  have hdecimal : (10 : UInt8) ∉ ascii "OK " ++ decimal payload.length :=
    notMem_lengthLine isDigit_newline (by decide) _
  have hreply : rawReply payload
      = ascii "OK " ++ decimal payload.length ++ 10 :: payload := by
    rw [rawReply, List.append_assoc, List.singleton_append]
  have hall := (hfront.trans hd).trans hout
  rw [hreply] at hall
  obtain ⟨hline, hbs⟩ := line_unique (newline_notMem_ok hten) hdecimal hall
  have hs : s.bytes = decimal payload.length := List.append_cancel_left hline
  -- a length beyond the greatest `long` is not allocated
  have hmax := hR.max _ halloc
  have hle : R_XLEN_T_MAX < LONG_MAX := by decide
  have hatol : atol s = (min payload.length LONG_MAX : ℕ) := by
    obtain ⟨b, digits, hb⟩ := List.exists_cons_of_ne_nil (decimal_ne_nil payload.length)
    have hdigit : isDigit b = true := isDigit_of_mem_decimal (hb ▸ List.mem_cons_self)
    have hself : (decimal payload.length).takeWhile isDigit = decimal payload.length :=
      List.takeWhile_eq_self_iff.mpr fun _ => isDigit_of_mem_decimal
    rw [atol_digit (hs.trans hb) hdigit, hs, hself, decVal_decimal]
  have hwhole : bs.length = payload.length := by
    rw [hatol] at hlen
    have hlong : LONG_MAX = 2 ^ 63 - 1 := rfl
    omega
  obtain rfl : bs = payload := hbs.eq_of_length hwhole
  refine List.IsPrefix.eq_of_length_le hout ?_
  rw [hreply, ← hs]
  exact (hfront.trans hd).length_le

/-- A reply without a payload. -/
theorem rawWhole_of_short (h : ∀ x bs, (10 : UInt8) ∉ x → ¬ ascii "OK " ++ x ++ 10 :: bs <+: out) :
    RawWhole R out := by
  intro cmd n buf eagain d bs hd hask
  obtain ⟨s, hten, hfront, -⟩ := C_ask_raw_sound hask
  exact absurd (hfront.trans hd) (h _ _ hten)

/-- **A question mark for a length** is taken for zero. -/
theorem C_ask_questionMark (hR : AllocatesRaw R) (cmd rest : List UInt8) (buf : Memory)
    (eagain : Bool) {d : Descriptor} (hd : Carries d (serialisedLine ++ rest)) :
    C_ask R false cmd cmd.length buf eagain d = some (.raw []) := by
  obtain ⟨hok, hbytes⟩ := hd
  have hhead : IsLine (ascii "OK ?") := ⟨by decide, by decide⟩
  obtain ⟨buf', c, p, arrivals, carried, hloop, hline⟩ :=
    headerLoop_spec false eagain hhead (by decide) (Or.inl (by decide))
      (at_nil buf 0) (show 0 < BUF_SIZE by decide) hbytes (fun h => by cases h) hok
  have hheld := hline.held
  have hstring : stringAt BUF_SIZE buf' 0 = cstr (ascii "OK ?") :=
    stringAt_line (s := cstr (ascii "OK ?")) hheld (by decide)
  have hnumber : stringAt BUF_SIZE buf' 3 = cstr (ascii "?") := by
    have htail := (at_append.mp (show At buf' 0 (ascii "OK " ++ (ascii "?" ++ 0 :: carried)) from
      hheld)).2
    exact stringAt_line (s := cstr (ascii "?")) htail (by decide)
  have hzero : (atol (cstr (ascii "?")) % 2 ^ 64).toNat = 0 := by decide
  have hline' : ¬ ((cstr (ascii "OK ?")).length = 2 ∨
      (cstr (ascii "OK ?")).bytes = ascii "UNSUPP") := by decide
  have hprefix : (ascii "OK ").isPrefixOf (cstr (ascii "OK ?")).bytes = true := by decide
  rw [C_ask, if_neg (Int.lt_irrefl _)]
  change headerLoop false buf 0 eagain d.arrivals = _ at hloop
  have hnone : recvLoop FETCH_SIZE [] 0 arrivals = .got [] ⟨arrivals, false⟩ := by
    rw [recvLoop.eq_def, dif_pos (Nat.zero_le _)]
  simp only [hloop, Option.bind_eq_bind, Option.bind_some, hstring, hline', if_false, hprefix,
    if_true, Bool.false_eq_true, hnumber, hzero, rawPayload, hR.empty, Nat.min_zero, read_zero,
    hnone]
  rfl

theorem not_rawWhole_questionMark (hR : AllocatesRaw R) (rest : List UInt8) :
    ¬ RawWhole R (serialisedLine ++ rest) := by
  intro hwhole
  have hne : serialisedLine ++ rest ≠ [] := by
    simp [serialisedLine, ascii]
  have hbytes : (⟨[.data ⟨serialisedLine ++ rest, hne⟩], false⟩ : Descriptor).bytes
      = serialisedLine ++ rest := List.append_nil _
  have hask := C_ask_questionMark hR [] rest (fun _ => 0) false
    (d := ⟨[.data ⟨serialisedLine ++ rest, hne⟩], false⟩) ⟨by simp [Descriptor.Delivers], hbytes⟩
  have heq := hwhole [] _ _ _ _ [] (by rw [hbytes]) hask
  -- the length of an empty vector has no question mark
  have hmark : (63 : UInt8) ∈ rawReply [] := by
    rw [← heq]
    exact List.mem_append_left rest (by decide)
  rw [rawReply, List.append_nil, List.mem_append, List.mem_append] at hmark
  rcases hmark with (hok | hdigit) | hend
  · exact absurd hok (by decide)
  · exact absurd (isDigit_of_mem_decimal hdigit) (by decide)
  · exact absurd hend (by decide)

end Whole

/-- **Raw results of a `GET`.** For every reply that the server can send, the client that asks
for bytes gets a raw vector only if it is the whole payload of a reply that is announced
by its length in decimal digits: this is so exactly if the entry is not one that has to be
serialised, or the line that says so does not go out. -/
theorem raw_result_whole_iff {R : Runtime} (hR : AllocatesRaw R) {send : SendFn} {key : CString}
    {w w' : World} {flow : Flow} {out : List UInt8}
    (hget : Tcp.get send false key w = some (flow, w')) (hout : w'.conn.out = w.conn.out ++ out) :
    RawWhole R out ↔
      ¬ (Serialised key w ∧ (send_buf send w serialisedLine).1 = 0) := by
  cases get_reply hget hout with
  | missing bytes h =>
    refine iff_of_true (rawWhole_of_short fun x bs _ hfront => ?_) fun hser => bytes hser.1
    have hhead := (hfront.trans h).length_le
    have hlen : NF.length = 3 := rfl
    have hok : (ascii "OK ").length = 3 := rfl
    simp only [List.length_append, List.length_cons] at hhead
    omega
  | raw bytes payload h => exact iff_of_true (rawWhole_raw hR h) fun hser => bytes hser.1
  | unsent sent h short =>
    refine iff_of_true (rawWhole_of_short fun x bs hx hfront => ?_) fun hser => sent hser.2
    -- the newline is the last byte of the line
    have hall : ascii "OK " ++ x ++ 10 :: bs <+: ascii "OK ?" ++ 10 :: [] := hfront.trans h
    obtain ⟨heq, -⟩ := line_unique (by rw [List.mem_append, not_or]; exact ⟨by decide, hx⟩)
      (by decide) hall
    have hlen := hfront.length_le
    rw [heq, List.length_append, List.length_cons] at hlen
    have hline : serialisedLine.length = 5 := rfl
    have hfour : (ascii "OK ?").length = 4 := rfl
    omega
  | serialised serialised sent rest h =>
    rw [h]
    exact iff_of_false (not_rawWhole_questionMark hR rest) fun hnot => hnot ⟨serialised, sent⟩

/-- A runtime with memory for every vector that R can have. -/
def Runtime.bounded : Runtime where
  allocVector _ n := n ≤ R_XLEN_T_MAX
  malloc _ n := some (List.replicate n 0)

theorem bounded_allocates : AllocatesRaw Runtime.bounded where
  empty := rfl
  max _ h := of_decide_eq_true h

theorem raw_result_whole_seven :
    ∃ flow w', Tcp.get .whole false (cstr [107]) ⟨⟨[], .waiting⟩, ⟨0, []⟩, withSeven, 0⟩
        = some (flow, w') ∧
      (RawWhole Runtime.bounded w'.conn.out ↔
        ¬ (Serialised (cstr [107]) ⟨⟨[], .waiting⟩, ⟨0, []⟩, withSeven, 0⟩ ∧
          (send_buf .whole ⟨⟨[], .waiting⟩, ⟨0, []⟩, withSeven, 0⟩ serialisedLine).1 = 0)) := by
  have hload : withSeven.heap.load 0
      = some ⟨⟨1, some [7], some (rawVector [7]), cstr [107]⟩, none⟩ := rfl
  have hfind : obj_get (cstr [107]) false withSeven = some (some 0, withSeven) := rfl
  obtain ⟨calls, hget⟩ := get_raw (w := ⟨⟨[], .waiting⟩, ⟨0, []⟩, withSeven, 0⟩)
    SendFn.whole_succeeds hfind hload rfl rfl
  exact ⟨_, _, hget, raw_result_whole_iff bounded_allocates hget rfl⟩

/-- The same vector, put for serialisation. -/
def serialisedSeven : Objects := C_put (cstr [107]) (rawVector [7]) true .init

/-- The client gets an empty vector for it. -/
theorem raw_result_empty :
    ∃ flow w', Tcp.get .whole false (cstr [107]) ⟨⟨[], .waiting⟩, ⟨0, []⟩, serialisedSeven, 0⟩
        = some (flow, w') ∧
      ¬ RawWhole Runtime.bounded w'.conn.out := by
  have hload : serialisedSeven.heap.load 0
      = some ⟨⟨0, none, some (rawVector [7]), cstr [107]⟩, none⟩ := rfl
  have hfind : obj_get (cstr [107]) false serialisedSeven = some (some 0, serialisedSeven) := rfl
  obtain ⟨calls, hline⟩ := sendAll_ok SendFn.whole_succeeds (show 0 < Tcp.MAX_SEND by decide)
    ⟨0, []⟩ serialisedLine
  have hsent : send_buf .whole ⟨⟨[], .waiting⟩, ⟨0, []⟩, serialisedSeven, 0⟩ serialisedLine
      = (0, ⟨⟨[], .waiting⟩, ⟨calls, serialisedLine⟩, serialisedSeven, 0⟩) := by
    rw [send_buf, hline]
    rfl
  have hget : ∃ flow w', Tcp.get .whole false (cstr [107])
      ⟨⟨[], .waiting⟩, ⟨0, []⟩, serialisedSeven, 0⟩ = some (flow, w') := by
    rw [Tcp.get]
    simp only [hfind, hload, Option.bind_eq_bind, Option.bind_some, Bool.false_eq_true, if_false]
    rw [← show serialisedLine = ascii "OK ?\n" from rfl, hsent]
    simp only [ne_eq, not_true_eq_false, if_false]
    cases fd_store .whole ⟨calls, serialisedLine⟩ (rawVector [7]) with
    | ok conn => exact ⟨_, _, rfl⟩
    | error conn => exact ⟨_, _, rfl⟩
  obtain ⟨flow, w', hget⟩ := hget
  refine ⟨flow, w', hget, ?_⟩
  have hser : Serialised (cstr [107]) ⟨⟨[], .waiting⟩, ⟨0, []⟩, serialisedSeven, 0⟩ :=
    ⟨0, _, _, hfind, hload, rfl⟩
  cases get_reply hget (List.nil_append _).symm with
  | missing bytes h => exact absurd hser bytes
  | raw bytes payload h => exact absurd hser bytes
  | unsent sent h short => exact absurd (congrArg Prod.fst hsent) sent
  | serialised serialised sent rest h =>
    rw [h]
    exact not_rawWhole_questionMark bounded_allocates rest

end Client
end Osrv
