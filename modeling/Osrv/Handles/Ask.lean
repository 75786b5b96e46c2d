import Osrv.Client.Close
import Osrv.Handles.Fetch

/-!
# Every exit of `C_ask`

`C_ask` of `ocli.c` from the first check of its arguments on, with each of its exits and
the calls of `closesocket` in front of it.

Four exits leave the socket open: no connection, a command that is too long a vector to have
its length taken, a payload for which R has no memory, and an error that the decoder raises in
`sock_restore`. On all others, and when the call returns, the socket has been closed, and
once (`descriptors_closed_iff`). The user interrupts nothing.
-/

namespace Osrv
namespace Handles

open Bytes Lib Net Sfs
open Client (BUF_SIZE FETCH_SIZE Header findEol headerLoop)

/-! ### What `C_ask` is given -/

/-- The command: a raw vector, or a string. -/
inductive Command
  | raw (bs : List UInt8)
  | string (s : CString)

/-- What the calls of the system come to. An error comes with the text of `errno`, which is
empty when `errno` is zero. -/
structure Outcomes where
  socket : Except String Unit
  /-- The host is an address. -/
  inet_pton : Bool
  gethostbyname : Bool
  connect : Except String Unit
  send : ℤ
  /-- The text of `errno` behind `send`. -/
  strerror : String
  /-- `errno` is `EAGAIN` in front of the reply. -/
  eagain : Bool
  arrivals : List Arrival

/-- What `C_ask` returns. -/
inductive Reply
  | string (s : CString)
  | raw (bs : List UInt8)
  | value (v : SEXP)

def Command.bytes : Command → List UInt8
  | .raw bs => bs
  | .string s => s.bytes

def closesocket : Call Unit := close

/-! ### The connection and the command -/

variable (o : Outcomes)

/-- The address of the host. -/
def resolve (host : CString) : Call Unit :=
  if o.inet_pton then pure ()
  -- not an address: the name is looked up
  else if o.gethostbyname then pure ()
  else do
    closesocket
    rf_error (ascii "Cannot resolve host '" ++ host.bytes ++ ascii "'")

def connect (host : CString) (port : ℤ) : Call Unit :=
  match o.connect with
  | .ok () => pure ()
  -- the socket is not closed here
  | .error e =>
    rf_error (ascii "Unable to connect to " ++ host.bytes ++ ascii ":" ++ decimal port.toNat ++
      ascii " " ++ ascii e)

/-- The lengths of R's vectors for which there is `LENGTH`. -/
def R_SHORT_LEN_MAX : ℕ := 2 ^ 31 - 1

/-- The length of the command. `LENGTH` raises an error for a long vector. -/
def Command.length : Command → Call ℕ
  | .raw bs =>
    if bs.length > R_SHORT_LEN_MAX then rf_error (ascii "long vectors not supported yet")
    else pure bs.length
  | .string s => pure s.length

def sendCommand (cmd : Command) : Call Unit := do
  let l ← cmd.length
  if o.send < l then do
    closesocket
    if o.send < 0 then rf_error (ascii "Error sending command " ++ ascii o.strerror)
    else rf_error (ascii "Error sending command, could only send " ++ decimal o.send.toNat ++
      ascii " of " ++ decimal l ++ ascii " bytes")
  else pure ()

/-! ### The reply -/

/-- The reply line in the buffer: its end, and the end of what has been received. -/
structure Line where
  buf : Memory
  c : ℕ
  p : ℕ

/-- The loop for the reply line. `eagain` is what an earlier call has left in `errno`. -/
def replyLoop (use_sfs : Bool) (buf : Memory) (p : ℕ) (eagain : Bool)
    (arrivals : List Arrival) : Call Line :=
  match findEol buf p with
  | none => throw .overrun
  -- the newline becomes the end of the string
  | some (buf, some c) => do
    modify fun h => { h with arrivals := arrivals }
    return ⟨write buf c [0], c, p⟩
  | some (buf, none) =>
    if p > BUF_SIZE - 8 then do
      closesocket
      rf_error (ascii "Invalid response: " ++ (stringAt BUF_SIZE buf 0).bytes)
    else
      match arrivals with
      | [] =>
        if eagain then throw .spins
        else do
          closesocket
          rf_error (ascii "Connection closed unexpectedly")
      -- a timeout, so that R can look for interrupts
      | .again :: rest => replyLoop use_sfs buf p true rest
      | .failed e :: _ => do
        closesocket
        rf_error (ascii "Error while receiving response " ++ ascii e)
      | .data seg :: rest =>
        let got := seg.1.take (Client.ask use_sfs p)
        if _hgot : got = [] then
          if eagain then throw .spins
          else do
            closesocket
            rf_error (ascii "Connection closed unexpectedly")
        else
          replyLoop use_sfs (write buf p got) (p + got.length) eagain
            (putBack (seg.1.drop (Client.ask use_sfs p)) rest)
termination_by (arrivals.flatMap Arrival.bytes).length + arrivals.length
decreasing_by
  · simp [Arrival.bytes]
  · have hpos : 0 < (seg.1.take (Client.ask use_sfs p)).length := List.length_pos_of_ne_nil _hgot
    have hback := length_putBack_le (seg.1.drop (Client.ask use_sfs p)) rest
    have hsplit := congrArg List.length (List.take_append_drop (Client.ask use_sfs p) seg.1)
    rw [List.length_append] at hsplit
    rw [flatMap_putBack, List.flatMap_cons, List.length_append, List.length_append,
      List.length_cons]
    change _ < seg.1.length + _ + _
    omega

variable (R : Runtime) (dec_buf : List UInt8)

/-- A payload of `pl` bytes, of which those from `start` on are in the buffer already. -/
def rawPayload (pl start : ℕ) (line : Line) : Call Reply :=
  if R.allocVector .RAWSXP pl then do
    -- it cannot exceed the payload
    let carried := read (fun j => line.buf (start + j)) (min (line.p - start) pl)
    let h ← get
    match recvLoop FETCH_SIZE carried pl h.arrivals with
    | .got bs _ => do
      closesocket
      return .raw bs
    -- `n < 0`
    | .failed got (.readFailed e) _ => do
      closesocket
      rf_error (ascii "Error while reading, got " ++ decimal got.length ++ ascii " of " ++
        decimal pl ++ ascii " bytes " ++ ascii e)
    -- `n == 0`
    | .failed got _ _ => do
      closesocket
      rf_error (ascii "Connections closed unexpectedly, got " ++ decimal got.length ++
        ascii " of " ++ decimal pl ++ ascii " bytes")
  else rf_error (ascii (RError.allocVector pl).text)

/-- The length that the reply line announces. -/
def Line.pl (line : Line) : ℕ := (atol (stringAt BUF_SIZE line.buf 3) % 2 ^ 64).toNat

/-- What is done behind the reply line. -/
def answer (use_sfs : Bool) (line : Line) : Call Reply :=
  let buf := stringAt BUF_SIZE line.buf 0
  -- `OK` or `NF` alone
  if buf.length = 2 ∨ buf.bytes = ascii "UNSUPP" then do
    closesocket
    if R.allocVector .STRSXP 1 then return .string buf
    else rf_error (ascii (RError.allocVector 1).text)
  else if (ascii "OK ").isPrefixOf buf.bytes then
    if use_sfs then do
      let res ← load R dec_buf Sock.MAX_RECV_SIZE
      closesocket
      return .value res
    else rawPayload R line.pl (line.c + 1) line
  else do
    closesocket
    rf_error (ascii "Invalid response: " ++ buf.bytes)

/-- `C_ask`. Without a value are a host that is no string and a command that is neither a string
nor a raw vector; `buf` is what is in the buffer for the reply line. -/
def C_ask (sHost : Option CString) (port : ℤ) (sCmd : Option Command) (use_sfs : Bool)
    (buf : Memory) : Call Reply :=
  match sHost, sCmd with
  | none, _ => rf_error (ascii "host must be a string")
  | some _, none => rf_error (ascii "command must be string or a raw vector")
  | some host, some cmd =>
    if port < 0 ∨ port > 65535 then rf_error (ascii "invalid port")
    else
      match o.socket with
      | .error e => rf_error (ascii "Cannot obtain a socket " ++ ascii e)
      | .ok () => do
        obtained o.arrivals
        resolve o host
        connect o host port
        sendCommand o cmd
        let line ← replyLoop use_sfs buf 0 o.eagain o.arrivals
        answer R dec_buf use_sfs line

/-! ### The loop for the reply line -/

section Exits

variable {o R dec_buf} {use_sfs eagain : Bool} {buf : Memory} {arrivals : List Arrival}
  {got : List UInt8} {α : Type} {h : Handle}

/-- How the loop for the reply line stops: where `headerLoop` has an error, with the socket closed,
or where it goes on for ever. -/
def StopsAt (header : Option Header) (h : Handle) (f : Fault) (h' : Handle) : Prop :=
  (header = some .error ∧ (∃ message, f = .rerror message) ∧ h'.opened = h.opened ∧
      h'.closes = h.closes + 1) ∨
    (header = some .spins ∧ f = .spins)

/-- **The loop for the reply line** receives what `headerLoop` does and closes the socket in front
of an error. -/
theorem replyLoop_ends (hat : At buf 0 got) (hfit : got.length < BUF_SIZE) (h : Handle) :
    Ends (replyLoop use_sfs buf got.length eagain arrivals) h
      (fun line h' => headerLoop use_sfs buf got.length eagain arrivals
        = some (.line line.buf line.c line.p h'.arrivals) ∧ h' = { h with arrivals := h'.arrivals })
      (StopsAt (headerLoop use_sfs buf got.length eagain arrivals) h) := by
  induction hm : (arrivals.flatMap Arrival.bytes).length + arrivals.length
    using Nat.strong_induction_on generalizing buf got arrivals eagain with
  | _ m ih =>
  obtain ⟨buf₁, c, hfind, hat₁, -, -⟩ := Client.findEol_spec hat hfit
  rw [replyLoop.eq_def, headerLoop.eq_def, hfind]
  cases c with
  | some c => exact ⟨rfl, rfl⟩
  | none =>
    simp only
    by_cases hlong : got.length > BUF_SIZE - 8
    · -- too long a line
      rw [if_pos hlong, if_pos hlong]
      exact Or.inl ⟨rfl, ⟨_, rfl⟩, rfl, rfl⟩
    · rw [if_neg hlong, if_neg hlong]
      cases arrivals with
      | nil =>
        -- what an earlier call has left in `errno` decides
        cases eagain with
        | true => exact Or.inr ⟨rfl, rfl⟩
        | false => exact Or.inl ⟨rfl, ⟨_, rfl⟩, rfl, rfl⟩
      | cons a rest =>
        rw [List.flatMap_cons, List.length_append, List.length_cons] at hm
        cases a with
        | failed e => exact Or.inl ⟨rfl, ⟨_, rfl⟩, rfl, rfl⟩
        | again => exact ih _ (by omega) hat₁ hfit rfl
        | data seg =>
          obtain ⟨hpos, hroom, hless⟩ :=
            Client.piece_received use_sfs (Nat.not_lt.mp hlong) seg rest
          simp only [dif_neg (List.ne_nil_of_length_pos hpos)]
          rw [← List.length_append]
          rw [← List.length_append] at hroom
          exact ih _ (hm ▸ hless) (hat₁.write_end (Nat.zero_add _).symm _) hroom rfl

theorem settles_replyLoop {f : Line → Call α} (h1 : h.opened = h.closes + 1) :
    Settles (replyLoop use_sfs buf 0 eagain arrivals >>= f) h ↔
      ∀ line rest, headerLoop use_sfs buf 0 eagain arrivals
        = some (.line line.buf line.c line.p rest) →
          Settles (f line) { h with arrivals := rest } := by
  have hends := @replyLoop_ends use_sfs eagain buf arrivals [] (at_nil buf 0)
    (show 0 < BUF_SIZE by decide) h
  rw [settles_bind]
  rw [List.length_nil] at hends
  unfold Ends at *
  revert hends
  cases replyLoop use_sfs buf 0 eagain arrivals h with
  -- a line: the rest is called with what is still to arrive
  | ok line h' =>
    rintro ⟨hrun, hh⟩
    constructor
    · rintro hsettles ⟨buf₁, c, p⟩ rest hline
      rw [hrun] at hline
      cases hline
      rwa [hh] at hsettles
    · intro hall
      rw [hh]
      exact hall line h'.arrivals hrun
  -- an error with the socket closed, or no end
  | error e h' =>
    rintro (⟨hrun, ⟨message, rfl⟩, hopened, hcloses⟩ | ⟨hrun, rfl⟩)
    · refine iff_of_true ?_ fun line rest hline => ?_
      · show h'.closes = h'.opened
        rw [hcloses, hopened, h1]
      · rw [hrun] at hline
        cases hline
    · refine iff_of_true trivial fun line rest hline => ?_
      rw [hrun] at hline
      cases hline

/-! ### The reply -/

theorem settles_rawPayload {pl start : ℕ} {line : Line} (h1 : h.opened = h.closes + 1) :
    Settles (rawPayload R pl start line) h ↔ R.allocVector .RAWSXP pl = true := by
  unfold rawPayload
  cases hroom : R.allocVector .RAWSXP pl with
  | false =>
    refine iff_of_false (fun hsettles => ?_) (by simp)
    have hopen : h.closes = h.opened := hsettles
    omega
  | true =>
    refine iff_of_true ?_ rfl
    rw [if_pos rfl]
    show Settles (match recvLoop FETCH_SIZE _ pl h.arrivals with
      | .got bs _ => _ | .failed got (.readFailed e) _ => _ | .failed got _ _ => _) h
    split
    · exact h1.symm
    · exact h1.symm
    · exact h1.symm

variable (R dec_buf) in
/-- What is behind the reply line can be received: if the line is that of a payload, R has the
memory for it, or the decoder does not refuse what arrives of it. -/
def Line.Received (use_sfs : Bool) (line : Line) (arrivals : List Arrival) : Prop :=
  let buf := stringAt BUF_SIZE line.buf 0
  ¬ (buf.length = 2 ∨ buf.bytes = ascii "UNSUPP") → (ascii "OK ").isPrefixOf buf.bytes = true →
    if use_sfs then refuses R dec_buf (delivered arrivals) = false
    else R.allocVector .RAWSXP line.pl = true

theorem settles_answer {line : Line} (h1 : h.opened = h.closes + 1) :
    Settles (answer R dec_buf use_sfs line) h ↔ line.Received R dec_buf use_sfs h.arrivals := by
  unfold answer Line.Received
  generalize stringAt BUF_SIZE line.buf 0 = buf
  by_cases hshort : buf.length = 2 ∨ buf.bytes = ascii "UNSUPP"
  · refine iff_of_true ?_ fun hnot => absurd hshort hnot
    simp only [if_pos hshort]
    -- the string is made when the socket has been closed
    show Settles (if _ then _ else _) { h with closes := h.closes + 1 }
    split
    · exact h1.symm
    · exact h1.symm
  by_cases hok : (ascii "OK ").isPrefixOf buf.bytes = true
  · simp only [hshort, not_false_eq_true, true_imp_iff, hok, if_false, if_true]
    cases use_sfs with
    | false => exact settles_rawPayload h1
    | true => exact settles_load R dec_buf (by decide) h1
  · refine iff_of_true ?_ fun _ h => absurd h hok
    simp only [if_neg hshort, if_neg hok]
    exact h1.symm

/-! ### In front of the reply -/

/-- The command has a length. -/
def Command.Short : Command → Prop
  | .raw bs => bs.length ≤ R_SHORT_LEN_MAX
  | .string _ => True

/-- All of the command has been sent. -/
def Command.Sent (send : ℤ) : Command → Prop
  | .raw bs => bs.length ≤ send
  | .string s => s.length ≤ send

/-- The command is sent, or there is an exit. -/
theorem settles_sendCommand {cmd : Command} {f : Unit → Call α} (h1 : h.opened = h.closes + 1) :
    Settles (sendCommand o cmd >>= f) h ↔
      cmd.Short ∧ (cmd.Sent o.send → Settles (f ()) h) := by
  -- with the length the rest is the same for both kinds
  have hsend : ∀ l : ℕ, Settles ((if o.send < l then do
      closesocket
      if o.send < 0 then rf_error (ascii "Error sending command " ++ ascii o.strerror)
      else rf_error (ascii "Error sending command, could only send " ++ decimal o.send.toNat ++
        ascii " of " ++ decimal l ++ ascii " bytes")
    else pure () : Call Unit) >>= f) h ↔ (l ≤ o.send → Settles (f ()) h) := by
    intro l
    by_cases hl : o.send < l
    · refine iff_of_true ?_ fun hle => absurd hl (Int.not_lt.mpr hle)
      rw [if_pos hl, settles_bind]
      show Ends (if o.send < 0 then _ else _) { h with closes := h.closes + 1 } _ Fault.Settled
      split
      · exact h1.symm
      · exact h1.symm
    · rw [if_neg hl]
      exact ⟨fun hs _ => hs, fun hs => hs (Int.not_lt.mp hl)⟩
  cases cmd with
  | string s => exact (hsend s.length).trans (and_iff_right trivial).symm
  -- `LENGTH` is asked with the socket open
  | raw bs =>
    by_cases hlong : bs.length > R_SHORT_LEN_MAX
    · refine iff_of_false (fun hsettles => ?_) fun hs => absurd hlong (Nat.not_lt.mpr hs.1)
      unfold sendCommand Command.length at hsettles
      simp only [if_pos hlong] at hsettles
      have hopen : h.closes = h.opened := hsettles
      omega
    · unfold sendCommand Command.length
      simp only [if_neg hlong]
      exact (hsend bs.length).trans (and_iff_right (Nat.not_lt.mp hlong)).symm

/-- The connection, which does not close the socket when there is none. -/
theorem settles_connect {host : CString} {port : ℤ} {f : Unit → Call α}
    (h1 : h.opened = h.closes + 1) :
    Settles (connect o host port >>= f) h ↔ o.connect = .ok () ∧ Settles (f ()) h := by
  unfold connect
  cases hconnect : o.connect with
  | ok u => exact (and_iff_right rfl).symm
  | error e =>
    refine iff_of_false (fun hsettles => ?_) fun hs => nomatch hs.1
    have hopen : h.closes = h.opened := hsettles
    omega

theorem settles_resolve {host : CString} {f : Unit → Call α} (h1 : h.opened = h.closes + 1) :
    Settles (resolve o host >>= f) h ↔
      (o.inet_pton = true ∨ o.gethostbyname = true → Settles (f ()) h) := by
  unfold resolve
  cases o.inet_pton with
  | true => exact ⟨fun hs _ => hs, fun hs => hs (Or.inl rfl)⟩
  | false =>
    cases o.gethostbyname with
    | true => exact ⟨fun hs _ => hs, fun hs => hs (Or.inr rfl)⟩
    | false => exact iff_of_true h1.symm fun hs => by simp at hs

/-! ### What is returned -/

variable (R dec_buf) in
/-- What is returned is the answer of the client without its descriptor. -/
def Answers : Reply → Option Client.Answer → Prop
  | .string s, some (.string t) => s = t
  | .raw bs, some (.raw cs) => bs = cs
  | .value v, some (.sock_restore d) =>
    ∃ st, sock_restore R ((delivered d.arrivals).length + 1) d dec_buf = .ok v st
  | _, _ => False

theorem rawPayload_answers {pl start : ℕ} {line : Line} :
    Ends (rawPayload R pl start line) h
      (fun reply _ => Answers R dec_buf reply
        (some (Client.rawPayload R pl line.buf start line.p h.arrivals))) fun _ _ => True := by
  unfold rawPayload Client.rawPayload
  cases R.allocVector .RAWSXP pl with
  | false => trivial
  | true =>
    rw [if_pos rfl, if_pos rfl, ends_bind, ends_get]
    dsimp only
    cases recvLoop FETCH_SIZE (read (fun j => line.buf (start + j)) (min (line.p - start) pl)) pl
        h.arrivals with
    | got bs d => rfl
    | failed got e d =>
      cases e with
      | readFailed e => trivial
      | _ => trivial

theorem answer_answers {line : Line} :
    Ends (answer R dec_buf use_sfs line) h
      (fun reply _ => Answers R dec_buf reply
        (let buf := stringAt BUF_SIZE line.buf 0
        if buf.length = 2 ∨ buf.bytes = ascii "UNSUPP" then some (.string buf)
        else if (ascii "OK ").isPrefixOf buf.bytes then
          if use_sfs then some (.sock_restore ⟨h.arrivals, false⟩)
          else some (Client.rawPayload R line.pl line.buf (line.c + 1) line.p h.arrivals)
        else some .error)) fun _ _ => True := by
  unfold answer
  dsimp only
  split
  -- the line is returned
  · rw [ends_bind]
    show Ends (if _ then _ else _) { h with closes := h.closes + 1 } _ _
    -- a payload, or another line
    split
    · rfl
    · trivial
  split
  · cases use_sfs with
    | false => exact rawPayload_answers
    | true => exact (load_value h rfl).bind (fun _ _ _ => trivial) fun v _ hv => hv
  · trivial

/-- Behind the command all of it has been sent. -/
theorem sendCommand_sent (cmd : Command) :
    Ends (sendCommand o cmd) h (fun _ _ => cmd.bytes.length ≤ o.send) fun _ _ => True := by
  have hlength : Ends cmd.length h (fun l _ => l = cmd.bytes.length) fun _ _ => True := by
    cases cmd with
    | string s => rfl
    | raw bs =>
      show Ends (if bs.length > R_SHORT_LEN_MAX then _ else _) _ _ _
      split
      · trivial
      · rfl
  refine hlength.bind (fun _ _ _ => trivial) fun l h' hl => ?_
  subst hl
  by_cases hsend : o.send < cmd.bytes.length
  · rw [if_pos hsend, ends_bind]
    show Ends (if _ then _ else _) { h' with closes := h'.closes + 1 } _ _
    split
    · trivial
    · trivial
  · rw [if_neg hsend]
    exact Int.not_lt.mp hsend

/-- **`C_ask` with its descriptor and without.** What is returned is the answer of `Client.C_ask`
to the command. -/
theorem ask_answers (sHost : Option CString) (port : ℤ) (cmd : Command) (h : Handle) :
    Ends (C_ask o R dec_buf sHost port (some cmd) use_sfs buf) h
      (fun reply _ => Answers R dec_buf reply
        (Client.C_ask R use_sfs cmd.bytes o.send buf o.eagain ⟨o.arrivals, false⟩))
      fun _ _ => True := by
  unfold C_ask
  cases sHost with
  | none => trivial
  | some host =>
    dsimp only
    split
    · trivial
    cases o.socket with
    | error e => trivial
    | ok u =>
      dsimp only
      -- what is done for the connection changes nothing of the answer
      refine ends_true.bind (fun _ _ _ => trivial) fun _ _ _ => ?_
      refine ends_true.bind (fun _ _ _ => trivial) fun _ _ _ => ?_
      refine ends_true.bind (fun _ _ _ => trivial) fun _ _ _ => ?_
      refine (sendCommand_sent cmd).bind (fun _ _ _ => trivial) fun _ h hsent => ?_
      refine (@replyLoop_ends use_sfs o.eagain buf o.arrivals [] (at_nil buf 0)
        (show 0 < BUF_SIZE by decide) h).bind (fun _ _ _ => trivial) fun line h' hline => ?_
      refine answer_answers.mono (fun reply h'' hreply => ?_) fun _ _ _ => trivial
      have hheader := hline.1
      rw [List.length_nil] at hheader
      unfold Client.C_ask
      rw [if_neg (Int.not_lt.mpr hsent)]
      dsimp only
      rw [hheader]
      exact hreply

end Exits

/-! ### The exits -/

/-- The four exits with an open socket are not taken: if there is a socket and an address, there
is a connection, the command is not too long, and what is behind the reply line can be
received. -/
def ExitsClose (sHost : Option CString) (port : ℤ) (sCmd : Option Command) (use_sfs : Bool)
    (buf : Memory) : Prop :=
  ∀ host cmd, sHost = some host → sCmd = some cmd → 0 ≤ port → port ≤ 65535 →
    o.socket = .ok () → o.inet_pton = true ∨ o.gethostbyname = true →
      o.connect = .ok () ∧ cmd.Short ∧ (cmd.Sent o.send → ∀ (line : Line) (rest : List Arrival),
        headerLoop use_sfs buf 0 o.eagain o.arrivals
            = some (.line line.buf line.c line.p rest) →
          line.Received R dec_buf use_sfs rest)

/-- **`C_ask` closes its socket**, and once, exactly when none of them is taken. -/
theorem settles_ask (sHost : Option CString) (port : ℤ) (sCmd : Option Command)
    (use_sfs : Bool) (buf : Memory) :
    Settles (C_ask o R dec_buf sHost port sCmd use_sfs buf) .start ↔
      ExitsClose o R dec_buf sHost port sCmd use_sfs buf := by
  cases sHost with
  -- without a socket there is nothing to close
  | none => exact iff_of_true rfl fun _ _ h => nomatch h
  | some host =>
    cases sCmd with
    | none => exact iff_of_true rfl fun _ _ _ h => nomatch h
    | some cmd =>
      unfold C_ask
      by_cases hport : port < 0 ∨ port > 65535
      · simp only [if_pos hport]
        refine iff_of_true rfl fun _ _ _ _ h0 hmax => ?_
        omega
      simp only [if_neg hport]
      cases hsocket : o.socket with
      | error e =>
        refine iff_of_true rfl fun _ _ _ _ _ _ h => ?_
        rw [hsocket] at h
        cases h
      | ok u =>
        -- behind the socket each part is left with it closed, or the next one is reached
        have hask : Settles (do
            obtained o.arrivals
            resolve o host
            connect o host port
            sendCommand o cmd
            let line ← replyLoop use_sfs buf 0 o.eagain o.arrivals
            answer R dec_buf use_sfs line) .start ↔
              (o.inet_pton = true ∨ o.gethostbyname = true → o.connect = .ok () ∧ cmd.Short ∧
                (cmd.Sent o.send → ∀ (line : Line) (rest : List Arrival),
                  headerLoop use_sfs buf 0 o.eagain o.arrivals
                      = some (.line line.buf line.c line.p rest) →
                    line.Received R dec_buf use_sfs rest)) := by
          show Settles (resolve o host >>= _) ⟨o.arrivals, 1, 0⟩ ↔ _
          refine (settles_resolve rfl).trans (imp_congr_right fun _ => ?_)
          refine (settles_connect rfl).trans (and_congr_right fun _ => ?_)
          refine (settles_sendCommand rfl).trans (and_congr_right fun _ => ?_)
          refine imp_congr_right fun _ => (settles_replyLoop rfl).trans ?_
          exact forall_congr' fun line => forall_congr' fun rest => imp_congr_right fun _ =>
            settles_answer rfl
        -- what is in front of the socket adds the hypotheses of `ExitsClose`
        refine hask.trans ⟨fun h _ _ hhost hcmd _ _ _ hresolved => ?_, fun h => ?_⟩
        · cases hhost
          cases hcmd
          exact h hresolved
        · exact h host cmd rfl rfl (Int.not_lt.mp fun h0 => hport (Or.inl h0))
            (Int.not_lt.mp fun hmax => hport (Or.inr hmax)) hsocket

/-- **Descriptors at the exits.** For every outcome of the calls of the system and every reply,
`C_ask` closes the socket it has obtained, and once, on each exit, exactly when it does not
leave for want of a connection, with a command that is too long, for want of memory for a
payload, or by an error that the decoder raises. For every file, `C_file_restore` closes it
exactly when the decoder raises no error of its own in what can be read of it. -/
theorem descriptors_closed_iff (R : Runtime) (dec_buf : List UInt8) :
    (∀ (o : Outcomes) (sHost : Option CString) (port : ℤ) (sCmd : Option Command)
        (use_sfs : Bool) (buf : Memory),
      Settles (C_ask o R dec_buf sHost port sCmd use_sfs buf) .start ↔
        ExitsClose o R dec_buf sHost port sCmd use_sfs buf) ∧
      ∀ (sFilename : Option CString) (file : Except String (List Arrival)),
        Settles (C_file_restore R dec_buf sFilename file) .start ↔
          ∀ name arrivals, sFilename = some name → file = .ok arrivals →
            refuses R dec_buf (delivered arrivals) = false :=
  ⟨fun o sHost port sCmd use_sfs buf => settles_ask o R dec_buf sHost port sCmd use_sfs buf,
    settles_file_restore⟩

/-- Nobody listens on the port. -/
def refused : Outcomes where
  socket := .ok ()
  inet_pton := true
  gethostbyname := false
  connect := .error "Connection refused"
  send := 0
  strerror := ""
  eagain := false
  arrivals := []

/-- The socket is left open. -/
theorem socket_left_open :
    ¬ Settles (C_ask refused .ample [] (some (cstr (ascii "127.0.0.1"))) 6012
      (some (.string (cstr (ascii "GET k\n")))) false fun _ => 0) .start := by
  intro hsettles
  have hopen : 0 = 1 := hsettles
  cases hopen

end Handles
end Osrv
