import Osrv.Http.Scanner

/-!
# What an iteration does

The parts of `http_input_iteration` behind the line scanner, one lemma for each.
`verdict` is what becomes of a request at the blank line: it is refused, passed
to the handler or waits for its body. `linePart_data` puts the scanner and the
verdict together into what a received piece does in the lines of a request, and the
`iteration_` lemmas say what a call then returns. `bodyPart_receive` and
`bodyPart_complete` do so for a body.
-/

namespace Osrv
namespace Http

open Bytes Net

/-! ### At the blank line -/

/-- What becomes of a request at the blank line. -/
inductive Verdict
  | refuse (text : List UInt8)
  | process
  | receive (mem : Memory)

def verdict (alloc : ℕ → Option Memory) (req : HttpRequest) : Verdict :=
  if ¬ req.attr.HTTP_1_0 ∧ ¬ req.attr.HOST_HEADER then .refuse hostMissing
  else
    match allocBody alloc req with
    | none => .refuse bodyTooBig
    | some body =>
      if bodyless req then
        if req.attr.CONTENT_LENGTH ∧ req.content_length > 0 then .refuse getWithBody
        else .process
      else
        match body with
        | none => .process
        | some mem => .receive mem

section Verdict

variable {alloc : ℕ → Option Memory} {req : HttpRequest}

/-- A request that gets past the blank line has a version or a host. -/
theorem verdict_attr (h : ∀ text, verdict alloc req ≠ .refuse text) :
    req.attr.HTTP_1_0 = true ∨ req.attr.HOST_HEADER = true := by
  by_contra hc
  push Not at hc
  refine h hostMissing ?_
  rw [verdict, if_pos hc]

theorem announced_of_not_bodyless (h : bodyless req = false) : announced req = true := by
  unfold bodyless at h
  unfold announced
  simp only [Bool.or_eq_false_iff, Bool.not_eq_false', decide_eq_false_iff_not] at h
  rw [Bool.and_eq_true, decide_eq_true_iff]
  exact ⟨h.1.2, h.2⟩

/-- A request that is passed on at the blank line has no body. -/
theorem verdict_process (h : verdict alloc req = .process) :
    bodyless req = true ∧ announced req = false ∧ allocBody alloc req = some req.body := by
  unfold verdict at h
  split at h
  · cases h
  · split at h
    · cases h
    · next body hbody =>
      split at h
      · next hless =>
        split at h
        · cases h
        · next hpos =>
          -- the length is neither positive nor negative
          have hann : announced req = false := by
            by_contra hann
            rw [Bool.not_eq_false] at hann
            rw [allocBody, if_pos hann] at hbody
            split at hbody
            · cases hbody
            · next hrange =>
              rw [announced, Bool.and_eq_true, decide_eq_true_iff] at hann
              exact hpos ⟨hann.1, by omega⟩
          refine ⟨hless, hann, ?_⟩
          rw [allocBody, hann]
          rfl
      · next hless =>
        rw [Bool.not_eq_true] at hless
        have hann := announced_of_not_bodyless hless
        rw [allocBody, if_pos hann] at hbody
        split at hbody
        · cases hbody
        · -- memory was allocated, so it cannot be missing
          obtain ⟨mem, -, rfl⟩ := Option.map_eq_some_iff.mp hbody
          cases h

/-- A request that waits for its body has a length in range, and the memory for it. -/
theorem verdict_receive {mem : Memory} (h : verdict alloc req = .receive mem) :
    bodyless req = false ∧ 0 < req.content_length ∧ req.content_length ≤ 2147483640 ∧
      alloc (req.content_length.toNat + 1) = some mem ∧
      allocBody alloc req = some (some mem) := by
  unfold verdict at h
  split at h
  · cases h
  · split at h
    · cases h
    · next body hbody =>
      split at h
      · split at h <;> cases h
      · next hless =>
        rw [Bool.not_eq_true] at hless
        have hann := announced_of_not_bodyless hless
        have halloc := hbody
        rw [allocBody, if_pos hann] at halloc
        split at halloc
        · cases halloc
        · next hrange =>
          obtain ⟨mem', hmem, rfl⟩ := Option.map_eq_some_iff.mp halloc
          cases h
          rw [announced, Bool.and_eq_true, decide_eq_true_iff] at hann
          push Not at hrange
          exact ⟨hless, by omega, by omega, hmem, hbody⟩

end Verdict

/-! ### The end of a request -/

section Finish

variable {σ : Type} (malloc : Malloc) (process : Handler σ) (site : Site) (c : Connection σ)

@[simp] theorem process_request_log : (process_request malloc process site c).log
    = c.log ++ [.process site (passedRequest malloc c) c.headers.bytes] := rfl

@[simp] theorem process_request_world : (process_request malloc process site c).world
    = (process (passedRequest malloc c) c.world).2.2 := rfl

@[simp] theorem process_request_input :
    (process_request malloc process site c).input = c.input := rfl

@[simp] theorem process_request_line_pos :
    (process_request malloc process site c).line_pos = c.line_pos := rfl

@[simp] theorem process_request_line_buf :
    (process_request malloc process site c).line_buf = c.line_buf := rfl

@[simp] theorem process_request_overrun : (process_request malloc process site c).overrun
    = (c.overrun || (collect_buffers malloc c).2) := rfl

/-- Recording the header lines does not touch what they say. -/
theorem passedRequest_frame :
    ∃ raw, passedRequest malloc c = { c.request with headers := raw } := by
  unfold passedRequest
  split
  · exact ⟨c.request.headers, rfl⟩
  · exact ⟨_, rfl⟩

/-- The connection is open for the next request, and only what is left in the line
buffer is known of it. -/
structure Idle (c : Connection σ) : Prop where
  /-- No line has been read. -/
  reading : c.toReading = .fresh
  /-- What was received for the request is in the line buffer. -/
  current : c.current = read c.line_buf c.line_pos
  /-- Nothing has been received of a body. -/
  body_pos : c.body_pos = 0

variable {malloc process site c}

@[simp] theorem finish_log (double : Bool) : (finish double c).log = c.log := by
  unfold finish
  split <;> rfl

@[simp] theorem finish_world (double : Bool) : (finish double c).world = c.world := by
  unfold finish
  split <;> rfl

@[simp] theorem finish_input (double : Bool) : (finish double c).input = c.input := by
  unfold finish
  split <;> rfl

@[simp] theorem finish_line_pos (double : Bool) : (finish double c).line_pos = c.line_pos := by
  unfold finish
  split <;> rfl

@[simp] theorem finish_line_buf (double : Bool) : (finish double c).line_buf = c.line_buf := by
  unfold finish
  split <;> rfl

@[simp] theorem finish_overrun (double : Bool) : (finish double c).overrun = c.overrun := by
  unfold finish
  split <;> rfl

/-- **The end of a request.** The connection is closed or ready for the next one. -/
theorem finish_idle {double : Bool} (h : (finish double c).s = true) :
    Idle (finish double c) ∧ double = false := by
  unfold finish at h ⊢
  split at h
  · cases h
  · next hclose =>
    rw [if_neg hclose]
    rw [Bool.or_eq_true, not_or] at hclose
    exact ⟨⟨rfl, rfl, rfl⟩, Bool.not_eq_true _ ▸ hclose.2⟩

/-! ### The log -/

/-- Every request that the handler has been called with satisfies `P`. -/
def Logged (P : HttpRequest → Prop) (log : List Event) : Prop :=
  ∀ site req recorded, .process site req recorded ∈ log → P req

theorem Logged.nil {P : HttpRequest → Prop} : Logged P [] := fun _ _ _ h => absurd h (by simp)

theorem Logged.respond {P : HttpRequest → Prop} {log : List Event} (h : Logged P log)
    (buf : List UInt8) : Logged P (log ++ [.respond buf]) := by
  intro site req recorded hmem
  rw [List.mem_append, List.mem_singleton] at hmem
  obtain hmem | heq := hmem
  · exact h site req recorded hmem
  · cases heq

variable (malloc process) in
theorem Logged.process_request {P : HttpRequest → Prop} (h : Logged P c.log)
    (hreq : ∀ raw, P { c.request with headers := raw }) (site : Site) :
    Logged P (process_request malloc process site c).log := by
  intro site' req recorded hmem
  rw [process_request_log, List.mem_append, List.mem_singleton] at hmem
  obtain hmem | heq := hmem
  · exact h site' req recorded hmem
  · cases heq
    obtain ⟨raw, hraw⟩ := passedRequest_frame malloc c
    rw [hraw]
    exact hreq raw

end Finish

/-! ### The end of the headers -/

/-- A response was sent and the connection closed. -/
structure Refused {σ : Type} (c c' : Connection σ) (response : List UInt8) : Prop where
  /-- The socket is closed. -/
  closed : c'.s = false
  /-- The response is all that was sent. -/
  log : c'.log = c.log ++ [.respond response]
  /-- The handler was not called. -/
  world : c'.world = c.world
  /-- Nothing was collected for it. -/
  overrun : c'.overrun = c.overrun

section Headers

variable {σ : Type} (malloc : Malloc) (process : Handler σ) {c : Connection σ} {s : ℕ}
  {rest : List UInt8}

theorem endHeaders_refuse {text : List UInt8}
    (hv : verdict (malloc.alloc c.log.length) c.request = .refuse text) (hs : s ≤ c.line_pos) :
    ∃ c', endHeaders malloc process s c = some (.ret c') ∧
      Refused c c' (HTTP_SIG c.request.attr ++ text) := by
  have hs' : ¬ c.line_pos < s := by omega
  unfold verdict at hv
  unfold endHeaders
  split at hv
  · next hhost =>
    cases hv
    rw [if_pos hhost]
    exact ⟨_, rfl, rfl, rfl, rfl, rfl⟩
  · next hhost =>
    rw [if_neg hhost]
    cases halloc : allocBody (malloc.alloc c.log.length) c.request with
    | none =>
      rw [halloc] at hv
      cases hv
      exact ⟨_, rfl, rfl, rfl, rfl, rfl⟩
    | some body =>
      rw [halloc] at hv
      simp only at hv ⊢
      split at hv
      · next hless =>
        split at hv
        · next hget =>
          cases hv
          unfold afterHeaders
          rw [if_neg hs']
          simp only
          rw [if_pos (show bodyless { c.request with body := body } = true from hless),
            if_pos hget]
          exact ⟨_, rfl, rfl, rfl, rfl, rfl⟩
        · cases hv
      · split at hv <;> cases hv

/-- What follows the blank line is moved to the start of the buffer. -/
theorem moved_spec (h : At c.line_buf s rest) (hpos : s + rest.length = c.line_pos) :
    write c.line_buf 0 (read (fun i => c.line_buf (s + i)) (c.line_pos - s))
        = write c.line_buf 0 rest ∧ c.line_pos - s = rest.length ∧ ¬ c.line_pos < s := by
  have hlen : c.line_pos - s = rest.length := by omega
  refine ⟨?_, hlen, by omega⟩
  rw [hlen, h.read_eq]

theorem endHeaders_process (hv : verdict (malloc.alloc c.log.length) c.request = .process)
    (h : At c.line_buf s rest) (hpos : s + rest.length = c.line_pos) :
    ∃ buf, At buf 0 rest ∧ endHeaders malloc process s c
      = some (.ret (finish false (process_request malloc process .complete { c with
          part := .BODY
          body_pos := 0
          line_buf := buf
          line_pos := rest.length }))) := by
  obtain ⟨hless, hann, halloc⟩ := verdict_process hv
  obtain ⟨hmove, hlen, hs⟩ := moved_spec h hpos
  have hhost : ¬ (¬ c.request.attr.HTTP_1_0 ∧ ¬ c.request.attr.HOST_HEADER) := fun hc => by
    rw [verdict, if_pos hc] at hv
    cases hv
  have hget : ¬ (c.request.attr.CONTENT_LENGTH = true ∧ c.request.content_length > 0) := by
    rintro ⟨hcl, hpos⟩
    rw [announced, hcl, Bool.true_and, decide_eq_false_iff_not] at hann
    exact hann (by omega)
  refine ⟨write c.line_buf 0 rest, at_write _ _ _, ?_⟩
  rw [endHeaders, if_neg hhost, halloc]
  simp only
  rw [afterHeaders, if_neg hs]
  simp only
  rw [if_pos hless, if_neg hget, hmove, hlen]

theorem endHeaders_receive {mem : Memory}
    (hv : verdict (malloc.alloc c.log.length) c.request = .receive mem)
    (h : At c.line_buf s rest) (hpos : s + rest.length = c.line_pos) :
    ∃ buf, endHeaders malloc process s c = some (.body { c with
      request := { c.request with
        body := some (write mem 0 (rest.take (min c.request.content_length.toNat rest.length))) }
      part := .BODY
      body_pos := min c.request.content_length.toNat rest.length
      line_buf := buf
      line_pos := rest.length - min c.request.content_length.toNat rest.length }) := by
  obtain ⟨hless, hlow, -, -, halloc⟩ := verdict_receive hv
  obtain ⟨-, hlen, hs⟩ := moved_spec h hpos
  have hhost : ¬ (¬ c.request.attr.HTTP_1_0 ∧ ¬ c.request.attr.HOST_HEADER) := fun hc => by
    rw [verdict, if_pos hc] at hv
    cases hv
  have hless' : ¬ bodyless { c.request with body := some mem } = true := by
    change ¬ bodyless c.request = true
    rw [hless]
    exact Bool.false_ne_true
  -- the number of bytes that are moved is compared as a signed one
  have hmin : (if c.request.content_length < (rest.length : ℤ) then c.request.content_length.toNat
      else rest.length) = min c.request.content_length.toNat rest.length := by
    split <;> omega
  -- the bytes that are copied are the front of what is left
  have hread : read (write c.line_buf 0 rest) (min c.request.content_length.toNat rest.length)
      = rest.take (min c.request.content_length.toNat rest.length) := by
    have hat : At (write c.line_buf 0 rest) 0
        (rest.take (min c.request.content_length.toNat rest.length)) := by
      have hwhole := at_write c.line_buf 0 rest
      rw [← List.take_append_drop (min c.request.content_length.toNat rest.length) rest] at hwhole
      rw [List.take_append_drop] at hwhole
      intro j hj
      rw [hwhole j (by rw [List.length_take] at hj; omega), List.getElem_take]
    have hread := hat.read_eq
    simp only [Nat.zero_add, List.length_take, Nat.min_eq_left (Nat.min_le_right _ _)] at hread
    exact hread
  refine ⟨write c.line_buf 0 rest, ?_⟩
  rw [endHeaders, if_neg hhost, halloc]
  simp only
  rw [afterHeaders, if_neg hs]
  simp only [hlen, h.read_eq]
  rw [if_neg hless', hmin, hread]

end Headers

/-! ### In the body -/

section BodyPart

variable {σ : Type} {malloc : Malloc} {process : Handler σ} {c : Connection σ}

/-- The connection with a piece of the body received. -/
def Connection.bodyPiece (c : Connection σ) (body : Memory) (bs : List UInt8) (input' : Input) :
    Connection σ :=
  { c with
    input := input'
    request := { c.request with body := some (write body c.body_pos bs) }
    line_pos := 0
    body_pos := c.body_pos + bs.length
    current := c.current ++ bs }

/-- What a call receives into the body. -/
theorem bodyPart_receive {body : Memory} {res : RecvResult} {input' : Input}
    (hpart : c.part = .BODY) (hbody : c.request.body = some body)
    (hlt : (c.body_pos : ℤ) < c.request.content_length)
    (hrecv : recv (c.request.content_length - c.body_pos).toNat c.input = (res, input'))
    (rest : Connection σ → Option (Iteration (Connection σ))) :
    bodyPart malloc process rest c = some (match res with
      | .blocked => .blocked { c with input := input' }
      | .failed => .ret (http_close { c with input := input' })
      | .closed => .ret (http_close
          (process_request malloc process .hangup { c with input := input' }))
      | .data bs => .ret (finishBody malloc process (c.bodyPiece body bs input'))) := by
  unfold bodyPart Connection.bodyPiece
  simp only [hpart, hbody, hlt, if_true, hrecv]
  cases res with
  | data bs => rfl
  | closed => rfl
  | failed => rfl
  | blocked => rfl

/-- Nothing is missing of the body. -/
theorem bodyPart_complete {body : Memory} (hpart : c.part = .BODY)
    (hbody : c.request.body = some body) (hlt : ¬ (c.body_pos : ℤ) < c.request.content_length)
    (rest : Connection σ → Option (Iteration (Connection σ))) :
    bodyPart malloc process rest c = some (.ret (finishBody malloc process c)) := by
  unfold bodyPart
  simp only [hpart, hbody, hlt, if_false]

end BodyPart

/-! ### A piece in the lines of a request -/

section LinePart

variable {σ : Type} (malloc : Malloc) (process : Handler σ) {c c' : Connection σ}
  {pending : List UInt8}

/-- The line part returns or waits. -/
theorem iterationWith_inl {r : Iteration (Connection σ)} (hpart : c.part ≠ .BODY)
    (h : linePart malloc process c = some (.inl r))
    (rest : Connection σ → Option (Iteration (Connection σ))) :
    iterationWith malloc process rest c = some r := by
  rw [iterationWith, if_neg hpart, h]
  rfl

/-- The line part leads to the body. -/
theorem iterationWith_inr (hpart : c.part ≠ .BODY)
    (h : linePart malloc process c = some (.inr c'))
    (rest : Connection σ → Option (Iteration (Connection σ))) :
    iterationWith malloc process rest c = bodyPart malloc process rest c' := by
  rw [iterationWith, if_neg hpart, h]
  rfl

/-- Nothing is received in the lines of a request. -/
theorem linePart_nothing {r : RecvResult} {input' : Input} (hfit : c.line_pos < LINE_BUF_SIZE)
    (hrecv : recv (LINE_BUF_SIZE - c.line_pos - 1) c.input = (r, input'))
    (hr : ∀ bs, r ≠ .data bs) :
    linePart malloc process c = some (.inl (match r with
      | .closed => .ret (http_close (if c.request.path.isSome
          then process_request malloc process .hangup { c with input := input' }
          else { c with input := input' }))
      | .failed => .ret (http_close { c with input := input' })
      | _ => .blocked { c with input := input' })) := by
  have hguard : ¬ LINE_BUF_SIZE < c.line_pos + 1 := by omega
  rw [linePart, if_neg hguard]
  simp only [hrecv]
  cases r with
  | data bs => exact absurd rfl (hr bs)
  | closed => rfl
  | failed => rfl
  | blocked => rfl

/-- The connection when its body is to be received, `rest` being the start of it. -/
def receiving (c₁ : Connection σ) (rd : Reading) (mem : Memory) (rest : List UInt8)
    (buf : Memory) : Connection σ :=
  let n := min rd.request.content_length.toNat rest.length
  { c₁ with
    request := { rd.request with body := some (write mem 0 (rest.take n)) }
    part := .BODY
    headers := rd.headers
    body_pos := n
    line_buf := buf
    line_pos := rest.length - n }

/-- The connection when a request without a body has been passed on, `rest` being the
start of the next one. -/
def passed (c₁ : Connection σ) (rd : Reading) (rest : List UInt8) (buf : Memory) :
    Connection σ :=
  finish false (process_request malloc process .complete { c₁ with
    request := rd.request
    part := .BODY
    headers := rd.headers
    body_pos := 0
    line_buf := buf
    line_pos := rest.length })

/-- What the lines come to, by what `scan` makes of the bytes in the line buffer. `c₁` is
the connection with the piece received. -/
def LineSpec (c c₁ : Connection σ) : Scan → Prop
  | .more rd pending => ∃ buf, At buf 0 pending ∧ linePart malloc process c
      = some (.inl (.ret { c₁ with
          toReading := rd, line_buf := buf, line_pos := pending.length }))
  | .refuse response => ∃ c', linePart malloc process c = some (.inl (.ret c')) ∧
      Refused c c' response
  | .crash => linePart malloc process c = none
  | .blank rd rest =>
    match verdict (malloc.alloc c.log.length) rd.request with
    | .refuse text => ∃ c', linePart malloc process c = some (.inl (.ret c')) ∧
        Refused c c' (HTTP_SIG rd.request.attr ++ text)
    | .process => ∃ buf, At buf 0 rest ∧ linePart malloc process c
        = some (.inl (.ret (passed malloc process c₁ rd rest buf)))
    | .receive mem => ∃ buf, linePart malloc process c
        = some (.inr (receiving c₁ rd mem rest buf))

/-- **A piece in the lines of a request** is scanned behind what was left over. -/
theorem linePart_data {bs : List UInt8} {input' : Input} (h : At c.line_buf 0 pending)
    (hlen : pending.length = c.line_pos) (hfit : c.line_pos < LINE_BUF_SIZE)
    (hrecv : recv (LINE_BUF_SIZE - c.line_pos - 1) c.input = (.data bs, input')) :
    LineSpec malloc process c { c with input := input', current := c.current ++ bs }
      (scan (c.room malloc) c.toReading (pending ++ bs)) := by
  obtain ⟨-, hroom, -, -⟩ := recv_spec hrecv
  have hguard : ¬ LINE_BUF_SIZE < c.line_pos + 1 := by omega
  -- the line buffer with the piece in it
  have hat : At (write c.line_buf c.line_pos (bs ++ [0])) 0 (pending ++ bs ++ [0]) := by
    rw [List.append_assoc]
    exact h.write_end (by omega) _
  have hspec := scanLoop_spec malloc process (n := LINE_BUF_SIZE) (c := { c with
    input := input'
    line_buf := write c.line_buf c.line_pos (bs ++ [0])
    line_pos := c.line_pos + bs.length
    current := c.current ++ bs }) hat (by
      rw [Nat.zero_add, List.length_append, hlen]) (by
      change c.line_pos + bs.length < LINE_BUF_SIZE
      omega) (by
      rw [List.length_append]
      omega)
  change ScanSpec malloc process LINE_BUF_SIZE 0 _
    (scan (c.room malloc) c.toReading (pending ++ bs)) at hspec
  have hline := linePart.eq_def malloc process c
  rw [if_neg hguard] at hline
  simp only [hrecv] at hline
  -- how the loop over the lines has ended
  cases hscan : scan (c.room malloc) c.toReading (pending ++ bs) with
  | more rd pend =>
    rw [hscan] at hspec
    obtain ⟨buf, hbuf, hrun⟩ := hspec
    refine ⟨buf, hbuf, ?_⟩
    rw [hline, hrun]
    rfl
  | refuse response =>
    rw [hscan] at hspec
    obtain ⟨rd, buf, hrun⟩ := hspec
    rw [hrun] at hline
    exact ⟨_, hline, rfl, rfl, rfl, rfl⟩
  | crash =>
    rw [hscan] at hspec
    change linePart malloc process c = none
    change scanLoop malloc process LINE_BUF_SIZE 0 _ = none at hspec
    rw [hline, hspec]
    rfl
  | blank rd rest =>
    rw [hscan] at hspec
    -- the blank line has been found, and `rest` is behind it
    obtain ⟨buf, s', hrest, hs', hrun⟩ := hspec
    change s' + rest.length = c.line_pos + bs.length at hs'
    unfold LineSpec
    simp only
    cases hv : verdict (malloc.alloc c.log.length) rd.request with
    | refuse text =>
      -- a check fails
      obtain ⟨c', hend, href⟩ := endHeaders_refuse malloc process (s := s') (c := { c with
        toReading := rd
        input := input'
        line_buf := buf
        line_pos := c.line_pos + bs.length
        current := c.current ++ bs }) hv (by
          change s' ≤ c.line_pos + bs.length
          omega)
      refine ⟨c', ?_, href.closed, href.log, href.world, href.overrun⟩
      rw [hline, hrun, hend]
      rfl
    | process =>
      -- there is no body, and `rest` is moved to the front
      obtain ⟨buf', hbuf', hend⟩ := endHeaders_process malloc process (c := { c with
        toReading := rd
        input := input'
        line_buf := buf
        line_pos := c.line_pos + bs.length
        current := c.current ++ bs }) hv hrest hs'
      refine ⟨buf', hbuf', ?_⟩
      rw [hline, hrun, hend]
      rfl
    | receive mem =>
      -- the first bytes of the body are taken from `rest`
      obtain ⟨buf', hend⟩ := endHeaders_receive malloc process (c := { c with
        toReading := rd
        input := input'
        line_buf := buf
        line_pos := c.line_pos + bs.length
        current := c.current ++ bs }) hv hrest hs'
      refine ⟨buf', ?_⟩
      rw [hline, hrun, hend]
      rfl

/-! ### A call in the lines -/

/-- The connection with a piece received into the line buffer. -/
def Connection.received (c : Connection σ) (bs : List UInt8) (input' : Input) : Connection σ :=
  { c with input := input', current := c.current ++ bs }

section Forward

variable {input' : Input} {bs rest : List UInt8} {rd : Reading}

/-- A piece that ends in the lines of a request. -/
theorem iteration_more (hpart : c.part ≠ .BODY) (hfit : c.line_pos < LINE_BUF_SIZE)
    (hrecv : recv (LINE_BUF_SIZE - c.line_pos - 1) c.input = (.data bs, input'))
    (hscan : scan (c.room malloc) c.toReading (read c.line_buf c.line_pos ++ bs)
      = .more rd pending) :
    ∃ buf, At buf 0 pending ∧ ∀ next, iterationWith malloc process next c
      = some (.ret { c.received bs input' with
          toReading := rd, line_buf := buf, line_pos := pending.length }) := by
  have hspec := linePart_data malloc process (at_read c.line_buf c.line_pos)
    (length_read _ _) hfit hrecv
  rw [hscan] at hspec
  obtain ⟨buf, hbuf, hline⟩ := hspec
  exact ⟨buf, hbuf, iterationWith_inl malloc process hpart hline⟩

/-- A line that is refused. -/
theorem iteration_refused {response : List UInt8} (hpart : c.part ≠ .BODY)
    (hfit : c.line_pos < LINE_BUF_SIZE)
    (hrecv : recv (LINE_BUF_SIZE - c.line_pos - 1) c.input = (.data bs, input'))
    (hscan : scan (c.room malloc) c.toReading (read c.line_buf c.line_pos ++ bs)
      = .refuse response) :
    ∃ c', Refused c c' response ∧
      ∀ next, iterationWith malloc process next c = some (.ret c') := by
  have hspec := linePart_data malloc process (at_read c.line_buf c.line_pos)
    (length_read _ _) hfit hrecv
  rw [hscan] at hspec
  obtain ⟨c', hline, href⟩ := hspec
  exact ⟨c', href, iterationWith_inl malloc process hpart hline⟩

/-- A null pointer that is followed. -/
theorem iteration_crash (hpart : c.part ≠ .BODY) (hfit : c.line_pos < LINE_BUF_SIZE)
    (hrecv : recv (LINE_BUF_SIZE - c.line_pos - 1) c.input = (.data bs, input'))
    (hscan : scan (c.room malloc) c.toReading (read c.line_buf c.line_pos ++ bs) = .crash)
    (next : Connection σ → Option (Iteration (Connection σ))) :
    iterationWith malloc process next c = none := by
  have hspec := linePart_data malloc process (at_read c.line_buf c.line_pos)
    (length_read _ _) hfit hrecv
  rw [hscan] at hspec
  have hline : linePart malloc process c = none := hspec
  rw [iterationWith, if_neg hpart, hline]
  rfl

/-- A blank line behind which the request is refused. -/
theorem iteration_rejected {text : List UInt8} (hpart : c.part ≠ .BODY)
    (hfit : c.line_pos < LINE_BUF_SIZE)
    (hrecv : recv (LINE_BUF_SIZE - c.line_pos - 1) c.input = (.data bs, input'))
    (hscan : scan (c.room malloc) c.toReading (read c.line_buf c.line_pos ++ bs) = .blank rd rest)
    (hverdict : verdict (malloc.alloc c.log.length) rd.request = .refuse text) :
    ∃ c', Refused c c' (HTTP_SIG rd.request.attr ++ text) ∧
      ∀ next, iterationWith malloc process next c = some (.ret c') := by
  have hspec := linePart_data malloc process (at_read c.line_buf c.line_pos)
    (length_read _ _) hfit hrecv
  rw [hscan] at hspec
  unfold LineSpec at hspec
  simp only [hverdict] at hspec
  obtain ⟨c', hline, href⟩ := hspec
  exact ⟨c', href, iterationWith_inl malloc process hpart hline⟩

/-- A blank line behind which the handler is called. -/
theorem iteration_processed (hpart : c.part ≠ .BODY) (hfit : c.line_pos < LINE_BUF_SIZE)
    (hrecv : recv (LINE_BUF_SIZE - c.line_pos - 1) c.input = (.data bs, input'))
    (hscan : scan (c.room malloc) c.toReading (read c.line_buf c.line_pos ++ bs) = .blank rd rest)
    (hverdict : verdict (malloc.alloc c.log.length) rd.request = .process) :
    ∃ buf, At buf 0 rest ∧ ∀ next, iterationWith malloc process next c
      = some (.ret (passed malloc process (c.received bs input') rd rest buf)) := by
  have hspec := linePart_data malloc process (at_read c.line_buf c.line_pos)
    (length_read _ _) hfit hrecv
  rw [hscan] at hspec
  unfold LineSpec at hspec
  simp only [hverdict] at hspec
  obtain ⟨buf, hbuf, hline⟩ := hspec
  exact ⟨buf, hbuf, iterationWith_inl malloc process hpart hline⟩

/-- A blank line behind which the body is received. -/
theorem iteration_announced {mem : Memory} (hpart : c.part ≠ .BODY)
    (hfit : c.line_pos < LINE_BUF_SIZE)
    (hrecv : recv (LINE_BUF_SIZE - c.line_pos - 1) c.input = (.data bs, input'))
    (hscan : scan (c.room malloc) c.toReading (read c.line_buf c.line_pos ++ bs) = .blank rd rest)
    (hverdict : verdict (malloc.alloc c.log.length) rd.request = .receive mem) :
    ∃ buf, ∀ next, iterationWith malloc process next c
      = bodyPart malloc process next (receiving (c.received bs input') rd mem rest buf) := by
  have hspec := linePart_data malloc process (at_read c.line_buf c.line_pos)
    (length_read _ _) hfit hrecv
  rw [hscan] at hspec
  unfold LineSpec at hspec
  simp only [hverdict] at hspec
  obtain ⟨buf, hline⟩ := hspec
  exact ⟨buf, iterationWith_inr malloc process hpart hline⟩

end Forward

end LinePart

end Http
end Osrv
