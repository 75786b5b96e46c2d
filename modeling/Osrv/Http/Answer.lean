import Osrv.Http.Resume
import Osrv.Http.Steps

/-!
# What a request comes to

`answer` says what a request comes to by the bytes that have been received for
it, however they arrived: more of it is waited for, it is refused or the handler
is called. `Follows` is where a connection then stands between two calls of
`http_input_iteration`, and by `Follows.progress` a call does what `answer` says
of the bytes that it had and received, unless a line end was cut.
-/

namespace Osrv
namespace Http

open Bytes Net

/-! ### The answer -/

/-- Whether there is memory for a small object, with `k` entries in the log. -/
def roomAt (malloc : Malloc) (k n : ℕ) : Bool := (malloc.alloc k n).isSome

/-- The request as it is passed to the handler, with `k` entries in the log. -/
def handed (malloc : Malloc) (k : ℕ) (rd : Reading) : HttpRequest :=
  if rd.headers.isEmpty then rd.request
  else { rd.request with
    headers := (malloc.alloc k (sizeof_raw + rd.headers.bytes.length)).map fun mem =>
      ⟨rd.headers.bytes.length, fun i => mem (i + 8)⟩ }

/-- Whether what was recorded runs over the first buffer, with `k` entries in the log. -/
def overfull (malloc : Malloc) (k : ℕ) (hs : Chain) : Bool :=
  match malloc.alloc k (sizeof_raw + hs.bytes.length), hs with
  | some _, root :: _ => root.size + 8 < hs.bytes.length
  | _, _ => false

/-- A call of the handler at the end of a request. -/
def callEvent (malloc : Malloc) (k : ℕ) (rd : Reading) : Event :=
  .process .complete (handed malloc k rd) rd.headers.bytes

/-- The length of the body as it was announced. -/
def Reading.bodyLength (rd : Reading) : ℕ := rd.request.content_length.toNat

/-- What has been received of the body is in its memory. -/
def Reading.withBody (rd : Reading) (mem : Memory) (got : List UInt8) : Reading :=
  { rd with
    request := { rd.request with
      body := some (write mem 0 (got.take (min rd.bodyLength got.length))) }
    part := .BODY }

/-- What a request comes to. `left` is what has been received behind it. -/
inductive Answer
  | crash
  | waiting
  | refuse (response : List UInt8)
  | call (rd : Reading) (left : List UInt8)

/-- What a request comes to of which `xs` has been received. -/
def answer (malloc : Malloc) (k : ℕ) (xs : List UInt8) : Answer :=
  match scan (roomAt malloc k) .fresh xs with
  | .crash => .crash
  | .more _ _ => .waiting
  | .refuse response => .refuse response
  | .blank rd got =>
    match verdict (malloc.alloc k) rd.request with
    | .refuse text => .refuse (HTTP_SIG rd.request.attr ++ text)
    | .process => .call rd got
    | .receive mem =>
      if got.length < rd.bodyLength then .waiting
      else .call (rd.withBody mem got) (got.drop rd.bodyLength)

section Answer

variable {malloc : Malloc} {k : ℕ} {xs got : List UInt8} {rd : Reading}

theorem answer_process (hscan : scan (roomAt malloc k) .fresh xs = .blank rd got)
    (hverdict : verdict (malloc.alloc k) rd.request = .process) :
    answer malloc k xs = .call rd got := by
  rw [answer, hscan]
  simp only [hverdict]

theorem answer_receive {mem : Memory} (hscan : scan (roomAt malloc k) .fresh xs = .blank rd got)
    (hverdict : verdict (malloc.alloc k) rd.request = .receive mem) :
    answer malloc k xs = if got.length < rd.bodyLength then .waiting
      else .call (rd.withBody mem got) (got.drop rd.bodyLength) := by
  rw [answer, hscan]
  simp only [hverdict]

/-- At the blank line a request is refused, or by its verdict. -/
theorem answer_refuse {text : List UInt8}
    (hscan : scan (roomAt malloc k) .fresh xs = .blank rd got)
    (hverdict : verdict (malloc.alloc k) rd.request = .refuse text) :
    answer malloc k xs = .refuse (HTTP_SIG rd.request.attr ++ text) := by
  rw [answer, hscan]
  simp only [hverdict]

end Answer

/-! ### Cuts between the pieces -/

/-- The bytes are not cut in a line end, or not in the head of a request, and the part of
the head in front of the cut has no NUL. -/
def CleanCut (xs ys : List UInt8) : Prop := (splitHead xs).2 = none → Continues xs ys

theorem cleanCut_append {xs ys zs : List UInt8} (hne : ys ≠ []) :
    CleanCut xs (ys ++ zs) ↔ CleanCut xs ys := by
  unfold CleanCut Continues
  rw [cutsLine_append hne]

/-- A CR that is all there is of a request is refused. -/
theorem scan_cr (room : ℕ → Bool) : ∃ response, scan room .fresh [13] = .refuse response := by
  have hpart : Reading.fresh.part = .REQUEST := rfl
  have htail : afterEol (tailOf [13]) = some [] := rfl
  obtain ⟨response, hline⟩ := line_empty_request hpart room
  refine ⟨response, ?_⟩
  rw [scan_line rfl htail, show lineOf [13] = [] from rfl, hline]

/-- Bytes that are waited behind are scanned on with those that follow. -/
theorem scan_fresh_append {room : ℕ → Bool} {xs ys : List UInt8} (hne : xs ≠ [13])
    (hcut : CleanCut xs ys) : scan room .fresh (xs ++ ys) = (scan room .fresh xs).extend room ys :=
  scan_append Headed.init (fun _ => hne) fun rd pending hscan =>
    hcut ((scan_splitHead room .fresh xs).1 rd pending hscan)

/-! ### The connection -/

section Connection

variable {σ : Type} (malloc : Malloc) (process : Handler σ)

theorem collect_buffers_fst (c : Connection σ) : (collect_buffers malloc c).1
    = (malloc.alloc c.log.length (sizeof_raw + c.headers.bytes.length)).map fun mem =>
      ⟨c.headers.bytes.length, fun i => mem (i + 8)⟩ := by
  unfold collect_buffers
  simp only
  cases malloc.alloc c.log.length (sizeof_raw + c.headers.bytes.length) with
  | none => rfl
  | some mem => rfl

theorem collect_buffers_snd (c : Connection σ) :
    (collect_buffers malloc c).2 = overfull malloc c.log.length c.headers := by
  unfold collect_buffers overfull
  simp only
  cases malloc.alloc c.log.length (sizeof_raw + c.headers.bytes.length) with
  | none => rfl
  | some mem => cases c.headers <;> rfl

theorem passedRequest_eq (c : Connection σ) :
    passedRequest malloc c = handed malloc c.log.length c.toReading := by
  rw [passedRequest, handed, collect_buffers_fst]

/-- The head of the request has been received, and a part of its body. -/
structure Receives (c : Connection σ) (rd : Reading) (mem : Memory) (got : List UInt8) :
    Prop where
  /-- The blank line is among the bytes received. -/
  scan : scan (c.room malloc) .fresh c.current = .blank rd got
  /-- There is memory for the body. -/
  verdict : verdict (malloc.alloc c.log.length) rd.request = .receive mem
  /-- The body is there as far as it has been received. -/
  reading : c.toReading = rd.withBody mem got
  body_pos : c.body_pos = min rd.bodyLength got.length
  /-- What was received too much. -/
  line_pos : c.line_pos = got.length - rd.bodyLength

/-- A request has begun, and more of it is waited for. -/
inductive Underway (c : Connection σ) : Prop
  | lines (h : scan (c.room malloc) .fresh c.current
      = .more c.toReading (read c.line_buf c.line_pos))
  | body {rd : Reading} {mem : Memory} {got : List UInt8} (h : Receives malloc c rd mem got)
      (hlt : got.length < rd.bodyLength)

/-- Where a connection stands by what has been received of a request. -/
structure Follows (c : Connection σ) : Prop where
  /-- There is room in the line buffer. -/
  pos : c.line_pos < LINE_BUF_SIZE
  /-- The connection is between two requests or in one. -/
  stage : Idle c ∨ Underway malloc c

/-- The handler was called at the end of a request. The connection is closed or ready for
the next one, which starts with `left`. -/
structure Called (c c' : Connection σ) (rd : Reading) (left : List UInt8) : Prop where
  /-- It was called with this request. -/
  log : c'.log = c.log ++ [callEvent malloc c.log.length rd]
  world : c'.world = (process (handed malloc c.log.length rd) c.world).2.2
  overrun : c'.overrun = (c.overrun || overfull malloc c.log.length rd.headers)
  ready : c'.s = true → Idle c' ∧ c'.current = left
  pos : c'.s = true → c'.line_pos < LINE_BUF_SIZE

/-- `bs` was received for a request, and nothing else has happened. -/
structure Onward (c c' : Connection σ) (bs : List UInt8) : Prop where
  log : c'.log = c.log
  world : c'.world = c.world
  s : c'.s = c.s
  overrun : c'.overrun = c.overrun
  current : c'.current = c.current ++ bs
  input : c.input.bytes = bs ++ c'.input.bytes
  ending : c'.input.ending = c.input.ending

/-- What a call of `http_input_iteration` comes to, by the bytes `bs` that it receives. -/
inductive Progress (c : Connection σ) : Option (Iteration (Connection σ)) → Prop
  | waiting {c' : Connection σ} {bs : List UInt8} (h : Onward c c' bs)
      (hstage : Underway malloc c → Underway malloc c')
      (hnone : c'.input.bytes = []) (hending : c.input.ending = .waiting) :
      Progress c (some (.blocked c'))
  | more {c' : Connection σ} {bs : List UInt8} (h : Onward c c' bs) (hne : bs ≠ [])
      (hpos : c'.line_pos < LINE_BUF_SIZE) (hstage : Underway malloc c') :
      Progress c (some (.ret c'))
  | refused {c' : Connection σ} {bs response : List UInt8} {input' : Input}
      (hbs : c.input.bytes = bs ++ input'.bytes)
      (hanswer : answer malloc c.log.length (c.current ++ bs) = .refuse response)
      (h : Refused c c' response) : Progress c (some (.ret c'))
  | called {c' : Connection σ} {bs left : List UInt8} {rd : Reading}
      (hbs : c.input.bytes = bs ++ c'.input.bytes) (hending : c'.input.ending = c.input.ending)
      (hanswer : answer malloc c.log.length (c.current ++ bs) = .call rd left)
      (h : Called malloc process c c' rd left) : Progress c (some (.ret c'))
  | crashed {bs : List UInt8} {input' : Input} (hbs : c.input.bytes = bs ++ input'.bytes)
      (hanswer : answer malloc c.log.length (c.current ++ bs) = .crash) : Progress c none
  | ended {c' : Connection σ} (hclosed : c'.s = false)
      (hlog : c'.log = c.log ∨ ∃ req recorded,
        c'.log = c.log ++ [.process .hangup req recorded])
      (hend : c.input.ending = .waiting → c.part ≠ .BODY ∧ LINE_BUF_SIZE ≤ c.line_pos + 1) :
      Progress c (some (.ret c'))

/-! ### In the body -/

variable {malloc process} {c₀ c c₁ : Connection σ} {rd : Reading} {mem : Memory}
  {got bs bs₀ : List UInt8}

@[simp] theorem finishBody_input : (finishBody malloc process c).input = c.input := by
  unfold finishBody
  split
  · rw [finish_input, process_request_input]
  · rfl

theorem Onward.refl (c : Connection σ) : Onward c c [] where
  log := rfl
  world := rfl
  s := rfl
  overrun := rfl
  current := (List.append_nil _).symm
  input := rfl
  ending := rfl

theorem Onward.trans {c₂ : Connection σ} {bs' : List UInt8} (h : Onward c c₁ bs)
    (h' : Onward c₁ c₂ bs') : Onward c c₂ (bs ++ bs') where
  log := h'.log.trans h.log
  world := h'.world.trans h.world
  s := h'.s.trans h.s
  overrun := h'.overrun.trans h.overrun
  current := by rw [h'.current, h.current, List.append_assoc]
  input := by rw [h.input, h'.input, List.append_assoc]
  ending := h'.ending.trans h.ending

theorem Onward.bodyPiece {body : Memory} {input' : Input}
    (hinput : bs ++ input'.bytes = c.input.bytes) (hending : input'.ending = c.input.ending) :
    Onward c (c.bodyPiece body bs input') bs where
  log := rfl
  world := rfl
  s := rfl
  overrun := rfl
  current := rfl
  input := hinput.symm
  ending := hending

/-- The stream ends inside of a request. -/
theorem Progress.hangup {input' : Input} (hon : Onward c₀ c bs₀)
    (hend : c₀.input.ending = .waiting → c₀.part ≠ .BODY ∧ LINE_BUF_SIZE ≤ c₀.line_pos + 1) :
    Progress malloc process c₀ (some (.ret (http_close
      (process_request malloc process .hangup { c with input := input' })))) := by
  refine .ended rfl (Or.inr ⟨passedRequest malloc { c with input := input' }, c.headers.bytes,
    ?_⟩) hend
  rw [← hon.log]
  rfl

namespace Receives

variable (h : Receives malloc c rd mem got)

include h

theorem part : c.part = .BODY := congrArg Reading.part h.reading

theorem request : c.request = (rd.withBody mem got).request := congrArg Reading.request h.reading

/-- The length that was announced is a number of bytes. -/
theorem content_length : c.request.content_length = rd.bodyLength := by
  obtain ⟨-, hlow, -⟩ := verdict_receive h.verdict
  rw [h.request]
  exact (Int.toNat_of_nonneg hlow.le).symm

theorem answer : answer malloc c.log.length c.current
    = if got.length < rd.bodyLength then .waiting
      else .call (rd.withBody mem got) (got.drop rd.bodyLength) :=
  answer_receive h.scan h.verdict

/-- Something is missing of the body. -/
theorem finishBody_more (hlt : got.length < rd.bodyLength) :
    finishBody malloc process c = c := by
  refine if_neg fun heq => ?_
  rw [h.content_length, h.body_pos] at heq
  omega

/-- **A body that is complete.** The handler is called. -/
theorem finishBody_full (process : Handler σ) (hpos : c.line_pos < LINE_BUF_SIZE)
    (hge : ¬ got.length < rd.bodyLength) :
    Called malloc process c (finishBody malloc process c) (rd.withBody mem got)
      (got.drop rd.bodyLength) := by
  have hfull : (c.body_pos : ℤ) = c.request.content_length := by
    rw [h.content_length, h.body_pos]
    omega
  have hreq : passedRequest malloc c = handed malloc c.log.length (rd.withBody mem got) := by
    rw [passedRequest_eq, h.reading]
  have hheaders : c.headers = (rd.withBody mem got).headers := congrArg Reading.headers h.reading
  unfold finishBody
  rw [if_pos hfull]
  constructor
  · rw [finish_log, process_request_log, hreq, hheaders]
    rfl
  · rw [finish_world, process_request_world, hreq]
  · rw [finish_overrun, process_request_overrun, collect_buffers_snd, hheaders]
  · intro hs
    -- nothing was received behind the body
    obtain ⟨hidle, hdouble⟩ := finish_idle hs
    rw [process_request_line_pos, decide_eq_false_iff_not, not_not] at hdouble
    have hle : got.length ≤ rd.bodyLength := by
      have hleft := h.line_pos
      omega
    refine ⟨hidle, ?_⟩
    rw [hidle.current, finish_line_pos, process_request_line_pos, hdouble,
      List.drop_of_length_le hle]
    rfl
  · intro _
    rw [finish_line_pos]
    exact hpos

/-- A piece of the body is put behind what is there. -/
theorem piece {input' : Input} {body : Memory} (hbody : c.request.body = some body)
    (hlen : (got ++ bs).length ≤ rd.bodyLength) :
    Receives malloc (c.bodyPiece body bs input') rd mem (got ++ bs) := by
  have hlen' := hlen
  rw [List.length_append] at hlen'
  have hgot : got.take (min rd.bodyLength got.length) = got :=
    List.take_of_length_le (by omega)
  have hwhole : (got ++ bs).take (min rd.bodyLength (got ++ bs).length) = got ++ bs :=
    List.take_of_length_le (by omega)
  constructor
  · -- the head is complete, so that it does not matter where the bytes are cut
    have hsplit := (scan_splitHead (c.room malloc) .fresh c.current).2 _ _ h.scan
    have hscan : Http.scan (c.room malloc) .fresh (c.current ++ bs)
        = (Http.scan (c.room malloc) .fresh c.current).extend (c.room malloc) bs := by
      refine scan_fresh_append ?_ ?_
      · intro heq
        obtain ⟨response, hcr⟩ := scan_cr (c.room malloc)
        rw [← heq, h.scan] at hcr
        cases hcr
      · intro hnone
        rw [hsplit] at hnone
        cases hnone
    rw [h.scan] at hscan
    exact hscan
  · exact h.verdict
  · have hmem : body = write mem 0 got := by
      rw [h.request] at hbody
      have heq : write mem 0 (got.take (min rd.bodyLength got.length)) = body :=
        Option.some.inj hbody
      rw [← heq, hgot]
    have hpos : c.body_pos = 0 + got.length := by
      rw [h.body_pos]
      omega
    show (⟨{ c.request with body := some (write body c.body_pos bs) }, c.part, c.headers⟩ :
      Reading) = _
    rw [Reading.withBody, hwhole, hmem, hpos, write_append, h.request, h.part,
      congrArg Reading.headers h.reading]
    rfl
  · show c.body_pos + bs.length = _
    rw [h.body_pos, List.length_append]
    omega
  · show 0 = _
    omega

/-- A body that is complete answers the request. -/
theorem called (hon : Onward c₀ c bs₀) (hpos : c.line_pos < LINE_BUF_SIZE)
    (hge : ¬ got.length < rd.bodyLength) :
    Progress malloc process c₀ (some (.ret (Http.finishBody malloc process c))) := by
  have hcall := h.finishBody_full process hpos hge
  have hanswer := h.answer
  rw [if_neg hge, hon.log, hon.current] at hanswer
  refine .called ?_ ?_ hanswer ⟨?_, ?_, ?_, hcall.ready, hcall.pos⟩
  · rw [finishBody_input]
    exact hon.input
  · rw [finishBody_input]
    exact hon.ending
  · rw [hcall.log, hon.log]
  · rw [hcall.world, hon.log, hon.world]
  · rw [hcall.overrun, hon.log, hon.overrun]

/-- **A call in the body.** -/
theorem bodyPart (hon : Onward c₀ c bs₀) (hpos : c.line_pos < LINE_BUF_SIZE)
    (rest : Connection σ → Option (Iteration (Connection σ))) :
    Progress malloc process c₀ (bodyPart malloc process rest c) := by
  obtain ⟨body, hbody⟩ : ∃ body, c.request.body = some body := by
    rw [h.request]
    exact ⟨_, rfl⟩
  have hbodyPos := h.body_pos
  by_cases hlt : got.length < rd.bodyLength
  -- a part of the body is missing
  · have hmissing : (c.body_pos : ℤ) < c.request.content_length := by
      rw [h.content_length]
      omega
    have hcap : (c.request.content_length - c.body_pos).toNat = rd.bodyLength - got.length := by
      rw [h.content_length]
      omega
    rcases hrecv : recv (c.request.content_length - c.body_pos).toNat c.input with ⟨res, input'⟩
    rw [bodyPart_receive h.part hbody hmissing hrecv]
    -- an input that is still open neither ends nor fails while bytes are missing
    have hopen : res = .closed ∨ res = .failed → c₀.input.ending ≠ .waiting := fun hres hw => by
      have hzero := recv_ended hrecv hres (hon.ending.trans hw)
      omega
    cases res with
    | blocked =>
      obtain ⟨rfl, hnone, hending⟩ := recv_blocked hrecv
      exact .waiting hon (fun _ => .body h hlt) hnone (hon.ending ▸ hending)
    | failed => exact .ended rfl (Or.inl hon.log) fun hw => absurd hw (hopen (Or.inr rfl))
    | closed => exact .hangup hon fun hw => absurd hw (hopen (Or.inl rfl))
    | data bs =>
      obtain ⟨hne, hroom, hsplit, hending⟩ := recv_spec hrecv
      -- no more is received than what is missing
      have hlen : (got ++ bs).length ≤ rd.bodyLength := by
        rw [List.length_append]
        omega
      have hp : Receives malloc (c.bodyPiece body bs input') rd mem (got ++ bs) :=
        h.piece hbody hlen
      have hon' : Onward c₀ (c.bodyPiece body bs input') (bs₀ ++ bs) :=
        hon.trans (.bodyPiece hsplit hending)
      have hzero : (c.bodyPiece body bs input').line_pos < LINE_BUF_SIZE :=
        show 0 < LINE_BUF_SIZE by decide
      by_cases hmore : (got ++ bs).length < rd.bodyLength
      · simp only [hp.finishBody_more hmore]
        exact .more hon' (by simp [hne]) hzero (.body hp hmore)
      · exact hp.called hon' hzero hmore
  -- the body is there as a whole
  · have hmissing : ¬ (c.body_pos : ℤ) < c.request.content_length := by
      rw [h.content_length]
      omega
    rw [bodyPart_complete h.part hbody hmissing]
    exact h.called hon hpos hlt

end Receives

/-! ### In the lines -/

theorem Follows.headed (h : Follows malloc c) (hpart : c.part ≠ .BODY) : Headed c.toReading := by
  cases h.stage with
  | inl hidle =>
    rw [hidle.reading]
    exact Headed.init
  | inr hstage =>
    cases hstage with
    | lines hscan => exact ((Headed.init.scan _).1 _ _ hscan).1
    | body hbody hlt => exact absurd hbody.part hpart

/-- **The scan of a piece** behind what is left in the line buffer is the scan of all that
was received of the request. -/
theorem Follows.scan_piece (h : Follows malloc c) (hpart : c.part ≠ .BODY)
    (hcut : CleanCut c.current bs) :
    scan (c.room malloc) c.toReading (read c.line_buf c.line_pos ++ bs)
      = scan (roomAt malloc c.log.length) .fresh (c.current ++ bs) := by
  show _ = scan (c.room malloc) .fresh (c.current ++ bs)
  cases h.stage with
  | inl hidle => rw [hidle.reading, hidle.current]
  | inr hstage =>
    cases hstage with
    | lines hscan =>
      rw [scan_fresh_append (fun heq => ?_) hcut, hscan]
      · rfl
      · obtain ⟨response, hcr⟩ := scan_cr (c.room malloc)
        rw [← heq, hscan] at hcr
        cases hcr
    | body hbody hlt => exact absurd hbody.part hpart

/-- The line buffer behind a request without a body. -/
theorem passed_buffer {rest : List UInt8} {buf : Memory} {input' : Input}
    (hbuf : At buf 0 rest) :
    read (passed malloc process (c.received bs input') rd rest buf).line_buf
      (passed malloc process (c.received bs input') rd rest buf).line_pos = rest := by
  rw [passed, finish_line_pos, finish_line_buf]
  exact hbuf.read_start

/-- A connection that is kept open is ready for the next request. -/
theorem passed_idle {rest : List UInt8} {buf : Memory}
    (hs : (passed malloc process c rd rest buf).s = true) :
    Idle (passed malloc process c rd rest buf) :=
  (finish_idle hs).1

/-- **A blank line behind which the handler is called.** -/
theorem passed_called {rest : List UInt8} {buf : Memory} {input' : Input} (hbuf : At buf 0 rest)
    (hlen : rest.length < LINE_BUF_SIZE) :
    Called malloc process c (passed malloc process (c.received bs input') rd rest buf) rd rest := by
  constructor
  · rw [passed, finish_log, process_request_log, passedRequest_eq]
    rfl
  · rw [passed, finish_world, process_request_world, passedRequest_eq]
    rfl
  · rw [passed, finish_overrun, process_request_overrun, collect_buffers_snd]
    rfl
  · intro hs
    have hidle := passed_idle hs
    exact ⟨hidle, hidle.current.trans (passed_buffer hbuf)⟩
  · intro _
    rw [passed, finish_line_pos]
    exact hlen

/-- A piece that ends in the lines of a request. -/
theorem more_underway {pending : List UInt8} {buf : Memory} {input' : Input}
    (hscan : scan (roomAt malloc c.log.length) .fresh (c.current ++ bs) = .more rd pending)
    (hbuf : At buf 0 pending) : Underway malloc { c.received bs input' with
      toReading := rd, line_buf := buf, line_pos := pending.length } := by
  refine .lines ?_
  show scan (roomAt malloc c.log.length) .fresh (c.current ++ bs)
    = .more rd (read buf pending.length)
  rw [hscan, hbuf.read_start]

/-- A blank line behind which the body is received. -/
theorem receiving_receives {rest : List UInt8} {buf : Memory} {input' : Input}
    (hscan : scan (roomAt malloc c.log.length) .fresh (c.current ++ bs) = .blank rd rest)
    (hverdict : verdict (malloc.alloc c.log.length) rd.request = .receive mem) :
    Receives malloc (receiving (c.received bs input') rd mem rest buf) rd mem rest where
  scan := hscan
  verdict := hverdict
  reading := rfl
  body_pos := rfl
  line_pos := by
    show rest.length - min rd.bodyLength rest.length = _
    omega

/-- **A call of `http_input_iteration`** does what `answer` says of the bytes it had and
received. -/
theorem Follows.progress (process : Handler σ) (h : Follows malloc c)
    (hcut : CleanCut c.current c.input.bytes) :
    Progress malloc process c (http_input_iteration malloc process c) := by
  by_cases hpart : c.part = .BODY
  · -- in the body: the connection has got past the head
    rw [http_input_iteration, iterationWith, if_pos hpart]
    cases h.stage with
    | inl hidle =>
      rw [congrArg Reading.part hidle.reading] at hpart
      cases hpart
    | inr hstage =>
      cases hstage with
      | lines hscan => exact absurd hpart ((Headed.init.scan _).1 _ _ hscan).1.part
      | body hbody hlt => exact hbody.bodyPart (.refl c) h.pos _
  · have hfit := h.pos
    -- in the head: what `recv` returns decides
    rcases hrecv : recv (LINE_BUF_SIZE - c.line_pos - 1) c.input with ⟨res, input'⟩
    have hend : res = .closed ∨ res = .failed → c.input.ending = .waiting →
        c.part ≠ .BODY ∧ LINE_BUF_SIZE ≤ c.line_pos + 1 := fun hres hw => by
      have hzero := recv_ended hrecv hres hw
      exact ⟨hpart, by omega⟩
    cases res with
    | blocked =>
      have hline := linePart_nothing malloc process hfit hrecv (by simp)
      rw [http_input_iteration, iterationWith_inl malloc process hpart hline]
      obtain ⟨rfl, hnone, hending⟩ := recv_blocked hrecv
      exact .waiting (.refl c) id hnone hending
    | failed =>
      have hline := linePart_nothing malloc process hfit hrecv (by simp)
      rw [http_input_iteration, iterationWith_inl malloc process hpart hline]
      exact .ended rfl (Or.inl rfl) (hend (Or.inr rfl))
    | closed =>
      have hline := linePart_nothing malloc process hfit hrecv (by simp)
      rw [http_input_iteration, iterationWith_inl malloc process hpart hline]
      -- behind the request line the handler is called with what there is
      by_cases hpath : c.request.path.isSome = true
      · simp only [hpath, if_true]
        exact .hangup (.refl c) (hend (Or.inl rfl))
      · simp only [hpath]
        exact .ended rfl (Or.inl rfl) (hend (Or.inl rfl))
    | data bs =>
      obtain ⟨hne, hroom, hsplit, hending⟩ := recv_spec hrecv
      rw [← hsplit] at hcut
      have hscan := h.scan_piece hpart ((cleanCut_append hne).mp hcut)
      -- what is left in the line buffer is not more than what was there
      have hlen : (read c.line_buf c.line_pos ++ bs).length < LINE_BUF_SIZE := by
        rw [List.length_append, length_read]
        omega
      obtain ⟨hmore, hblank⟩ := @Headed.scan (c.room malloc) _
        (read c.line_buf c.line_pos ++ bs) (h.headed hpart)
      rw [hscan] at hmore hblank
      cases hres : scan (roomAt malloc c.log.length) .fresh (c.current ++ bs) with
      | crash =>
        rw [http_input_iteration,
          iteration_crash malloc process hpart hfit hrecv (hscan.trans hres)]
        -- a null pointer is followed in the piece as in all that was received
        exact .crashed hsplit.symm (by rw [answer, hres])
      | refuse response =>
        obtain ⟨c', href, hrun⟩ :=
          iteration_refused malloc process hpart hfit hrecv (hscan.trans hres)
        rw [http_input_iteration, hrun]
        exact .refused hsplit.symm (by rw [answer, hres]) href
      | more rd pending =>
        -- the blank line is still to come
        obtain ⟨buf, hbuf, hrun⟩ :=
          iteration_more malloc process hpart hfit hrecv (hscan.trans hres)
        have hlt : pending.length < LINE_BUF_SIZE := (hmore rd pending hres).2.trans_lt hlen
        have hon : Onward c { c.received bs input' with
            toReading := rd, line_buf := buf, line_pos := pending.length } bs :=
          ⟨rfl, rfl, rfl, rfl, rfl, hsplit.symm, hending⟩
        rw [http_input_iteration, hrun]
        exact .more hon hne hlt (more_underway hres hbuf)
      | blank rd rest =>
        have hlt : rest.length < LINE_BUF_SIZE := (hblank rd rest hres).2.trans_lt hlen
        -- the blank line is there, and the checks decide
        cases hv : verdict (malloc.alloc c.log.length) rd.request with
        | refuse text =>
          obtain ⟨c', href, hrun⟩ :=
            iteration_rejected malloc process hpart hfit hrecv (hscan.trans hres) hv
          rw [http_input_iteration, hrun]
          exact .refused hsplit.symm (answer_refuse hres hv) href
        | process =>
          obtain ⟨buf, hbuf, hrun⟩ :=
            iteration_processed malloc process hpart hfit hrecv (hscan.trans hres) hv
          rw [http_input_iteration, hrun]
          refine .called ?_ ?_ (answer_process hres hv) (passed_called hbuf hlt)
          · rw [passed, finish_input, process_request_input]
            exact hsplit.symm
          · rw [passed, finish_input, process_request_input]
            exact hending
        | receive mem =>
          obtain ⟨buf, hrun⟩ :=
            iteration_announced malloc process hpart hfit hrecv (hscan.trans hres) hv
          have hbody : Receives malloc (receiving (c.received bs input') rd mem rest buf) rd mem
              rest := receiving_receives hres hv
          have hon : Onward c (receiving (c.received bs input') rd mem rest buf) bs :=
            ⟨rfl, rfl, rfl, rfl, rfl, hsplit.symm, hending⟩
          rw [http_input_iteration, hrun]
          -- the same call goes on with the body
          refine hbody.bodyPart hon ?_ _
          rw [hbody.line_pos]
          omega

end Connection

end Http
end Osrv
