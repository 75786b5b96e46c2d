import Osrv.Http.Delivery
import Osrv.Http.Intact

/-!
# Requests on a connection that is kept open

Between two requests nothing is left of the first one. A connection on which
complete requests have been served is in the state of a new one, but for what is
in the line buffer behind the position that counts (`KeptAlive.ready`). What is
left there cannot be told apart: `Mirrors` relates such a connection to a new
one, and every call of `http_input_iteration` keeps them so
(`Mirrors.iteration`). So every request is served as if it were the first
(`kept_alive_isolated`).
-/

namespace Osrv

namespace Http

open Bytes Net

section Mirror

variable {σ : Type}

/-! ### The relation -/

/-- What is known of two connections that are open. The line buffers agree up to the
position that counts, and not even that matters in a body. -/
structure Alike (c d : Connection σ) : Prop where
  reading : c.toReading = d.toReading
  line_pos : c.line_pos = d.line_pos
  body_pos : c.body_pos = d.body_pos
  input : c.input = d.input
  pending : c.part ≠ .BODY → read c.line_buf c.line_pos = read d.line_buf d.line_pos

/-- **A connection and a new one.** `base` is the log of what went before. -/
structure Mirrors (base : List Event) (c d : Connection σ) : Prop where
  s : c.s = d.s
  world : c.world = d.world
  log : c.log = base ++ d.log
  overrun : c.overrun = d.overrun
  alike : c.s = true → Alike c d

/-- The calls end in the same way. -/
inductive MirrorsEnd (base : List Event) :
    Option (Iteration (Connection σ)) → Option (Iteration (Connection σ)) → Prop
  | none : MirrorsEnd base none none
  | blocked {c d : Connection σ} (h : Mirrors base c d) :
      MirrorsEnd base (some (.blocked c)) (some (.blocked d))
  | ret {c d : Connection σ} (h : Mirrors base c d) :
      MirrorsEnd base (some (.ret c)) (some (.ret d))

variable {malloc : Malloc} {process : Handler σ} {base : List Event} {c d : Connection σ}

theorem Mirrors.alloc (h : Mirrors base c d) :
    malloc.alloc c.log.length = (malloc.from base.length).alloc d.log.length := by
  rw [h.log, List.length_append]
  rfl

theorem Mirrors.room (h : Mirrors base c d) :
    c.room malloc = d.room (malloc.from base.length) := by
  funext n
  rw [Connection.room, Connection.room, h.alloc]

theorem Mirrors.handed (h : Mirrors base c d) (rd : Reading) :
    handed malloc c.log.length rd = handed (malloc.from base.length) d.log.length rd := by
  rw [Http.handed, Http.handed, h.alloc]

/-! ### The parts of a call -/

/-- The same head is collected. -/
theorem Mirrors.collected (h : Mirrors base c d) (hs : c.s = true) :
    (collect_buffers malloc c).2 = (collect_buffers (malloc.from base.length) d).2 := by
  have hheaders : c.headers = d.headers := congrArg Reading.headers (h.alike hs).reading
  unfold collect_buffers
  rw [h.alloc, hheaders]

/-- The handler is called with the same request. -/
theorem Mirrors.process_request (h : Mirrors base c d) (hs : c.s = true) (site : Site) :
    Mirrors base (process_request malloc process site c)
      (process_request (malloc.from base.length) process site d) := by
  have ha := h.alike hs
  have hreq : passedRequest malloc c = passedRequest (malloc.from base.length) d := by
    rw [passedRequest_eq, passedRequest_eq, ha.reading, h.handed]
  constructor
  · show (c.s && _) = (d.s && _)
    rw [h.s, hreq, h.world]
  · rw [process_request_world, process_request_world, hreq, h.world]
  · rw [process_request_log, process_request_log, hreq, congrArg Reading.headers ha.reading, h.log,
      List.append_assoc]
  · rw [process_request_overrun, process_request_overrun, h.overrun, h.collected hs]
  · intro _
    refine ⟨?_, ha.line_pos, ha.body_pos, ha.input, ha.pending⟩
    show (⟨fin_request _, c.part, c.headers⟩ : Reading) = ⟨fin_request _, d.part, d.headers⟩
    rw [hreq, h.world, congrArg Reading.part ha.reading, congrArg Reading.headers ha.reading]

theorem Mirrors.http_close (h : Mirrors base c d) : Mirrors base (http_close c) (http_close d) where
  s := rfl
  world := h.world
  log := h.log
  overrun := h.overrun
  alike hs := by cases hs

theorem finish_closed {double : Bool} (h : c.s = false) : (finish double c).s = false := by
  unfold finish
  split
  · rfl
  · exact h

/-- The request ends, and what is left in the line buffers begins the next one. -/
theorem Mirrors.finish (h : Mirrors base c d) {double : Bool}
    (hleft : c.s = true → double = false →
      read c.line_buf c.line_pos = read d.line_buf d.line_pos) :
    Mirrors base (finish double c) (finish double d) := by
  have hworld : (Http.finish double c).world = (Http.finish double d).world := by
    rw [finish_world, finish_world, h.world]
  have hlog : (Http.finish double c).log = base ++ (Http.finish double d).log := by
    rw [finish_log, finish_log, h.log]
  have hover : (Http.finish double c).overrun = (Http.finish double d).overrun := by
    rw [finish_overrun, finish_overrun, h.overrun]
  cases hs : c.s with
  | false =>
    have hclosed : (Http.finish double c).s = false := finish_closed hs
    refine ⟨hclosed.trans (finish_closed (h.s ▸ hs)).symm, hworld, hlog, hover, fun hopen => ?_⟩
    rw [hclosed] at hopen
    cases hopen
  | true =>
    have ha := h.alike hs
    have hreq : c.request = d.request := congrArg Reading.request ha.reading
    refine ⟨?_, hworld, hlog, hover, fun hopen => ?_⟩
    · unfold Http.finish
      rw [hreq]
      split
      · rfl
      · exact h.s
    · unfold Http.finish at hopen ⊢
      rw [hreq] at hopen ⊢
      split at hopen
      · cases hopen
      · next hkeep =>
        rw [if_neg hkeep, if_neg hkeep]
        rw [Bool.or_eq_true, not_or] at hkeep
        exact ⟨rfl, ha.line_pos, rfl, ha.input, fun _ => hleft hs (Bool.not_eq_true _ ▸ hkeep.2)⟩

/-- A request that was refused. -/
theorem Mirrors.refused {c' d' : Connection σ} {response : List UInt8} (h : Mirrors base c d)
    (hc : Refused c c' response) (hd : Refused d d' response) : Mirrors base c' d' where
  s := hc.closed.trans hd.closed.symm
  world := by rw [hc.world, hd.world, h.world]
  log := by rw [hc.log, hd.log, h.log, List.append_assoc]
  overrun := by rw [hc.overrun, hd.overrun, h.overrun]
  alike hs := by
    rw [hc.closed] at hs
    cases hs

/-- Both receive the same. -/
theorem Mirrors.received (h : Mirrors base c d) (input : Input) :
    Mirrors base { c with input := input } { d with input := input } where
  s := h.s
  world := h.world
  log := h.log
  overrun := h.overrun
  alike hs :=
    have ha := h.alike hs
    ⟨ha.reading, ha.line_pos, ha.body_pos, rfl, ha.pending⟩

/-- A piece of the body. -/
theorem Mirrors.bodyPiece (h : Mirrors base c d) (body : Memory) (bs : List UInt8)
    (input : Input) : Mirrors base (c.bodyPiece body bs input) (d.bodyPiece body bs input) where
  s := h.s
  world := h.world
  log := h.log
  overrun := h.overrun
  alike hs := by
    have ha := h.alike hs
    refine ⟨?_, rfl, ?_, rfl, fun _ => rfl⟩
    · show (⟨{ c.request with body := some (write body c.body_pos bs) }, c.part, c.headers⟩ :
        Reading) = ⟨{ d.request with body := some (write body d.body_pos bs) }, d.part, d.headers⟩
      rw [congrArg Reading.request ha.reading, congrArg Reading.part ha.reading,
        congrArg Reading.headers ha.reading, ha.body_pos]
    · show c.body_pos + bs.length = d.body_pos + bs.length
      rw [ha.body_pos]

theorem Mirrors.finishBody (h : Mirrors base c d) (hs : c.s = true) :
    Mirrors base (finishBody malloc process c)
      (finishBody (malloc.from base.length) process d) := by
  have ha := h.alike hs
  have hreq : c.request = d.request := congrArg Reading.request ha.reading
  unfold Http.finishBody
  rw [ha.body_pos, hreq]
  split
  · simp only [process_request_line_pos, ha.line_pos]
    refine (h.process_request hs .complete).finish fun _ hdouble => ?_
    -- nothing is left in the line buffer of a connection that is kept open
    rw [decide_eq_false_iff_not, not_not] at hdouble
    rw [process_request_line_pos, process_request_line_pos, ha.line_pos, hdouble]
    rfl
  · exact h

/-- **A call in the body.** -/
theorem Mirrors.bodyPart (h : Mirrors base c d) (hs : c.s = true) (hpart : c.part = .BODY)
    (hbody : c.request.body ≠ none)
    {rest rest' : Connection σ → Option (Iteration (Connection σ))} :
    MirrorsEnd base (bodyPart malloc process rest c)
      (bodyPart (malloc.from base.length) process rest' d) := by
  obtain ⟨body, hmem⟩ := Option.ne_none_iff_exists'.mp hbody
  have ha := h.alike hs
  have hreq : d.request = c.request := (congrArg Reading.request ha.reading).symm
  have hpart' : d.part = .BODY := (congrArg Reading.part ha.reading).symm.trans hpart
  have hmem' : d.request.body = some body := by rw [hreq, hmem]
  by_cases hlt : (c.body_pos : ℤ) < c.request.content_length
  · have hlt' : (d.body_pos : ℤ) < d.request.content_length := by
      rw [hreq, ← ha.body_pos]
      exact hlt
    rcases hrecv : recv (c.request.content_length - c.body_pos).toNat c.input with ⟨res, input'⟩
    have hrecv' : recv (d.request.content_length - d.body_pos).toNat d.input = (res, input') := by
      rw [hreq, ← ha.body_pos, ← ha.input]
      exact hrecv
    rw [bodyPart_receive hpart hmem hlt hrecv, bodyPart_receive hpart' hmem' hlt' hrecv']
    have hin := h.received input'
    cases res with
    | blocked => exact .blocked hin
    | failed => exact .ret hin.http_close
    | closed => exact .ret (hin.process_request hs .hangup).http_close
    | data bs => exact .ret ((h.bodyPiece body bs input').finishBody hs)
  · have hlt' : ¬ (d.body_pos : ℤ) < d.request.content_length := by
      rw [hreq, ← ha.body_pos]
      exact hlt
    rw [bodyPart_complete hpart hmem hlt, bodyPart_complete hpart' hmem' hlt']
    exact .ret (h.finishBody hs)

/-- A piece that ends in the lines of a request. -/
theorem Mirrors.lines (h : Mirrors base c d) {rd : Reading} {pending bs : List UInt8}
    {buf buf' : Memory} {input : Input} (hbuf : At buf 0 pending) (hbuf' : At buf' 0 pending) :
    Mirrors base
      { c.received bs input with toReading := rd, line_buf := buf, line_pos := pending.length }
      { d.received bs input with
        toReading := rd, line_buf := buf', line_pos := pending.length } where
  s := h.s
  world := h.world
  log := h.log
  overrun := h.overrun
  alike hs := by
    refine ⟨rfl, rfl, (h.alike hs).body_pos, rfl, fun _ => ?_⟩
    show read buf pending.length = read buf' pending.length
    rw [hbuf.read_start, hbuf'.read_start]

/-- A request without a body is passed on. -/
theorem Mirrors.passed (h : Mirrors base c d) (hs : c.s = true) {rd : Reading}
    {rest bs : List UInt8} {buf buf' : Memory} {input : Input} (hbuf : At buf 0 rest)
    (hbuf' : At buf' 0 rest) :
    Mirrors base (passed malloc process (c.received bs input) rd rest buf)
      (passed (malloc.from base.length) process (d.received bs input) rd rest buf') := by
  have hinner : Mirrors base
      { c.received bs input with
        request := rd.request
        part := .BODY
        headers := rd.headers
        body_pos := 0
        line_buf := buf
        line_pos := rest.length }
      { d.received bs input with
        request := rd.request
        part := .BODY
        headers := rd.headers
        body_pos := 0
        line_buf := buf'
        line_pos := rest.length } :=
    ⟨h.s, h.world, h.log, h.overrun, fun _ => ⟨rfl, rfl, rfl, rfl, fun hne => absurd rfl hne⟩⟩
  refine (hinner.process_request hs .complete).finish fun _ _ => ?_
  show read buf rest.length = read buf' rest.length
  rw [hbuf.read_start, hbuf'.read_start]

/-- A request waits for its body. -/
theorem Mirrors.receiving (h : Mirrors base c d) (rd : Reading) (mem : Memory)
    (rest bs : List UInt8) (buf buf' : Memory) (input : Input) :
    Mirrors base (receiving (c.received bs input) rd mem rest buf)
      (receiving (d.received bs input) rd mem rest buf') :=
  ⟨h.s, h.world, h.log, h.overrun, fun _ => ⟨rfl, rfl, rfl, rfl, fun hne => absurd rfl hne⟩⟩

/-- **A piece in the lines.** Both scan the same bytes. -/
theorem Mirrors.piece (h : Mirrors base c d) (hs : c.s = true) (hpart : c.part ≠ .BODY)
    (hfit : c.line_pos < LINE_BUF_SIZE) (hfit' : d.line_pos < LINE_BUF_SIZE) {bs : List UInt8}
    {input : Input} (hrecv : recv (LINE_BUF_SIZE - c.line_pos - 1) c.input = (.data bs, input))
    (hrecv' : recv (LINE_BUF_SIZE - d.line_pos - 1) d.input = (.data bs, input)) :
    MirrorsEnd base (http_input_iteration malloc process c)
      (http_input_iteration (malloc.from base.length) process d) := by
  have ha := h.alike hs
  have hpart' : d.part ≠ .BODY := (congrArg Reading.part ha.reading) ▸ hpart
  -- the same bytes are scanned with the same memory
  have hsame : scan (d.room (malloc.from base.length)) d.toReading
      (read d.line_buf d.line_pos ++ bs)
      = scan (c.room malloc) c.toReading (read c.line_buf c.line_pos ++ bs) := by
    rw [h.room, ha.reading, ha.pending hpart]
  cases hscan : scan (c.room malloc) c.toReading (read c.line_buf c.line_pos ++ bs) with
  | crash =>
    rw [http_input_iteration, http_input_iteration,
      iteration_crash malloc process hpart hfit hrecv hscan,
      iteration_crash _ process hpart' hfit' hrecv' (hsame.trans hscan)]
    exact .none
  | refuse response =>
    obtain ⟨c', href, hrun⟩ := iteration_refused malloc process hpart hfit hrecv hscan
    obtain ⟨d', href', hrun'⟩ :=
      iteration_refused _ process hpart' hfit' hrecv' (hsame.trans hscan)
    rw [http_input_iteration, http_input_iteration, hrun, hrun']
    exact .ret (h.refused href href')
  | more rd pending =>
    obtain ⟨buf, hbuf, hrun⟩ := iteration_more malloc process hpart hfit hrecv hscan
    obtain ⟨buf', hbuf', hrun'⟩ :=
      iteration_more _ process hpart' hfit' hrecv' (hsame.trans hscan)
    rw [http_input_iteration, http_input_iteration, hrun, hrun']
    exact .ret (h.lines hbuf hbuf')
  -- a head: the verdicts agree
  | blank rd rest =>
    cases hv : verdict (malloc.alloc c.log.length) rd.request with
    | refuse text =>
      obtain ⟨c', href, hrun⟩ := iteration_rejected malloc process hpart hfit hrecv hscan hv
      obtain ⟨d', href', hrun'⟩ :=
        iteration_rejected _ process hpart' hfit' hrecv' (hsame.trans hscan) (h.alloc ▸ hv)
      rw [http_input_iteration, http_input_iteration, hrun, hrun']
      exact .ret (h.refused href href')
    | process =>
      obtain ⟨buf, hbuf, hrun⟩ := iteration_processed malloc process hpart hfit hrecv hscan hv
      obtain ⟨buf', hbuf', hrun'⟩ :=
        iteration_processed _ process hpart' hfit' hrecv' (hsame.trans hscan) (h.alloc ▸ hv)
      rw [http_input_iteration, http_input_iteration, hrun, hrun']
      exact .ret (h.passed hs hbuf hbuf')
    | receive mem =>
      obtain ⟨buf, hrun⟩ := iteration_announced malloc process hpart hfit hrecv hscan hv
      obtain ⟨buf', hrun'⟩ :=
        iteration_announced _ process hpart' hfit' hrecv' (hsame.trans hscan) (h.alloc ▸ hv)
      rw [http_input_iteration, http_input_iteration, hrun, hrun']
      exact (h.receiving rd mem rest bs buf buf' input).bodyPart hs rfl (Option.some_ne_none _)

/-- **A call of `http_input_iteration`.** -/
theorem Mirrors.iteration (h : Mirrors base c d) (hs : c.s = true) (hin : InRange d) :
    MirrorsEnd base (http_input_iteration malloc process c)
      (http_input_iteration (malloc.from base.length) process d) := by
  have ha := h.alike hs
  have hreq : c.request = d.request := congrArg Reading.request ha.reading
  have hparts : c.part = d.part := congrArg Reading.part ha.reading
  by_cases hpart : c.part = .BODY
  -- in the body both have the same block
  · have hbody := (hin.body (hparts ▸ hpart)).1
    rw [http_input_iteration, http_input_iteration, iterationWith, iterationWith, if_pos hpart,
      if_pos (hparts ▸ hpart)]
    exact h.bodyPart hs hpart (hreq ▸ hbody)
  -- in the lines both receive the same bytes
  · have hpart' : d.part ≠ .BODY := hparts ▸ hpart
    have hfit' := hin.pos
    have hfit : c.line_pos < LINE_BUF_SIZE := ha.line_pos ▸ hfit'
    rcases hrecv : recv (LINE_BUF_SIZE - c.line_pos - 1) c.input with ⟨res, input'⟩
    have hrecv' : recv (LINE_BUF_SIZE - d.line_pos - 1) d.input = (res, input') := by
      rw [← ha.line_pos, ← ha.input]
      exact hrecv
    have hr := h.received input'
    cases res with
    | blocked =>
      have hline := linePart_nothing malloc process hfit hrecv (by simp)
      have hline' := linePart_nothing (malloc.from base.length) process hfit' hrecv' (by simp)
      rw [http_input_iteration, http_input_iteration, iterationWith_inl malloc process hpart hline,
        iterationWith_inl _ process hpart' hline']
      exact .blocked hr
    | failed =>
      have hline := linePart_nothing malloc process hfit hrecv (by simp)
      have hline' := linePart_nothing (malloc.from base.length) process hfit' hrecv' (by simp)
      rw [http_input_iteration, http_input_iteration, iterationWith_inl malloc process hpart hline,
        iterationWith_inl _ process hpart' hline']
      exact .ret hr.http_close
    | closed =>
      have hline := linePart_nothing malloc process hfit hrecv (by simp)
      have hline' := linePart_nothing (malloc.from base.length) process hfit' hrecv' (by simp)
      rw [http_input_iteration, http_input_iteration, iterationWith_inl malloc process hpart hline,
        iterationWith_inl _ process hpart' hline', hreq]
      refine .ret (Mirrors.http_close ?_)
      split
      · exact hr.process_request hs .hangup
      · exact hr
    | data bs => exact h.piece hs hpart hfit hin.pos hrecv hrecv'

/-- **A whole run.** What the connection does behind `base` a new one does. -/
theorem Mirrors.loop {n : ℕ} (h : Mirrors base c d) (hin : d.s = true → InRange d)
    (hlog : Logged Announced d.log) :
    (connectedLoop malloc process n c).map (fun c => (c.log, c.world, c.overrun))
      = (connectedLoop (malloc.from base.length) process n d).map fun d =>
          (base ++ d.log, d.world, d.overrun) := by
  -- at the end both have the same log behind `base`, the same world and the same heap
  have hout : ∀ {c d : Connection σ}, Mirrors base c d →
      (some c).map (fun c => (c.log, c.world, c.overrun))
        = (some d).map fun d => (base ++ d.log, d.world, d.overrun) := by
    intro c d h
    rw [Option.map_some, Option.map_some, h.log, h.world, h.overrun]
  induction n generalizing c d with
  | zero => rfl
  | succ n ih =>
    rw [connectedLoop, connectedLoop]
    cases hs : c.s with
    -- both are closed
    | false =>
      rw [← h.s, hs, if_neg Bool.false_ne_true, if_neg Bool.false_ne_true]
      exact hout h
    | true =>
      rw [← h.s, hs, if_pos rfl, if_pos rfl]
      have hind := hin (h.s ▸ hs)
      -- one call is mirrored, and then the rest is
      have hend : MirrorsEnd base (http_input_iteration malloc process c)
          (http_input_iteration (malloc.from base.length) process d) := h.iteration hs hind
      cases hrun : http_input_iteration (malloc.from base.length) process d with
      | none =>
        rw [hrun] at hend
        cases hc : http_input_iteration malloc process c with
        | none => rfl
        | some r =>
          rw [hc] at hend
          cases hend
      | some r =>
        have hkeeps := hind.iteration hlog hrun
        rw [hrun] at hend
        cases hc : http_input_iteration malloc process c with
        | none =>
          rw [hc] at hend
          cases hend
        | some r' =>
          rw [hc] at hend
          cases hend with
          | blocked h' => exact hout h'
          | ret h' => exact ih h' hkeeps.1 hkeeps.2

end Mirror

/-! ### Requests one after the other -/

section KeptAlive

variable {σ : Type} (malloc : Malloc) (process : Handler σ)

/-- **A connection that is kept open.** The client has sent `n` complete requests, each of
them when the server waited for it. No piece ended inside a line end, and the recorded heads
fitted the first buffer. -/
inductive KeptAlive (c₀ : Connection σ) : ℕ → Connection σ → Prop
  | start : KeptAlive c₀ 0 c₀
  | request {n : ℕ} {c c' : Connection σ} {p : List Segment} (h : KeptAlive c₀ n c)
      (hwhole : WholeRequest malloc c.log.length (p.flatMap Subtype.val))
      (hfits : RequestFits malloc c.log.length (p.flatMap Subtype.val))
      (huncut : Uncut malloc process { c with input := ⟨p, .waiting⟩ })
      (hc : http_connected malloc process { c with input := ⟨p, .waiting⟩ } = some c')
      (hopen : c'.s = true) : KeptAlive c₀ (n + 1) c'

variable {malloc process} {n : ℕ} {c : Connection σ} {buf : Memory} {world : σ}

theorem Idle.line_pos (h : Idle c) (hcur : c.current = []) : c.line_pos = 0 := by
  have hlen := congrArg List.length h.current
  rw [hcur, length_read] at hlen
  exact hlen.symm

/-- A connection between two requests waits for the next one. -/
theorem Idle.underway (h : Idle c) (hcur : c.current = []) (input : Input) :
    Underway malloc { c with input := input } := by
  refine .lines ?_
  show scan (c.room malloc) .fresh c.current = .more c.toReading (read c.line_buf c.line_pos)
  rw [hcur, h.line_pos hcur, h.reading]
  exact scan_nil _ _

/-- **Between two requests** the connection is in the state of a new one, every request was
passed to the handler, and the heap is intact. -/
theorem KeptAlive.ready
    (h : KeptAlive malloc process (.init buf ⟨[], .waiting⟩ world) n c) :
    c.s = true ∧ Idle c ∧ c.current = [] ∧ c.log.length = n ∧
      c.log.all Event.isCall = true ∧ c.overrun = false := by
  induction h with
  | start => exact ⟨rfl, ⟨rfl, rfl, rfl⟩, rfl, rfl, rfl, rfl⟩
  | @request n c c' p _ hwhole hfits huncut hc hopen ih =>
    obtain ⟨hs, hidle, hcur, hlen, hcalls, hover⟩ := ih
    have hpos : c.line_pos < LINE_BUF_SIZE := by
      rw [hidle.line_pos hcur]
      decide
    have hserved := request_run (c := { c with input := ⟨p, .waiting⟩ }) hwhole hpos
      (hidle.underway hcur _) hs (by rw [hcur]; rfl) rfl huncut (Nat.le_refl _)
    rw [http_connected] at hc
    rw [hc] at hserved
    cases hserved with
    | refused _ href =>
      rw [href.closed] at hopen
      cases hopen
    | called hanswer hcall =>
      obtain ⟨hidle', hcur'⟩ := hcall.ready hopen
      have hlog : c'.log = c.log ++ [_] := hcall.log
      refine ⟨hopen, hidle', hcur', ?_, ?_, hcall.intact hanswer hfits hover⟩
      · rw [hlog, List.length_append, hlen]
        rfl
      · rw [hlog, List.all_append, hcalls]
        rfl
    | full hclosed _ =>
      rw [hclosed] at hopen
      cases hopen

end KeptAlive

/-- **Requests are isolated.** Complete requests were sent on a connection that the server
has kept open, each of them when the server waited for it. No piece ended between the CR and
the LF of a line, and the recorded heads fitted the first buffer, so that the heap is intact.
Whatever arrives next, in whatever pieces, the server makes the calls of the handler that it
makes on a new connection, with the same requests, and sends the same responses, whatever the
line buffers hold. -/
theorem kept_alive_isolated {σ : Type} {malloc : Malloc} {process : Handler σ} {buf : Memory}
    {world : σ} {n : ℕ} {c : Connection σ}
    (h : KeptAlive malloc process (.init buf ⟨[], .waiting⟩ world) n c) (input : Input)
    (buf' : Memory) :
    c.log.length = n ∧ c.log.all Event.isCall = true ∧ c.overrun = false ∧
      (http_connected malloc process { c with input := input }).map
          (fun c => (c.log, c.world, c.overrun))
        = (http_connected (malloc.from n) process (.init buf' input c.world)).map fun d =>
            (c.log ++ d.log, d.world, d.overrun) := by
  obtain ⟨hs, hidle, hcur, hlen, hcalls, hover⟩ := h.ready
  refine ⟨hlen, hcalls, hover, ?_⟩
  have hpos := hidle.line_pos hcur
  have hmirror : Mirrors c.log { c with input := input } (.init buf' input c.world) := by
    refine ⟨hs, rfl, (List.append_nil _).symm, hover, fun _ => ⟨hidle.reading, hpos,
      hidle.body_pos, rfl, fun _ => ?_⟩⟩
    show read c.line_buf c.line_pos = read buf' 0
    rw [hpos]
    rfl
  have hrange : InRange (Connection.init buf' input c.world) :=
    InRange.of_idle ⟨rfl, rfl, rfl⟩ (show 0 < LINE_BUF_SIZE by decide)
  rw [← hlen]
  exact hmirror.loop (fun _ => hrange) Logged.nil

/-- What a connection has become when the server waits again. -/
def served (c : Connection ℕ) (segments : List Segment) : Connection ℕ :=
  (http_connected .plenty counting { c with input := ⟨segments, .waiting⟩ }).getD c

theorem served_eq {c : Connection ℕ} {segments : List Segment}
    (h : (http_connected .plenty counting { c with input := ⟨segments, .waiting⟩ }).isSome) :
    http_connected .plenty counting { c with input := ⟨segments, .waiting⟩ }
      = some (served c segments) := by
  obtain ⟨c', hc⟩ := Option.isSome_iff_exists.mp h
  rw [served, hc]
  rfl

/-- What is recorded of a short head fits. -/
theorem requestFits_get (k : ℕ) : RequestFits .plenty k getRequest := by
  intro rd got hscan
  rw [scan_getRequest] at hscan
  obtain ⟨rfl, -⟩ := Scan.blank.inj hscan
  exact .of_le (by decide)

theorem kept_alive_isolated_again :
    (served (sent []) inTwo).log.length = 1 ∧
      (served (sent []) inTwo).log.all Event.isCall = true ∧
      (served (sent []) inTwo).overrun = false ∧
      (http_connected .plenty counting
          { served (sent []) inTwo with input := ⟨inHalves, .waiting⟩ }).map
          (fun c => (c.log, c.world, c.overrun))
        = (http_connected (Malloc.plenty.from 1) counting (.init (fun _ => 65)
            ⟨inHalves, .waiting⟩ (served (sent []) inTwo).world)).map fun d =>
              ((served (sent []) inTwo).log ++ d.log, d.world, d.overrun) :=
  kept_alive_isolated (.request .start (wholeRequest_get 0) (requestFits_get 0)
    (Uncut.of_run (n := 4) (by decide +kernel)) (served_eq (by decide +kernel))
    (by decide +kernel)) ⟨inHalves, .waiting⟩ fun _ => 65

/-! ### A request that is cut -/

/-- A request of which a piece ends between the CR and the LF of a line. -/
def cutRequest : List Segment :=
  [⟨ascii "GET /data/k HTTP/1.1\r\nHost: x\r", by decide⟩,
    ⟨ascii "\nA: /b HTTP/1.0\r\n\r\n", by decide⟩]

/-- What the requests asked for that the handler was called with. -/
def pathsOf (r : Option (Connection ℕ)) : Option (List (Option (List UInt8))) :=
  r.map fun c => c.log.map fun e =>
    match e with
    | .process _ req _ => req.path.map CString.bytes
    | .respond _ => none

theorem scan_cutRequest : ∃ rd, scan (roomAt .plenty 0) .fresh (cutRequest.flatMap Subtype.val)
    = .blank rd [] ∧ rd.bodyLength = 0 :=
  ⟨_, scan_next (ascii "Host: x\r\nA: /b HTTP/1.0\r\n\r\n") rfl rfl rfl
    (scan_next (ascii "A: /b HTTP/1.0\r\n\r\n") rfl rfl rfl
      (scan_next (ascii "\r\n") rfl rfl rfl (scan_blank rfl))), rfl⟩

/-- **What is left of a request that was cut** is taken for the next one. The handler is
called with it, and not with the request that was sent. -/
theorem kept_alive_cut : WholeRequest .plenty 0 (cutRequest.flatMap Subtype.val) ∧
    (served (sent []) cutRequest).s = true ∧ WholeRequest .plenty 1 getRequest ∧
    pathsOf (http_connected .plenty counting
        { served (sent []) cutRequest with input := ⟨inOne, .waiting⟩ })
      = some [some (ascii "/data/k"), some (ascii "/b")] ∧
    pathsOf (http_connected (Malloc.plenty.from 1) counting (.init (fun _ => 0)
        ⟨inOne, .waiting⟩ (served (sent []) cutRequest).world))
      = some [some (ascii "/data/k")] := by
  obtain ⟨rd, hscan, hlen⟩ := scan_cutRequest
  -- the runs start with the same one, so that they are evaluated together
  have hruns : (served (sent []) cutRequest).s = true ∧
      pathsOf (http_connected .plenty counting
          { served (sent []) cutRequest with input := ⟨inOne, .waiting⟩ })
        = some [some (ascii "/data/k"), some (ascii "/b")] ∧
      pathsOf (http_connected (Malloc.plenty.from 1) counting (.init (fun _ => 0)
          ⟨inOne, .waiting⟩ (served (sent []) cutRequest).world))
        = some [some (ascii "/data/k")] := by
    decide +kernel
  obtain ⟨hopen, hkept, hfresh⟩ := hruns
  exact ⟨wholeRequest_of_scan (by decide) (by decide) hscan hlen.symm, hopen,
    wholeRequest_get 1, hkept, hfresh⟩

end Http
end Osrv
