import Osrv.Http.Grammar
import Osrv.Http.KeepAlive
import Osrv.Http.Pipelined

/-!
# A connection takes its turn

A client sends a request that keeps the connection open, in pieces none of which ends in a
line end of the head, and waits for the reply. `Awaits` is where the connection then stands
between two calls of `http_input_iteration`, and by `Awaits.turn` a call receives more of the
request or comes to its end: the handler has been called, nothing is left of the request, and
the connection is open for the next one.
-/

namespace Osrv
namespace Http

open Bytes Net

/-! ### Pieces -/

/-- The pieces to come behind `xs` do not cut the head of the request in a line end. -/
def NoCut (xs : List UInt8) (segments : List Segment) : Prop :=
  ∀ p q, segments = p ++ q → (splitHead (xs ++ p.flatMap Subtype.val)).2 = none →
    ¬ CutsLine (xs ++ p.flatMap Subtype.val) (q.flatMap Subtype.val)

section Pieces

variable {xs bs : List UInt8} {segments : List Segment} {input input' : Input} {cap : ℕ}

/-- Behind the head nothing is cut. -/
theorem NoCut.of_head (h : (splitHead xs).2 ≠ none) : NoCut xs segments := by
  intro p q _ hnone
  obtain ⟨rest, hrest⟩ := Option.ne_none_iff_exists'.mp h
  rw [splitHead_append hrest] at hnone
  cases hnone

/-- A request in one piece. -/
theorem noCut_singleton (seg : Segment) : NoCut [] [seg] := by
  rintro (_ | ⟨x, p⟩) q hsplit _ ⟨pre, b, hxs, -, hhead⟩
  · have hlen := congrArg List.length hxs
    simp at hlen
  · obtain ⟨-, hnil⟩ := List.cons.inj hsplit
    obtain ⟨-, rfl⟩ := List.append_eq_nil_iff.mp hnil.symm
    cases hhead

/-- What is received of a piece is all of it, or fills the buffer. -/
theorem NoCut.recv (h : NoCut xs input.segments) (hrecv : recv cap input = (.data bs, input'))
    (hfull : cap ≤ bs.length → (splitHead (xs ++ bs)).2 ≠ none) :
    NoCut (xs ++ bs) input'.segments := by
  obtain ⟨segments, ending⟩ := input
  cases segments with
  | nil => cases ending <;> cases hrecv
  | cons seg segs =>
    by_cases hall : seg.1.length ≤ cap
    · rw [recv_cons hall] at hrecv
      cases hrecv
      intro p q hsplit
      have hwhole := h (seg :: p) q (congrArg (seg :: ·) hsplit)
      rwa [List.flatMap_cons, ← List.append_assoc] at hwhole
    · refine .of_head (hfull ?_)
      rw [Net.recv] at hrecv
      by_cases hcap : cap = 0
      · rw [hcap]
        exact Nat.zero_le _
      · simp only [hcap, if_false] at hrecv
        cases hrecv
        rw [List.length_take]
        omega

end Pieces

/-! ### Requests -/

/-- **A request that keeps the connection open**, with `k` entries in the log. -/
structure KeepAliveRequest (malloc : Malloc) (k : ℕ) (m : List UInt8) : Prop where
  whole : WholeRequest malloc k m
  /-- What is recorded of its head fits the first buffer. -/
  fits : RequestFits malloc k m
  /-- Its head fits the line buffer. -/
  short : ∀ xs ys, m = xs ++ ys → LINE_BUF_SIZE ≤ xs.length + 1 → (splitHead xs).2 ≠ none
  /-- The handler is called with it. -/
  answer : ∃ rd, Http.answer malloc k m = .call rd []
  /-- It does not want the connection closed. -/
  keeps : ∀ rd got, scan (roomAt malloc k) .fresh m = .blank rd got →
    rd.request.attr.HTTP_1_0 = false ∧ rd.request.attr.CONNECTION_CLOSE = false

section Turn

variable {σ : Type} (malloc : Malloc) (process : Handler σ)

/-- **A connection that awaits the rest** of the request. -/
structure Awaits (c : Connection σ) (m : List UInt8) : Prop where
  s : c.s = true
  pos : c.line_pos < LINE_BUF_SIZE
  stage : Underway malloc c
  rest : c.current ++ c.input.bytes = m
  ending : c.input.ending = .waiting
  pieces : NoCut c.current c.input.segments

/-- What a call comes to. The heap stays intact. -/
inductive Turned (c : Connection σ) (m : List UInt8) : Option (Iteration (Connection σ)) → Prop
  | onward {c' : Connection σ} {bs : List UInt8} (h : Onward c c' bs) (hne : bs ≠ [])
      (hawaits : Awaits malloc c' m) : Turned c m (some (.ret c'))
  | called {c' : Connection σ} {rd : Reading}
      (hanswer : answer malloc c.log.length m = .call rd [])
      (h : Called malloc process c c' rd []) (hover : c.overrun = false → c'.overrun = false)
      (hs : c'.s = true) (hnone : c'.input.bytes = [])
      (hending : c'.input.ending = .waiting) : Turned c m (some (.ret c'))

variable {malloc process} {c c' : Connection σ} {m : List UInt8}

/-- The handler's world does not matter for it. -/
theorem Awaits.world (h : Awaits malloc c m) (world : σ) :
    Awaits malloc { c with world := world } m := by
  refine ⟨h.s, h.pos, ?_, h.rest, h.ending, h.pieces⟩
  cases h.stage with
  | lines hscan => exact .lines hscan
  | body hbody hlt =>
    exact .body ⟨hbody.scan, hbody.verdict, hbody.reading, hbody.body_pos, hbody.line_pos⟩ hlt

/-- Something is still to come of the request. -/
theorem Awaits.input_ne_nil (h : Awaits malloc c m) (hm : KeepAliveRequest malloc c.log.length m) :
    c.input.bytes ≠ [] := by
  intro hnil
  have hrest := h.rest
  rw [hnil, List.append_nil] at hrest
  refine hm.whole.answer_ne_waiting ?_
  rw [← hrest]
  exact h.stage.answer

/-- The first pieces arrive on a connection that is idle. -/
theorem Idle.awaits (h : Idle c) (hs : c.s = true) (hcur : c.current = []) {pieces : List Segment}
    (hpieces : NoCut [] pieces) :
    Awaits malloc { c with input := ⟨pieces, .waiting⟩ } (pieces.flatMap Subtype.val) where
  s := hs
  pos := by
    rw [h.line_pos hcur]
    decide
  stage := h.underway hcur _
  rest := by
    rw [hcur]
    rfl
  ending := rfl
  pieces := by
    rw [hcur]
    exact hpieces

/-! ### More of a request -/

/-- A body that is not complete is waited for. -/
theorem finishBody_onward (h : (finishBody malloc process c).log = c.log) :
    finishBody malloc process c = c := by
  unfold finishBody at h ⊢
  split
  · next hfull =>
    rw [if_pos hfull, finish_log, process_request_log] at h
    exact absurd h log_ne
  · rfl

/-- A step that goes on in a body adds to what has been received. -/
theorem BodyStep.current (h : BodyStep malloc process c (.ret c')) (hs : c'.s = true)
    (hlog : c'.log = c.log) : c.current <+: c'.current := by
  cases h with
  | failed hrecv => cases hs
  | hangup hrecv => cases hs
  | piece hrecv hmem =>
    rw [finishBody_onward hlog]
    exact List.prefix_append _ _
  | full hfull =>
    rw [finishBody_onward hlog]

/-- **The pieces behind those received** do not cut the head either. -/
theorem Awaits.noCut {bs : List UInt8} (h : Awaits malloc c m)
    (hm : KeepAliveRequest malloc c.log.length m) (hon : Onward c c' bs)
    (hstage : Underway malloc c')
    (hrun : http_input_iteration malloc process c = some (.ret c')) :
    NoCut c'.current c'.input.segments := by
  by_cases hhead : (splitHead c'.current).2 = none
  · -- the head is not there, so that the lines have been received
    have hnone : (splitHead c.current).2 = none := by
      by_contra hsome
      obtain ⟨rest, hrest⟩ := Option.ne_none_iff_exists'.mp hsome
      rw [hon.current, splitHead_append hrest] at hhead
      cases hhead
    have hscan : scan (roomAt malloc c.log.length) .fresh c.current
        = .more c.toReading (read c.line_buf c.line_pos) := by
      cases h.stage with
      | lines hscan => exact hscan
      | body hbody hlt =>
        rw [(scan_splitHead _ _ _).2 _ _ hbody.scan] at hnone
        cases hnone
    obtain ⟨hheaded, hle⟩ := (Headed.init.scan _).1 _ _ hscan
    rw [length_read] at hle
    have hstep : LineStep malloc process c (.ret c') := linePart_step hheaded.part h.pos hrun
    have hs' : c'.s = true := hon.s.trans h.s
    cases hstep with
    -- a connection that goes on has taken lines or come to the body
    | failed hrecv => cases hs'
    | early hrecv hpath => cases hs'
    | hangup hrecv hpath => cases hs'
    | @more input' bs' pending rd buf hrecv hmore hbuf =>
      refine h.pieces.recv hrecv fun hfull => hm.short _ input'.bytes ?_ ?_
      · obtain ⟨-, -, hsplit, -⟩ := recv_spec hrecv
        rw [List.append_assoc, hsplit, h.rest]
      · rw [List.length_append]
        omega
    | refused hrecv href =>
      rw [href.closed] at hs'
      cases hs'
    | processed hrecv hblank hverdict hbuf =>
      have hlog := hon.log
      rw [passed, finish_log, process_request_log] at hlog
      exact absurd hlog log_ne
    | @announced input' bs' rest rd mem buf r hrecv hblank hverdict hbody =>
      -- the blank line is among what has been received, which `hhead` rules out
      obtain ⟨hne, -, hsplit, -⟩ := recv_spec hrecv
      have hcut : CleanCut c.current bs' := by
        have hall : CleanCut c.current (bs' ++ input'.bytes) := by
          rw [hsplit]
          exact fun _ => ⟨hm.whole.text _ _ h.rest.symm hnone, fun hcut =>
            h.pieces [] _ rfl (by rwa [List.flatMap_nil, List.append_nil])
              (by rwa [List.flatMap_nil, List.append_nil])⟩
        exact (cleanCut_append hne).mp hall
      have hfollows : Follows malloc c := ⟨h.pos, Or.inr h.stage⟩
      rw [hfollows.scan_piece hheaded.part hcut] at hblank
      obtain ⟨tail, htail⟩ := hbody.current hs' hon.log
      have hsome := splitHead_append ((scan_splitHead _ _ _).2 _ _ hblank) tail
      change c.current ++ bs' ++ tail = c'.current at htail
      rw [htail] at hsome
      rw [hsome] at hhead
      cases hhead
  · exact .of_head hhead

/-! ### The end of a request -/

/-- The handler leaves the connection open. -/
theorem finishBody_open (hkeep : KeepsOpen process) (hs : c.s = true) (hline : c.line_pos = 0)
    (hversion : c.request.attr.HTTP_1_0 = false)
    (hclose : c.request.attr.CONNECTION_CLOSE = false) :
    (finishBody malloc process c).s = true := by
  unfold finishBody
  split
  · obtain ⟨hopen, hno⟩ := process_request_open malloc hkeep hs hversion hclose
    rw [finish, hno, process_request_line_pos, hline]
    exact hopen
  · exact hs

theorem BodyStep.stays_open (hkeep : KeepsOpen process)
    (h : BodyStep malloc process c (.ret c')) (hs : c.s = true) (hline : c.line_pos = 0)
    (hversion : c.request.attr.HTTP_1_0 = false)
    (hclose : c.request.attr.CONNECTION_CLOSE = false) {req : HttpRequest}
    {recorded : List UInt8} (hlog : c'.log = c.log ++ [.process .complete req recorded]) :
    c'.s = true := by
  cases h with
  | failed hrecv => exact absurd hlog.symm log_ne
  | hangup hrecv => cases (List.cons.inj (List.append_cancel_left hlog)).1
  | piece hrecv hmem => exact finishBody_open hkeep hs rfl hversion hclose
  | full hfull => exact finishBody_open hkeep hs hline hversion hclose

/-- **The connection is open** behind a request that does not want it closed. -/
theorem Awaits.stays_open {rd : Reading} {left : List UInt8} (h : Awaits malloc c m)
    (hm : KeepAliveRequest malloc c.log.length m) (hkeep : KeepsOpen process)
    (hcut : CleanCut c.current c.input.bytes)
    (hrun : http_input_iteration malloc process c = some (.ret c'))
    (hcall : Called malloc process c c' rd left) : c'.s = true := by
  have hfollows : Follows malloc c := ⟨h.pos, Or.inr h.stage⟩
  -- what is read of a front of the request is read of all of it
  have hwhole : ∀ xs ys rd got, xs ++ ys = m → CleanCut xs ys →
      scan (roomAt malloc c.log.length) .fresh xs = .blank rd got →
      rd.request.attr.HTTP_1_0 = false ∧ rd.request.attr.CONNECTION_CLOSE = false ∧
        got.length ≤ rd.bodyLength := by
    intro xs ys rd got hxs hclean hscan
    have hmore := @scan_fresh_append (roomAt malloc c.log.length) _ _ (hm.whole.ne_cr hxs) hclean
    rw [hscan, hxs] at hmore
    obtain ⟨hversion, hclose⟩ := hm.keeps _ _ hmore
    have hlen := hm.whole.body _ _ hmore
    rw [List.length_append] at hlen
    exact ⟨hversion, hclose, by omega⟩
  have hbodyStage : c.part = .BODY → ∃ rd mem got, Receives malloc c rd mem got ∧
      got.length < rd.bodyLength := by
    intro hpart
    cases h.stage with
    | lines hscan => exact absurd hpart ((Headed.init.scan _).1 _ _ hscan).1.part
    | body hbody hlt => exact ⟨_, _, _, hbody, hlt⟩
  by_cases hpart : c.part = .BODY
  · obtain ⟨rd₀, mem, got, hbody, hlt⟩ := hbodyStage hpart
    obtain ⟨hversion, hclose, hle⟩ := hwhole _ _ _ _ h.rest hcut hbody.scan
    have hposBody := hbody.body_pos
    have hlength := hbody.content_length
    have hstep := iteration_step (fun hne => absurd hpart hne) (fun _ => ⟨?_, ?_⟩) hrun
    · obtain ⟨-, hstep⟩ | ⟨hne, -⟩ := hstep
      · refine hstep.stays_open hkeep h.s ?_ ?_ ?_ hcall.log
        · rw [hbody.line_pos]
          omega
        · rw [hbody.request]
          exact hversion
        · rw [hbody.request]
          exact hclose
      · exact absurd hpart hne
    · rw [hbody.request]
      exact Option.some_ne_none _
    · omega
  · have hstep : LineStep malloc process c (.ret c') := linePart_step hpart h.pos hrun
    -- the head that the piece completes is the one of the message
    have hpiece : ∀ bs input' rd₀ rest,
        Net.recv (LINE_BUF_SIZE - c.line_pos - 1) c.input = (.data bs, input') →
        scan (c.room malloc) c.toReading (read c.line_buf c.line_pos ++ bs) = .blank rd₀ rest →
        rd₀.request.attr.HTTP_1_0 = false ∧ rd₀.request.attr.CONNECTION_CLOSE = false ∧
          rest.length ≤ rd₀.bodyLength := by
      intro bs input' rd₀ rest hrecv hblank
      obtain ⟨hne, -, hsplit, -⟩ := recv_spec hrecv
      rw [← hsplit, cleanCut_append hne] at hcut
      rw [hfollows.scan_piece hpart hcut] at hblank
      refine hwhole _ input'.bytes _ _ ?_ ?_ hblank
      · rw [List.append_assoc, hsplit, h.rest]
      · intro hnone
        rw [(scan_splitHead _ _ _).2 _ _ hblank] at hnone
        cases hnone
    cases hstep with
    | failed hrecv => exact absurd hcall.log.symm log_ne
    | early hrecv hpath => exact absurd hcall.log.symm log_ne
    | hangup hrecv hpath => cases (List.cons.inj (List.append_cancel_left hcall.log)).1
    | more hrecv hmore hbuf => exact absurd hcall.log.symm log_ne
    | refused hrecv href =>
      have hlog := hcall.log
      rw [href.log] at hlog
      cases (List.cons.inj (List.append_cancel_left hlog)).1
    | processed hrecv hblank hverdict hbuf =>
      -- there is no body, and nothing is left behind the blank line
      obtain ⟨hversion, hclose, -⟩ := hpiece _ _ _ _ hrecv hblank
      exact passed_open hkeep h.s hversion hclose
    | announced hrecv hblank hverdict hbody =>
      obtain ⟨hversion, hclose, hle⟩ := hpiece _ _ _ _ hrecv hblank
      -- the body goes up to the end of the message, so that none of it is left over
      refine hbody.stays_open hkeep h.s ?_ hversion hclose hcall.log
      rw [Reading.bodyLength] at hle
      show _ - min _ _ = 0
      omega

/-! ### A call -/

/-- **A call of `http_input_iteration`** receives more of the request or comes to its end. -/
theorem Awaits.turn (h : Awaits malloc c m) (hm : KeepAliveRequest malloc c.log.length m)
    (hkeep : KeepsOpen process) :
    Turned malloc process c m (http_input_iteration malloc process c) := by
  have hcut : CleanCut c.current c.input.bytes := fun hnone =>
    ⟨hm.whole.text _ _ h.rest.symm hnone, fun hcut => h.pieces [] _ rfl
      (by rwa [List.flatMap_nil, List.append_nil]) (by rwa [List.flatMap_nil, List.append_nil])⟩
  have hfollows : Follows malloc c := ⟨h.pos, Or.inr h.stage⟩
  obtain ⟨rd, hanswer⟩ := hm.answer
  -- a part of the request that has an answer has that of the request
  have hfront : ∀ bs more, c.input.bytes = bs ++ more →
      answer malloc c.log.length (c.current ++ bs) ≠ .waiting →
      answer malloc c.log.length (c.current ++ bs) = .call rd [] ∧ more = [] := by
    intro bs more hbs hsettled
    have hrest := h.rest
    rw [hbs, ← List.append_assoc] at hrest
    obtain ⟨heq, hnothing⟩ := hm.whole.answer_eq hrest hsettled
    rw [hanswer] at heq
    exact ⟨heq.symm, (hnothing rd [] heq.symm).1⟩
  have hp := hfollows.progress process hcut
  cases hrun : http_input_iteration malloc process c with
  | none =>
    rw [hrun] at hp
    cases hp with
    | crashed hbs hcrash =>
      obtain ⟨heq, -⟩ := hfront _ _ hbs (by rw [hcrash]; simp)
      rw [hcrash] at heq
      cases heq
  | some r =>
    rw [hrun] at hp
    cases hp with
    | @waiting c' bs hon hstage hnone hending =>
      -- all of the request is there
      have hcur : c'.current = m := by
        rw [← h.rest, hon.current, hon.input, hnone, List.append_nil]
      refine absurd ?_ hm.whole.answer_ne_waiting
      rw [← hcur, ← hon.log]
      exact (hstage h.stage).answer
    | @more c' bs hon hne hpos hstage =>
      refine .onward hon hne ⟨hon.s.trans h.s, hpos, hstage, ?_, hon.ending.trans h.ending,
        h.noCut hm hon hstage hrun⟩
      rw [hon.current, List.append_assoc, ← hon.input, h.rest]
    | refused hbs hrefuse href =>
      obtain ⟨heq, -⟩ := hfront _ _ hbs (by rw [hrefuse]; simp)
      rw [hrefuse] at heq
      cases heq
    | @called c' bs left rd' hbs hending hcalled hcall =>
      obtain ⟨heq, hnone⟩ := hfront _ _ hbs (by rw [hcalled]; simp)
      rw [hcalled] at heq
      cases heq
      exact .called hanswer hcall (hcall.intact hanswer hm.fits)
        (h.stays_open hm hkeep hcut hrun hcall) hnone (hending.trans h.ending)
    | ended hclosed hlog hend =>
      -- the line buffer is not full in front of the blank line
      obtain ⟨hpart, hfull⟩ := hend h.ending
      cases h.stage with
      | lines hscan =>
        have hle := ((Headed.init.scan _).1 _ _ hscan).2
        rw [length_read] at hle
        exact absurd ((scan_splitHead _ _ _).1 _ _ hscan)
          (hm.short _ _ h.rest.symm (by omega))
      | body hbody hlt => exact absurd hbody.part hpart

end Turn

end Http
end Osrv
