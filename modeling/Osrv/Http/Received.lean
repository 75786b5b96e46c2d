import Osrv.Http.Complete

/-!
# What has been received of a body

The body of a request is put into a block that `malloc` has returned, from its start. When the
handler is called at the end of the request, all of it has been written by what the client has
sent. When it is called because the stream has ended, a part of the block is as `malloc` has
left it (`Reachable.bodies`). This is so in whatever pieces the bytes arrive, also if one of
them ends in a line end.
-/

namespace Osrv
namespace Http

open Bytes Net

/-- **What a body holds** that the handler is called with. -/
def BodyReceived (malloc : Malloc) (stream : List UInt8) (site : Site) (req : HttpRequest) :
    Prop :=
  ∀ body, req.body = some body → ∃ k mem got,
    malloc.alloc k (req.content_length.toNat + 1) = some mem ∧ body = write mem 0 got ∧
      got <:+: stream ∧
      match site with
      | .complete => (got.length : ℤ) = req.content_length
      | .hangup => (got.length : ℤ) < req.content_length

section Scan

variable {room : ℕ → Bool} {rd rd' : Reading} {bs rest : List UInt8}

/-- What is left in the line buffer was received last. -/
theorem pending_suffix {pending : List UInt8} (h : scan room rd bs = .more rd' pending) :
    pending <:+ bs := by
  induction bs using line_induction generalizing rd with
  | blank bs rest hblank =>
    rw [scan_blank hblank] at h
    cases h
  | more bs hblank htail =>
    rw [scan_more hblank htail] at h
    obtain ⟨-, rfl⟩ := Scan.more.inj h
    split
    · exact List.nil_suffix
    · exact List.suffix_rfl
  | line bs rest hblank htail ih =>
    obtain ⟨rd₁, -, hscan⟩ := scan_line_more hblank htail h
    exact (ih hscan).trans (behind_suffix htail)

theorem blank_suffix (h : scan room rd bs = .blank rd' rest) : rest <:+ bs :=
  splitHead_suffix ((scan_splitHead room rd bs).2 _ _ h)

end Scan

section Connection

variable {σ : Type} {malloc : Malloc} {process : Handler σ} {stream : List UInt8}
  {c c' : Connection σ}

/-- **What is in a body**, and `left` behind it. -/
structure Filling (malloc : Malloc) (stream : List UInt8) (c : Connection σ)
    (left : List UInt8) : Prop where
  body : ∃ k mem got, malloc.alloc k (c.request.content_length.toNat + 1) = some mem ∧
    c.request.body = some (write mem 0 got) ∧ got.length = c.body_pos ∧
    got ++ left ++ c.input.bytes <:+ stream
  line_pos : c.line_pos = left.length
  /-- Nothing is left of a body that is not complete. -/
  missing : (c.body_pos : ℤ) ≠ c.request.content_length → left = []

/-- **Where the bytes of the stream are** that have not been passed on. -/
structure Places (malloc : Malloc) (stream : List UInt8) (c : Connection σ) : Prop where
  lines : c.part ≠ .BODY → read c.line_buf c.line_pos ++ c.input.bytes <:+ stream
  body : c.part = .BODY → Filling malloc stream c []

/-- Every body that the handler was called with. -/
def Bodies (malloc : Malloc) (stream : List UInt8) (log : List Event) : Prop :=
  ∀ site req recorded, .process site req recorded ∈ log → BodyReceived malloc stream site req

/-- What is known behind a call. -/
def KeepsPlaces (malloc : Malloc) (stream : List UInt8) : Iteration (Connection σ) → Prop
  | .ret c => (c.s = true → Places malloc stream c) ∧ Bodies malloc stream c.log
  | .blocked c => Places malloc stream c ∧ Bodies malloc stream c.log

theorem Bodies.snoc {log : List Event} {site : Site} {req : HttpRequest} {recorded : List UInt8}
    (h : Bodies malloc stream log) (hreq : BodyReceived malloc stream site req) :
    Bodies malloc stream (log ++ [.process site req recorded]) := by
  intro site' req' recorded' hmem
  rw [List.mem_append, List.mem_singleton] at hmem
  obtain hmem | heq := hmem
  · exact h _ _ _ hmem
  · cases heq
    exact hreq

theorem Bodies.respond {log : List Event} (h : Bodies malloc stream log) (buf : List UInt8) :
    Bodies malloc stream (log ++ [.respond buf]) := by
  intro site req recorded hmem
  rw [List.mem_append, List.mem_singleton] at hmem
  obtain hmem | heq := hmem
  · exact h _ _ _ hmem
  · cases heq

/-- The handler is called with the body of the connection. -/
theorem Bodies.process_request {site : Site} (h : Bodies malloc stream c.log)
    (hreq : BodyReceived malloc stream site c.request) :
    Bodies malloc stream (process_request malloc process site c).log := by
  obtain ⟨raw, hraw⟩ := passedRequest_frame malloc c
  rw [process_request_log]
  refine h.snoc ?_
  rw [hraw]
  exact hreq

theorem BodyReceived.of_none {site : Site} {req : HttpRequest} (h : req.body = none) :
    BodyReceived malloc stream site req := by
  intro body hsome
  rw [h] at hsome
  cases hsome

theorem KeepsPlaces.closed (h : Bodies malloc stream c.log) :
    KeepsPlaces malloc stream (.ret (http_close c)) := ⟨fun hs => (by cases hs), h⟩

/-! ### In the body -/

/-- A complete body is passed on, and one that is not waits for more. -/
theorem Filling.finishBody {left : List UInt8} (h : Filling malloc stream c left)
    (hpart : c.part = .BODY) (hlog : Bodies malloc stream c.log) :
    KeepsPlaces malloc stream (.ret (finishBody malloc process c)) := by
  obtain ⟨k, mem, got, hmem, hbody, hlen, hstream⟩ := id h.body
  unfold Http.finishBody
  split
  · next hfull =>
    have hreceived : BodyReceived malloc stream .complete c.request := by
      intro body hsome
      rw [hbody] at hsome
      refine ⟨k, mem, got, hmem, (Option.some.inj hsome).symm, ?_, ?_⟩
      · rw [List.append_assoc] at hstream
        exact (List.prefix_append got _).isInfix.trans hstream.isInfix
      · show (got.length : ℤ) = _
        rw [hlen]
        exact hfull
    constructor
    · intro hs
      obtain ⟨hidle, hdouble⟩ := finish_idle hs
      refine ⟨fun _ => ?_, fun hpart' => ?_⟩
      · -- nothing is left in the line buffer of a connection that is kept open
        rw [process_request_line_pos, decide_eq_false_iff_not, not_not] at hdouble
        rw [finish_line_pos, process_request_line_pos, hdouble, finish_input,
          process_request_input]
        exact (List.suffix_append _ _).trans hstream
      · rw [congrArg Reading.part hidle.reading] at hpart'
        cases hpart'
    · rw [finish_log]
      exact hlog.process_request hreceived
  · next hmore =>
    refine ⟨fun _ => ⟨fun hpart' => absurd hpart hpart', fun _ => ?_⟩, hlog⟩
    exact h.missing hmore ▸ h

/-- **A call in the body** puts what it receives behind what is there. -/
theorem Filling.bodyStep {left : List UInt8} {r : Iteration (Connection σ)}
    (h : Filling malloc stream c left) (hpart : c.part = .BODY)
    (hlog : Bodies malloc stream c.log) (hstep : BodyStep malloc process c r) :
    KeepsPlaces malloc stream r := by
  obtain ⟨k, mem, got, hmem, hbody, hlen, hstream⟩ := id h.body
  cases hstep with
  | @waiting input' hrecv hlt =>
    obtain ⟨rfl, -, -⟩ := recv_blocked hrecv
    obtain rfl := h.missing hlt.ne
    exact ⟨⟨fun hpart' => absurd hpart hpart', fun _ => ⟨h.body, h.line_pos, h.missing⟩⟩, hlog⟩
  | failed hrecv => exact .closed hlog
  | @hangup input' hrecv hlt =>
    have hreceived : BodyReceived malloc stream .hangup c.request := by
      intro body hsome
      rw [hbody] at hsome
      refine ⟨k, mem, got, hmem, (Option.some.inj hsome).symm, ?_, ?_⟩
      · rw [List.append_assoc] at hstream
        exact (List.prefix_append got _).isInfix.trans hstream.isInfix
      · show (got.length : ℤ) < _
        rw [hlen]
        exact hlt
    exact .closed (Bodies.process_request (c := { c with input := input' }) hlog hreceived)
  | @piece input' bs body hrecv hsome hlt =>
    obtain ⟨-, -, hsplit, -⟩ := recv_spec hrecv
    obtain rfl := h.missing hlt.ne
    rw [hbody] at hsome
    obtain rfl := Option.some.inj hsome
    refine Filling.finishBody (show Filling malloc stream _ [] from
      ⟨⟨k, mem, got ++ bs, hmem, ?_, ?_, ?_⟩, rfl, fun _ => rfl⟩) hpart hlog
    · show some (write (write mem 0 got) c.body_pos bs) = _
      rw [← hlen, ← write_append, Nat.zero_add]
    · show (got ++ bs).length = c.body_pos + bs.length
      rw [List.length_append, hlen]
    · show got ++ bs ++ [] ++ input'.bytes <:+ stream
      rw [List.append_nil, List.append_assoc, hsplit]
      rwa [List.append_nil] at hstream
  | full hfull => exact h.finishBody hpart hlog

/-! ### In the lines -/

/-- The head has been received, and the start of the body with it. -/
theorem receiving_filling {bs rest : List UInt8} {rd : Reading} {mem buf : Memory}
    {input' : Input} (hverdict : verdict (malloc.alloc c.log.length) rd.request = .receive mem)
    (hstream : rest ++ input'.bytes <:+ stream) :
    Filling malloc stream (receiving (c.received bs input') rd mem rest buf)
      (rest.drop (min rd.request.content_length.toNat rest.length)) := by
  obtain ⟨-, hlow, -, halloc, -⟩ := verdict_receive hverdict
  refine ⟨⟨c.log.length, mem, rest.take (min rd.request.content_length.toNat rest.length),
    halloc, rfl, ?_, ?_⟩, ?_, fun hmissing => ?_⟩
  · rw [List.length_take]
    exact min_eq_left (Nat.min_le_right _ _)
  · rw [List.take_append_drop]
    exact hstream
  · rw [List.length_drop]
    rfl
  · change ((min rd.request.content_length.toNat rest.length : ℕ) : ℤ)
      ≠ rd.request.content_length at hmissing
    exact List.drop_of_length_le (by omega)

/-- **A call of `http_input_iteration`.** -/
theorem Places.iteration {r : Iteration (Connection σ)} (h : Places malloc stream c)
    (hin : InRange c) (hlog : Bodies malloc stream c.log)
    (hrun : http_input_iteration malloc process c = some r) : KeepsPlaces malloc stream r := by
  have hstep := iteration_step (fun _ => hin.pos)
    (fun hpart => ⟨(hin.body hpart).1, (hin.body hpart).2.2.2⟩) hrun
  obtain ⟨hpart, hstep⟩ | ⟨hpart, hstep⟩ := hstep
  · exact (h.body hpart).bodyStep hpart hlog hstep
  · have hheaded := hin.lines hpart
    have hstream := h.lines hpart
    have hpiece : ∀ {bs input'}, recv (LINE_BUF_SIZE - c.line_pos - 1) c.input
        = (.data bs, input') → ∀ {xs}, xs <:+ read c.line_buf c.line_pos ++ bs →
        xs ++ input'.bytes <:+ stream := by
      intro bs input' hrecv xs hxs
      obtain ⟨-, -, hsplit, -⟩ := recv_spec hrecv
      obtain ⟨front, hfront⟩ := hxs
      rw [← hsplit, ← List.append_assoc, ← hfront, List.append_assoc] at hstream
      exact (List.suffix_append _ _).trans hstream
    cases hstep with
    | @waiting input' hrecv =>
      obtain ⟨rfl, -, -⟩ := recv_blocked hrecv
      exact ⟨⟨h.lines, fun hpart' => absurd hpart' hpart⟩, hlog⟩
    | failed hrecv => exact .closed hlog
    | early hrecv hpath => exact .closed hlog
    | @hangup input' hrecv hpath =>
      exact .closed (Bodies.process_request (c := { c with input := input' }) hlog
        (.of_none hheaded.body))
    | @more input' bs pending rd buf hrecv hscan hbuf =>
      have hpart' := ((hheaded.scan _).1 _ _ hscan).1.part
      refine ⟨fun _ => ⟨fun _ => ?_, fun hbody => absurd hbody hpart'⟩, hlog⟩
      show read buf pending.length ++ input'.bytes <:+ stream
      rw [hbuf.read_start]
      exact hpiece hrecv (pending_suffix hscan)
    | refused hrecv href =>
      refine ⟨fun hs => ?_, ?_⟩
      · rw [href.closed] at hs
        cases hs
      · rw [href.log]
        exact hlog.respond _
    | @processed input' bs rest rd buf hrecv hscan hverdict hbuf =>
      have hbody := ((hheaded.scan _).2 _ _ hscan).1.body
      constructor
      · intro hs
        refine ⟨fun _ => ?_, fun hpart' => ?_⟩
        · rw [passed_buffer hbuf, passed, finish_input, process_request_input]
          exact hpiece hrecv (blank_suffix hscan)
        · rw [congrArg Reading.part (passed_idle hs).reading] at hpart'
          cases hpart'
      · rw [passed, finish_log]
        exact Bodies.process_request (c := { c.received bs input' with
          request := rd.request
          part := .BODY
          headers := rd.headers
          body_pos := 0
          line_buf := buf
          line_pos := rest.length }) hlog (.of_none hbody)
    | announced hrecv hscan hverdict hbody =>
      exact (receiving_filling hverdict (hpiece hrecv (blank_suffix hscan))).bodyStep rfl hlog
        hbody

/-- **Every body** that the handler is called with. -/
theorem Reachable.bodies {line_buf : Memory} {input : Input} {world : σ}
    (h : Reachable malloc process (Connection.init line_buf input world) c) :
    Bodies malloc input.bytes c.log := by
  suffices hkeeps : KeepsPlaces malloc input.bytes (.ret c) from hkeeps.2
  induction h with
  | start =>
    refine ⟨fun _ => ⟨fun _ => List.suffix_rfl, fun hpart => by cases hpart⟩, ?_⟩
    exact fun _ _ _ hmem => absurd hmem List.not_mem_nil
  | step hreach hs hc ih =>
    exact (ih.1 hs).iteration (hreach.inRange.1 hs) ih.2 hc

end Connection

end Http
end Osrv
