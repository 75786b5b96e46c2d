import Osrv.Http.Delivery

/-!
# What a connection refuses

A call of `http_input_iteration` adds one entry to the log at most: a call of the handler, or
a response of the parser after which the connection is closed (`InRange.logs`). Such a
response has a reason, a request line or what is known at the blank line
(`InRange.rejection`), and its status is that of an error (`Rejection.status`).
-/

namespace Osrv
namespace Http

open Bytes Net

/-- The digits of the status in a response. -/
def status (response : List UInt8) : List UInt8 := (response.drop 9).take 3

/-- What a call adds to the log. -/
inductive Logs {σ : Type} (c c' : Connection σ) : Prop
  | nothing (log : c'.log = c.log)
  | call (site : Site) (req : HttpRequest) (recorded : List UInt8)
      (log : c'.log = c.log ++ [.process site req recorded])
  | refused (response : List UInt8) (h : Refused c c' response)

/-- **Why a request is refused**, by the piece received: its line is not valid, or the head
that ends there is not accepted. -/
inductive Rejection {σ : Type} (malloc : Malloc) (c : Connection σ) (bs : List UInt8) :
    List UInt8 → Prop
  | line {response : List UInt8}
      (hscan : scan (c.room malloc) c.toReading (read c.line_buf c.line_pos ++ bs)
        = .refuse response) : Rejection malloc c bs response
  | head {rd : Reading} {rest text : List UInt8}
      (hscan : scan (c.room malloc) c.toReading (read c.line_buf c.line_pos ++ bs)
        = .blank rd rest)
      (hverdict : verdict (malloc.alloc c.log.length) rd.request = .refuse text) :
      Rejection malloc c bs (HTTP_SIG rd.request.attr ++ text)

section Logs

variable {σ : Type} {malloc : Malloc} {process : Handler σ} {c c' : Connection σ}
  {response : List UInt8}

theorem Refused.ne_log (h : Refused c c' response) : c'.log ≠ c.log := by
  intro hlog
  have hlen := congrArg List.length (h.log.symm.trans hlog)
  rw [List.length_append, List.length_singleton] at hlen
  omega

theorem Refused.ne_call (h : Refused c c' response) (site : Site) (req : HttpRequest)
    (recorded : List UInt8) : c'.log ≠ c.log ++ [.process site req recorded] := by
  intro hlog
  have heq := List.append_cancel_left (h.log.symm.trans hlog)
  cases (List.cons.inj heq).1

/-- In a body nothing is refused. -/
theorem finishBody_adds (malloc : Malloc) (process : Handler σ) (c : Connection σ) :
    (finishBody malloc process c).log = c.log ∨ ∃ site req recorded,
      (finishBody malloc process c).log = c.log ++ [.process site req recorded] := by
  unfold finishBody
  split
  · refine Or.inr ⟨.complete, passedRequest malloc c, c.headers.bytes, ?_⟩
    rw [finish_log, process_request_log]
  · exact Or.inl rfl

theorem BodyStep.adds (h : BodyStep malloc process c (.ret c')) :
    c'.log = c.log ∨ ∃ site req recorded, c'.log = c.log ++ [.process site req recorded] := by
  cases h with
  | failed hrecv => exact Or.inl rfl
  | hangup hrecv => exact Or.inr ⟨.hangup, _, _, rfl⟩
  | piece hrecv hmem => exact finishBody_adds malloc process _
  | full hfull => exact finishBody_adds malloc process c

theorem passed_adds (malloc : Malloc) (process : Handler σ) (c : Connection σ) (rd : Reading)
    (rest bs : List UInt8) (buf : Memory) (input' : Input) : ∃ site req recorded,
      (passed malloc process (c.received bs input') rd rest buf).log
        = c.log ++ [.process site req recorded] :=
  ⟨_, _, _, (finish_log false).trans (process_request_log malloc process .complete _)⟩

/-- **A call adds one entry to the log** at most. -/
theorem InRange.logs (hin : InRange c)
    (hrun : http_input_iteration malloc process c = some (.ret c')) : Logs c c' := by
  have hadds : (c'.log = c.log ∨ ∃ site req recorded,
      c'.log = c.log ++ [.process site req recorded]) → Logs c c' := by
    rintro (hlog | ⟨site, req, recorded, hlog⟩)
    · exact .nothing hlog
    · exact .call site req recorded hlog
  have hstep := iteration_step (fun _ => hin.pos)
    (fun hpart => ⟨(hin.body hpart).1, (hin.body hpart).2.2.2⟩) hrun
  obtain ⟨-, hstep⟩ | ⟨-, hstep⟩ := hstep
  · exact hadds hstep.adds
  · cases hstep with
    | failed hrecv => exact .nothing rfl
    | early hrecv hpath => exact .nothing rfl
    | hangup hrecv hpath => exact .call .hangup _ _ rfl
    | more hrecv hscan hbuf => exact .nothing rfl
    | refused hrecv href => exact .refused _ href
    | processed hrecv hscan hverdict hbuf => exact hadds (Or.inr (passed_adds ..))
    | announced hrecv hscan hverdict hbody => exact hadds hbody.adds

theorem InRange.log_grows (hin : InRange c)
    (hrun : http_input_iteration malloc process c = some (.ret c')) : c.log <+: c'.log := by
  cases hin.logs hrun with
  | nothing log => exact log ▸ List.prefix_rfl
  | call site req recorded log => exact log ▸ List.prefix_append _ _
  | refused response h => exact h.log ▸ List.prefix_append _ _

theorem Reachable.log_prefix (hin : c.s = true → InRange c) (hlog : Logged Announced c.log)
    (h : Reachable malloc process c c') :
    (c'.s = true → InRange c') ∧ Logged Announced c'.log ∧ c.log <+: c'.log := by
  induction h with
  | start => exact ⟨hin, hlog, List.prefix_rfl⟩
  | @step c₁ c₂ _ hs hc ih =>
    obtain ⟨hin₁, hlog₁, hpre⟩ := ih
    have hkeep : KeepsRange (.ret c₂) := (hin₁ hs).iteration hlog₁ hc
    exact ⟨hkeep.1, hkeep.2, hpre.trans ((hin₁ hs).log_grows hc)⟩

theorem bodyPart_ne_none {rest : Connection σ → Option (Iteration (Connection σ))}
    (hpart : c.part = .BODY) (hbody : c.request.body ≠ none) :
    bodyPart malloc process rest c ≠ none := by
  obtain ⟨mem, hmem⟩ := Option.ne_none_iff_exists'.mp hbody
  by_cases hlt : (c.body_pos : ℤ) < c.request.content_length
  · rcases hrecv : recv (c.request.content_length - c.body_pos).toNat c.input with ⟨res, input'⟩
    rw [bodyPart_receive hpart hmem hlt hrecv]
    exact Option.some_ne_none _
  · rw [bodyPart_complete hpart hmem hlt]
    exact Option.some_ne_none _

/-- **A call that does not return** has followed the null pointer of a line. -/
theorem InRange.crash_iff (hin : InRange c) : http_input_iteration malloc process c = none ↔
    c.part ≠ .BODY ∧ ∃ bs input', recv (LINE_BUF_SIZE - c.line_pos - 1) c.input
      = (.data bs, input') ∧
      scan (c.room malloc) c.toReading (read c.line_buf c.line_pos ++ bs) = .crash := by
  constructor
  · intro hrun
    by_cases hpart : c.part = .BODY
    · rw [http_input_iteration, iterationWith, if_pos hpart] at hrun
      exact absurd hrun (bodyPart_ne_none hpart (hin.body hpart).1)
    · refine ⟨hpart, ?_⟩
      rcases hrecv : recv (LINE_BUF_SIZE - c.line_pos - 1) c.input with ⟨res, input'⟩
      have hnothing : ∀ {out}, linePart malloc process c = some (.inl out) → False := by
        intro out hline
        rw [http_input_iteration, iterationWith_inl malloc process hpart hline] at hrun
        cases hrun
      cases res with
      | blocked => exact (hnothing (linePart_nothing malloc process hin.pos hrecv (by simp))).elim
      | failed => exact (hnothing (linePart_nothing malloc process hin.pos hrecv (by simp))).elim
      | closed => exact (hnothing (linePart_nothing malloc process hin.pos hrecv (by simp))).elim
      | data bs =>
        refine ⟨bs, input', rfl, ?_⟩
        cases hscan : scan (c.room malloc) c.toReading (read c.line_buf c.line_pos ++ bs) with
        | crash => rfl
        | more rd pending =>
          obtain ⟨buf, -, hreturns⟩ := iteration_more malloc process hpart hin.pos hrecv hscan
          rw [http_input_iteration, hreturns] at hrun
          cases hrun
        | refuse response =>
          obtain ⟨c', -, hreturns⟩ := iteration_refused malloc process hpart hin.pos hrecv hscan
          rw [http_input_iteration, hreturns] at hrun
          cases hrun
        | blank rd rest =>
          cases hv : verdict (malloc.alloc c.log.length) rd.request with
          | refuse text =>
            obtain ⟨c', -, hreturns⟩ :=
              iteration_rejected malloc process hpart hin.pos hrecv hscan hv
            rw [http_input_iteration, hreturns] at hrun
            cases hrun
          | process =>
            obtain ⟨buf, -, hreturns⟩ :=
              iteration_processed malloc process hpart hin.pos hrecv hscan hv
            rw [http_input_iteration, hreturns] at hrun
            cases hrun
          | receive mem =>
            obtain ⟨buf, hreturns⟩ :=
              iteration_announced malloc process hpart hin.pos hrecv hscan hv
            rw [http_input_iteration, hreturns] at hrun
            exact absurd hrun (bodyPart_ne_none rfl (Option.some_ne_none _))
  · rintro ⟨hpart, bs, input', hrecv, hscan⟩
    rw [http_input_iteration, iteration_crash malloc process hpart hin.pos hrecv hscan]

/-- **The reason of a response.** -/
theorem InRange.rejection (hin : InRange c)
    (hrun : http_input_iteration malloc process c = some (.ret c'))
    (href : Refused c c' response) :
    c.part ≠ .BODY ∧ ∃ bs input', recv (LINE_BUF_SIZE - c.line_pos - 1) c.input
      = (.data bs, input') ∧ Rejection malloc c bs response := by
  -- other iterations add nothing to the log or a call of the handler
  have hadds : ¬ (c'.log = c.log ∨ ∃ site req recorded,
      c'.log = c.log ++ [.process site req recorded]) := by
    rintro (hlog | ⟨site, req, recorded, hlog⟩)
    · exact href.ne_log hlog
    · exact href.ne_call site req recorded hlog
  by_cases hpart : c.part = .BODY
  · -- nothing is refused in a body
    obtain ⟨hbody, -, -, hle⟩ := hin.body hpart
    rw [http_input_iteration, iterationWith, if_pos hpart] at hrun
    exact absurd (bodyPart_step hpart hbody hle hrun).adds hadds
  · refine ⟨hpart, ?_⟩
    have hfit := hin.pos
    rcases hrecv : recv (LINE_BUF_SIZE - c.line_pos - 1) c.input with ⟨res, input'⟩
    -- a call that receives nothing refuses nothing
    have hnothing : ∀ r, linePart malloc process c = some (.inl r) → r = .ret c' := by
      intro r hline
      rw [http_input_iteration, iterationWith_inl malloc process hpart hline] at hrun
      exact Option.some.inj hrun
    cases res with
    | blocked => cases hnothing _ (linePart_nothing malloc process hfit hrecv (by simp))
    | failed =>
      cases hnothing _ (linePart_nothing malloc process hfit hrecv (by simp))
      exact absurd (Or.inl rfl) hadds
    | closed =>
      obtain rfl := Iteration.ret.inj
        (hnothing _ (linePart_nothing malloc process hfit hrecv (by simp)))
      refine absurd ?_ hadds
      by_cases hpath : c.request.path.isSome = true
      · simp only [hpath, if_true]
        exact Or.inr ⟨.hangup, _, _, rfl⟩
      · simp only [hpath]
        exact Or.inl rfl
    | data bs =>
      refine ⟨bs, input', rfl, ?_⟩
      cases hscan : scan (c.room malloc) c.toReading (read c.line_buf c.line_pos ++ bs) with
      | more rd pending =>
        obtain ⟨buf, -, hrun'⟩ := iteration_more malloc process hpart hfit hrecv hscan
        rw [http_input_iteration, hrun'] at hrun
        obtain rfl := Iteration.ret.inj (Option.some.inj hrun)
        exact absurd (Or.inl rfl) hadds
      | crash =>
        rw [http_input_iteration, iteration_crash malloc process hpart hfit hrecv hscan] at hrun
        cases hrun
      | refuse response' =>
        obtain ⟨c₁, href', hrun'⟩ := iteration_refused malloc process hpart hfit hrecv hscan
        rw [http_input_iteration, hrun'] at hrun
        obtain rfl := Iteration.ret.inj (Option.some.inj hrun)
        have heq := List.append_cancel_left (href'.log.symm.trans href.log)
        obtain rfl := Event.respond.inj (List.cons.inj heq).1
        -- a line is refused
        exact .line hscan
      | blank rd rest =>
        cases hv : verdict (malloc.alloc c.log.length) rd.request with
        | refuse text =>
          obtain ⟨c₁, href', hrun'⟩ := iteration_rejected malloc process hpart hfit hrecv hscan hv
          rw [http_input_iteration, hrun'] at hrun
          obtain rfl := Iteration.ret.inj (Option.some.inj hrun)
          have heq := List.append_cancel_left (href'.log.symm.trans href.log)
          obtain rfl := Event.respond.inj (List.cons.inj heq).1
          -- the checks at the blank line refuse the request
          exact .head hscan hv
        | process =>
          obtain ⟨buf, -, hrun'⟩ := iteration_processed malloc process hpart hfit hrecv hscan hv
          rw [http_input_iteration, hrun'] at hrun
          obtain rfl := Iteration.ret.inj (Option.some.inj hrun)
          exact absurd (Or.inr (passed_adds ..)) hadds
        | receive mem =>
          obtain ⟨buf, hrun'⟩ := iteration_announced malloc process hpart hfit hrecv hscan hv
          obtain ⟨-, hlow, -, -, -⟩ := verdict_receive hv
          rw [http_input_iteration, hrun'] at hrun
          refine absurd (bodyPart_step rfl (Option.some_ne_none _) ?_ hrun).adds hadds
          change ((min rd.request.content_length.toNat rest.length : ℕ) : ℤ)
            ≤ rd.request.content_length
          omega

end Logs

/-! ### The status -/

/-- **What a request is refused with.** -/
inductive Refusal : List UInt8 → Prop
  | badRequest : Refusal (ascii "HTTP/1.0 400 Bad Request\r\n\r\n")
  | notImplemented (attr : Attr) :
      Refusal (HTTP_SIG attr ++ ascii " 501 Invalid or unimplemented method\r\n\r\n")

/-- Only a request line is refused. -/
theorem line_refusal {room : ℕ → Bool} {bol : CString} {rd : Reading} {response : List UInt8}
    (h : line room bol rd = .refuse response) : Refusal response := by
  unfold line at h
  split at h
  · unfold requestLine at h
    simp only at h
    split at h
    · cases h
      exact .badRequest
    · split at h
      · cases h
      · split at h
        · cases h
          exact .notImplemented _
        · cases h
  · obtain ⟨rd', hnext, -⟩ := headerLine_next room bol rd
    rw [hnext] at h
    cases h
  · cases h

theorem scan_refusal {room : ℕ → Bool} {bs : List UInt8} {rd : Reading} {response : List UInt8}
    (h : scan room rd bs = .refuse response) : Refusal response := by
  induction bs using line_induction generalizing rd with
  | blank bs rest hblank =>
    rw [scan_blank hblank] at h
    cases h
  | more bs hblank htail =>
    rw [scan_more hblank htail] at h
    cases h
  | line bs rest hblank htail ih =>
    rw [scan_line hblank htail] at h
    cases hres : line room (cstr (lineOf bs)) rd with
    | crash =>
      rw [hres] at h
      cases h
    | refuse response' =>
      rw [hres] at h
      cases h
      exact line_refusal hres
    | next rd₁ =>
      rw [hres] at h
      exact ih h

theorem HTTP_SIG_cases (attr : Attr) :
    HTTP_SIG attr = ascii "HTTP/1.0" ∨ HTTP_SIG attr = ascii "HTTP/1.1" := by
  unfold HTTP_SIG
  split
  · exact Or.inl rfl
  · exact Or.inr rfl

/-- The version does not matter for the status. -/
theorem status_http (attr : Attr) (text : List UInt8) :
    status (HTTP_SIG attr ++ text) = (text.drop 1).take 3 := by
  rcases HTTP_SIG_cases attr with h | h <;> rw [h] <;> rfl

theorem Refusal.status {response : List UInt8} (h : Refusal response) :
    Http.status response = ascii "400" ∨ Http.status response = ascii "501" := by
  cases h with
  | badRequest => exact Or.inl rfl
  | notImplemented attr =>
    rw [status_http]
    exact Or.inr rfl

/-- What can be wrong with a head. -/
theorem verdict_text {alloc : ℕ → Option Memory} {req : HttpRequest} {text : List UInt8}
    (h : verdict alloc req = .refuse text) :
    text = hostMissing ∨ text = bodyTooBig ∨ text = getWithBody := by
  unfold verdict at h
  split at h
  · cases h
    exact Or.inl rfl
  · split at h
    · cases h
      exact Or.inr (Or.inl rfl)
    · split at h
      · split at h
        · cases h
          exact Or.inr (Or.inr rfl)
        · cases h
      · split at h <;> cases h

/-- **The status of a response is that of an error.** -/
theorem Rejection.status {σ : Type} {malloc : Malloc} {c : Connection σ} {bs response : List UInt8}
    (h : Rejection malloc c bs response) :
    Http.status response ∈ [ascii "400", ascii "413", ascii "501"] := by
  cases h with
  | line hscan =>
    rcases (scan_refusal hscan).status with h | h <;> rw [h] <;> decide
  | head hscan hverdict =>
    rw [status_http]
    rcases verdict_text hverdict with rfl | rfl | rfl <;> decide

end Http
end Osrv
