import Osrv.Http.Iteration

/-!
# The steps of a connection

`http_input_iteration` as a relation: `LineStep` has one constructor for each way in
which a call in the lines of a request can end, and `BodyStep` for a call in its
body. `iteration_step` says that there are no others. What holds between two calls
is derived from the constructors, so that the function itself is not looked at
again.

The first such invariant is `InRange`. It needs no memory: whatever `malloc` does, a
request that has a body has one of an announced length.
-/

namespace Osrv
namespace Http

open Bytes Net

section Steps

variable {σ : Type} (malloc : Malloc) (process : Handler σ)

/-! ### The relation -/

/-- A call in the body of a request. -/
inductive BodyStep (c : Connection σ) : Iteration (Connection σ) → Prop
  | waiting {input' : Input}
      (hrecv : recv (c.request.content_length - c.body_pos).toNat c.input = (.blocked, input'))
      (hlt : (c.body_pos : ℤ) < c.request.content_length) :
      BodyStep c (.blocked { c with input := input' })
  | failed {input' : Input}
      (hrecv : recv (c.request.content_length - c.body_pos).toNat c.input = (.failed, input'))
      (hlt : (c.body_pos : ℤ) < c.request.content_length) :
      BodyStep c (.ret (http_close { c with input := input' }))
  | hangup {input' : Input}
      (hrecv : recv (c.request.content_length - c.body_pos).toNat c.input = (.closed, input'))
      (hlt : (c.body_pos : ℤ) < c.request.content_length) :
      BodyStep c (.ret (http_close
        (process_request malloc process .hangup { c with input := input' })))
  | piece {input' : Input} {bs : List UInt8} {mem : Memory}
      (hrecv : recv (c.request.content_length - c.body_pos).toNat c.input = (.data bs, input'))
      (hmem : c.request.body = some mem)
      (hlt : (c.body_pos : ℤ) < c.request.content_length) :
      BodyStep c (.ret (finishBody malloc process { c with
        input := input'
        request := { c.request with body := some (write mem c.body_pos bs) }
        line_pos := 0
        body_pos := c.body_pos + bs.length
        current := c.current ++ bs }))
  | full (hfull : (c.body_pos : ℤ) = c.request.content_length) :
      BodyStep c (.ret (finishBody malloc process c))

/-- A call in the lines of a request. -/
inductive LineStep (c : Connection σ) : Iteration (Connection σ) → Prop
  | waiting {input' : Input}
      (hrecv : recv (LINE_BUF_SIZE - c.line_pos - 1) c.input = (.blocked, input')) :
      LineStep c (.blocked { c with input := input' })
  | failed {input' : Input}
      (hrecv : recv (LINE_BUF_SIZE - c.line_pos - 1) c.input = (.failed, input')) :
      LineStep c (.ret (http_close { c with input := input' }))
  | early {input' : Input}
      (hrecv : recv (LINE_BUF_SIZE - c.line_pos - 1) c.input = (.closed, input'))
      (hpath : c.request.path = none) :
      LineStep c (.ret (http_close { c with input := input' }))
  | hangup {input' : Input}
      (hrecv : recv (LINE_BUF_SIZE - c.line_pos - 1) c.input = (.closed, input'))
      (hpath : c.request.path ≠ none) :
      LineStep c (.ret (http_close
        (process_request malloc process .hangup { c with input := input' })))
  | more {input' : Input} {bs pending : List UInt8} {rd : Reading} {buf : Memory}
      (hrecv : recv (LINE_BUF_SIZE - c.line_pos - 1) c.input = (.data bs, input'))
      (hscan : scan (c.room malloc) c.toReading (read c.line_buf c.line_pos ++ bs)
        = .more rd pending) (hbuf : At buf 0 pending) :
      LineStep c (.ret { c.received bs input' with
        toReading := rd, line_buf := buf, line_pos := pending.length })
  | refused {input' : Input} {bs response : List UInt8} {c' : Connection σ}
      (hrecv : recv (LINE_BUF_SIZE - c.line_pos - 1) c.input = (.data bs, input'))
      (href : Refused c c' response) :
      LineStep c (.ret c')
  | processed {input' : Input} {bs rest : List UInt8} {rd : Reading} {buf : Memory}
      (hrecv : recv (LINE_BUF_SIZE - c.line_pos - 1) c.input = (.data bs, input'))
      (hscan : scan (c.room malloc) c.toReading (read c.line_buf c.line_pos ++ bs)
        = .blank rd rest)
      (hverdict : verdict (malloc.alloc c.log.length) rd.request = .process)
      (hbuf : At buf 0 rest) :
      LineStep c (.ret (passed malloc process (c.received bs input') rd rest buf))
  | announced {input' : Input} {bs rest : List UInt8} {rd : Reading} {mem buf : Memory}
      {r : Iteration (Connection σ)}
      (hrecv : recv (LINE_BUF_SIZE - c.line_pos - 1) c.input = (.data bs, input'))
      (hscan : scan (c.room malloc) c.toReading (read c.line_buf c.line_pos ++ bs)
        = .blank rd rest)
      (hverdict : verdict (malloc.alloc c.log.length) rd.request = .receive mem)
      (hbody : BodyStep malloc process (receiving (c.received bs input') rd mem rest buf) r) :
      LineStep c r

/-! ### There are no other steps -/

variable {malloc process} {c : Connection σ} {r : Iteration (Connection σ)}

theorem bodyPart_step {rest : Connection σ → Option (Iteration (Connection σ))}
    (hpart : c.part = .BODY) (hbody : c.request.body ≠ none)
    (hle : (c.body_pos : ℤ) ≤ c.request.content_length)
    (h : bodyPart malloc process rest c = some r) : BodyStep malloc process c r := by
  obtain ⟨mem, hmem⟩ := Option.ne_none_iff_exists'.mp hbody
  by_cases hlt : (c.body_pos : ℤ) < c.request.content_length
  · rcases hrecv : recv (c.request.content_length - c.body_pos).toNat c.input with ⟨res, input'⟩
    rw [bodyPart_receive hpart hmem hlt hrecv] at h
    obtain rfl := Option.some.inj h
    cases res with
    | blocked => exact .waiting hrecv hlt
    | failed => exact .failed hrecv hlt
    | closed => exact .hangup hrecv hlt
    | data bs => exact .piece hrecv hmem hlt
  · rw [bodyPart_complete hpart hmem hlt] at h
    obtain rfl := Option.some.inj h
    exact .full (by omega)

theorem linePart_step {rest : Connection σ → Option (Iteration (Connection σ))}
    (hpart : c.part ≠ .BODY) (hfit : c.line_pos < LINE_BUF_SIZE)
    (h : iterationWith malloc process rest c = some r) : LineStep malloc process c r := by
  rcases hrecv : recv (LINE_BUF_SIZE - c.line_pos - 1) c.input with ⟨res, input'⟩
  cases res with
  | blocked =>
    have hline := linePart_nothing malloc process hfit hrecv (by simp)
    rw [iterationWith_inl malloc process hpart hline] at h
    obtain rfl := Option.some.inj h
    exact .waiting hrecv
  | failed =>
    have hline := linePart_nothing malloc process hfit hrecv (by simp)
    rw [iterationWith_inl malloc process hpart hline] at h
    obtain rfl := Option.some.inj h
    exact .failed hrecv
  | closed =>
    have hline := linePart_nothing malloc process hfit hrecv (by simp)
    rw [iterationWith_inl malloc process hpart hline] at h
    obtain rfl := Option.some.inj h
    -- the other end has closed: a request with a path is still processed
    by_cases hpath : c.request.path = none
    · have hnone : ¬ c.request.path.isSome = true := by simp [hpath]
      simp only [hnone]
      exact .early hrecv hpath
    · simp only [Option.isSome_iff_ne_none.mpr hpath, if_true]
      exact .hangup hrecv hpath
  -- the lines that have arrived are scanned
  | data bs =>
    cases hscan : scan (c.room malloc) c.toReading (read c.line_buf c.line_pos ++ bs) with
    | more rd pending =>
      obtain ⟨buf, hbuf, hrun⟩ := iteration_more malloc process hpart hfit hrecv hscan
      rw [hrun] at h
      obtain rfl := Option.some.inj h
      exact .more hrecv hscan hbuf
    | refuse response =>
      obtain ⟨c', href, hrun⟩ := iteration_refused malloc process hpart hfit hrecv hscan
      rw [hrun] at h
      obtain rfl := Option.some.inj h
      exact .refused hrecv href
    | crash =>
      rw [iteration_crash malloc process hpart hfit hrecv hscan] at h
      cases h
    -- the head is complete, and the verdict decides
    | blank rd rest' =>
      cases hv : verdict (malloc.alloc c.log.length) rd.request with
      | refuse text =>
        obtain ⟨c', href, hrun⟩ := iteration_rejected malloc process hpart hfit hrecv hscan hv
        rw [hrun] at h
        obtain rfl := Option.some.inj h
        exact .refused hrecv href
      | process =>
        obtain ⟨buf, hbuf, hrun⟩ := iteration_processed malloc process hpart hfit hrecv hscan hv
        rw [hrun] at h
        obtain rfl := Option.some.inj h
        exact .processed hrecv hscan hv hbuf
      | receive mem =>
        obtain ⟨buf, hrun⟩ := iteration_announced malloc process hpart hfit hrecv hscan hv
        obtain ⟨-, hlow, -, -, -⟩ := verdict_receive hv
        rw [hrun] at h
        -- what is left in the buffer is taken for the body at once
        refine .announced hrecv hscan hv (bodyPart_step rfl (Option.some_ne_none _) ?_ h)
        change ((min rd.request.content_length.toNat rest'.length : ℕ) : ℤ)
          ≤ rd.request.content_length
        omega

/-- **The steps of a connection.** -/
theorem iteration_step (hfit : c.part ≠ .BODY → c.line_pos < LINE_BUF_SIZE)
    (hbody : c.part = .BODY → c.request.body ≠ none ∧
      (c.body_pos : ℤ) ≤ c.request.content_length)
    (h : http_input_iteration malloc process c = some r) :
    (c.part = .BODY ∧ BodyStep malloc process c r) ∨
      (c.part ≠ .BODY ∧ LineStep malloc process c r) := by
  by_cases hpart : c.part = .BODY
  · obtain ⟨hne, hle⟩ := hbody hpart
    rw [http_input_iteration, iterationWith, if_pos hpart] at h
    exact Or.inl ⟨hpart, bodyPart_step hpart hne hle h⟩
  · exact Or.inr ⟨hpart, linePart_step hpart (hfit hpart) h⟩

/-! ### Requests with a body -/

/-- A body has an announced length. -/
def Announced (req : HttpRequest) : Prop :=
  req.body ≠ none → 0 < req.content_length ∧ req.content_length ≤ 2147483640

/-- What is known between two calls whatever the client sends and `malloc` does. -/
structure InRange (c : Connection σ) : Prop where
  /-- There is room in the line buffer. -/
  pos : c.line_pos < LINE_BUF_SIZE
  /-- In the lines of a request there is no body. -/
  lines : c.part ≠ .BODY → Headed c.toReading
  /-- In a body there is memory for an announced length, which is not exceeded. -/
  body : c.part = .BODY → c.request.body ≠ none ∧ 0 < c.request.content_length ∧
    c.request.content_length ≤ 2147483640 ∧ (c.body_pos : ℤ) ≤ c.request.content_length

theorem InRange.of_idle (h : Idle c) (hpos : c.line_pos < LINE_BUF_SIZE) : InRange c where
  pos := hpos
  lines _ := h.reading ▸ Headed.init
  body hbody := by
    rw [congrArg Reading.part h.reading] at hbody
    cases hbody

theorem InRange.announced (h : InRange c) (raw : Option Raw) :
    Announced { c.request with headers := raw } := by
  intro hne
  by_cases hpart : c.part = .BODY
  · exact ⟨(h.body hpart).2.1, (h.body hpart).2.2.1⟩
  · exact absurd (h.lines hpart).body hne

/-- The invariants behind a call. -/
def KeepsRange : Iteration (Connection σ) → Prop
  | .ret c => (c.s = true → InRange c) ∧ Logged Announced c.log
  | .blocked c => InRange c ∧ Logged Announced c.log

theorem InRange.finishBody (h : InRange c) (hlog : Logged Announced c.log) :
    KeepsRange (.ret (finishBody malloc process c)) := by
  unfold Http.finishBody
  split
  · refine ⟨fun hs => InRange.of_idle (finish_idle hs).1 ?_, ?_⟩
    · rw [finish_line_pos]
      exact h.pos
    · rw [finish_log]
      exact hlog.process_request malloc process h.announced _
  · exact ⟨fun _ => h, hlog⟩

theorem InRange.bodyStep (h : InRange c) (hpart : c.part = .BODY) (hlog : Logged Announced c.log)
    (hstep : BodyStep malloc process c r) : KeepsRange r := by
  obtain ⟨hbody, hlow, hhigh, hle⟩ := h.body hpart
  cases hstep with
  | waiting hrecv => exact ⟨⟨h.pos, h.lines, h.body⟩, hlog⟩
  | failed hrecv => exact ⟨fun hs => (by cases hs), hlog⟩
  | @hangup input' hrecv =>
    refine ⟨fun hs => (by cases hs), ?_⟩
    exact Logged.process_request malloc process (c := { c with input := input' }) hlog
      h.announced _
  | @piece input' bs mem hrecv hmem =>
    obtain ⟨-, hroom, -, -⟩ := recv_spec hrecv
    refine InRange.finishBody ⟨show 0 < LINE_BUF_SIZE by decide,
      fun hne => absurd hpart hne, fun _ => ?_⟩ hlog
    refine ⟨Option.some_ne_none _, hlow, hhigh, ?_⟩
    change ((c.body_pos + bs.length : ℕ) : ℤ) ≤ c.request.content_length
    omega
  | full hfull => exact h.finishBody hlog

/-- **A call keeps the invariant.** -/
theorem InRange.iteration (h : InRange c) (hlog : Logged Announced c.log)
    (hrun : http_input_iteration malloc process c = some r) : KeepsRange r := by
  have hstep := iteration_step (fun _ => h.pos)
    (fun hpart => ⟨(h.body hpart).1, (h.body hpart).2.2.2⟩) hrun
  -- in the body, or in the lines
  obtain ⟨hpart, hstep⟩ | ⟨hpart, hstep⟩ := hstep
  · exact h.bodyStep hpart hlog hstep
  · have hheaded := h.lines hpart
    cases hstep with
    -- nothing has arrived
    | waiting hrecv => exact ⟨⟨h.pos, h.lines, h.body⟩, hlog⟩
    | failed hrecv => exact ⟨fun hs => (by cases hs), hlog⟩
    | early hrecv hpath => exact ⟨fun hs => (by cases hs), hlog⟩
    -- a request that is complete up to its headers is processed
    | @hangup input' hrecv hpath =>
      refine ⟨fun hs => (by cases hs), ?_⟩
      exact Logged.process_request malloc process (c := { c with input := input' }) hlog
        h.announced _
    -- what is left of a line is shorter than the buffer
    | @more input' bs pending rd buf hrecv hscan hbuf =>
      obtain ⟨-, hcap, -, -⟩ := recv_spec hrecv
      obtain ⟨hheaded', hle⟩ := (hheaded.scan _).1 _ _ hscan
      rw [List.length_append, length_read] at hle
      have hpos := h.pos
      refine ⟨fun _ => ⟨?_, fun _ => hheaded', fun hbody => absurd hbody hheaded'.part⟩, hlog⟩
      change pending.length < LINE_BUF_SIZE
      omega
    | refused hrecv href =>
      refine ⟨fun hs => ?_, ?_⟩
      · rw [href.closed] at hs
        cases hs
      · rw [href.log]
        exact hlog.respond _
    -- a request without a body
    | @processed input' bs rest rd buf hrecv hscan hverdict hbuf =>
      obtain ⟨-, hcap, -, -⟩ := recv_spec hrecv
      obtain ⟨hheaded', hle⟩ := (hheaded.scan _).2 _ _ hscan
      rw [List.length_append, length_read] at hle
      have hpos := h.pos
      refine ⟨fun hs => InRange.of_idle (finish_idle hs).1 ?_, ?_⟩
      · rw [passed, finish_line_pos]
        change rest.length < LINE_BUF_SIZE
        omega
      · rw [passed, finish_log]
        refine Logged.process_request malloc process ?_ ?_ _
        · exact hlog
        · intro raw hne
          exact absurd hheaded'.body hne
    -- the body begins with what is left in the buffer
    | @announced input' bs rest rd mem buf r hrecv hscan hverdict hbody =>
      obtain ⟨-, hcap, -, -⟩ := recv_spec hrecv
      obtain ⟨-, hle⟩ := (hheaded.scan _).2 _ _ hscan
      rw [List.length_append, length_read] at hle
      obtain ⟨-, hlow, hhigh, -, -⟩ := verdict_receive hverdict
      have hpos := h.pos
      refine InRange.bodyStep (c := receiving (c.received bs input') rd mem rest buf) ?_ rfl hlog
        hbody
      refine ⟨?_, fun hne => absurd rfl hne, fun _ => ⟨Option.some_ne_none _, hlow, hhigh, ?_⟩⟩
      · change rest.length - min rd.request.content_length.toNat rest.length < LINE_BUF_SIZE
        omega
      · change ((min rd.request.content_length.toNat rest.length : ℕ) : ℤ)
          ≤ rd.request.content_length
        omega

/-- **Whatever a client sends**, a request that has a body has an announced length. -/
theorem Reachable.inRange {line_buf : Memory} {input : Input} {world : σ}
    (h : Reachable malloc process (Connection.init line_buf input world) c) :
    (c.s = true → InRange c) ∧ Logged Announced c.log := by
  induction h with
  | start =>
    exact ⟨fun _ => InRange.of_idle ⟨rfl, rfl, rfl⟩ (show 0 < LINE_BUF_SIZE by decide),
      Logged.nil⟩
  | step _ hs hc ih => exact (ih.1 hs).iteration ih.2 hc

/-- The connection that the next call returns, if it does. -/
def Connection.advance (malloc : Malloc) (process : Handler σ) (c : Connection σ) :
    Option (Connection σ) :=
  if c.s then
    match http_input_iteration malloc process c with
    | some (.ret c') => some c'
    | _ => none
  else none

theorem Reachable.advance {c₀ c' : Connection σ} (h : Reachable malloc process c₀ c)
    (hc : c.advance malloc process = some c') : Reachable malloc process c₀ c' := by
  unfold Connection.advance at hc
  split at hc
  · next hs =>
    split at hc
    · next c₁ hrun =>
      obtain rfl := Option.some.inj hc
      exact h.step hs hrun
    · cases hc
  · cases hc

end Steps

end Http
end Osrv
