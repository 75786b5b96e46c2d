import Osrv.Http.Answer

/-!
# The pieces of a request

A client sends a request in pieces and waits for the reply. What the server does
depends on the pieces in one way only: if one of them ends between the CR and
the LF of a line, the LF is taken for the blank line behind the headers
(`cut_ends_head`). In every other delivery a complete request comes to its
`answer` (`request_run`), so that two of them make the same calls of the handler
and send the same responses (`delivery_independent`).
-/

namespace Osrv
namespace Http

open Bytes Net

/-! ### Complete requests -/

/-- One complete request: a request line, headers up to a blank line, and a body of the
length that was announced. -/
structure WholeRequest (malloc : Malloc) (k : ℕ) (msg : List UInt8) : Prop where
  /-- There is a request line. -/
  first : lineOf msg ≠ []
  /-- The blank line is there. -/
  head : (splitHead msg).2 ≠ none
  /-- No NUL is in front of it. -/
  text : ∀ xs ys, msg = xs ++ ys → (splitHead xs).2 = none → (0 : UInt8) ∉ xs
  /-- Behind it there is the body. -/
  body : ∀ rd got, scan (roomAt malloc k) .fresh msg = .blank rd got →
    got.length = rd.bodyLength

section Whole

variable {malloc : Malloc} {k : ℕ} {msg xs ys : List UInt8}

theorem WholeRequest.ne_cr (h : WholeRequest malloc k msg) (hmsg : xs ++ ys = msg) :
    xs ≠ [13] := by
  rintro rfl
  refine h.first ?_
  rw [← hmsg]
  rfl

/-- A request that is passed on at the blank line has no body. -/
theorem content_length_of_process {rd : Reading} {got : List UInt8}
    (hscan : scan (roomAt malloc k) .fresh xs = .blank rd got)
    (hverdict : verdict (malloc.alloc k) rd.request = .process) :
    rd.request.content_length = 0 := by
  obtain ⟨-, hann, -⟩ := verdict_process hverdict
  have hheaded := ((Headed.init.scan _).2 _ _ hscan).1
  by_contra hne
  rw [announced, hheaded.length hne, Bool.true_and, decide_eq_false_iff_not] at hann
  exact hann hne

/-- What a part of the request comes to, the request comes to, and nothing of it follows a
call of the handler. -/
theorem WholeRequest.answer_eq (h : WholeRequest malloc k msg) (hmsg : xs ++ ys = msg)
    (hsettled : answer malloc k xs ≠ .waiting) :
    answer malloc k msg = answer malloc k xs ∧
      ∀ rd left, answer malloc k xs = .call rd left → ys = [] ∧ left = [] := by
  have hscan : scan (roomAt malloc k) .fresh (xs ++ ys)
      = (scan (roomAt malloc k) .fresh xs).extend (roomAt malloc k) ys := by
    refine scan_append Headed.init (fun _ => h.ne_cr hmsg) fun rd pending hres => ?_
    refine absurd ?_ hsettled
    rw [answer, hres]
  rw [hmsg] at hscan
  cases hres : scan (roomAt malloc k) .fresh xs with
  | crash =>
    rw [hres] at hscan
    have hxs : answer malloc k xs = .crash := by rw [answer, hres]
    have hmsg' : answer malloc k msg = .crash := by rw [answer, hscan]; rfl
    rw [hxs, hmsg']
    exact ⟨rfl, fun _ _ heq => (by cases heq)⟩
  | refuse response =>
    rw [hres] at hscan
    have hxs : answer malloc k xs = .refuse response := by rw [answer, hres]
    have hmsg' : answer malloc k msg = .refuse response := by rw [answer, hscan]; rfl
    rw [hxs, hmsg']
    exact ⟨rfl, fun _ _ heq => (by cases heq)⟩
  | more rd pending =>
    refine absurd ?_ hsettled
    rw [answer, hres]
  | blank rd got =>
    rw [hres] at hscan
    have hlen := h.body rd (got ++ ys) hscan
    rw [List.length_append] at hlen
    cases hv : verdict (malloc.alloc k) rd.request with
    | refuse text =>
      rw [answer_refuse hres hv, answer_refuse hscan hv]
      exact ⟨rfl, fun _ _ heq => (by cases heq)⟩
    | process =>
      -- without a body nothing follows the blank line
      have hzero : rd.bodyLength = 0 := congrArg Int.toNat (content_length_of_process hres hv)
      obtain rfl : got = [] := List.eq_nil_of_length_eq_zero (by omega)
      obtain rfl : ys = [] := List.eq_nil_of_length_eq_zero (by omega)
      rw [answer_process hres hv, answer_process hscan hv]
      exact ⟨rfl, fun _ _ heq => ⟨rfl, by cases heq; rfl⟩⟩
    | receive mem =>
      have hxs := answer_receive hres hv
      by_cases hlt : got.length < rd.bodyLength
      · rw [if_pos hlt] at hxs
        exact absurd hxs hsettled
      · obtain rfl : ys = [] := List.eq_nil_of_length_eq_zero (by omega)
        rw [List.append_nil] at hmsg
        rw [if_neg hlt, List.drop_of_length_le (by omega)] at hxs
        rw [← hmsg, hxs]
        exact ⟨rfl, fun _ _ heq => ⟨rfl, by cases heq; rfl⟩⟩

/-- A complete request is not waited behind. -/
theorem WholeRequest.answer_ne_waiting (h : WholeRequest malloc k msg) :
    answer malloc k msg ≠ .waiting := by
  intro hanswer
  unfold answer at hanswer
  split at hanswer
  · cases hanswer
  · next rd pending hscan => exact h.head ((scan_splitHead _ _ _).1 _ _ hscan)
  · cases hanswer
  · next rd got hscan =>
    have hlen := h.body rd got hscan
    split at hanswer
    · cases hanswer
    · cases hanswer
    · rw [if_neg (by omega)] at hanswer
      cases hanswer

end Whole

/-! ### Runs -/

section Run

variable {σ : Type} (malloc : Malloc) (process : Handler σ)

/-- No piece ends between the CR and the LF of a line in the head of a request. -/
def Uncut (c₀ : Connection σ) : Prop :=
  ∀ c, Reachable malloc process c₀ c → c.s = true → (splitHead c.current).2 = none →
    ¬ CutsLine c.current c.input.bytes

/-- What becomes of the connection by which a complete request was sent. -/
inductive Served (c : Connection σ) (msg : List UInt8) : Option (Connection σ) → Prop
  | crashed (hanswer : answer malloc c.log.length msg = .crash) : Served c msg none
  | refused {c' : Connection σ} {response : List UInt8}
      (hanswer : answer malloc c.log.length msg = .refuse response) (h : Refused c c' response) :
      Served c msg (some c')
  | called {c' : Connection σ} {rd : Reading}
      (hanswer : answer malloc c.log.length msg = .call rd [])
      (h : Called malloc process c c' rd []) : Served c msg (some c')
  | full {c' : Connection σ} (hclosed : c'.s = false) (hfit : ¬ LinesFit msg) :
      Served c msg (some c')

variable {malloc process} {c c' : Connection σ} {msg : List UInt8}

theorem Reachable.head {c₀ : Connection σ} (hs : c₀.s = true)
    (hc : http_input_iteration malloc process c₀ = some (.ret c))
    (h : Reachable malloc process c c') : Reachable malloc process c₀ c' := by
  induction h with
  | start => exact .step .start hs hc
  | step _ hs' hc' ih => exact .step ih hs' hc'

theorem Reachable.trans {c₀ : Connection σ} (h₀ : Reachable malloc process c₀ c)
    (h : Reachable malloc process c c') : Reachable malloc process c₀ c' := by
  induction h with
  | start => exact h₀
  | step _ hs hc ih => exact ih.step hs hc

theorem Uncut.step (h : Uncut malloc process c) (hs : c.s = true)
    (hc : http_input_iteration malloc process c = some (.ret c')) : Uncut malloc process c' :=
  fun _ hreach => h _ (.head hs hc hreach)

/-- A connection between two requests waits for the next one. -/
theorem Idle.waits (h : Idle c) (hpos : c.line_pos < LINE_BUF_SIZE) (hnone : c.input.bytes = [])
    (hending : c.input.ending = .waiting) :
    http_input_iteration malloc process c = some (.blocked c) := by
  have hpart : c.part ≠ .BODY := by
    rw [congrArg Reading.part h.reading]
    decide
  have hline := linePart_nothing malloc process hpos (recv_waits hnone hending) (by simp)
  rw [http_input_iteration, iterationWith_inl malloc process hpart hline]

/-- The loop has ended, or waits for the next request. -/
theorem connectedLoop_idle {n : ℕ} (hidle : c.s = true → Idle c)
    (hpos : c.s = true → c.line_pos < LINE_BUF_SIZE) (hnone : c.input.bytes = [])
    (hending : c.input.ending = .waiting) : connectedLoop malloc process (n + 1) c = some c := by
  rw [connectedLoop]
  split
  · next hs => rw [(hidle hs).waits (hpos hs) hnone hending]
  · rfl

theorem connectedLoop_closed {n : ℕ} (h : c.s = false) :
    connectedLoop malloc process (n + 1) c = some c := by
  rw [connectedLoop, h]
  rfl

theorem Served.onward {bs : List UInt8} {r : Option (Connection σ)} (h : Onward c c' bs)
    (hserved : Served malloc process c' msg r) : Served malloc process c msg r := by
  cases hserved with
  | crashed hanswer =>
    rw [h.log] at hanswer
    exact .crashed hanswer
  | refused hanswer href =>
    rw [h.log] at hanswer
    exact .refused hanswer ⟨href.closed, by rw [href.log, h.log], by rw [href.world, h.world],
      href.overrun.trans h.overrun⟩
  | called hanswer hcall =>
    rw [h.log] at hanswer
    exact .called hanswer ⟨by rw [hcall.log, h.log], by rw [hcall.world, h.log, h.world],
      by rw [hcall.overrun, h.log, h.overrun], hcall.ready, hcall.pos⟩
  | full hclosed hfit => exact .full hclosed hfit

/-- A line buffer that is full has a line in it that does not fit. -/
theorem not_linesFit {room : ℕ → Bool} {xs ys pending : List UInt8} {rd : Reading}
    (hscan : scan room .fresh xs = .more rd pending) (hcont : Continues xs ys)
    (hfull : LINE_BUF_SIZE ≤ pending.length + 1) : ¬ LinesFit (xs ++ ys) := fun hfit => by
  have hlt := pending_fits hcont hfit hscan
  omega

/-- A request under way is waited for. -/
theorem Underway.answer (h : Underway malloc c) :
    answer malloc c.log.length c.current = .waiting := by
  cases h with
  | lines hscan =>
    have hscan' : scan (roomAt malloc c.log.length) .fresh c.current
        = .more c.toReading (read c.line_buf c.line_pos) := hscan
    rw [Http.answer, hscan']
  | body hbody hlt => rw [hbody.answer, if_pos hlt]

/-- **A complete request** comes to its answer, in whatever pieces it is sent, unless one
of them ends inside a line end. -/
theorem request_run {n : ℕ} (hwhole : WholeRequest malloc c.log.length msg)
    (hpos : c.line_pos < LINE_BUF_SIZE) (hstage : Underway malloc c) (hs : c.s = true)
    (hmsg : c.current ++ c.input.bytes = msg) (hending : c.input.ending = .waiting)
    (huncut : Uncut malloc process c) (hn : c.input.bytes.length + 2 ≤ n) :
    Served malloc process c msg (connectedLoop malloc process n c) := by
  induction hlen : c.input.bytes.length using Nat.strong_induction_on generalizing c n with
  | _ len ih =>
    obtain ⟨n, rfl⟩ : ∃ m, n = m + 2 := ⟨n - 2, by omega⟩
    have hcut : CleanCut c.current c.input.bytes := fun hnone =>
      ⟨hwhole.text _ _ hmsg.symm hnone, huncut c .start hs hnone⟩
    have hfollows : Follows malloc c := ⟨hpos, Or.inr hstage⟩
    have hp := hfollows.progress process hcut
    rw [connectedLoop, if_pos hs]
    cases hrun : http_input_iteration malloc process c with
    | none =>
      rw [hrun] at hp
      cases hp with
      -- the answer of a front of the request is that of the whole request
      | @crashed bs input' hbs hanswer =>
        rw [hbs, ← List.append_assoc] at hmsg
        obtain ⟨heq, -⟩ := hwhole.answer_eq hmsg (by rw [hanswer]; simp)
        exact .crashed (heq.trans hanswer)
    | some r =>
      rw [hrun] at hp
      cases hp with
      | @waiting c' bs hon hstage' hnone _ =>
        -- all of the request is there, so that nothing can be waited for
        have hcur : c'.current = msg := by
          rw [← hmsg, hon.current, hon.input, hnone, List.append_nil]
        refine absurd ?_ hwhole.answer_ne_waiting
        rw [← hcur, ← hon.log]
        exact (hstage' hstage).answer
      -- less is to come, and the request is the same
      | @more c' bs hon hne hpos' hstage' =>
        have hlt : c'.input.bytes.length < len := by
          rw [← hlen, hon.input, List.length_append]
          have hbs := List.length_pos_of_ne_nil hne
          omega
        refine Served.onward hon (ih _ hlt (hon.log ▸ hwhole) hpos' hstage' (hon.s.trans hs) ?_
          (hon.ending.trans hending) (huncut.step hs hrun) (by omega) rfl)
        rw [hon.current, List.append_assoc, ← hon.input, hmsg]
      -- the loop ends with the refusal
      | @refused c' bs response input' hbs hanswer href =>
        rw [hbs, ← List.append_assoc] at hmsg
        obtain ⟨heq, -⟩ := hwhole.answer_eq hmsg (by rw [hanswer]; simp)
        show Served malloc process c msg (connectedLoop malloc process (n + 1) c')
        rw [connectedLoop_closed href.closed]
        exact .refused (heq.trans hanswer) href
      | @called c' bs left rd hbs hending' hanswer hcall =>
        rw [hbs, ← List.append_assoc] at hmsg
        obtain ⟨heq, hnothing⟩ := hwhole.answer_eq hmsg (by rw [hanswer]; simp)
        -- the request is complete, so nothing is left behind it and the connection is idle
        obtain ⟨hnone, rfl⟩ := hnothing rd left hanswer
        show Served malloc process c msg (connectedLoop malloc process (n + 1) c')
        rw [connectedLoop_idle (fun hs' => (hcall.ready hs').1) hcall.pos hnone
          (hending'.trans hending)]
        exact .called (heq.trans hanswer) hcall
      | @ended c' hclosed hlog hend =>
        -- without a close by the client only a full line buffer ends the stream
        obtain ⟨hpart, hfull⟩ := hend hending
        show Served malloc process c msg (connectedLoop malloc process (n + 1) c')
        rw [connectedLoop_closed hclosed]
        refine .full hclosed ?_
        cases hstage with
        | lines hscan =>
          rw [← hmsg]
          refine not_linesFit hscan (hcut ((scan_splitHead _ _ _).1 _ _ hscan)) ?_
          rw [length_read]
          exact hfull
        | body hbody hlt => exact absurd hbody.part hpart

/-! ### What a cut does -/

/-- A line end in front of a CR is none of a line with text. -/
theorem not_text_of_behind {xs pre : List UInt8} {b : UInt8} (hxs : xs = pre ++ [b, 13])
    (hrest : afterEol (tailOf xs) = some [13]) : isText b = false := by
  obtain ⟨eol, e, htail, he⟩ : ∃ eol e, tailOf xs = eol ++ [e, 13] ∧ isText e = false := by
    unfold afterEol at hrest
    split at hrest
    · next heq =>
      obtain rfl := Option.some.inj hrest
      exact ⟨[13], 10, heq, rfl⟩
    · next heq =>
      obtain rfl := Option.some.inj hrest
      exact ⟨[], 13, heq, rfl⟩
    · next heq =>
      obtain rfl := Option.some.inj hrest
      exact ⟨[], 10, heq, rfl⟩
    · cases hrest
  have hsplit := lineOf_append_tailOf xs
  rw [htail, ← List.append_assoc] at hsplit
  obtain ⟨-, hlast⟩ := List.append_inj' (hsplit.trans hxs) rfl
  obtain rfl : e = b := (List.cons.inj hlast).1
  exact he

/-- Behind a CR nothing is left of a line. -/
theorem pending_of_cut {room : ℕ → Bool} {xs ys pending : List UInt8} {rd rd' : Reading}
    (hscan : scan room rd xs = .more rd' pending) (h0 : (0 : UInt8) ∉ xs)
    (hcut : CutsLine xs ys) : pending = [] := by
  obtain ⟨pre, b, hxs, hb, -⟩ := hcut
  induction xs using line_induction generalizing rd pre with
  | blank xs rest hblank =>
    rw [scan_blank hblank] at hscan
    cases hscan
  | more xs hblank htail =>
    -- bytes without a line end are text, and a CR is none
    have hnil : tailOf xs = [] := tailOf_eq_nil h0 htail
    have hmem : (13 : UInt8) ∈ lineOf xs := by
      have hsplit := lineOf_append_tailOf xs
      rw [hnil, List.append_nil] at hsplit
      rw [hsplit, hxs]
      simp
    exact absurd (isText_of_mem_lineOf hmem) (by decide)
  | line xs rest hblank htail ih =>
    obtain ⟨rd₁, -, hscan'⟩ := scan_line_more hblank htail hscan
    obtain ⟨q, hq⟩ := behind_suffix htail
    rw [hxs] at hq
    obtain ⟨a, -, hrest⟩ | ⟨a, -, hrest⟩ := List.append_eq_append_iff.mp hq
    · exact ih hscan' (fun hmem => h0 ((behind_suffix htail).mem hmem)) a hrest
    · -- what is behind the line is the CR and the byte in front of it, or less
      rcases a with _ | ⟨x, _ | ⟨y, a⟩⟩
      · exact ih hscan' (fun hmem => h0 ((behind_suffix htail).mem hmem)) [] hrest.symm
      · obtain rfl : rest = [13] := (List.cons.inj hrest).2.symm
        rw [not_text_of_behind hxs htail] at hb
        cases hb
      · have hnil : a ++ rest = [] := (List.cons.inj (List.cons.inj hrest).2).2.symm
        obtain rfl : rest = [] := (List.append_eq_nil_iff.mp hnil).2
        rw [scan_nil] at hscan'
        cases hscan'
        rfl

/-- **A line end that is cut** is taken for two: the next call finds the LF in front of the
bytes that it scans, and the head ends there. -/
theorem cut_ends_head {bs : List UInt8} (h : Underway malloc c)
    (h0 : (0 : UInt8) ∉ c.current) (hpart : c.part ≠ .BODY) (hcut : CutsLine c.current bs) :
    ∃ rest, scan (c.room malloc) c.toReading (read c.line_buf c.line_pos ++ bs)
      = .blank c.toReading rest := by
  cases h with
  | lines hscan =>
    have hnil := pending_of_cut hscan h0 hcut
    obtain ⟨-, -, -, -, hhead⟩ := hcut
    cases bs with
    | nil => cases hhead
    | cons b rest =>
      obtain rfl : b = 10 := Option.some.inj hhead
      exact ⟨rest, by rw [hnil]; exact scan_blank rfl⟩
  | body hbody _ => exact absurd hbody.part hpart
/-! ### Runs that can be checked -/

/-- Whether the bytes are cut between the CR and the LF of a line with text. -/
def cuts (xs ys : List UInt8) : Bool :=
  match xs.reverse with
  | 13 :: b :: _ => isText b && ys.head? = some 10
  | _ => false

theorem CutsLine.cuts {xs ys : List UInt8} (h : CutsLine xs ys) : cuts xs ys = true := by
  obtain ⟨pre, b, rfl, hb, hys⟩ := h
  rw [Http.cuts, List.reverse_append]
  simp [hb, hys]

variable (malloc process) in
/-- Whether a run ends in `n` iterations, and `ok` holds of what has been received of a
request and what is still to come, in every open state. -/
def runChecks (ok : List UInt8 → List UInt8 → Bool) : ℕ → Connection σ → Bool
  | 0, _ => false
  | n + 1, c => !c.s || (ok c.current c.input.bytes &&
      match http_input_iteration malloc process c with
      | some (.ret c') => runChecks ok n c'
      | _ => true)

theorem Reachable.cases_head (h : Reachable malloc process c c') :
    c' = c ∨ ∃ c₁, c.s = true ∧ http_input_iteration malloc process c = some (.ret c₁) ∧
      Reachable malloc process c₁ c' := by
  induction h with
  | start => exact Or.inl rfl
  | @step c₁ c₂ _ hs hc ih =>
    obtain rfl | ⟨c₃, hs₃, hc₃, hreach⟩ := ih
    · exact Or.inr ⟨c₂, hs, hc, .start⟩
    · exact Or.inr ⟨c₃, hs₃, hc₃, .step hreach hs hc⟩

theorem Reachable.checked {ok : List UInt8 → List UInt8 → Bool} {n : ℕ}
    (h : runChecks malloc process ok n c = true) (hreach : Reachable malloc process c c')
    (hs : c'.s = true) : ok c'.current c'.input.bytes = true := by
  induction n generalizing c with
  | zero => cases h
  | succ n ih =>
    rw [runChecks, Bool.or_eq_true, Bool.not_eq_true', Bool.and_eq_true] at h
    obtain rfl | ⟨c₁, hs₁, hc₁, hreach₁⟩ := hreach.cases_head
    · obtain hclosed | ⟨hok, -⟩ := h
      · rw [hs] at hclosed
        cases hclosed
      · exact hok
    · obtain hclosed | ⟨-, hnext⟩ := h
      · rw [hs₁] at hclosed
        cases hclosed
      · rw [hc₁] at hnext
        exact ih hnext hreach₁

theorem Uncut.of_run {n : ℕ}
    (h : runChecks malloc process (fun xs ys => !cuts xs ys) n c = true) :
    Uncut malloc process c := by
  intro c' hreach hs _ hcut
  have hok := hreach.checked h hs
  rw [hcut.cuts] at hok
  cases hok

/-! ### Two deliveries -/

/-- Whether the handler is called. -/
def Event.isCall : Event → Bool
  | .process .. => true
  | .respond _ => false

/-- What the server has done when it waits again or has closed the connection. -/
def Connection.outcome (c : Connection σ) : List Event × σ := (c.log, c.world)

variable (malloc process) in
/-- What a connection has done when a request has come to its answer. -/
def answered (c : Connection σ) : Answer → Option (List Event × σ)
  | .crash => none
  | .waiting => some c.outcome
  | .refuse response => some (c.log ++ [.respond response], c.world)
  | .call rd _ => some (c.log ++ [callEvent malloc c.log.length rd],
      (process (handed malloc c.log.length rd) c.world).2.2)

theorem Served.outcome {r : Option (Connection σ)} (h : Served malloc process c msg r)
    (hfit : LinesFit msg) :
    r.map Connection.outcome = answered malloc process c (answer malloc c.log.length msg) := by
  cases h with
  | crashed hanswer =>
    rw [hanswer]
    rfl
  | refused hanswer href =>
    rw [hanswer, Option.map_some, Connection.outcome, href.log, href.world]
    rfl
  | called hanswer hcall =>
    rw [hanswer, Option.map_some, Connection.outcome, hcall.log, hcall.world]
    rfl
  | full _ hnot => exact absurd hfit hnot

/-- A connection that was just accepted. -/
theorem Underway.init (line_buf : Memory) (input : Input) (world : σ) :
    Underway malloc (Connection.init line_buf input world) :=
  .lines (scan_nil _ _)

/-- With memory for the first buffer no null pointer is followed. -/
theorem answer_ne_crash (hmalloc : malloc.Succeeds) (k : ℕ) (msg : List UInt8) :
    answer malloc k msg ≠ .crash := by
  have hroom : roomAt malloc k (sizeof_buffer + 1024) = true := by
    obtain ⟨mem, hmem⟩ := hmalloc k (sizeof_buffer + 1024) (by decide)
    rw [roomAt, hmem]
    rfl
  intro hanswer
  unfold answer at hanswer
  split at hanswer
  · next hscan => exact scan_ne_crash _ hroom _ _ hscan
  · cases hanswer
  · cases hanswer
  · split at hanswer
    · cases hanswer
    · cases hanswer
    · split at hanswer <;> cases hanswer

end Run

/-! ### A request in pieces -/

/-- A handler that only keeps count of its calls. -/
def counting : Handler ℕ := fun req n => (false, req, n + 1)

def getRequest : List UInt8 := ascii "GET /data/k HTTP/1.1\r\nHost: x\r\n\r\n"

/-- A connection on which the pieces of a request arrive. -/
def sent (segments : List Segment) : Connection ℕ := .init (fun _ => 0) ⟨segments, .waiting⟩ 0

/-- What is read of the lines. -/
def getReading : Reading where
  request := { HttpRequest.cleared with
    path := some (cstr (ascii "/data/k"))
    method := some .GET
    attr := { Attr.zero with HOST_HEADER := true } }
  part := .HEADER
  headers := [⟨1024, ascii "Request-Method: GET\nHost: x\n"⟩]

/-- A line that is accepted, and what comes behind it. -/
theorem scan_next {room : ℕ → Bool} {bs : List UInt8} (rest : List UInt8) {rd rd₁ : Reading}
    {r : Scan} (hblank : afterBlank bs = none) (htail : afterEol (tailOf bs) = some rest)
    (hline : line room (cstr (lineOf bs)) rd = .next rd₁) (hrest : scan room rd₁ rest = r) :
    scan room rd bs = r := by
  rw [scan_line hblank htail, hline]
  exact hrest

set_option maxRecDepth 4000 in
theorem scan_getRequest (k : ℕ) :
    scan (roomAt .plenty k) .fresh getRequest = .blank getReading [] :=
  scan_next (ascii "Host: x\r\n\r\n") rfl rfl rfl
    (scan_next (ascii "\r\n") rfl rfl rfl (scan_blank rfl))

/-- A short request has short lines. -/
theorem linesFit_of_length {bs : List UInt8} (h : bs.length + 1 < LINE_BUF_SIZE) :
    LinesFit bs := by
  intro l hl
  have hle : l.length ≤ bs.length := by
    clear h
    induction bs using line_induction with
    | blank bs rest hblank =>
      rw [splitHead_blank hblank] at hl
      cases hl
    | more bs hblank htail =>
      rw [splitHead_more hblank htail, List.mem_singleton] at hl
      rw [hl]
      exact (List.takeWhile_sublist _).length_le
    | line bs rest hblank htail ih =>
      rw [splitHead_line hblank htail, List.mem_cons] at hl
      cases hl with
      | inl heq =>
        rw [heq]
        exact (List.takeWhile_sublist _).length_le
      | inr hmem => exact (ih hmem).trans (length_behind_lt htail).le
  omega

/-- A request with a blank line and a body is complete. -/
theorem wholeRequest_of_scan {malloc : Malloc} {k : ℕ} {msg got : List UInt8} {rd : Reading}
    (hfirst : lineOf msg ≠ []) (h0 : (0 : UInt8) ∉ msg)
    (hscan : scan (roomAt malloc k) .fresh msg = .blank rd got)
    (hlen : got.length = rd.bodyLength) : WholeRequest malloc k msg where
  first := hfirst
  head hnone := by
    rw [(scan_splitHead _ _ _).2 _ _ hscan] at hnone
    cases hnone
  text xs ys hmsg _ hmem := h0 (hmsg ▸ List.mem_append_left ys hmem)
  body rd' got' hscan' := by
    rw [hscan] at hscan'
    cases hscan'
    exact hlen

theorem wholeRequest_get (k : ℕ) : WholeRequest .plenty k getRequest :=
  wholeRequest_of_scan (by decide) (by decide) (scan_getRequest k) rfl

theorem linesFit_get : LinesFit getRequest := linesFit_of_length (by decide)

/-- The request in one piece. -/
def inOne : List Segment := [⟨getRequest, by decide⟩]

/-- A delivery that is cut inside of a line. -/
def inTwo : List Segment :=
  [⟨ascii "GET /data/k HTTP/1.1\r\nHo", by decide⟩, ⟨ascii "st: x\r\n\r\n", by decide⟩]

/-- A delivery that is cut between the CR and the LF of the request line. -/
def inHalves : List Segment :=
  [⟨ascii "GET /data/k HTTP/1.1\r", by decide⟩, ⟨ascii "\nHost: x\r\n\r\n", by decide⟩]

/-- The calls of the handler among the events of a run. -/
def callsOf (r : Option (Connection ℕ)) : Option (List Bool) :=
  r.map fun c => c.log.map Event.isCall

theorem callsOf_eq {r r' : Option (Connection ℕ)}
    (h : r.map Connection.outcome = r'.map Connection.outcome) : callsOf r = callsOf r' := by
  have hcalls : ∀ r : Option (Connection ℕ),
      callsOf r = (r.map Connection.outcome).map fun o => o.1.map Event.isCall := by
    intro r
    cases r <;> rfl
  rw [hcalls, h, ← hcalls]

/-- **Two deliveries of a request.** A complete request whose lines fit the line buffer is
sent in pieces, and the client waits for the reply. In any two such deliveries the server
makes the same calls of the handler, with the same requests, and sends the same
responses, if no piece ends between the CR and the LF of a line. -/
theorem delivery_independent {σ : Type} {malloc : Malloc} {process : Handler σ}
    {msg : List UInt8} {p q : List Segment} {buf buf' : Memory} {world : σ}
    (hwhole : WholeRequest malloc 0 msg) (hfit : LinesFit msg)
    (hp : p.flatMap Subtype.val = msg) (hq : q.flatMap Subtype.val = msg)
    (huncut : Uncut malloc process (.init buf ⟨p, .waiting⟩ world))
    (huncut' : Uncut malloc process (.init buf' ⟨q, .waiting⟩ world)) :
    (http_connected malloc process (.init buf ⟨p, .waiting⟩ world)).map Connection.outcome
        = (http_connected malloc process (.init buf' ⟨q, .waiting⟩ world)).map
            Connection.outcome ∧
      (malloc.Succeeds →
        (http_connected malloc process (.init buf ⟨p, .waiting⟩ world)).isSome = true) := by
  have hrun : ∀ (line_buf : Memory) (segs : List Segment), segs.flatMap Subtype.val = msg →
      Uncut malloc process (.init line_buf ⟨segs, .waiting⟩ world) →
      (http_connected malloc process (.init line_buf ⟨segs, .waiting⟩ world)).map
          Connection.outcome
        = answered malloc process (.init line_buf ⟨segs, .waiting⟩ world) (answer malloc 0 msg) :=
    fun line_buf segs hsegs hcut => (request_run
      (c := .init line_buf ⟨segs, .waiting⟩ world) hwhole (show 0 < LINE_BUF_SIZE by decide)
      (.init _ _ _) rfl hsegs rfl hcut (Nat.le_refl _)).outcome hfit
  refine ⟨?_, fun hmalloc => ?_⟩
  · rw [hrun buf p hp huncut, hrun buf' q hq huncut']
    cases answer malloc 0 msg <;> rfl
  · have hsome := hrun buf p hp huncut
    cases hconn : http_connected malloc process (.init buf ⟨p, .waiting⟩ world) with
    | some c => rfl
    | none =>
      rw [hconn] at hsome
      cases hanswer : answer malloc 0 msg with
      | crash => exact absurd hanswer (answer_ne_crash hmalloc 0 msg)
      | waiting => exact absurd hanswer hwhole.answer_ne_waiting
      | refuse response =>
        rw [hanswer] at hsome
        cases hsome
      | call rd left =>
        rw [hanswer] at hsome
        cases hsome

theorem delivery_independent_two :
    (http_connected .plenty counting (sent inOne)).map Connection.outcome
        = (http_connected .plenty counting (sent inTwo)).map Connection.outcome ∧
      (Malloc.plenty.Succeeds → (http_connected .plenty counting (sent inOne)).isSome = true) :=
  delivery_independent (wholeRequest_get 0) linesFit_get (by decide) (by decide)
    (Uncut.of_run (n := 4) (by decide +kernel)) (Uncut.of_run (n := 4) (by decide +kernel))

/-- **A delivery that is cut.** The request is refused, and not passed to the handler. -/
theorem delivery_cut : inHalves.flatMap Subtype.val = getRequest ∧ (0 : UInt8) ∉ getRequest ∧
    WholeRequest .plenty 0 getRequest ∧ LinesFit getRequest ∧
    (http_connected .plenty counting (sent inOne)).map Connection.outcome
      ≠ (http_connected .plenty counting (sent inHalves)).map Connection.outcome := by
  refine ⟨by decide, by decide, wholeRequest_get 0, linesFit_get, fun heq => ?_⟩
  have hone : callsOf (http_connected .plenty counting (sent inOne)) = some [true] := by
    decide +kernel
  have hcut : callsOf (http_connected .plenty counting (sent inHalves)) = some [false] := by
    decide +kernel
  rw [callsOf_eq heq, hcut] at hone
  cases hone

end Http
end Osrv
