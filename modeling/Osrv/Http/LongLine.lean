import Osrv.Http.Refusals

/-!
# Lines that are too long

A line that is too long for the line buffer fills it, and then `recv` is asked for no bytes
and returns none, which is taken for the end of the stream. The response for a buffer that
is full is never sent: the connection is closed, and behind a request line the handler is
called with what has been read of the request.

There is one other response of the same status, for a body that is too long. It goes out for
a request with a line that is too long if the head is taken to end in front of that line,
behind a line end that was cut or a NUL (`long_line_refused_iff`).
-/

namespace Osrv
namespace Http

open Bytes Net

/-! ### Lines in a stream -/

/-- **A line that is too long** for the line buffer, with an LF and a terminator: bytes
without a line end, in front of the blank line. -/
def LongLine (stream : List UInt8) : Prop :=
  ∃ pre line post, stream = pre ++ line ++ post ∧ (∀ b ∈ line, b ≠ 13 ∧ b ≠ 10) ∧
    LINE_BUF_SIZE ≤ line.length + 1 ∧ (splitHead (pre ++ line)).2 = none

section Split

variable {xs ys zs rest pre line pending : List UInt8}

theorem lineOf_mem_splitHead (h : afterBlank xs = none) : lineOf xs ∈ (splitHead xs).1 := by
  cases hend : afterEol (tailOf xs) with
  | none =>
    rw [splitHead_more h hend]
    exact List.mem_cons_self
  | some rest =>
    rw [splitHead_line h hend]
    exact List.mem_cons_self

/-- Behind the blank line nothing matters for the lines. -/
theorem splitHead_append (h : (splitHead xs).2 = some rest) (ys : List UInt8) :
    splitHead (xs ++ ys) = ((splitHead xs).1, some (rest ++ ys)) := by
  induction xs using line_induction with
  | blank xs rest' hblank =>
    rw [splitHead_blank hblank] at h ⊢
    cases h
    exact splitHead_blank (afterBlank_append hblank ys)
  | more xs hblank htail =>
    rw [splitHead_more hblank htail] at h
    cases h
  | line xs rest' hblank htail ih =>
    rw [splitHead_line hblank htail] at h ⊢
    obtain ⟨hnone, hline, hend⟩ := line_append ys hblank htail fun hcr => by
      -- nothing is behind a CR at the end
      rw [rest_eq_nil htail hcr, splitHead_more rfl rfl] at h
      cases h
    rw [splitHead_line hnone hend, hline, ih h]

/-- A line end is a CR or an LF. -/
theorem afterEol_split (h : afterEol xs = some rest) :
    ∃ e b, xs = e ++ b :: rest ∧ (b = 13 ∨ b = 10) := by
  unfold afterEol at h
  split at h
  · cases h
    exact ⟨[13], 10, rfl, Or.inr rfl⟩
  · cases h
    exact ⟨[], 13, rfl, Or.inl rfl⟩
  · cases h
    exact ⟨[], 10, rfl, Or.inr rfl⟩
  · cases h

/-- Bytes without a line end are in one of the lines. -/
theorem run_in_line (h0 : (0 : UInt8) ∉ pre ++ line) (hne : line ≠ [])
    (hline : ∀ b ∈ line, b ≠ 13 ∧ b ≠ 10) (hnone : (splitHead (pre ++ line)).2 = none)
    (zs : List UInt8) :
    ∃ l ∈ (splitHead (pre ++ line ++ zs)).1, line.length ≤ l.length := by
  generalize hws : pre ++ line = ws at h0 hnone ⊢
  induction ws using line_induction generalizing pre with
  | blank ws rest hblank =>
    rw [splitHead_blank hblank] at hnone
    cases hnone
  | more ws hblank htail =>
    -- the bytes are text, and a part of a line
    have hnil : tailOf ws = [] := tailOf_eq_nil h0 htail
    have hall : lineOf ws = ws := by
      have hsplit := lineOf_append_tailOf ws
      rwa [hnil, List.append_nil] at hsplit
    have htext : ∀ b ∈ ws, isText b = true := fun b hb => isText_of_mem_lineOf (hall ▸ hb)
    have hlong : lineOf (ws ++ zs) = ws ++ lineOf zs := List.takeWhile_append_of_pos htext
    have hne' : ws ≠ [] := by
      rw [← hws]
      exact List.append_ne_nil_of_right_ne_nil _ hne
    have hblank' : afterBlank (ws ++ zs) = none := by
      refine afterBlank_append_none hblank hne' fun hcr => ?_
      rw [hcr] at htext
      exact absurd (htext 13 List.mem_cons_self) (by decide)
    refine ⟨_, lineOf_mem_splitHead hblank', ?_⟩
    rw [hlong, ← hws, List.length_append, List.length_append]
    omega
  | line ws rest hblank htail ih =>
    obtain ⟨e, b, heq, hb⟩ := afterEol_split htail
    have hnot : b ∉ line := by
      intro hmem
      obtain ⟨h13, h10⟩ := hline b hmem
      rcases hb with rfl | rfl
      · exact h13 rfl
      · exact h10 rfl
    have hsplit : pre ++ line = (lineOf ws ++ e) ++ b :: rest := by
      rw [hws, List.append_assoc, ← heq, lineOf_append_tailOf]
    -- the bytes are behind the line end
    obtain ⟨pre', hpre'⟩ : ∃ pre', pre' ++ line = rest := by
      obtain ⟨a, -, hr⟩ | ⟨a, -, hr⟩ := List.append_eq_append_iff.mp hsplit
      · exact absurd (hr ▸ List.mem_append_right a List.mem_cons_self) hnot
      · cases a with
        | nil =>
          have hline' : line = b :: rest := hr.symm
          exact absurd (hline' ▸ List.mem_cons_self) hnot
        | cons b' a => exact ⟨a, (List.cons.inj hr).2.symm⟩
    have hrest : rest ≠ [] := by
      rw [← hpre']
      exact List.append_ne_nil_of_right_ne_nil _ hne
    obtain ⟨hnone', hline', hend⟩ := line_append zs hblank htail
      fun hcr => absurd (rest_eq_nil htail hcr) hrest
    rw [splitHead_line hblank htail] at hnone
    obtain ⟨l, hl, hle⟩ := ih hpre' (fun hmem => h0 ((behind_suffix htail).mem hmem)) hnone
    rw [splitHead_line hnone' hend]
    exact ⟨l, List.mem_cons_of_mem _ hl, hle⟩

/-- **A blank line behind a line that is too long.** -/
theorem LongLine.not_linesFit (h : LongLine (xs ++ ys)) (h0 : (0 : UInt8) ∉ xs)
    (hblank : (splitHead xs).2 ≠ none) : ¬ LinesFit xs := by
  obtain ⟨pre, line, post, heq, hline, hlong, hnone⟩ := h
  have hsize : LINE_BUF_SIZE = 32768 := rfl
  intro hfit
  obtain ⟨zs, hzs, -⟩ | ⟨zs, rfl, -⟩ := List.append_eq_append_iff.mp heq
  · -- the blank line is in front of it
    obtain ⟨rest, hrest⟩ := Option.ne_none_iff_exists'.mp hblank
    rw [hzs, splitHead_append hrest] at hnone
    cases hnone
  · have hne : line ≠ [] := by
      rintro rfl
      rw [List.length_nil] at hlong
      omega
    obtain ⟨l, hl, hle⟩ := run_in_line (fun hmem => h0 (List.mem_append_left zs hmem)) hne hline
      hnone zs
    have hlt := hfit l hl
    omega

/-- What is scanned in the line buffer fits it. -/
theorem linesFit_of_scan {room : ℕ → Bool} {rd : Reading} (hlen : xs.length < LINE_BUF_SIZE)
    (h : (∃ rd' rest, scan room rd xs = .blank rd' rest) ∨
      ∃ rd' pending, scan room rd xs = .more rd' pending ∧ pending.length + 1 < LINE_BUF_SIZE) :
    LinesFit xs := by
  induction xs using line_induction generalizing rd with
  | blank xs rest hblank =>
    intro l hl
    rw [splitHead_blank hblank] at hl
    cases hl
  | more xs hblank htail =>
    intro l hl
    rw [splitHead_more hblank htail, List.mem_singleton] at hl
    obtain ⟨rd', rest, hscan⟩ | ⟨rd', pending, hscan, hfit⟩ := h
    · rw [scan_more hblank htail] at hscan
      cases hscan
    · rw [scan_more hblank htail] at hscan
      cases hscan
      have hle : (lineOf xs).length ≤ xs.length := (List.takeWhile_sublist _).length_le
      rw [hl]
      split at hfit
      · next hzero =>
        -- at a NUL there is no line
        cases xs with
        | nil => exact hfit
        | cons b xs =>
          obtain rfl : b = 0 := hzero
          exact hfit
      · omega
  | line xs rest hblank htail ih =>
    have hrest : rest.length < xs.length := length_behind_lt htail
    intro l hl
    rw [splitHead_line hblank htail, List.mem_cons] at hl
    rcases hl with rfl | hl
    · -- a line and its end are in the line buffer
      have hsplit := congrArg List.length (lineOf_append_tailOf xs)
      have hend := afterEol_length htail
      rw [List.length_append] at hsplit
      omega
    · rw [scan_line hblank htail] at h
      cases hres : line room (cstr (lineOf xs)) rd with
      | crash =>
        rw [hres] at h
        obtain ⟨_, _, h⟩ | ⟨_, _, h, _⟩ := h <;> cases h
      | refuse response =>
        rw [hres] at h
        obtain ⟨_, _, h⟩ | ⟨_, _, h, _⟩ := h <;> cases h
      | next rd₁ =>
        rw [hres] at h
        exact ih (by omega) h l hl

/-- The lines of what was scanned and the lines of what is scanned behind what is left. -/
theorem linesFit_append {room : ℕ → Bool} {rd rd' : Reading} (hcont : Continues xs ys)
    (hscan : scan room rd xs = .more rd' pending) (hfit : LinesFit xs)
    (hpending : LinesFit (pending ++ ys)) : LinesFit (xs ++ ys) := by
  induction xs using line_induction generalizing rd with
  | blank xs rest hblank =>
    rw [scan_blank hblank] at hscan
    cases hscan
  | more xs hblank htail =>
    rw [scan_more hblank htail] at hscan
    cases hscan
    split at hpending
    · next hzero =>
      -- without a NUL only the empty list starts with one
      cases xs with
      | nil => exact hpending
      | cons b xs =>
        obtain rfl : b = 0 := hzero
        exact absurd List.mem_cons_self hcont.1
    · exact hpending
  | line xs rest hblank htail ih =>
    obtain ⟨rd₁, -, hscan'⟩ := scan_line_more hblank htail hscan
    have hfirst := hfit _ (lineOf_mem_splitHead hblank)
    by_cases hcut : tailOf xs = [13] ∧ ys.head? = some 10
    · obtain ⟨hcr, hys⟩ := hcut
      by_cases hnil : lineOf xs = []
      · -- a blank line that was cut
        obtain rfl : xs = [13] := by rw [← lineOf_append_tailOf xs, hnil, hcr, List.nil_append]
        cases ys with
        | nil => cases hys
        | cons b zs =>
          obtain rfl : b = 10 := Option.some.inj hys
          intro l hl
          rw [show [13] ++ 10 :: zs = 13 :: 10 :: zs from rfl,
            splitHead_blank (show afterBlank (13 :: 10 :: zs) = some zs from rfl)] at hl
          cases hl
      · exact absurd (cutsLine_of_tailOf hcr hnil hys) hcont.2
    · obtain ⟨hnone, hline, hend⟩ := line_append ys hblank htail fun h13 hys => hcut ⟨h13, hys⟩
      rw [LinesFit, splitHead_line hblank htail] at hfit
      have hih := ih (hcont.of_suffix (behind_suffix htail)) hscan'
        fun l hl => hfit l (List.mem_cons_of_mem _ hl)
      intro l hl
      rw [splitHead_line hnone hend, hline, List.mem_cons] at hl
      rcases hl with rfl | hl
      · exact hfirst
      · exact hih l hl

end Split

/-! ### The run -/

section Run

variable {σ : Type} (malloc : Malloc) (process : Handler σ)

/-- **A request is refused** for its size: a response of status 413 is all that happens
before the connection is closed. -/
def Refuses (c : Connection σ) : Prop :=
  ∃ c' response, Reachable malloc process c c' ∧ c'.s = false ∧
    c'.log = c.log ++ [.respond response] ∧ status response = ascii "413"

/-- The length that a head announces is out of range, or there is no memory for it. -/
def TooBig (alloc : ℕ → Option Memory) (req : HttpRequest) : Prop :=
  (req.attr.HTTP_1_0 = true ∨ req.attr.HOST_HEADER = true) ∧ allocBody alloc req = none

/-- **The head is cut short**: a piece ends between the CR and the LF of a line, or there is a
NUL, and the head that is taken to end there announces a body that is too big. -/
def CutShort (c : Connection σ) : Prop :=
  ∃ c' bs input' rd rest, Reachable malloc process c c' ∧ c'.s = true ∧ c'.log = c.log ∧
    c'.part ≠ .BODY ∧ recv (LINE_BUF_SIZE - c'.line_pos - 1) c'.input = (.data bs, input') ∧
    ((0 : UInt8) ∈ c'.current ++ bs ∨ CutsLine c'.current bs) ∧
    scan (c'.room malloc) c'.toReading (read c'.line_buf c'.line_pos ++ bs) = .blank rd rest ∧
    TooBig (malloc.alloc c'.log.length) rd.request

/-- What is known in the head of a request. -/
inductive Heading (c : Connection σ) : Prop
  | nul (h0 : (0 : UInt8) ∈ c.current)
  | idle (hidle : Idle c)
  | lines (hscan : scan (c.room malloc) .fresh c.current
        = .more c.toReading (read c.line_buf c.line_pos))
      (hfit : LinesFit c.current ∨ LINE_BUF_SIZE ≤ c.line_pos + 1)

/-- Where the request stands that started in `c₀`, if nothing has been logged. -/
inductive InRequest (c₀ c : Connection σ) : Prop
  | body (hpart : c.part = .BODY)
  | head (hbytes : c.current ++ c.input.bytes = c₀.current ++ c₀.input.bytes)
      (h : Heading malloc c)

variable {malloc process} {c₀ c c' : Connection σ} {bs response : List UInt8}

/-- In a body nothing but a call of the handler ends a request. -/
theorem BodyStep.stays (h : BodyStep malloc process c (.ret c')) (hpart : c.part = .BODY)
    (hs : c'.s = true) (hlog : c'.log = c.log) : c'.part = .BODY := by
  have hfinish : ∀ d : Connection σ, d.part = .BODY → d.log = c.log →
      (finishBody malloc process d).log = c.log → (finishBody malloc process d).part = .BODY := by
    intro d hd hdlog hkeeps
    unfold finishBody at hkeeps ⊢
    split at hkeeps
    · rw [finish_log, process_request_log, hdlog] at hkeeps
      have hlen := congrArg List.length hkeeps
      rw [List.length_append, List.length_singleton] at hlen
      omega
    · next hne => rwa [if_neg hne]
  cases h with
  | failed hrecv => cases hs
  | hangup hrecv => cases hs
  | piece hrecv hmem => exact hfinish _ hpart rfl hlog
  | full hfull => exact hfinish c hpart rfl hlog

/-- The lines that have been received fit the line buffer when the blank line is reached, and
before that unless it is full. -/
theorem Heading.fits (h : Heading malloc c) (hpos : c.line_pos < LINE_BUF_SIZE) {input' : Input}
    (hrecv : recv (LINE_BUF_SIZE - c.line_pos - 1) c.input = (.data bs, input'))
    (h0 : (0 : UInt8) ∉ c.current ++ bs) (hcut : Idle c ∨ ¬ CutsLine c.current bs) :
    scan (c.room malloc) c.toReading (read c.line_buf c.line_pos ++ bs)
        = scan (c.room malloc) .fresh (c.current ++ bs) ∧
      ((∃ rd rest, scan (c.room malloc) c.toReading (read c.line_buf c.line_pos ++ bs)
          = .blank rd rest) ∨
        (∃ rd pending, scan (c.room malloc) c.toReading (read c.line_buf c.line_pos ++ bs)
          = .more rd pending ∧ pending.length + 1 < LINE_BUF_SIZE) →
        LinesFit (c.current ++ bs)) := by
  obtain ⟨hne, hroom, -, -⟩ := recv_spec hrecv
  -- the line buffer has room for what is received
  have hlen : (read c.line_buf c.line_pos ++ bs).length < LINE_BUF_SIZE := by
    rw [List.length_append, length_read]
    omega
  have hcurrent : (0 : UInt8) ∉ c.current := fun hmem => h0 (List.mem_append_left bs hmem)
  -- at the start of a request what has been received is the head so far
  have hstart : Idle c → _ := fun hidle : Idle c => by
    have hfit := @linesFit_of_scan _ (c.room malloc) c.toReading hlen
    rw [hidle.reading, ← hidle.current] at hfit
    exact hfit
  cases h with
  | nul hmem => exact absurd hmem hcurrent
  | idle hidle =>
    rw [hidle.reading, ← hidle.current]
    exact ⟨rfl, hstart hidle⟩
  -- behind a whole number of lines the scan goes on where it stood
  | lines hscan hfit =>
    rcases hcut with hidle | hcut
    · rw [hidle.reading, ← hidle.current]
      exact ⟨rfl, hstart hidle⟩
    · refine ⟨?_, fun hres => ?_⟩
      · rw [scan_fresh_append (fun heq => ?_) fun _ => ⟨hcurrent, hcut⟩, hscan]
        · rfl
        · obtain ⟨response, hcr⟩ := scan_cr (c.room malloc)
          rw [← heq, hscan] at hcr
          cases hcr
      · -- a buffer that is full receives nothing
        have hpiece := List.length_pos_of_ne_nil hne
        rcases hfit with hfit | hfull
        · exact linesFit_append ⟨hcurrent, hcut⟩ hscan hfit (linesFit_of_scan hlen hres)
        · omega

/-- **Where a request stands** is known as long as nothing is logged. -/
theorem InRequest.step (h : InRequest malloc c₀ c) (hin : InRange c)
    (hrun : http_input_iteration malloc process c = some (.ret c')) (hs : c'.s = true)
    (hlog : c'.log = c.log) : InRequest malloc c₀ c' := by
  -- a call or an answer would be logged
  have hlonger : ∀ e : Event, c.log ++ [e] ≠ c.log := by
    intro e heq
    have hlen := congrArg List.length heq
    rw [List.length_append, List.length_singleton] at hlen
    omega
  have hstep := iteration_step (fun _ => hin.pos)
    (fun hpart => ⟨(hin.body hpart).1, (hin.body hpart).2.2.2⟩) hrun
  -- in the body it stays there
  obtain ⟨hpart, hstep⟩ | ⟨hpart, hstep⟩ := hstep
  · exact .body (hstep.stays hpart hs hlog)
  · cases hstep with
    | failed hrecv => cases hs
    | early hrecv hpath => cases hs
    | hangup hrecv hpath => cases hs
    | refused hrecv href => exact absurd hlog href.ne_log
    | processed hrecv hscan hverdict hbuf =>
      obtain ⟨site, req, recorded, hcall⟩ := passed_adds malloc process c _ _ _ _ _
      exact absurd (hcall.symm.trans hlog) (hlonger _)
    | announced hrecv hscan hverdict hbody => exact .body (hbody.stays rfl hs hlog)
    -- a piece of a line: the head is longer by what has arrived
    | @more input' bs pending rd buf hrecv hscan hbuf =>
      cases h with
      | body hbody => exact absurd hbody hpart
      | head hbytes hhead =>
        obtain ⟨-, -, hsplit, -⟩ := recv_spec hrecv
        refine .head ?_ ?_
        · show c.current ++ bs ++ input'.bytes = _
          rw [List.append_assoc, hsplit, hbytes]
        · by_cases h0 : (0 : UInt8) ∈ c.current ++ bs
          · exact .nul h0
          · -- behind a cut the blank line would have been found
            have hcut : Idle c ∨ ¬ CutsLine c.current bs := by
              -- either the head had no lines yet, or it was not cut
              cases hhead with
              | nul hmem => exact absurd (List.mem_append_left bs hmem) h0
              | idle hidle => exact Or.inl hidle
              | lines hscan' hfit =>
                refine Or.inr fun hcut => ?_
                obtain ⟨rest, hblank⟩ := cut_ends_head (.lines hscan')
                  (fun hmem => h0 (List.mem_append_left bs hmem)) hpart hcut
                rw [hscan] at hblank
                cases hblank
            obtain ⟨hsame, hfits⟩ := hhead.fits hin.pos hrecv h0 hcut
            refine .lines ?_ ?_
            · show scan (c.room malloc) .fresh (c.current ++ bs)
                = .more rd (read buf pending.length)
              rw [← hsame, hscan, hbuf.read_start]
            -- either each line fits, or the last one fills the buffer
            · show LinesFit (c.current ++ bs) ∨ LINE_BUF_SIZE ≤ pending.length + 1
              rcases Nat.lt_or_ge (pending.length + 1) LINE_BUF_SIZE with hlt | hge
              · exact Or.inl (hfits (Or.inr ⟨rd, pending, hscan, hlt⟩))
              · exact Or.inr hge

/-- The run of a request. -/
theorem Reachable.inRequest (hidle : Idle c₀) (hin : InRange c₀) (hlog₀ : Logged Announced c₀.log)
    (h : Reachable malloc process c₀ c) (hs : c.s = true) (hlog : c.log = c₀.log) :
    InRequest malloc c₀ c := by
  induction h with
  | start => exact .head rfl (.idle hidle)
  | @step c₁ c₂ hreach hs₁ hc ih =>
    obtain ⟨hin₁, -, hpre⟩ := hreach.log_prefix (fun _ => hin) hlog₀
    -- the log has not grown in between
    have hgrows : c₁.log <+: c₀.log := hlog ▸ (hin₁ hs₁).log_grows hc
    have hlog₁ : c₁.log = c₀.log := hgrows.eq_of_length_le hpre.length_le
    exact (ih hs₁ hlog₁).step (hin₁ hs₁) hc hs (hlog.trans hlog₁.symm)

/-- A response is the work of one call. -/
theorem Reachable.refusal (hin : InRange c₀) (hlog₀ : Logged Announced c₀.log)
    (h : Reachable malloc process c₀ c') (hlog : c'.log = c₀.log ++ [.respond response]) :
    ∃ c, Reachable malloc process c₀ c ∧ c.s = true ∧ c.log = c₀.log ∧
      http_input_iteration malloc process c = some (.ret c') ∧ Refused c c' response := by
  induction h with
  | start =>
    have hlen := congrArg List.length hlog
    rw [List.length_append, List.length_singleton] at hlen
    omega
  | @step c₁ c₂ hreach hs hc ih =>
    have hin₁ := (hreach.log_prefix (fun _ => hin) hlog₀).1 hs
    cases hin₁.logs hc with
    | nothing log =>
      -- it was sent before, and has closed the connection
      obtain ⟨d, -, -, -, -, href⟩ := ih (log.symm.trans hlog)
      rw [href.closed] at hs
      cases hs
    | call site req recorded log =>
      obtain ⟨-, heq⟩ := List.append_inj' (log.symm.trans hlog) rfl
      cases (List.cons.inj heq).1
    | refused response' href =>
      obtain ⟨hsame, heq⟩ := List.append_inj' (href.log.symm.trans hlog) rfl
      obtain rfl := Event.respond.inj (List.cons.inj heq).1
      exact ⟨c₁, hreach, hs, hsame, hc, href⟩

theorem verdict_tooBig {alloc : ℕ → Option Memory} {req : HttpRequest} :
    verdict alloc req = .refuse bodyTooBig ↔ TooBig alloc req := by
  have htexts : hostMissing ≠ bodyTooBig ∧ getWithBody ≠ bodyTooBig := by decide
  unfold verdict TooBig
  split
  · next hhost =>
    refine iff_of_false (fun h => htexts.1 (Verdict.refuse.inj h)) fun h => ?_
    exact h.1.elim hhost.1 hhost.2
  · next hhost =>
    have hattr : req.attr.HTTP_1_0 = true ∨ req.attr.HOST_HEADER = true := by
      rw [not_and_or, not_not, not_not] at hhost
      exact hhost
    cases hbody : allocBody alloc req with
    | none => exact iff_of_true rfl ⟨hattr, rfl⟩
    | some body =>
      refine iff_of_false (fun h => ?_) fun h => (by cases h.2)
      simp only at h
      split at h
      · split at h
        · exact htexts.2 (Verdict.refuse.inj h)
        · cases h
      · split at h <;> cases h

/-- **A full line buffer** is taken for the end of the stream. Behind a request line the handler
is called with what there is of the request. -/
theorem InRange.full (hin : InRange c) (hpart : c.part ≠ .BODY)
    (hfull : LINE_BUF_SIZE ≤ c.line_pos + 1) (hmore : c.input.bytes ≠ []) :
    http_input_iteration malloc process c = some (.ret (http_close
      (if c.request.path.isSome then process_request malloc process .hangup c else c))) := by
  have hcap : LINE_BUF_SIZE - c.line_pos - 1 = 0 := by omega
  have hrecv : recv (LINE_BUF_SIZE - c.line_pos - 1) c.input = (.closed, c.input) := by
    rw [hcap, recv]
    cases hsegs : c.input.segments with
    | nil =>
      refine absurd ?_ hmore
      rw [Input.bytes, hsegs]
      rfl
    | cons seg segs => rfl
  exact iterationWith_inl malloc process hpart
    (linePart_nothing malloc process hin.pos hrecv (by simp)) _

/-- A request that is cut short is refused. -/
theorem CutShort.refuses (h : CutShort malloc process c) (hin : InRange c)
    (hlog : Logged Announced c.log) : Refuses malloc process c := by
  obtain ⟨c', bs, input', rd, rest, hreach, hs, hsame, hpart, hrecv, -, hscan, hbig⟩ := h
  have hpos := ((hreach.log_prefix (fun _ => hin) hlog).1 hs).pos
  obtain ⟨c'', href, hrun⟩ := iteration_rejected malloc process hpart hpos hrecv hscan
    (verdict_tooBig.mpr hbig)
  refine ⟨c'', _, .step hreach hs (hrun _), href.closed, by rw [href.log, hsame], ?_⟩
  rw [status_http]
  rfl

/-- A request with a line that is too long is refused only if it is cut short. -/
theorem Refuses.cutShort (h : Refuses malloc process c) (hin : InRange c) (hidle : Idle c)
    (hlog : Logged Announced c.log) (hlong : LongLine (c.current ++ c.input.bytes)) :
    CutShort malloc process c := by
  obtain ⟨c'', response, hreach, -, hresponse, hstatus⟩ := h
  obtain ⟨c', hreach', hs, hsame, hrun, href⟩ := hreach.refusal hin hlog hresponse
  have hin' := (hreach'.log_prefix (fun _ => hin) hlog).1 hs
  obtain ⟨hpart, bs, input', hrecv, hrejection⟩ := hin'.rejection hrun href
  cases hrejection with
  | line hscan =>
    rcases (scan_refusal hscan).status with h | h <;> rw [h] at hstatus <;>
      exact absurd hstatus (by decide)
  | @head rd rest text hscan hverdict =>
    -- of the three responses only one is of status 413
    obtain rfl : text = bodyTooBig := by
      rw [status_http] at hstatus
      rcases verdict_text hverdict with rfl | rfl | rfl
      · exact absurd hstatus (by decide)
      · rfl
      · exact absurd hstatus (by decide)
    refine ⟨c', bs, input', rd, rest, hreach', hs, hsame, hpart, hrecv, ?_, hscan,
      verdict_tooBig.mp hverdict⟩
    by_contra hclean
    rw [not_or] at hclean
    obtain ⟨h0, hcut⟩ := hclean
    cases hreach'.inRequest hidle hin hlog hs hsame with
    | body hbody => exact hpart hbody
    | head hbytes hhead =>
      obtain ⟨-, -, hsplit, -⟩ := recv_spec hrecv
      obtain ⟨heq, hfits⟩ := hhead.fits hin'.pos hrecv h0 (Or.inr hcut)
      have hlong' : LongLine (c'.current ++ bs ++ input'.bytes) := by
        rw [List.append_assoc, hsplit, hbytes]
        exact hlong
      refine hlong'.not_linesFit h0 ?_ (hfits (Or.inl ⟨rd, rest, hscan⟩))
      rw [(scan_splitHead _ _ _).2 _ _ (heq.symm.trans hscan)]
      exact Option.some_ne_none _

end Run

/-- **Lines that are too long.** A request starts on a connection, the first one or a later
one, and one of its lines in front of the blank line does not fit the line buffer. Whatever
the pieces are in which it arrives, the request is refused with status 413 exactly if its
head is cut short. -/
theorem long_line_refused_iff {σ : Type} {malloc : Malloc} {process : Handler σ} {buf : Memory}
    {input : Input} {world : σ} {c : Connection σ}
    (hreach : Reachable malloc process (.init buf input world) c) (hs : c.s = true)
    (hidle : Idle c) (hlong : LongLine (c.current ++ c.input.bytes)) :
    Refuses malloc process c ↔ CutShort malloc process c := by
  obtain ⟨hrange, hlog⟩ := hreach.inRange
  exact ⟨fun h => h.cutShort (hrange hs) hidle hlog hlong, fun h => h.refuses (hrange hs) hlog⟩

/-! ### A request that is not refused -/

/-- A request line and a header line that does not end. -/
def longRequest : List UInt8 := ascii "GET / HTTP/1.0\nA: " ++ List.replicate 32768 97

theorem longRequest_ne_nil : longRequest ≠ [] :=
  List.append_ne_nil_of_left_ne_nil (by decide) _

/-- A connection on which it arrives. -/
def longSent : Connection ℕ := sent [⟨longRequest, longRequest_ne_nil⟩]

theorem longSent_bytes : longSent.current ++ longSent.input.bytes = longRequest := by
  simp [longSent, sent, Connection.init, Input.bytes]

/-- A header line without an end has no blank line behind it. -/
theorem splitHead_open {bs : List UInt8} (h : ∀ b ∈ bs, isText b = true) :
    (splitHead (ascii "GET / HTTP/1.0\nA: " ++ bs)).2 = none := by
  have hname : ∀ b ∈ ascii "A: ", isText b = true :=
    List.all_eq_true.mp (by decide : (ascii "A: ").all isText = true)
  have htail : tailOf (ascii "A: " ++ bs) = [] := by
    refine List.dropWhile_eq_nil_iff.mpr fun b hb => ?_
    exact (List.mem_append.mp hb).elim (hname b) (h b)
  have hline : splitHead (ascii "GET / HTTP/1.0\nA: " ++ bs)
      = (ascii "GET / HTTP/1.0" :: (splitHead (ascii "A: " ++ bs)).1,
        (splitHead (ascii "A: " ++ bs)).2) := splitHead_line rfl rfl
  have hmore : splitHead (ascii "A: " ++ bs) = ([lineOf (ascii "A: " ++ bs)], none) :=
    splitHead_more rfl (by rw [htail]; rfl)
  rw [hline, hmore]

theorem longLine_longRequest : LongLine longRequest := by
  have htext : ∀ b ∈ List.replicate 32768 (97 : UInt8), b = 97 := fun b => List.eq_of_mem_replicate
  refine ⟨_, _, [], (List.append_nil longRequest).symm, fun b hb => ?_, ?_, splitHead_open
    fun b hb => ?_⟩
  · rw [htext b hb]
    decide
  · rw [List.length_replicate]
    decide
  · rw [htext b hb]
    decide

theorem long_line_refused_iff_get :
    Refuses .plenty counting longSent ↔ CutShort .plenty counting longSent :=
  long_line_refused_iff .start rfl ⟨rfl, rfl, rfl⟩ (longSent_bytes ▸ longLine_longRequest)

/-- It has neither a CR nor a NUL, and is not refused. -/
theorem long_line_not_refused :
    LongLine (longSent.current ++ longSent.input.bytes) ∧ ¬ Refuses .plenty counting longSent := by
  have hlong : LongLine (longSent.current ++ longSent.input.bytes) :=
    longSent_bytes ▸ longLine_longRequest
  have hidle : Idle longSent := ⟨rfl, rfl, rfl⟩
  have hin : InRange longSent := InRange.of_idle hidle (show 0 < LINE_BUF_SIZE by decide)
  refine ⟨hlong, fun h => ?_⟩
  obtain ⟨c', bs, input', rd, rest, hreach, hs, hsame, hpart, hrecv, hclean, -⟩ :=
    h.cutShort hin hidle Logged.nil hlong
  have hbytes : c'.current ++ bs <+: longRequest := by
    cases hreach.inRequest hidle hin Logged.nil hs hsame with
    | body hbody => exact absurd hbody hpart
    | head hall hhead =>
      obtain ⟨-, -, hsplit, -⟩ := recv_spec hrecv
      rw [← longSent_bytes, ← hall, ← hsplit, ← List.append_assoc]
      exact List.prefix_append _ _
  have hplain : ∀ b ∈ longRequest, b ≠ 0 ∧ b ≠ 13 := by
    intro b hb
    rw [longRequest, List.mem_append] at hb
    rcases hb with hb | hb
    · have hall : ∀ b ∈ ascii "GET / HTTP/1.0\nA: ", b ≠ 0 ∧ b ≠ 13 := by decide +kernel
      exact hall b hb
    · rw [List.eq_of_mem_replicate hb]
      decide
  rcases hclean with h0 | ⟨pre, b, hcurrent, -, -⟩
  · exact (hplain 0 (hbytes.mem h0)).1 rfl
  · refine (hplain 13 (hbytes.mem (List.mem_append_left bs ?_))).2 rfl
    rw [hcurrent]
    exact List.mem_append_right pre (List.mem_cons_of_mem b List.mem_cons_self)

end Http
end Osrv
