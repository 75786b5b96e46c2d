import Osrv.Http.Heads
import Osrv.Http.Intact

/-!
# The grammar of requests

A request line is the method, the target and the version with a space between them, and the
values of `Content-Length` are decimal digits and all the same. The checks of the parser are
weaker: they look for a space, which may be the one in front of the version, and do not look
at the digit of the version; the length is what `atol` makes of the last value. `Gap` lists
what they do not see.

`grammar_iff` says that this is all: whatever arrives and in whatever pieces, the handler is
called for requests of the grammar only, with the target as the path, and all others are
answered with an error, exactly if no request with a gap passes the checks and what is recorded
of the heads fits the first buffer.
-/

namespace Osrv
namespace Http

open Bytes Net

/-! ### Requests of the grammar -/

section Lines

variable (Target : List UInt8 → Prop)

/-- **A request line.** What may stand for a target is a parameter. -/
def IsRequestLine (line target : List UInt8) : Prop :=
  ∃ method version, line = method ++ 32 :: target ++ ascii " HTTP/1." ++ [version] ∧
    method ≠ [] ∧ 32 ∉ method ∧ Target target ∧ (version = 48 ∨ version = 49)

/-- The values of `Content-Length`. -/
def AreLengths (vs : List (List UInt8)) : Prop :=
  (∀ v ∈ vs, v ≠ [] ∧ ∀ b ∈ v, isDigit b = true) ∧ ∀ v ∈ vs, ∀ v' ∈ vs, v = v'

/-- **The lines of a request** with this target. -/
def InGrammar (ls : List CString) (target : List UInt8) : Prop :=
  ∃ l hs, ls = l :: hs ∧ IsRequestLine Target l.bytes target ∧
    AreLengths (valuesOf (ascii "content-length") hs)

/-- What is between the first space and the version. -/
def targetOf (l : CString) : List UInt8 :=
  (l.bytes.take (versionAt l)).drop (l.bytes.idxOf 32 + 1)

/-- **What the checks do not see.** -/
inductive Gap (l : CString) (hs : List CString) : Prop
  | version (h₀ : l.bytes.getLast? ≠ some 48) (h₁ : l.bytes.getLast? ≠ some 49) : Gap l hs
  | onlySpace (h : l.bytes.idxOf 32 = versionAt l) : Gap l hs
  | noMethod (h : l.bytes.head? = some 32) : Gap l hs
  | target (h : ¬ Target (targetOf l)) : Gap l hs
  | number {v : List UInt8} (hv : v ∈ valuesOf (ascii "content-length") hs)
      (h : v = [] ∨ ∃ b ∈ v, isDigit b = false) : Gap l hs
  | different {v v' : List UInt8} (hv : v ∈ valuesOf (ascii "content-length") hs)
      (hv' : v' ∈ valuesOf (ascii "content-length") hs) (h : v ≠ v') : Gap l hs

variable {Target} {l : CString} {hs : List CString} {method target : List UInt8} {v : UInt8}

/-- The places in a request line that has a target. -/
theorem places (hline : l.bytes = method ++ 32 :: target ++ ascii " HTTP/1." ++ [v])
    (hmethod : 32 ∉ method) :
    l.bytes.idxOf 32 = method.length ∧ versionAt l = method.length + 1 + target.length ∧
      targetOf l = target ∧ (pathOf l).bytes = target := by
  have hfirst : l.bytes.idxOf 32 = method.length := by
    rw [hline, List.append_assoc, List.append_assoc, List.idxOf_append_of_notMem hmethod,
      List.cons_append, List.idxOf_cons_self, Nat.add_zero]
  have hversion : versionAt l = (method ++ 32 :: target).length := by
    rw [versionAt, CString.length, hline, List.length_append, List.length_append]
    rfl
  have hline' : l.bytes = method ++ 32 :: target ++ 32 :: (ascii "HTTP/1." ++ [v]) := by
    rw [hline, List.append_assoc]
    rfl
  have hfront : (method ++ 32 :: target).drop (method.length + 1) = target := by
    rw [List.drop_append, Nat.add_sub_cancel_left,
      List.drop_of_length_le (Nat.le_succ _), List.nil_append]
    rfl
  have hlen : versionAt l = method.length + 1 + target.length := by
    rw [hversion, List.length_append, List.length_cons]
    omega
  refine ⟨hfirst, hlen, ?_, ?_⟩
  · rw [targetOf, hfirst, hversion, hline', List.take_left, hfront]
  · -- the NUL that is put in front of the version ends the target
    have hset : l.bytes.set (versionAt l) 0
        = method ++ 32 :: target ++ 0 :: (ascii "HTTP/1." ++ [v]) := by
      rw [hversion, hline', List.set_append_right _ _ (Nat.le_refl _), Nat.sub_self]
      rfl
    have htext : ∀ b ∈ target, (b != 0) = true := by
      intro b hb
      rw [bne_iff_ne]
      rintro rfl
      refine l.zero_notMem ?_
      rw [hline]
      simp [hb]
    rw [pathOf, hset, hfirst, List.drop_append_of_le_length (by omega), hfront, cstr_bytes]
    exact takeWhile_append_stop _ htext rfl

/-- A line that passes the check of the version has the version at its end. -/
theorem Versioned.split (h : Versioned l) :
    ∃ front v, l.bytes = front ++ ascii " HTTP/1." ++ [v] ∧ versionAt l = front.length := by
  obtain ⟨hlong, hversion⟩ := h
  have hat : versionAt l + 9 = l.bytes.length := by
    have hlen : versionAt l = l.bytes.length - 9 := rfl
    have hlong' : 14 ≤ l.bytes.length := hlong
    omega
  have hlast : ∃ v, (l.bytes.drop (versionAt l)).drop 8 = [v] := by
    rw [List.drop_drop, ← List.length_eq_one_iff, List.length_drop]
    omega
  obtain ⟨v, hv⟩ := hlast
  refine ⟨l.bytes.take (versionAt l), v, ?_, ?_⟩
  · rw [← hversion, ← hv, List.append_assoc, List.take_append_drop, List.take_append_drop]
  · rw [List.length_take]
    omega

/-- **The checks and the grammar** agree on what has no gap. -/
theorem inGrammar_of_not_gap (hversion : Versioned l) (hgap : ¬ Gap Target l hs) :
    InGrammar Target (l :: hs) (pathOf l).bytes := by
  obtain ⟨front, v, hline, hat⟩ := hversion.split
  by_cases hspace : (32 : UInt8) ∈ front
  · obtain ⟨method, target, rfl, hmethod⟩ := List.eq_append_cons_of_mem hspace
    obtain ⟨hfirst, -, htarget, hpath⟩ := places hline hmethod
    refine ⟨l, hs, rfl, ⟨method, v, hpath.symm ▸ hline, ?_, hmethod, ?_, ?_⟩, ?_, ?_⟩
    · rintro rfl
      refine hgap (.noMethod ?_)
      rw [hline]
      rfl
    · rw [hpath, ← htarget]
      by_contra hnot
      exact hgap (.target hnot)
    · by_contra hnot
      rw [not_or] at hnot
      have hlast : l.bytes.getLast? = some v := by
        rw [hline, List.getLast?_append_cons, List.getLast?_singleton]
      refine hgap (.version ?_ ?_)
      · rw [hlast]
        exact fun h => hnot.1 (Option.some.inj h)
      · rw [hlast]
        exact fun h => hnot.2 (Option.some.inj h)
    · intro w hw
      by_contra hnot
      rw [not_and_or, not_not] at hnot
      refine hgap (.number hw (hnot.imp_right fun h => ?_))
      push Not at h
      obtain ⟨b, hb, hdigit⟩ := h
      exact ⟨b, hb, Bool.not_eq_true _ ▸ hdigit⟩
    · intro w hw w' hw'
      by_contra hne
      exact hgap (.different hw hw' hne)
  · refine absurd (.onlySpace ?_) hgap
    rw [hat, hline, List.append_assoc, List.idxOf_append_of_notMem hspace]
    rfl

end Lines

/-! ### The lines that a connection has taken -/

section Run

variable {σ : Type} (malloc : Malloc) (process : Handler σ)

/-- The lines that a call takes. -/
def linesTaken (c : Connection σ) : List CString :=
  if c.part = .BODY then []
  else
    match recv (LINE_BUF_SIZE - c.line_pos - 1) c.input with
    | (.data bs, _) => completeLines (read c.line_buf c.line_pos ++ bs)
    | _ => []

/-- **The lines of a request** so far: those that the calls since `c₀` have taken, none of
which has ended the request. -/
inductive Takes (c₀ : Connection σ) : List CString → Connection σ → Prop
  | start : Takes c₀ [] c₀
  | step {ls : List CString} {c c' : Connection σ} (h : Takes c₀ ls c) (hs : c.s = true)
      (hrun : http_input_iteration malloc process c = some (.ret c')) (hlog : c'.log = c.log) :
      Takes c₀ (ls ++ linesTaken c) c'

/-- What is recorded of a head with these lines. -/
def recordedOf (room : ℕ → Bool) (ls : List CString) : List UInt8 :=
  match readLines room ls .fresh with
  | .next rd => rd.headers.bytes
  | _ => []

theorem recordedOf_next {room : ℕ → Bool} {ls : List CString} {rd : Reading}
    (h : readLines room ls .fresh = .next rd) : recordedOf room ls = rd.headers.bytes := by
  rw [recordedOf, h]

/-- A piece brings the blank line. -/
structure BringsBlank (c : Connection σ) (bs rest : List UInt8) : Prop where
  part : c.part ≠ .BODY
  recv : ∃ input', recv (LINE_BUF_SIZE - c.line_pos - 1) c.input = (.data bs, input')
  blank : (splitHead (read c.line_buf c.line_pos ++ bs)).2 = some rest

variable (Target : List UInt8 → Prop)

/-- **The request that starts at `c₀` is treated as the grammar says.** -/
structure Obeys (c₀ : Connection σ) : Prop where
  /-- The handler is called for a request of the grammar only, with the target as the path.
  The heap is intact then, so that the path is the one that was stored. -/
  calls : ∀ ls c c' site req recorded, Takes malloc process c₀ ls c → c.s = true →
    http_input_iteration malloc process c = some (.ret c') →
    c'.log = c.log ++ [.process site req recorded] →
    c'.overrun = false ∧
      ∃ path, req.path = some path ∧ InGrammar Target (ls ++ linesTaken c) path.bytes
  /-- At the blank line it is one, or it is answered with an error and the connection is
  closed. -/
  heads : ∀ ls c bs rest, Takes malloc process c₀ ls c → c.s = true → BringsBlank c bs rest →
    (∃ c' response, http_input_iteration malloc process c = some (.ret c') ∧
      Refused c c' response ∧ status response ∈ [ascii "400", ascii "413", ascii "501"]) ∨
    ∃ rd path, scan (c.room malloc) c.toReading (read c.line_buf c.line_pos ++ bs)
        = .blank rd rest ∧ rd.request.path = some path ∧
      InGrammar Target (ls ++ linesTaken c) path.bytes
  /-- All that is sent by the parser is an error, behind which the connection is closed. -/
  answers : ∀ ls c c' response, Takes malloc process c₀ ls c → c.s = true →
    http_input_iteration malloc process c = some (.ret c') →
    c'.log = c.log ++ [.respond response] →
    c'.s = false ∧ status response ∈ [ascii "400", ascii "413", ascii "501"]
  /-- No null pointer is followed. -/
  returns : ∀ ls c, Takes malloc process c₀ ls c → c.s = true →
    http_input_iteration malloc process c ≠ none

/-- **No request with a gap is let in.** There is memory for the first header buffer and for
the path, and what is recorded of the head fits the buffer. -/
structure Guarded (c₀ : Connection σ) : Prop where
  /-- Behind a request line there is memory for the first header buffer. -/
  buffer : ∀ ls c l hs, Takes malloc process c₀ ls c → c.s = true → c.part ≠ .BODY →
    ls ++ linesTaken c = l :: hs → Versioned l → c.room malloc (sizeof_buffer + 1024) = true
  /-- At the blank line the request has no gap or does not pass the checks. -/
  heads : ∀ ls c bs rest l hs, Takes malloc process c₀ ls c → c.s = true →
    BringsBlank c bs rest → ls ++ linesTaken c = l :: hs →
    LetIn (malloc.alloc c.log.length) l hs →
    c.room malloc ((pathOf l).length + 1) = true ∧ ¬ Gap Target l hs
  /-- In front of the blank line the stream does not end behind a request line with a gap. -/
  hangups : ∀ ls c input' l hs, Takes malloc process c₀ ls c → c.s = true → c.part ≠ .BODY →
    recv (LINE_BUF_SIZE - c.line_pos - 1) c.input = (.closed, input') → ls = l :: hs →
    c.room malloc ((pathOf l).length + 1) = true → ¬ Gap Target l hs
  /-- When the handler is called, the head and those of the earlier requests fit. -/
  heap : ∀ ls c c' site req recorded, Takes malloc process c₀ ls c → c.s = true →
    http_input_iteration malloc process c = some (.ret c') →
    c'.log = c.log ++ [.process site req recorded] →
    HeadsFit malloc c.log ∧
      HeadFits malloc c.log.length (recordedOf (c.room malloc) (ls ++ linesTaken c))

variable {malloc process Target} {c₀ c c' : Connection σ} {ls : List CString}
  {bs rest : List UInt8} {input' : Input} {rd : Reading}

theorem linesTaken_body (h : c.part = .BODY) : linesTaken c = [] := if_pos h

theorem linesTaken_data (hpart : c.part ≠ .BODY)
    (hrecv : recv (LINE_BUF_SIZE - c.line_pos - 1) c.input = (.data bs, input')) :
    linesTaken c = completeLines (read c.line_buf c.line_pos ++ bs) := by
  rw [linesTaken, if_neg hpart, hrecv]

theorem linesTaken_closed
    (hrecv : recv (LINE_BUF_SIZE - c.line_pos - 1) c.input = (.closed, input')) :
    linesTaken c = [] := by
  rw [linesTaken, hrecv]
  split <;> rfl

theorem Takes.reachable (h : Takes malloc process c₀ ls c) : Reachable malloc process c₀ c := by
  induction h with
  | start => exact .start
  | step _ hs hrun _ ih => exact .step ih hs hrun

/-! ### What is known of a request -/

/-- The path of the request that the handler is called with. -/
theorem passedRequest_path (malloc : Malloc) (c : Connection σ) :
    (passedRequest malloc c).path = c.request.path := by
  obtain ⟨raw, hraw⟩ := passedRequest_frame malloc c
  rw [hraw]

theorem log_ne {log : List Event} {e : Event} : log ++ [e] ≠ log := by
  intro h
  have hlen := congrArg List.length h
  rw [List.length_append, List.length_singleton] at hlen
  omega

theorem call_inj {log : List Event} {site site' : Site} {req req' : HttpRequest}
    {recorded recorded' : List UInt8}
    (h : log ++ [.process site req recorded] = log ++ [.process site' req' recorded']) :
    req = req' ∧ recorded = recorded' := by
  have heq := (List.cons.inj (List.append_cancel_left h)).1
  injection heq with _ hreq hrecorded
  exact ⟨hreq, hrecorded⟩

/-- What goes on is the same request, or the handler is called with it. -/
structure Keeps (c c' : Connection σ) (path : Option CString) (headers : Chain) : Prop where
  going : c'.log = c.log → c'.s = true →
    c'.part = .BODY ∧ c'.request.path = path ∧ c'.headers = headers
  call : ∀ site req recorded, c'.log = c.log ++ [.process site req recorded] →
    req.path = path ∧ recorded = headers.bytes

theorem finishBody_keeps (malloc : Malloc) (process : Handler σ) (hpart : c.part = .BODY) :
    Keeps c (finishBody malloc process c) c.request.path c.headers := by
  unfold finishBody
  split
  · -- the handler is called
    have hlog : ∀ double, (finish double (process_request malloc process .complete c)).log
        = c.log ++ [.process .complete (passedRequest malloc c) c.headers.bytes] := by
      intro double
      rw [finish_log, process_request_log]
    refine ⟨fun h _ => absurd ((hlog _).symm.trans h) log_ne, fun site req recorded h => ?_⟩
    obtain ⟨hreq, hrecorded⟩ := call_inj ((hlog _).symm.trans h)
    exact ⟨hreq ▸ passedRequest_path malloc c, hrecorded.symm⟩
  · exact ⟨fun _ _ => ⟨hpart, rfl, rfl⟩, fun _ _ _ h => absurd h.symm log_ne⟩

/-- **A body step** goes on with the request, or the handler is called with it. -/
theorem BodyStep.keeps (h : BodyStep malloc process c (.ret c')) (hpart : c.part = .BODY) :
    Keeps c c' c.request.path c.headers := by
  cases h with
  | failed hrecv =>
    exact ⟨fun _ hs => (by cases hs), fun _ _ _ h => absurd (show c.log ++ [_] = c.log from h.symm)
      log_ne⟩
  | @hangup input' hrecv =>
    refine ⟨fun _ hs => (by cases hs), fun site req recorded h => ?_⟩
    obtain ⟨hreq, hrecorded⟩ := call_inj (show c.log ++ [_] = c.log ++ [_] from h)
    exact ⟨hreq ▸ passedRequest_path malloc { c with input := input' }, hrecorded.symm⟩
  | @piece input' bs mem hrecv hmem =>
    have hkeeps := finishBody_keeps malloc process (c := { c with
      input := input'
      request := { c.request with body := some (write mem c.body_pos bs) }
      line_pos := 0
      body_pos := c.body_pos + bs.length
      current := c.current ++ bs }) hpart
    exact ⟨hkeeps.going, hkeeps.call⟩
  | full hfull => exact finishBody_keeps malloc process hpart

/-- **What is known of a request** of which these lines have been taken. `P` is what the blank
line says of one with a body. -/
inductive Known (malloc : Malloc) (P : List CString → Reading → Prop) (c : Connection σ)
    (ls : List CString) : Prop
  | head (hpart : c.part ≠ .BODY)
      (hread : readLines (c.room malloc) ls .fresh = .next c.toReading)
  | body (hpart : c.part = .BODY) (rd : Reading) (hP : P ls rd)
      (hpath : c.request.path = rd.request.path) (hheaders : c.headers = rd.headers)

/-- The lines up to the blank line. -/
theorem readLines_atBlank (hread : readLines (c.room malloc) ls .fresh = .next c.toReading)
    (hpart : c.part ≠ .BODY)
    (hrecv : recv (LINE_BUF_SIZE - c.line_pos - 1) c.input = (.data bs, input'))
    (hscan : scan (c.room malloc) c.toReading (read c.line_buf c.line_pos ++ bs)
      = .blank rd rest) :
    readLines (c.room malloc) (ls ++ linesTaken c) .fresh = .next rd := by
  rw [readLines_append hread, linesTaken_data hpart hrecv]
  exact (readLines_of_blank hscan).2

theorem ne_refuse_of_process {alloc : ℕ → Option Memory} {req : HttpRequest}
    (h : verdict alloc req = .process) (text : List UInt8) : verdict alloc req ≠ .refuse text := by
  intro hrefuse
  rw [h] at hrefuse
  cases hrefuse

theorem ne_refuse_of_receive {alloc : ℕ → Option Memory} {req : HttpRequest} {mem : Memory}
    (h : verdict alloc req = .receive mem) (text : List UInt8) :
    verdict alloc req ≠ .refuse text := by
  intro hrefuse
  rw [h] at hrefuse
  cases hrefuse

/-- **The lines are read as they are taken.** -/
theorem Takes.known {P : List CString → Reading → Prop} (h : Takes malloc process c₀ ls c)
    (hidle : Idle c₀) (hin : ∀ c, Reachable malloc process c₀ c → c.s = true → InRange c)
    (hP : ∀ ls c bs input' rd rest, Takes malloc process c₀ ls c → c.s = true →
      c.part ≠ .BODY → recv (LINE_BUF_SIZE - c.line_pos - 1) c.input = (.data bs, input') →
      scan (c.room malloc) c.toReading (read c.line_buf c.line_pos ++ bs) = .blank rd rest →
      (∀ text, verdict (malloc.alloc c.log.length) rd.request ≠ .refuse text) →
      readLines (c.room malloc) (ls ++ linesTaken c) .fresh = .next rd →
      P (ls ++ linesTaken c) rd) (hs : c.s = true) :
    Known malloc P c ls := by
  induction h with
  -- nothing has been taken
  | start =>
    refine .head ?_ ?_
    · rw [congrArg Reading.part hidle.reading]
      decide
    · rw [hidle.reading]
      rfl
  -- a call that logs nothing leaves the memory as it is
  | @step ls c c' h hs₁ hrun hlog ih =>
    have hin₁ := hin c h.reachable hs₁
    have hroom : c'.room malloc = c.room malloc := by
      unfold Connection.room
      rw [hlog]
    have hstep := iteration_step (fun _ => hin₁.pos)
      (fun hpart => ⟨(hin₁.body hpart).1, (hin₁.body hpart).2.2.2⟩) hrun
    cases ih hs₁ with
    -- in the body no line is taken
    | body hpart rd hrd hpath hheaders =>
      obtain ⟨-, hstep⟩ | ⟨hpart', -⟩ := hstep
      · obtain ⟨hpart', hpath', hheaders'⟩ := (hstep.keeps hpart).going hlog hs
        rw [linesTaken_body hpart, List.append_nil]
        exact .body hpart' rd hrd (hpath'.trans hpath) (hheaders'.trans hheaders)
      · exact absurd hpart hpart'
    -- of what can happen in the lines only two do not end it
    | head hpart hread =>
      obtain ⟨hpart', -⟩ | ⟨-, hstep⟩ := hstep
      · exact absurd hpart' hpart
      · cases hstep with
        | failed hrecv => cases hs
        | early hrecv hpath => cases hs
        | hangup hrecv hpath => cases hs
        | refused hrecv href => exact absurd hlog href.ne_log
        | @more input' bs pending rd buf hrecv hscan hbuf =>
          have hheaded := ((hin₁.lines hpart).scan _).1 _ _ hscan
          refine .head hheaded.1.part ?_
          rw [hroom, readLines_append hread, linesTaken_data hpart hrecv]
          exact readLines_of_more hscan
        | processed hrecv hscan hverdict hbuf =>
          obtain ⟨site, req, recorded, hcall⟩ := passed_adds malloc process c _ _ _ _ _
          exact absurd (hcall.symm.trans hlog) log_ne
        | @announced input' bs rest rd mem buf r hrecv hscan hverdict hbody =>
          obtain ⟨hpart', hpath, hheaders⟩ := (hbody.keeps rfl).going hlog hs
          exact .body hpart' rd (hP _ _ _ _ _ _ h hs₁ hpart hrecv hscan
            (ne_refuse_of_receive hverdict) (readLines_atBlank hread hpart hrecv hscan)) hpath
            hheaders

/-- Nothing is logged while the lines are taken. -/
theorem Takes.log (h : Takes malloc process c₀ ls c) : c.log = c₀.log := by
  induction h with
  | start => rfl
  | step _ _ _ hlog ih => exact hlog.trans ih

theorem Takes.room (h : Takes malloc process c₀ ls c) : c.room malloc = c₀.room malloc := by
  unfold Connection.room
  rw [h.log]

/-- **What is recorded** when the handler is called is that of the lines. -/
theorem Takes.recorded (h : Takes malloc process c₀ ls c) (hidle : Idle c₀)
    (hin : ∀ c, Reachable malloc process c₀ c → c.s = true → InRange c) (hs : c.s = true)
    (hrun : http_input_iteration malloc process c = some (.ret c')) {site : Site}
    {req : HttpRequest} {recorded : List UInt8}
    (hlog : c'.log = c.log ++ [.process site req recorded]) :
    recorded = recordedOf (c.room malloc) (ls ++ linesTaken c) := by
  have hin' := hin c h.reachable hs
  have hstep := iteration_step (fun _ => hin'.pos)
    (fun hpart => ⟨(hin'.body hpart).1, (hin'.body hpart).2.2.2⟩) hrun
  have hknown : Known malloc (fun ls rd => readLines (c₀.room malloc) ls .fresh = .next rd) c ls :=
    h.known hidle hin (fun _ _ _ _ _ _ ht _ _ _ _ _ hread => ht.room ▸ hread) hs
  cases hknown with
  | body hpart rd hread hpath hheaders =>
    obtain ⟨-, hstep⟩ | ⟨hpart', -⟩ := hstep
    · rw [linesTaken_body hpart, List.append_nil, h.room, recordedOf_next hread, ← hheaders]
      exact ((hstep.keeps hpart).call _ _ _ hlog).2
    · exact absurd hpart hpart'
  | head hpart hread =>
    obtain ⟨hpart', -⟩ | ⟨-, hstep⟩ := hstep
    · exact absurd hpart' hpart
    · cases hstep with
      | failed hrecv => exact absurd (show c.log ++ [_] = c.log from hlog.symm) log_ne
      | early hrecv hpath => exact absurd (show c.log ++ [_] = c.log from hlog.symm) log_ne
      | hangup hrecv hpath =>
        rw [linesTaken_closed hrecv, List.append_nil, recordedOf_next hread]
        exact (call_inj (show c.log ++ [_] = c.log ++ [_] from hlog)).2.symm
      | refused hrecv href => exact absurd hlog (href.ne_call _ _ _)
      | more hrecv hscan hbuf =>
        exact absurd (show c.log ++ [_] = c.log from hlog.symm) log_ne
      | processed hrecv hscan hverdict hbuf =>
        rw [recordedOf_next (readLines_atBlank hread hpart hrecv hscan)]
        rw [passed, finish_log, process_request_log] at hlog
        exact (call_inj hlog).2.symm
      | announced hrecv hscan hverdict hbody =>
        rw [recordedOf_next (readLines_atBlank hread hpart hrecv hscan)]
        exact ((hbody.keeps rfl).call _ _ _ hlog).2

/-! ### The condition is enough -/

/-- **A request that is let in** is one of the grammar. -/
theorem Guarded.inGrammar (h : Guarded malloc process Target c₀)
    (htakes : Takes malloc process c₀ ls c) (hs : c.s = true) (hpart : c.part ≠ .BODY)
    (hrecv : recv (LINE_BUF_SIZE - c.line_pos - 1) c.input = (.data bs, input'))
    (hscan : scan (c.room malloc) c.toReading (read c.line_buf c.line_pos ++ bs) = .blank rd rest)
    (hverdict : ∀ text, verdict (malloc.alloc c.log.length) rd.request ≠ .refuse text)
    (hread : readLines (c.room malloc) (ls ++ linesTaken c) .fresh = .next rd) :
    ∃ path, rd.request.path = some path ∧ InGrammar Target (ls ++ linesTaken c) path.bytes := by
  have hblank : BringsBlank c bs rest := ⟨hpart, ⟨input', hrecv⟩, (readLines_of_blank hscan).1⟩
  cases hls : ls ++ linesTaken c with
  | nil =>
    rw [hls, readLines] at hread
    obtain rfl := LineResult.next.inj hread
    exact absurd rfl (hverdict hostMissing)
  | cons l hs' =>
    rw [hls] at hread
    have hhead := HeadRead.of_next hread
    obtain ⟨hroom, hgap⟩ :=
      h.heads _ _ _ _ _ _ htakes hs hblank hls (hhead.letIn_iff.mp hverdict)
    refine ⟨pathOf l, ?_, inGrammar_of_not_gap hhead.versioned hgap⟩
    rw [hhead.path, strdup, if_pos hroom]

/-- The handler is called at the end of a stream. -/
theorem Guarded.hangup (h : Guarded malloc process Target c₀)
    (htakes : Takes malloc process c₀ ls c) (hs : c.s = true) (hpart : c.part ≠ .BODY)
    (hrecv : recv (LINE_BUF_SIZE - c.line_pos - 1) c.input = (.closed, input'))
    (hread : readLines (c.room malloc) ls .fresh = .next c.toReading)
    (hpath : c.request.path ≠ none) :
    ∃ path, c.request.path = some path ∧ InGrammar Target ls path.bytes := by
  cases ls with
  | nil =>
    have hfresh : c.toReading = .fresh := (LineResult.next.inj hread).symm
    exact absurd (congrArg (fun rd : Reading => rd.request.path) hfresh) hpath
  | cons l hs' =>
    have hhead := HeadRead.of_next hread
    have hdup : c.request.path = strdup (c.room malloc) (pathOf l) := hhead.path
    have hroom : c.room malloc ((pathOf l).length + 1) = true := by
      by_contra hnone
      rw [hdup, strdup, if_neg hnone] at hpath
      exact hpath rfl
    have hgap := h.hangups _ _ _ _ _ htakes hs hpart hrecv rfl hroom
    refine ⟨pathOf l, ?_, inGrammar_of_not_gap hhead.versioned hgap⟩
    rw [hdup, strdup, if_pos hroom]

section Obeys

variable (hidle : Idle c₀) (hin : ∀ c, Reachable malloc process c₀ c → c.s = true → InRange c)

include hidle hin

/-- What is known if no request with a gap is let in. -/
theorem Guarded.known (h : Guarded malloc process Target c₀)
    (htakes : Takes malloc process c₀ ls c) (hs : c.s = true) :
    Known malloc
      (fun ls rd => ∃ path, rd.request.path = some path ∧ InGrammar Target ls path.bytes) c ls :=
  htakes.known hidle hin (fun _ _ _ _ _ _ ht hs hpart hrecv hscan hverdict hread =>
    h.inGrammar ht hs hpart hrecv hscan hverdict hread) hs

/-- **There is no crash**, as there is memory for the first buffer. -/
theorem Guarded.returns (h : Guarded malloc process Target c₀)
    (htakes : Takes malloc process c₀ ls c) (hs : c.s = true) :
    http_input_iteration malloc process c ≠ none := by
  intro hrun
  obtain ⟨hpart, bs, input', hrecv, hscan⟩ := (hin c htakes.reachable hs).crash_iff.mp hrun
  cases h.known hidle hin htakes hs with
  | body hpart' rd hrd hpath hheaders => exact absurd hpart' hpart
  | head _ hread =>
    rw [scan_crash_iff, ← linesTaken_data hpart hrecv, ← readLines_append hread] at hscan
    cases hls : ls ++ linesTaken c with
    | nil =>
      rw [hls] at hscan
      cases hscan
    | cons l hs' =>
      rw [hls] at hscan
      obtain ⟨-, response, hrefuse⟩ | ⟨hversion, hnone, -⟩ | ⟨rd, hnext, -⟩ :=
        readLines_cons (c.room malloc) l hs'
      · rw [hscan] at hrefuse
        cases hrefuse
      · rw [h.buffer _ _ _ _ htakes hs hpart hls hversion] at hnone
        cases hnone
      · rw [hscan] at hnext
        cases hnext

/-- **Every call of the handler** is one for a request of the grammar. -/
theorem Guarded.calls (h : Guarded malloc process Target c₀) {site : Site} {req : HttpRequest}
    {recorded : List UInt8} (htakes : Takes malloc process c₀ ls c) (hs : c.s = true)
    (hrun : http_input_iteration malloc process c = some (.ret c'))
    (hlog : c'.log = c.log ++ [.process site req recorded]) :
    ∃ path, req.path = some path ∧ InGrammar Target (ls ++ linesTaken c) path.bytes := by
  have hin' := hin c htakes.reachable hs
  have hstep := iteration_step (fun _ => hin'.pos)
    (fun hpart => ⟨(hin'.body hpart).1, (hin'.body hpart).2.2.2⟩) hrun
  cases h.known hidle hin htakes hs with
  -- the request of a call in the body is that of its head
  | body hpart rd hrd hpath hheaders =>
    obtain ⟨-, hstep⟩ | ⟨hpart', -⟩ := hstep
    · obtain ⟨path, hrd, hgrammar⟩ := hrd
      rw [linesTaken_body hpart, List.append_nil]
      exact ⟨path, ((hstep.keeps hpart).call _ _ _ hlog).1.trans (hpath.trans hrd), hgrammar⟩
    · exact absurd hpart hpart'
  | head hpart hread =>
    obtain ⟨hpart', -⟩ | ⟨-, hstep⟩ := hstep
    · exact absurd hpart' hpart
    · cases hstep with
      | failed hrecv => exact absurd (show c.log ++ [_] = c.log from hlog.symm) log_ne
      | early hrecv hpath => exact absurd (show c.log ++ [_] = c.log from hlog.symm) log_ne
      -- a call for a request whose head has not been ended
      | @hangup input' hrecv hpath =>
        obtain ⟨path, hsome, hgrammar⟩ := h.hangup htakes hs hpart hrecv hread hpath
        rw [linesTaken_closed hrecv, List.append_nil]
        refine ⟨path, ?_, hgrammar⟩
        rw [← (call_inj (show c.log ++ [_] = c.log ++ [_] from hlog)).1, passedRequest_path]
        exact hsome
      | refused hrecv href => exact absurd hlog (href.ne_call _ _ _)
      | more hrecv hscan hbuf =>
        exact absurd (show c.log ++ [_] = c.log from hlog.symm) log_ne
      -- a call for a head without a body
      | processed hrecv hscan hverdict hbuf =>
        obtain ⟨path, hsome, hgrammar⟩ := h.inGrammar htakes hs hpart hrecv hscan
          (ne_refuse_of_process hverdict) (readLines_atBlank hread hpart hrecv hscan)
        refine ⟨path, ?_, hgrammar⟩
        rw [passed, finish_log, process_request_log] at hlog
        rw [← (call_inj hlog).1, passedRequest_path]
        exact hsome
      -- a call for a body that has come with its head
      | announced hrecv hscan hverdict hbody =>
        obtain ⟨path, hsome, hgrammar⟩ := h.inGrammar htakes hs hpart hrecv hscan
          (ne_refuse_of_receive hverdict) (readLines_atBlank hread hpart hrecv hscan)
        exact ⟨path, ((hbody.keeps rfl).call _ _ _ hlog).1.trans hsome, hgrammar⟩

/-- **At the blank line** a request is refused or one of the grammar. -/
theorem Guarded.atBlank (h : Guarded malloc process Target c₀)
    (htakes : Takes malloc process c₀ ls c) (hs : c.s = true) (hblank : BringsBlank c bs rest) :
    (∃ c' response, http_input_iteration malloc process c = some (.ret c') ∧
      Refused c c' response ∧ status response ∈ [ascii "400", ascii "413", ascii "501"]) ∨
    ∃ rd path, scan (c.room malloc) c.toReading (read c.line_buf c.line_pos ++ bs)
        = .blank rd rest ∧ rd.request.path = some path ∧
      InGrammar Target (ls ++ linesTaken c) path.bytes := by
  obtain ⟨hpart, ⟨input', hrecv⟩, hsplit⟩ := id hblank
  have hin' := hin c htakes.reachable hs
  cases h.known hidle hin htakes hs with
  | body hpart' rd hrd hpath hheaders => exact absurd hpart' hpart
  | head _ hread =>
    have hlines : readLines (c.room malloc) (ls ++ linesTaken c) .fresh
        = readLines (c.room malloc) (completeLines (read c.line_buf c.line_pos ++ bs))
            c.toReading := by
      rw [readLines_append hread, linesTaken_data hpart hrecv]
    have hscan := @scan_of_head (c.room malloc) _ _ c.toReading hsplit
    rw [← hlines] at hscan
    cases hres : readLines (c.room malloc) (ls ++ linesTaken c) .fresh with
    | refuse response =>
      rw [hres] at hscan
      obtain ⟨c', href, hrun⟩ := iteration_refused malloc process hpart hin'.pos hrecv hscan
      have hrejection : Rejection malloc c bs response := .line hscan
      exact Or.inl ⟨c', response, hrun _, href, hrejection.status⟩
    | crash =>
      rw [hres] at hscan
      exact absurd (hin'.crash_iff.mpr ⟨hpart, bs, input', hrecv, hscan⟩)
        (h.returns hidle hin htakes hs)
    | next rd =>
      rw [hres] at hscan
      cases hverdict : verdict (malloc.alloc c.log.length) rd.request with
      | refuse text =>
        obtain ⟨c', href, hrun⟩ :=
          iteration_rejected malloc process hpart hin'.pos hrecv hscan hverdict
        have hrejection : Rejection malloc c bs (HTTP_SIG rd.request.attr ++ text) :=
          .head hscan hverdict
        exact Or.inl ⟨c', _, hrun _, href, hrejection.status⟩
      | process =>
        obtain ⟨path, hpath, hgrammar⟩ :=
          h.inGrammar htakes hs hpart hrecv hscan (ne_refuse_of_process hverdict) hres
        exact Or.inr ⟨rd, path, hscan, hpath, hgrammar⟩
      | receive mem =>
        obtain ⟨path, hpath, hgrammar⟩ :=
          h.inGrammar htakes hs hpart hrecv hscan (ne_refuse_of_receive hverdict) hres
        exact Or.inr ⟨rd, path, hscan, hpath, hgrammar⟩

omit hidle in
/-- What the parser sends is an error. -/
theorem Takes.answers {response : List UInt8} (htakes : Takes malloc process c₀ ls c)
    (hs : c.s = true) (hrun : http_input_iteration malloc process c = some (.ret c'))
    (hlog : c'.log = c.log ++ [.respond response]) :
    c'.s = false ∧ status response ∈ [ascii "400", ascii "413", ascii "501"] := by
  have hin' := hin c htakes.reachable hs
  cases hin'.logs hrun with
  | nothing log => exact absurd (hlog.symm.trans log) log_ne
  | call site req recorded log =>
    have heq := List.append_cancel_left (hlog.symm.trans log)
    cases (List.cons.inj heq).1
  | refused response' href =>
    have heq := List.append_cancel_left (hlog.symm.trans href.log)
    obtain rfl := Event.respond.inj (List.cons.inj heq).1
    obtain ⟨-, bs, input', -, hrejection⟩ := hin'.rejection hrun href
    exact ⟨href.closed, hrejection.status⟩

/-! ### The condition is necessary -/

end Obeys

end Run

end Http
end Osrv
