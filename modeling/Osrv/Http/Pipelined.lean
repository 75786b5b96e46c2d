import Osrv.Fronts.Framing
import Osrv.Http.Complete
import Osrv.Http.LongLine

/-!
# Pipelined requests

A call of `http_input_iteration` ends behind the request that it passes to the handler, and
the next one receives before it looks at what is left in the line buffer. So a request that
is there already waits for bytes to come. That happens exactly if a piece brought it behind
the blank line of another one (`never_waits_iff`).

For a stream of requests that keep the connection open and are not cut in a line end this is
a matter of the pieces: none of them may have the ends of two requests in it
(`pipelined_waits_iff`).
-/

namespace Osrv
namespace Http

open Bytes Net

/-! ### What is left in the line buffer -/

/-- A request from its request line to its blank line. -/
def IsWhole (bs : List UInt8) : Prop := lineOf bs ≠ [] ∧ (splitHead bs).2 ≠ none

theorem not_isWhole_nil : ¬ IsWhole [] := fun h => h.1 rfl

/-- What is left of a line that has no end is no request. -/
theorem not_isWhole_pending {room : ℕ → Bool} {rd rd' : Reading} {xs pending : List UInt8}
    (h : scan room rd xs = .more rd' pending) : ¬ IsWhole pending := by
  induction xs using line_induction generalizing rd with
  | blank xs rest hblank =>
    rw [scan_blank hblank] at h
    cases h
  | more xs hblank htail =>
    rw [scan_more hblank htail] at h
    cases h
    split
    · exact not_isWhole_nil
    · intro hwhole
      rw [IsWhole, splitHead_more hblank htail] at hwhole
      exact hwhole.2 rfl
  | line xs rest hblank htail ih =>
    obtain ⟨rd₁, -, hscan⟩ := scan_line_more hblank htail h
    exact ih hscan

section Waits

variable {σ : Type} (malloc : Malloc) (process : Handler σ)

/-- **No request is left waiting**: whenever the lines of a request are received next, there
is none in the line buffer. -/
def NeverWaits (c₀ : Connection σ) : Prop :=
  ∀ c, Reachable malloc process c₀ c → c.s = true → c.part ≠ .BODY →
    ¬ IsWhole (read c.line_buf c.line_pos)

/-- **No piece brings another request** behind the blank line of the one that is then passed
to the handler, if the connection is kept open. -/
def BringsNoMore (c₀ : Connection σ) : Prop :=
  ∀ c c' bs input' rd rest, Reachable malloc process c₀ c → c.s = true → c.part ≠ .BODY →
    recv (LINE_BUF_SIZE - c.line_pos - 1) c.input = (.data bs, input') →
    scan (c.room malloc) c.toReading (read c.line_buf c.line_pos ++ bs) = .blank rd rest →
    verdict (malloc.alloc c.log.length) rd.request = .process →
    http_input_iteration malloc process c = some (.ret c') → c'.s = true → ¬ IsWhole rest

variable {malloc process} {c₀ c c' : Connection σ}

/-- Behind a body the line buffer is empty. -/
theorem BodyStep.empties (h : BodyStep malloc process c (.ret c')) (hpart : c.part = .BODY)
    (hs : c'.s = true) (hlines : c'.part ≠ .BODY) : c'.line_pos = 0 := by
  have hfinish : ∀ d : Connection σ, d.part = .BODY →
      (finishBody malloc process d).s = true → (finishBody malloc process d).part ≠ .BODY →
      (finishBody malloc process d).line_pos = 0 := by
    intro d hd hopen hne
    unfold finishBody at hopen hne ⊢
    split at hopen
    · next hfull =>
      obtain ⟨-, hdouble⟩ := finish_idle hopen
      rw [if_pos hfull, finish_line_pos]
      rw [decide_eq_false_iff_not, not_not] at hdouble
      exact hdouble
    · next hmore =>
      rw [if_neg hmore] at hne
      exact absurd hd hne
  cases h with
  | failed hrecv => cases hs
  | hangup hrecv => cases hs
  | piece hrecv hmem => exact hfinish _ hpart hs hlines
  | full hfull => exact hfinish c hpart hs hlines

/-- **A step** leaves no request waiting unless its piece brings one. -/
theorem InRange.leaves_none (hin : InRange c)
    (hpiece : ∀ bs input' rd rest, c.part ≠ .BODY →
      recv (LINE_BUF_SIZE - c.line_pos - 1) c.input = (.data bs, input') →
      scan (c.room malloc) c.toReading (read c.line_buf c.line_pos ++ bs) = .blank rd rest →
      verdict (malloc.alloc c.log.length) rd.request = .process → ¬ IsWhole rest)
    (hrun : http_input_iteration malloc process c = some (.ret c')) (hs' : c'.s = true)
    (hpart' : c'.part ≠ .BODY) : ¬ IsWhole (read c'.line_buf c'.line_pos) := by
  have hempty : c'.line_pos = 0 → ¬ IsWhole (read c'.line_buf c'.line_pos) := by
    intro hpos
    rw [hpos]
    exact not_isWhole_nil
  have hstep := iteration_step (fun _ => hin.pos)
    (fun hpart => ⟨(hin.body hpart).1, (hin.body hpart).2.2.2⟩) hrun
  obtain ⟨hpart, hstep⟩ | ⟨hpart, hstep⟩ := hstep
  · exact hempty (hstep.empties hpart hs' hpart')
  · cases hstep with
    | failed hrecv => cases hs'
    | early hrecv hpath => cases hs'
    | hangup hrecv hpath => cases hs'
    | refused hrecv href =>
      rw [href.closed] at hs'
      cases hs'
    | @more input' bs pending rd buf hrecv hscan hbuf =>
      show ¬ IsWhole (read buf pending.length)
      rw [hbuf.read_start]
      exact not_isWhole_pending hscan
    | processed hrecv hscan hverdict hbuf =>
      rw [passed_buffer hbuf]
      exact hpiece _ _ _ _ hpart hrecv hscan hverdict
    | announced hrecv hscan hverdict hbody => exact hempty (hbody.empties rfl hs' hpart')

end Waits

/-- **Requests that wait.** Whatever a client sends and in whatever pieces, no request is left
waiting in the line buffer exactly if no piece brings one behind another. -/
theorem never_waits_iff {σ : Type} (malloc : Malloc) (process : Handler σ) (buf : Memory)
    (input : Input) (world : σ) :
    NeverWaits malloc process (.init buf input world) ↔
      BringsNoMore malloc process (.init buf input world) := by
  constructor
  · intro h c c' bs input' rd rest hreach hs hpart hrecv hscan hverdict hrun hs'
    have hin := hreach.inRange.1 hs
    obtain ⟨buf', hbuf, hrun'⟩ :=
      iteration_processed malloc process hpart hin.pos hrecv hscan hverdict
    rw [http_input_iteration, hrun'] at hrun
    obtain rfl := Iteration.ret.inj (Option.some.inj hrun)
    have hnot := h _ (.step hreach hs (hrun' _)) hs' ?_
    · rwa [passed_buffer hbuf] at hnot
    · rw [congrArg Reading.part (passed_idle hs').reading]
      decide
  · intro h c hreach hs hpart
    cases hreach with
    | start => exact not_isWhole_nil
    | step hreach hs₁ hrun =>
      refine (hreach.inRange.1 hs₁).leaves_none ?_ hrun hs hpart
      intro bs input' rd rest hpart₁ hrecv hscan hverdict
      exact h _ _ _ _ _ _ hreach hs₁ hpart₁ hrecv hscan hverdict hrun hs

/-! ### Streams of requests -/

/-- **A request without a body** that leaves the connection open. -/
structure PipelinedRequest (malloc : Malloc) (m : List UInt8) : Prop where
  /-- There is a request line. -/
  first : lineOf m ≠ []
  /-- There is no NUL. -/
  text : (0 : UInt8) ∉ m
  /-- It ends with its blank line, and is accepted. -/
  head : ∀ k, ∃ rd, scan (roomAt malloc k) .fresh m = .blank rd [] ∧
    verdict (malloc.alloc k) rd.request = .process ∧
    rd.request.attr.HTTP_1_0 = false ∧ rd.request.attr.CONNECTION_CLOSE = false

/-- The handler leaves open what the client does not want closed. -/
def KeepsOpen {σ : Type} (process : Handler σ) : Prop :=
  ∀ req w, req.attr.HTTP_1_0 = false → req.attr.CONNECTION_CLOSE = false →
    (process req w).1 = false ∧ (fin_request (process req w).2.1).attr.CONNECTION_CLOSE = false

/-- The server's handler does. -/
theorem http_process_keepsOpen (send : SendFn) (malloc : Malloc)
    (garbage : ℕ → Option Garbage) : KeepsOpen (http_process send malloc garbage) := by
  intro req w hversion hclose
  obtain ⟨habort, hattr⟩ := Fronts.http_process_frame send malloc garbage req w
  refine ⟨habort, ?_⟩
  unfold fin_request
  rw [hattr, hversion, if_neg Bool.false_ne_true, hattr]
  exact hclose

/-- **A piece with the ends of two requests** of a stream: `bs` starts in one of them, and the
one behind it ends in `bs` too. -/
def Spans (ms : List (List UInt8)) (bs after : List UInt8) : Prop :=
  ∃ ms₁ m m' ms₂ part, ms = ms₁ ++ m :: m' :: ms₂ ∧ part.length < m.length ∧
    (m ++ m').length ≤ (part ++ bs).length ∧
    ms.flatten = ms₁.flatten ++ (part ++ (bs ++ after))

/-- How far a stream of requests has been received. -/
inductive Received (malloc : Malloc) (k : ℕ) (xs : List UInt8) : List (List UInt8) → Prop
  | done (hnil : xs = []) : Received malloc k xs []
  | part {m : List UInt8} {ms : List (List UInt8)} (hshort : xs.length < m.length)
      (hblank : (splitHead xs).2 = none) : Received malloc k xs (m :: ms)
  | whole {m : List UInt8} {ms : List (List UInt8)} (zs : List UInt8) (rd : Reading)
      (hxs : xs = m ++ zs) (hscan : scan (roomAt malloc k) .fresh xs = .blank rd zs)
      (hverdict : verdict (malloc.alloc k) rd.request = .process)
      (hversion : rd.request.attr.HTTP_1_0 = false)
      (hkeep : rd.request.attr.CONNECTION_CLOSE = false) (hwhole : IsWhole xs) :
      Received malloc k xs (m :: ms)

section Stream

variable {malloc : Malloc} {k : ℕ} {xs ys m : List UInt8} {ms : List (List UInt8)}

theorem PipelinedRequest.splitHead (h : PipelinedRequest malloc m) :
    (Http.splitHead m).2 = some [] := by
  obtain ⟨rd, hscan, -⟩ := h.head 0
  exact (scan_splitHead _ _ _).2 _ _ hscan

/-- A request with more behind it. -/
theorem PipelinedRequest.received (h : PipelinedRequest malloc m) (zs : List UInt8)
    (ms : List (List UInt8)) : Received malloc k (m ++ zs) (m :: ms) := by
  obtain ⟨rd, hscan, hverdict, hversion, hkeep⟩ := h.head k
  have hne : m ≠ [13] := by
    rintro rfl
    exact h.first rfl
  have hclean : CleanCut m zs := by
    intro hnone
    rw [h.splitHead] at hnone
    cases hnone
  have hmore := @scan_fresh_append (roomAt malloc k) _ _ hne hclean
  rw [hscan] at hmore
  refine .whole zs rd rfl hmore hverdict hversion hkeep ⟨?_, ?_⟩
  · -- the first byte is one of a line
    obtain ⟨b, bs, hb⟩ := List.exists_cons_of_ne_nil h.first
    obtain ⟨tail, htail⟩ := List.takeWhile_prefix (l := m) isText
    rw [← htail, show List.takeWhile isText m = b :: bs from hb, List.cons_append,
      List.cons_append]
    have htext : isText b = true := isText_of_mem_lineOf (hb ▸ List.mem_cons_self)
    rw [lineOf, List.takeWhile_cons_of_pos htext]
    exact List.cons_ne_nil _ _
  · rw [splitHead_append h.splitHead]
    exact Option.some_ne_none _

/-- **How far a stream has been received** is known from what has been received. -/
theorem received_of_front (hms : ∀ m ∈ ms, PipelinedRequest malloc m)
    (h : xs ++ ys = ms.flatten) : Received malloc k xs ms := by
  cases ms with
  | nil => exact .done (List.append_eq_nil_iff.mp h).1
  | cons m ms =>
    have hm := hms m List.mem_cons_self
    rw [List.flatten_cons] at h
    obtain ⟨a, ha, -⟩ | ⟨a, rfl, -⟩ := List.append_eq_append_iff.mp h
    · cases a with
      | nil =>
        rw [List.append_nil] at ha
        subst ha
        have hall := hm.received (k := k) [] ms
        rwa [List.append_nil] at hall
      | cons b a =>
        refine .part ?_ ?_
        · rw [ha, List.length_append, List.length_cons]
          omega
        · -- behind the blank line of a request there is nothing of it
          by_contra hsome
          obtain ⟨rest, hrest⟩ := Option.ne_none_iff_exists'.mp hsome
          have hsplit := hm.splitHead
          rw [ha, splitHead_append hrest] at hsplit
          have hnil := Option.some.inj hsplit
          exact List.cons_ne_nil _ _ (List.append_eq_nil_iff.mp hnil).2
    · exact hm.received a ms

/-- **The blank line of a request** of the stream. -/
theorem Received.of_blank {rd : Reading} {rest : List UInt8} (h : Received malloc k xs ms)
    (hscan : scan (roomAt malloc k) .fresh xs = .blank rd rest) :
    verdict (malloc.alloc k) rd.request = .process ∧ rd.request.attr.HTTP_1_0 = false ∧
      rd.request.attr.CONNECTION_CLOSE = false ∧ ∃ m ms', ms = m :: ms' ∧ xs = m ++ rest := by
  cases h with
  | done hnil =>
    rw [hnil, scan_nil] at hscan
    cases hscan
  | part hshort hblank =>
    rw [(scan_splitHead _ _ _).2 _ _ hscan] at hblank
    cases hblank
  | whole zs rd' hxs hscan' hverdict hversion hkeep hwhole =>
    rw [hscan] at hscan'
    obtain ⟨rfl, rfl⟩ := Scan.blank.inj hscan'
    exact ⟨hverdict, hversion, hkeep, _, _, rfl, hxs⟩

/-- What is whole has been received. -/
theorem Received.of_isWhole (h : Received malloc k xs ms) (hxs : IsWhole xs) :
    ∃ m ms' zs, ms = m :: ms' ∧ xs = m ++ zs := by
  cases h with
  | done hnil =>
    rw [hnil] at hxs
    exact absurd hxs not_isWhole_nil
  | part hshort hblank => exact absurd hblank hxs.2
  | whole zs rd hxs => exact ⟨_, _, zs, rfl, hxs⟩

/-- As many bytes as a request has are a whole one. -/
theorem Received.isWhole (h : Received malloc k xs (m :: ms)) (hlen : m.length ≤ xs.length) :
    IsWhole xs := by
  cases h with
  | part hshort hblank => omega
  | whole zs rd hxs hscan hverdict hversion hkeep hwhole => exact hwhole

/-- A stream is divided into whole requests and a part of the next one in one way only. -/
theorem divided_once {as bs as' bs' : List (List UInt8)} {n n' u u' : List UInt8}
    (hms : as ++ n :: bs = as' ++ n' :: bs') (h : as.flatten ++ u = as'.flatten ++ u')
    (hu : u.length < n.length) (hu' : u'.length < n'.length) :
    as = as' ∧ n = n' ∧ bs = bs' ∧ u = u' := by
  induction as generalizing as' with
  | nil =>
    cases as' with
    | nil =>
      obtain ⟨rfl, rfl⟩ := List.cons.inj hms
      exact ⟨rfl, rfl, rfl, h⟩
    | cons a' as' =>
      obtain ⟨rfl, -⟩ := List.cons.inj hms
      have hlen := congrArg List.length h
      rw [List.flatten_nil, List.nil_append, List.flatten_cons, List.append_assoc,
        List.length_append] at hlen
      omega
  | cons a as ih =>
    cases as' with
    | nil =>
      obtain ⟨rfl, -⟩ := List.cons.inj hms
      have hlen := congrArg List.length h
      rw [List.flatten_nil, List.nil_append, List.flatten_cons, List.append_assoc,
        List.length_append] at hlen
      omega
    | cons a' as' =>
      obtain ⟨rfl, htail⟩ := List.cons.inj hms
      rw [List.flatten_cons, List.flatten_cons, List.append_assoc, List.append_assoc] at h
      obtain ⟨rfl, rfl, rfl, rfl⟩ := ih htail (List.append_cancel_left h)
      exact ⟨rfl, rfl, rfl, rfl⟩

end Stream

/-! ### Runs on a stream -/

section Runs

variable {σ : Type} (malloc : Malloc) (process : Handler σ)

/-- **No piece has the ends of two requests** in it. -/
def NoPieceSpans (ms : List (List UInt8)) (c₀ : Connection σ) : Prop :=
  ∀ c bs input', Reachable malloc process c₀ c → c.s = true →
    recv (LINE_BUF_SIZE - c.line_pos - 1) c.input = (.data bs, input') →
    ¬ Spans ms bs input'.bytes

variable {malloc process} {c c' : Connection σ} {m : List UInt8} {ms : List (List UInt8)}
  {bs rest : List UInt8} {input' : Input} {rd : Reading}

/-- **Between two calls** it is known how far the requests that are not done with have been
received. -/
structure Aligned (malloc : Malloc) (c : Connection σ) (ms : List (List UInt8)) : Prop where
  follows : Follows malloc c
  rest : c.current ++ c.input.bytes = ms.flatten
  requests : ∀ m ∈ ms, PipelinedRequest malloc m

/-- What a piece comes to in a stream of requests. -/
theorem Aligned.received (h : Aligned malloc c ms) (k : ℕ)
    (hsplit : bs ++ input'.bytes = c.input.bytes) : Received malloc k (c.current ++ bs) ms := by
  refine @received_of_front _ _ _ input'.bytes _ h.requests ?_
  rw [List.append_assoc, hsplit]
  exact h.rest

/-- No body is received. -/
theorem Aligned.part (h : Aligned malloc c ms) : c.part ≠ .BODY := by
  intro hpart
  cases h.follows.stage with
  | inl hidle =>
    rw [congrArg Reading.part hidle.reading] at hpart
    cases hpart
  | inr hstage =>
    cases hstage with
    | lines hscan => exact ((Headed.init.scan _).1 _ _ hscan).1.part hpart
    | @body rd mem got hbody hlt =>
      have hscan : scan (roomAt malloc c.log.length) .fresh c.current = .blank rd got := hbody.scan
      have hreceived : Received malloc c.log.length c.current ms :=
        received_of_front h.requests h.rest
      obtain ⟨hverdict, -⟩ := hreceived.of_blank hscan
      rw [hbody.verdict] at hverdict
      cases hverdict

/-- The piece is scanned as what has been received of the request. -/
theorem Aligned.scan_piece (h : Aligned malloc c ms) (hs : c.s = true)
    (huncut : Uncut malloc process c) (hne : bs ≠ [])
    (hsplit : bs ++ input'.bytes = c.input.bytes) :
    scan (c.room malloc) c.toReading (read c.line_buf c.line_pos ++ bs)
      = scan (roomAt malloc c.log.length) .fresh (c.current ++ bs) := by
  refine h.follows.scan_piece h.part ((@cleanCut_append _ _ input'.bytes hne).mp ?_)
  rw [hsplit]
  intro hnone
  refine ⟨fun hzero => ?_, huncut c .start hs hnone⟩
  -- the stream has no NUL
  have hmem : (0 : UInt8) ∈ ms.flatten := h.rest ▸ List.mem_append_left _ hzero
  obtain ⟨m, hm, hzero⟩ := List.mem_flatten.mp hmem
  exact (h.requests m hm).text hzero

/-- The first request is done with. -/
theorem Aligned.passed (h : Aligned malloc c (m :: ms)) (buf : Memory) (hbuf : At buf 0 rest)
    (hlen : rest.length < LINE_BUF_SIZE) (hsplit : bs ++ input'.bytes = c.input.bytes)
    (hm : c.current ++ bs = m ++ rest)
    (hs : (passed malloc process (c.received bs input') rd rest buf).s = true) :
    Aligned malloc (passed malloc process (c.received bs input') rd rest buf) ms := by
  have hcalled : Called malloc process c
      (Http.passed malloc process (c.received bs input') rd rest buf) rd rest :=
    passed_called hbuf hlen
  obtain ⟨hidle, hcurrent⟩ := hcalled.ready hs
  refine ⟨⟨hcalled.pos hs, Or.inl hidle⟩, ?_, fun m' hm' => h.requests m' (.tail _ hm')⟩
  have hrest := h.rest
  rw [← hsplit, ← List.append_assoc, hm, List.flatten_cons, List.append_assoc] at hrest
  rw [hcurrent, Http.passed, finish_input, process_request_input]
  exact List.append_cancel_left hrest

/-- **A step on a stream**: the connection goes on with the same request, or the piece has
its end and the connection is ready for the next one. -/
theorem Aligned.step (h : Aligned malloc c ms) (hs : c.s = true) (huncut : Uncut malloc process c)
    (hrun : http_input_iteration malloc process c = some (.ret c')) (hs' : c'.s = true) :
    ∃ done ms', ms = done ++ ms' ∧ Aligned malloc c' ms' := by
  have hstep := iteration_step (fun _ => h.follows.pos) (fun hpart => absurd hpart h.part) hrun
  obtain ⟨hpart, -⟩ | ⟨hpart, hstep⟩ := hstep
  · exact absurd hpart h.part
  · cases hstep with
    | failed hrecv => cases hs'
    | early hrecv hpath => cases hs'
    | hangup hrecv hpath => cases hs'
    | refused hrecv href =>
      rw [href.closed] at hs'
      cases hs'
    -- the request goes on
    | @more input' bs pending rd buf hrecv hscan hbuf =>
      obtain ⟨hne, hcap, hsplit, -⟩ := recv_spec hrecv
      have hpos := h.follows.pos
      have hle := ((h.follows.headed hpart).scan _).1 _ _ hscan
      rw [List.length_append, length_read] at hle
      rw [h.scan_piece hs huncut hne hsplit] at hscan
      refine ⟨[], ms, rfl, ⟨?_, Or.inr (more_underway hscan hbuf)⟩, ?_, h.requests⟩
      · show pending.length < LINE_BUF_SIZE
        omega
      · show (c.current ++ bs) ++ input'.bytes = ms.flatten
        rw [List.append_assoc, hsplit]
        exact h.rest
    -- the piece has the end of the request
    | @processed input' bs rest rd buf hrecv hscan hverdict hbuf =>
      obtain ⟨hne, hcap, hsplit, -⟩ := recv_spec hrecv
      have hpos := h.follows.pos
      have hle := ((h.follows.headed hpart).scan _).2 _ _ hscan
      rw [List.length_append, length_read] at hle
      rw [h.scan_piece hs huncut hne hsplit] at hscan
      obtain ⟨-, -, -, m, ms', rfl, hm⟩ := (h.received c.log.length hsplit).of_blank hscan
      exact ⟨[m], ms', rfl, h.passed buf hbuf (by omega) hsplit hm hs'⟩
    -- none of the requests has a body
    | @announced input' bs rest rd mem buf r hrecv hscan hverdict hbody =>
      obtain ⟨hne, -, hsplit, -⟩ := recv_spec hrecv
      rw [h.scan_piece hs huncut hne hsplit] at hscan
      obtain ⟨hprocess, -⟩ := (h.received c.log.length hsplit).of_blank hscan
      rw [hverdict] at hprocess
      cases hprocess

/-- **In every run on a stream** it is known how far the stream has been received. -/
theorem Aligned.reachable {c₀ : Connection σ} (h : Aligned malloc c₀ ms)
    (huncut : Uncut malloc process c₀) (hreach : Reachable malloc process c₀ c)
    (hs : c.s = true) :
    Uncut malloc process c ∧ ∃ done ms', ms = done ++ ms' ∧ Aligned malloc c ms' ∧
      c₀.current ++ c₀.input.bytes = done.flatten ++ (c.current ++ c.input.bytes) := by
  induction hreach with
  | start => exact ⟨huncut, [], ms, rfl, h, rfl⟩
  | step hreach hs₁ hrun ih =>
    obtain ⟨huncut₁, done, ms₁, rfl, h₁, -⟩ := ih hs₁
    obtain ⟨done', ms', rfl, h'⟩ := h₁.step hs₁ huncut₁ hrun hs
    refine ⟨huncut₁.step hs₁ hrun, done ++ done', ms', (List.append_assoc _ _ _).symm, h', ?_⟩
    rw [h.rest, h'.rest, ← List.flatten_append, List.append_assoc]

variable (malloc) in
/-- The handler leaves a connection open behind a request that does not want it closed. -/
theorem process_request_open {c : Connection σ} (hkeep : KeepsOpen process) (hs : c.s = true)
    (hversion : c.request.attr.HTTP_1_0 = false)
    (hclose : c.request.attr.CONNECTION_CLOSE = false) :
    (process_request malloc process .complete c).s = true ∧
      (process_request malloc process .complete c).request.attr.CONNECTION_CLOSE = false := by
  have hattr : (passedRequest malloc c).attr = c.request.attr := by
    obtain ⟨raw, hraw⟩ := passedRequest_frame malloc c
    rw [hraw]
  obtain ⟨hkept, hno⟩ := hkeep (passedRequest malloc c) c.world
    ((congrArg Attr.HTTP_1_0 hattr).trans hversion)
    ((congrArg Attr.CONNECTION_CLOSE hattr).trans hclose)
  refine ⟨?_, hno⟩
  show (c.s && !(process (passedRequest malloc c) c.world).1) = true
  rw [hkept, hs]
  rfl

/-- A connection is kept open behind a request that does not want it closed. -/
theorem passed_open (hkeep : KeepsOpen process) {buf : Memory} (hs : c.s = true)
    (hversion : rd.request.attr.HTTP_1_0 = false)
    (hclose : rd.request.attr.CONNECTION_CLOSE = false) :
    (passed malloc process c rd rest buf).s = true := by
  unfold passed
  set d : Connection σ := { c with
    request := rd.request, part := .BODY, headers := rd.headers, body_pos := 0, line_buf := buf,
    line_pos := rest.length } with hd
  obtain ⟨hopen, hno⟩ := process_request_open malloc hkeep (show d.s = true from hs) hversion hclose
  rw [finish, hno, Bool.or_self, if_neg Bool.false_ne_true]
  exact hopen

variable {c₀ : Connection σ}

/-- What has been received of a request is not all of it, if there is no whole one in the line
buffer. -/
theorem Aligned.current_short (h : Aligned malloc c (m :: ms))
    (hnot : ¬ IsWhole (read c.line_buf c.line_pos)) : c.current.length < m.length := by
  by_contra hlen
  have hreceived : Received malloc c.log.length c.current (m :: ms) :=
    received_of_front h.requests h.rest
  have hwhole := hreceived.isWhole (not_lt.mp hlen)
  cases h.follows.stage with
  | inl hidle =>
    rw [hidle.current] at hwhole
    exact hnot hwhole
  | inr hstage =>
    cases hstage with
    | lines hscan => exact hwhole.2 ((scan_splitHead _ _ _).1 _ _ hscan)
    | body hbody hlt => exact h.part hbody.part

/-- **A piece that spans two requests** leaves the second one waiting. -/
theorem NeverWaits.noPieceSpans (h : NeverWaits malloc process c₀) (hkeep : KeepsOpen process)
    (h₀ : Aligned malloc c₀ ms) (huncut : Uncut malloc process c₀) :
    NoPieceSpans malloc process ms c₀ := by
  rintro c bs input' hreach hs hrecv ⟨ms₁, m, m', ms₂, part, hms, hshort, hlong, hflat⟩
  obtain ⟨huncut₁, done, ms', hms', hc, hrun⟩ := h₀.reachable huncut hreach hs
  obtain ⟨hne, hcap, hsplit, -⟩ := recv_spec hrecv
  obtain ⟨n, ns, rfl⟩ : ∃ n ns, ms' = n :: ns := by
    refine List.exists_cons_of_ne_nil fun hnil => hne ?_
    have hrest := hc.rest
    rw [hnil, ← hsplit] at hrest
    exact (List.append_eq_nil_iff.mp (List.append_eq_nil_iff.mp hrest).2).1
  -- the piece starts in the request that the connection is in
  have hstart : done.flatten ++ c.current = ms₁.flatten ++ part := by
    apply List.append_cancel_right
    show _ ++ (bs ++ input'.bytes) = _ ++ (bs ++ input'.bytes)
    rw [List.append_assoc, List.append_assoc, hsplit, ← hrun, h₀.rest, ← hsplit]
    exact hflat
  have hcurrent := hc.current_short (h c hreach hs hc.part)
  obtain ⟨rfl, rfl, rfl, rfl⟩ := divided_once (hms'.symm.trans hms) hstart hcurrent hshort
  -- its end is in the piece, and behind it there is all of the next one
  have hboth : n.length + m'.length ≤ (c.current ++ bs).length := by
    rwa [← List.length_append]
  have hreceived := hc.received c.log.length hsplit
  cases hreceived with
  | part hless => omega
  | whole zs rd hzs hscan hverdict hversion hclose hwhole =>
    have hlen : (c.current ++ bs).length = n.length + zs.length := by
      rw [hzs, List.length_append]
    rw [← hc.scan_piece hs huncut₁ hne hsplit] at hscan
    obtain ⟨buf, hbuf, hrun'⟩ :=
      iteration_processed malloc process hc.part hc.follows.pos hrecv hscan hverdict
    have hopen : (passed malloc process (c.received bs input') rd zs buf).s = true :=
      passed_open hkeep hs hversion hclose
    have hpos := hc.follows.pos
    have hle := ((hc.follows.headed hc.part).scan _).2 _ _ hscan
    rw [List.length_append, length_read] at hle
    have hnext := hc.passed buf hbuf (by omega) hsplit hzs hopen
    have hcalled : Called malloc process c
        (passed malloc process (c.received bs input') rd zs buf) rd zs :=
      passed_called hbuf (by omega)
    have hnot := hnext.current_short
      (h _ (.step hreach hs (hrun' _)) hopen hnext.part)
    rw [(hcalled.ready hopen).2] at hnot
    omega

/-- **A request that is left waiting** was brought by a piece that spans two. -/
theorem NoPieceSpans.neverWaits (h : NoPieceSpans malloc process ms c₀)
    (h₀ : Aligned malloc c₀ ms) (huncut : Uncut malloc process c₀)
    (hin : ∀ c, Reachable malloc process c₀ c → c.s = true → InRange c)
    (hstart : ¬ IsWhole (read c₀.line_buf c₀.line_pos)) : NeverWaits malloc process c₀ := by
  intro c hreach hs hpart
  induction hreach with
  | start => exact hstart
  | @step c c' hreach hs₁ hrun ih =>
    refine (hin c hreach hs₁).leaves_none ?_ hrun hs hpart
    intro bs input' rd rest hpart₁ hrecv hscan hverdict hwhole
    obtain ⟨huncut₁, done, ms', rfl, hc, hrun⟩ := h₀.reachable huncut hreach hs₁
    obtain ⟨hne, -, hsplit, -⟩ := recv_spec hrecv
    rw [hc.scan_piece hs₁ huncut₁ hne hsplit] at hscan
    obtain ⟨-, -, -, m, ms', rfl, hm⟩ := (hc.received c.log.length hsplit).of_blank hscan
    -- what is behind the blank line is a part of the stream
    have hrest := hc.rest
    rw [← hsplit, ← List.append_assoc, hm, List.flatten_cons, List.append_assoc] at hrest
    have hreceived : Received malloc c.log.length rest ms' :=
      received_of_front (fun m' hm' => hc.requests m' (.tail _ hm'))
        (List.append_cancel_left hrest)
    obtain ⟨m', ms₂, zs, rfl, rfl⟩ := hreceived.of_isWhole hwhole
    refine h c bs input' hreach hs₁ hrecv
      ⟨done, m, m', ms₂, c.current, rfl, hc.current_short (ih hs₁ hc.part), ?_, ?_⟩
    · rw [hm, ← List.append_assoc]
      exact (List.prefix_append _ zs).length_le
    · rw [← h₀.rest, hrun, hsplit]

end Runs

/-- **Pipelined requests.** A client sends requests without a body that keep the connection
open, in whatever pieces. None of them is left waiting in the line buffer exactly if no piece
brings one behind the blank line of another. If no piece ends between the CR and the LF of a
line, that is to say that no piece has the ends of two requests in it. -/
theorem pipelined_waits_iff {σ : Type} {malloc : Malloc} {process : Handler σ} {buf : Memory}
    {input : Input} {world : σ} {ms : List (List UInt8)}
    (hms : ∀ m ∈ ms, PipelinedRequest malloc m) (hstream : input.bytes = ms.flatten)
    (hkeep : KeepsOpen process) :
    (NeverWaits malloc process (.init buf input world) ↔
        BringsNoMore malloc process (.init buf input world)) ∧
      (Uncut malloc process (.init buf input world) →
        (NeverWaits malloc process (.init buf input world) ↔
          NoPieceSpans malloc process ms (.init buf input world))) := by
  refine ⟨never_waits_iff malloc process buf input world, fun huncut => ?_⟩
  have h₀ : Aligned malloc (Connection.init buf input world) ms :=
    ⟨⟨show 0 < LINE_BUF_SIZE by decide, Or.inr (.init _ _ _)⟩, hstream, hms⟩
  constructor
  · intro h
    exact h.noPieceSpans hkeep h₀ huncut
  · intro h
    exact h.neverWaits h₀ huncut (fun c hreach => hreach.inRange.1) not_isWhole_nil

theorem counting_keepsOpen : KeepsOpen counting := by
  intro req w hversion hclose
  refine ⟨rfl, ?_⟩
  show (fin_request req).attr.CONNECTION_CLOSE = false
  rw [fin_request, hversion, if_neg Bool.false_ne_true]
  exact hclose

theorem pipelinedRequest_get : PipelinedRequest .plenty getRequest where
  first := by decide
  text := by decide
  head k := ⟨getReading, scan_getRequest k, rfl, rfl, rfl⟩

theorem two_requests : ∀ m ∈ [getRequest, getRequest], PipelinedRequest .plenty m := by
  intro m hm
  rw [List.mem_cons, List.mem_singleton, or_self] at hm
  exact hm ▸ pipelinedRequest_get

theorem pipelined_waits_iff_two :
    (NeverWaits .plenty counting (sent (inTwo ++ inOne)) ↔
        BringsNoMore .plenty counting (sent (inTwo ++ inOne))) ∧
      (Uncut .plenty counting (sent (inTwo ++ inOne)) →
        (NeverWaits .plenty counting (sent (inTwo ++ inOne)) ↔
          NoPieceSpans .plenty counting [getRequest, getRequest] (sent (inTwo ++ inOne)))) :=
  pipelined_waits_iff two_requests (by decide) counting_keepsOpen

/-- Two requests in one piece. -/
def inOneSend : List Segment := [⟨getRequest ++ getRequest, by decide⟩]

/-- **A request that is left waiting.** The handler is called for the first request, and the
server waits with the second one in its line buffer. -/
theorem pipelined_request_waits :
    (∀ m ∈ [getRequest, getRequest], PipelinedRequest .plenty m) ∧ KeepsOpen counting ∧
    (sent inOneSend).input.bytes = [getRequest, getRequest].flatten ∧
    ¬ NeverWaits .plenty counting (sent inOneSend) ∧
    callsOf (http_connected .plenty counting (sent inOneSend)) = some [true] := by
  -- the piece is read in one call, behind which the second request is in the buffer
  have hcall : returns (sent inOneSend) = true ∧ (iterated (sent inOneSend)).s = true ∧
      (iterated (sent inOneSend)).part ≠ .BODY ∧
      Bytes.read (iterated (sent inOneSend)).line_buf (iterated (sent inOneSend)).line_pos
        = getRequest := by
    decide +kernel
  obtain ⟨hreturns, hopen, hpart, hleft⟩ := hcall
  refine ⟨two_requests, counting_keepsOpen, by decide, fun h => ?_, by decide +kernel⟩
  refine h _ (.step .start rfl (iterated_eq hreturns)) hopen hpart ?_
  rw [hleft]
  exact ⟨by decide, by rw [pipelinedRequest_get.splitHead]; exact Option.some_ne_none _⟩

end Http
end Osrv
