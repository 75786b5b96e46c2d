import Osrv.Http.Delivery
import Osrv.Http.Intact
import Osrv.Http.Process

/-!
# Requests that are complete

Whenever the handler is called before the end of the stream, the blank line of
the request has been received, and all of its body if it has one (`CallsKept`).
So a `PUT` stores what the client has sent. At the end of the stream the handler
is called once more, with what is there of a request, and the connection is
closed: then neither needs to be complete.
-/

namespace Osrv
namespace Http

open Bytes Net Obj

/-! ### What has been received of a request -/

/-- **A complete request.** `xs` are the bytes of it, and `body` those behind the blank
line that are its body. -/
structure Complete (malloc : Malloc) (k : ℕ) (xs body : List UInt8) (req : HttpRequest) :
    Prop where
  /-- The blank line has been received, and the body behind it. -/
  head : ∃ got, (splitHead xs).2 = some got ∧ body <+: got
  /-- The request is what the lines say. -/
  lines : ∃ rd got mem raw, scan (roomAt malloc k) .fresh xs = .blank rd got ∧
    req = { rd.request with body := mem, headers := raw }
  /-- The body has the length that was announced. -/
  length : (body.length : ℤ) = req.content_length
  small : body.length ≤ 2147483640
  /-- The handler gets it. -/
  bytes : bodyBytes req = if body = [] then none else some body

/-- What is behind the blank line is the end of the bytes. -/
theorem splitHead_suffix {xs got : List UInt8} (h : (splitHead xs).2 = some got) :
    got <:+ xs := by
  induction xs using line_induction with
  | blank xs rest hblank =>
    rw [splitHead_blank hblank] at h
    obtain rfl := Option.some.inj h
    unfold afterBlank at hblank
    split at hblank
    · next r =>
      obtain rfl := Option.some.inj hblank
      exact List.suffix_append [10] r
    · next r =>
      obtain rfl := Option.some.inj hblank
      exact List.suffix_append [13, 10] r
    · cases hblank
  | more xs hblank htail =>
    rw [splitHead_more hblank htail] at h
    cases h
  | line xs rest hblank htail ih =>
    rw [splitHead_line hblank htail] at h
    exact (ih h).trans (behind_suffix htail)

section Answer

variable {malloc : Malloc} {k : ℕ} {xs got left : List UInt8} {rd : Reading}

theorem handed_frame (malloc : Malloc) (k : ℕ) (rd : Reading) :
    ∃ raw, handed malloc k rd = { rd.request with headers := raw } := by
  unfold handed
  split
  · exact ⟨rd.request.headers, rfl⟩
  · exact ⟨_, rfl⟩

/-- A request without a body. -/
theorem complete_of_process (hscan : scan (roomAt malloc k) .fresh xs = .blank rd got)
    (hverdict : verdict (malloc.alloc k) rd.request = .process) :
    Complete malloc k xs [] (handed malloc k rd) := by
  obtain ⟨raw, hraw⟩ := handed_frame malloc k rd
  have hheaded := ((Headed.init.scan _).2 _ _ hscan).1
  refine ⟨⟨got, (scan_splitHead _ _ _).2 _ _ hscan, List.nil_prefix⟩,
    ⟨rd, got, rd.request.body, raw, hscan, hraw⟩, ?_, Nat.zero_le _, ?_⟩
  · rw [hraw]
    exact (content_length_of_process hscan hverdict).symm
  · rw [hraw, bodyBytes, hheaded.body]
    rfl

/-- A request with a body of which all is there. -/
theorem complete_of_receive {mem : Memory}
    (hscan : scan (roomAt malloc k) .fresh xs = .blank rd got)
    (hverdict : verdict (malloc.alloc k) rd.request = .receive mem)
    (hge : ¬ got.length < rd.bodyLength) :
    Complete malloc k xs (got.take rd.bodyLength) (handed malloc k (rd.withBody mem got)) := by
  obtain ⟨raw, hraw⟩ := handed_frame malloc k (rd.withBody mem got)
  obtain ⟨-, hlow, hhigh, -, -⟩ := verdict_receive hverdict
  have hmin : min rd.bodyLength got.length = rd.bodyLength := by omega
  have hlen : (got.take rd.bodyLength).length = rd.bodyLength :=
    List.length_take_of_le (by omega)
  have hpos : 0 < rd.bodyLength := by
    rw [Reading.bodyLength]
    omega
  refine ⟨⟨got, (scan_splitHead _ _ _).2 _ _ hscan, List.take_prefix _ _⟩,
    ⟨rd, got, _, raw, hscan, hraw⟩, ?_, ?_, ?_⟩
  · rw [hraw, hlen]
    exact Int.toNat_of_nonneg hlow.le
  · rw [hlen, Reading.bodyLength]
    omega
  · have hne : got.take rd.bodyLength ≠ [] := by
      intro hnil
      rw [hnil, List.length_nil] at hlen
      omega
    rw [if_neg hne, hraw]
    show some (read (write mem 0 (got.take (min rd.bodyLength got.length))) rd.bodyLength) = _
    have hread := read_write mem 0 (got.take rd.bodyLength)
    rw [Nat.zero_add, hlen] at hread
    rw [hmin, hread]
    rfl

/-- **A request that is answered by a call** is complete, and what is left follows it. -/
theorem complete_of_answer (h : answer malloc k xs = .call rd left) :
    (∃ body, Complete malloc k xs body (handed malloc k rd)) ∧ left <:+ xs := by
  cases hscan : scan (roomAt malloc k) .fresh xs with
  | crash =>
    rw [answer, hscan] at h
    cases h
  | more rd' pending =>
    rw [answer, hscan] at h
    cases h
  | refuse response =>
    rw [answer, hscan] at h
    cases h
  | blank rd' got =>
    have hsuffix := splitHead_suffix ((scan_splitHead _ _ _).2 _ _ hscan)
    cases hv : verdict (malloc.alloc k) rd'.request with
    | refuse text =>
      rw [answer_refuse hscan hv] at h
      cases h
    | process =>
      rw [answer_process hscan hv] at h
      cases h
      exact ⟨⟨[], complete_of_process hscan hv⟩, hsuffix⟩
    | receive mem =>
      rw [answer_receive hscan hv] at h
      split at h
      · cases h
      · next hge =>
        cases h
        exact ⟨⟨_, complete_of_receive hscan hv hge⟩, (List.drop_suffix _ _).trans hsuffix⟩

end Answer

/-! ### Runs -/

section Run

variable {σ : Type} (malloc : Malloc) (process : Handler σ)

/-- In a run no NUL is received in the head of a request, and no piece ends between the CR
and the LF of a line in it. -/
def WellCut (c₀ : Connection σ) : Prop :=
  ∀ c, Reachable malloc process c₀ c → c.s = true → CleanCut c.current c.input.bytes

/-- A call of the handler with a complete request that was received in `stream`. -/
def CompleteCall (stream : List UInt8) (req : HttpRequest) : Prop :=
  ∃ pre xs post k body, stream = pre ++ xs ++ post ∧ Complete malloc k xs body req

/-- **What is known between two calls.** -/
structure CallsKept (stream : List UInt8) (c : Connection σ) : Prop where
  /-- Of an open connection the stream says where it stands. -/
  stage : c.s = true → Follows malloc c ∧ c.current ++ c.input.bytes <:+ stream
  /-- The requests at whose end the handler was called are complete. -/
  complete : ∀ req recorded, .process .complete req recorded ∈ c.log →
    CompleteCall malloc stream req
  /-- After the call at the end of the stream the connection is closed. -/
  open_ : c.s = true → ∀ req recorded, .process .hangup req recorded ∉ c.log

variable {malloc process} {stream : List UInt8} {c c' : Connection σ}

theorem CallsKept.init (buf : Memory) (input : Input) (world : σ) :
    CallsKept malloc input.bytes (Connection.init buf input world) where
  stage _ := ⟨⟨show 0 < LINE_BUF_SIZE by decide, Or.inl ⟨rfl, rfl, rfl⟩⟩, List.suffix_rfl⟩
  complete _ _ hmem := absurd hmem List.not_mem_nil
  open_ _ _ _ := List.not_mem_nil

/-- What a closed connection has logged. -/
theorem CallsKept.closed (h : CallsKept malloc stream c) (hclosed : c'.s = false)
    {e : Event} (he : ∀ req recorded, e ≠ .process .complete req recorded)
    (hlog : c'.log = c.log ∨ c'.log = c.log ++ [e]) : CallsKept malloc stream c' where
  stage hs := by
    rw [hclosed] at hs
    cases hs
  complete req recorded hmem := by
    cases hlog with
    | inl hsame =>
      rw [hsame] at hmem
      exact h.complete req recorded hmem
    | inr hnew =>
      rw [hnew, List.mem_append, List.mem_singleton] at hmem
      cases hmem with
      | inl hold => exact h.complete req recorded hold
      | inr heq => exact absurd heq.symm (he req recorded)
  open_ hs := by
    rw [hclosed] at hs
    cases hs

/-- The handler was called at the end of a request. -/
theorem CallsKept.called {bs left : List UInt8} {rd : Reading} (h : CallsKept malloc stream c)
    (hs : c.s = true) (hbs : c.input.bytes = bs ++ c'.input.bytes)
    (hanswer : answer malloc c.log.length (c.current ++ bs) = .call rd left)
    (hcall : Called malloc process c c' rd left) : CallsKept malloc stream c' := by
  obtain ⟨pre, hpre⟩ := (h.stage hs).2
  obtain ⟨⟨body, hcomplete⟩, front, hfront⟩ := complete_of_answer hanswer
  rw [hbs] at hpre
  constructor
  · intro hopen
    obtain ⟨hidle, hcur⟩ := hcall.ready hopen
    refine ⟨⟨hcall.pos hopen, Or.inl hidle⟩, pre ++ front, ?_⟩
    calc pre ++ front ++ (c'.current ++ c'.input.bytes)
        = pre ++ ((front ++ left) ++ c'.input.bytes) := by
          rw [hcur, List.append_assoc, List.append_assoc]
      _ = pre ++ ((c.current ++ bs) ++ c'.input.bytes) := by rw [hfront]
      _ = stream := by rw [← hpre, List.append_assoc]
  · intro req recorded hmem
    rw [hcall.log, List.mem_append, List.mem_singleton] at hmem
    cases hmem with
    | inl hold => exact h.complete req recorded hold
    | inr heq =>
      cases heq
      refine ⟨pre, c.current ++ bs, c'.input.bytes, c.log.length, body, ?_, hcomplete⟩
      rw [← hpre]
      simp only [List.append_assoc]
  · intro _ req recorded hmem
    rw [hcall.log, List.mem_append, List.mem_singleton] at hmem
    cases hmem with
    | inl hold => exact h.open_ hs req recorded hold
    | inr heq => cases heq

/-- **A call keeps the invariant.** -/
theorem CallsKept.step (h : CallsKept malloc stream c) (hs : c.s = true)
    (hcut : CleanCut c.current c.input.bytes)
    (hc : http_input_iteration malloc process c = some (.ret c')) :
    CallsKept malloc stream c' := by
  obtain ⟨hfollows, hstream⟩ := h.stage hs
  have hp := hfollows.progress process hcut
  rw [hc] at hp
  cases hp with
  | more hon hne hpos hstage =>
    rw [hon.input, ← List.append_assoc, ← hon.current] at hstream
    refine ⟨fun _ => ⟨⟨hpos, Or.inr hstage⟩, hstream⟩, ?_, fun _ => ?_⟩
    · rw [hon.log]
      exact h.complete
    · rw [hon.log]
      exact h.open_ hs
  | refused hbs hanswer href =>
    exact h.closed href.closed (fun _ _ heq => by cases heq) (Or.inr href.log)
  | called hbs hending hanswer hcall => exact h.called hs hbs hanswer hcall
  | ended hclosed hlog hend =>
    cases hlog with
    | inl hsame =>
      exact h.closed (e := .respond []) hclosed (fun _ _ heq => by cases heq) (Or.inl hsame)
    | inr hnew =>
      obtain ⟨req, recorded, hnew⟩ := hnew
      exact h.closed hclosed (fun _ _ heq => by cases heq) (Or.inr hnew)

/-- **Every run keeps it.** -/
theorem Reachable.callsKept {c₀ : Connection σ} (h₀ : CallsKept malloc stream c₀)
    (hcut : WellCut malloc process c₀) (h : Reachable malloc process c₀ c) :
    CallsKept malloc stream c := by
  induction h with
  | start => exact h₀
  | step hreach hs hc ih => exact ih.step hs (hcut _ hreach hs) hc

theorem WellCut.of_run {n : ℕ} (h : runChecks malloc process
    (fun xs ys => !xs.contains 0 && !cuts xs ys) n c = true) : WellCut malloc process c := by
  intro c' hreach hs _
  have hok := hreach.checked h hs
  rw [Bool.and_eq_true, Bool.not_eq_true', Bool.not_eq_true'] at hok
  refine ⟨fun hmem => ?_, fun hcut => ?_⟩
  · rw [List.contains_iff_mem.mpr hmem] at hok
    cases hok.1
  · rw [hcut.cuts] at hok
    cases hok.2

end Run

/-! ### What is stored -/

/-- **A `PUT`** stores the body of the request. -/
theorem Complete.put {malloc : Malloc} {k : ℕ} {xs body : List UInt8} {req : HttpRequest}
    (h : Complete malloc k xs body req) {path : CString} (hpath : req.path = some path)
    (hunder : under dataPrefix path = true) (hmethod : req.method = some .PUT) (send : SendFn)
    (malloc' : Malloc) (garbage : ℕ → Option Garbage) (w : Server) :
    (http_process send malloc' garbage req w).2.2.store
      = obj_add (keyOf path) none (if body = [] then none else some body) body.length
          w.store := by
  have hlen : toObjLen req.content_length = body.length := by
    have hsmall := h.small
    rw [← h.length, toObjLen]
    omega
  rw [http_process]
  simp only [hpath, hunder, if_true, dataRequest, hmethod]
  show obj_add (keyOf path) none (bodyBytes req) (toObjLen req.content_length) w.store = _
  rw [h.bytes, hlen]

/-- **Calls of the handler.** Whatever a client sends, in whatever pieces and until when,
without a NUL in the head of a request and without a piece that ends between the CR and
the LF of a line in it, as long as the heap is intact, so that every head has fitted the first
header buffer: when the handler is called at the end of a request, the blank line
of that request has been received and its body is what the client has sent, of the
announced length. A `PUT` stores just that. The handler is not called with anything else
as long as the connection is open. -/
theorem called_when_complete {σ : Type} {malloc : Malloc} {process : Handler σ} {buf : Memory}
    {input : Input} {world : σ} {c : Connection σ}
    (hcut : WellCut malloc process (.init buf input world))
    (h : Reachable malloc process (.init buf input world) c) (hheap : c.overrun = false) :
    HeadsFit malloc c.log ∧
      (∀ req recorded, .process .complete req recorded ∈ c.log →
        ∃ pre xs post k body, input.bytes = pre ++ xs ++ post ∧ Complete malloc k xs body req ∧
          ∀ path send malloc' garbage w, req.path = some path → under dataPrefix path = true →
            req.method = some .PUT → (http_process send malloc' garbage req w).2.2.store
              = obj_add (keyOf path) none (if body = [] then none else some body) body.length
                  w.store) ∧
      (c.s = true → ∀ req recorded, .process .hangup req recorded ∉ c.log) := by
  have hkept := h.callsKept (CallsKept.init buf input world) hcut
  refine ⟨h.overrun_iff.mp hheap, fun req recorded hmem => ?_, hkept.open_⟩
  obtain ⟨pre, xs, post, k, body, hstream, hcomplete⟩ := hkept.complete req recorded hmem
  refine ⟨pre, xs, post, k, body, hstream, hcomplete, ?_⟩
  intro path send malloc' garbage w hpath hunder hmethod
  exact hcomplete.put hpath hunder hmethod send malloc' garbage w

/-- What a call of `http_input_iteration` has made of a connection. -/
def iterated (c : Connection ℕ) : Connection ℕ :=
  match http_input_iteration .plenty counting c with
  | some (.ret c') => c'
  | _ => c

def returns (c : Connection ℕ) : Bool :=
  match http_input_iteration .plenty counting c with
  | some (.ret _) => true
  | _ => false

theorem iterated_eq {c : Connection ℕ} (h : returns c = true) :
    http_input_iteration .plenty counting c = some (.ret (iterated c)) := by
  unfold returns at h
  unfold iterated
  split at h
  · next c' hc => rw [hc]
  · cases h

/-- A `PUT` of two bytes. -/
def putInput : Input :=
  ⟨[⟨ascii "PUT /data/k HTTP/1.1\r\nHost: x\r\nContent-Length: 2\r\n\r\nab", by decide⟩], .closed⟩

theorem called_when_complete_put :
    HeadsFit .plenty (iterated (.init (fun _ => 0) putInput 0)).log ∧
      (∀ req recorded, .process .complete req recorded
          ∈ (iterated (.init (fun _ => 0) putInput 0)).log →
        ∃ pre xs post k body, putInput.bytes = pre ++ xs ++ post ∧
          Complete .plenty k xs body req ∧
          ∀ path send malloc' garbage w, req.path = some path → under dataPrefix path = true →
            req.method = some .PUT → (http_process send malloc' garbage req w).2.2.store
              = obj_add (keyOf path) none (if body = [] then none else some body) body.length
                  w.store) ∧
      ((iterated (.init (fun _ => 0) putInput 0)).s = true → ∀ req recorded,
        .process .hangup req recorded ∉ (iterated (.init (fun _ => 0) putInput 0)).log) :=
  called_when_complete (WellCut.of_run (n := 4) (by decide +kernel))
    (.step .start rfl (iterated_eq (by decide +kernel))) (by decide +kernel)

/-! ### Requests that are not complete -/

/-- A client that closes the connection behind the request line. -/
def headless : Input := ⟨[⟨ascii "PUT /data/k HTTP/1.0\r\n", by decide⟩], .closed⟩

/-- A client that closes the connection in the body. -/
def truncated : Input :=
  ⟨[⟨ascii "PUT /data/k HTTP/1.0\r\nContent-Length: 5\r\n\r\nab", by decide⟩], .closed⟩

/-- A client that sends a NUL in front of a line. -/
def withZero : Input :=
  ⟨[⟨ascii "PUT /data/k HTTP/1.0\r\n" ++ [0], by decide⟩, ⟨ascii "\n", by decide⟩], .waiting⟩

/-- The bodies of the requests that the handler was called with. -/
def bodiesOf (r : Option (Connection ℕ)) : Option (List (Option (List UInt8))) :=
  r.map fun c => c.log.map fun e =>
    match e with
    | .process _ req _ => bodyBytes req
    | .respond _ => none

/-- **Requests that are cut short** are passed to the handler at the end of the stream,
one without a blank line and one with three bytes of its body that the client has not
sent. Behind a NUL a line end is taken for the blank line. -/
theorem called_when_cut_short :
    ((splitHead headless.bytes).2 = none ∧
      callsOf (http_connected .plenty counting (.init (fun _ => 0) headless 0)) = some [true]) ∧
    bodiesOf (http_connected .plenty counting (.init (fun _ => 0) truncated 0))
      = some [some [97, 98, 0, 0, 0]] ∧
    ((splitHead withZero.bytes).2 = none ∧
      callsOf (http_connected .plenty counting (.init (fun _ => 0) withZero 0)) = some [true]) := by
  have hfirst : afterEol (tailOf headless.bytes) = some [] := by decide
  have hheadless : splitHead headless.bytes = ([ascii "PUT /data/k HTTP/1.0", []], none) := by
    rw [splitHead_line (by decide) hfirst, splitHead_more (by decide) (by decide)]
    decide
  have hsecond : afterEol (tailOf withZero.bytes) = some (0 :: ascii "\n") := by decide
  have hzero : splitHead withZero.bytes = ([ascii "PUT /data/k HTTP/1.0", []], none) := by
    rw [splitHead_line (by decide) hsecond, splitHead_more (by decide) (by decide)]
    decide
  refine ⟨⟨congrArg Prod.snd hheadless, by decide +kernel⟩, by decide +kernel,
    congrArg Prod.snd hzero, by decide +kernel⟩

end Http
end Osrv
