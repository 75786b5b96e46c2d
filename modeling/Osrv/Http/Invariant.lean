import Osrv.Http.Intact

/-!
# The connection invariant

What holds between two iterations, whatever the client sends and however it
arrives. `Sound` is the part of it that concerns the lines: nothing has been set
before the request line, and after it there are a path and a method. A request
without one never gets past the blank line, since then neither a version nor a
host has been seen.

The states are those of the code as long as the heap is intact. A recorded head that does not
fit the first header buffer ends that (`Reachable.overrun_iff`), and the flag `overrun` is
set from then on.
-/

namespace Osrv
namespace Http

open Bytes Net

/-! ### The lines -/

/-- What is known besides if there is memory: behind the request line there are a path
and a method. -/
structure Sound (rd : Reading) : Prop extends Headed rd where
  /-- The request line has set them. -/
  header : rd.part = .HEADER → rd.request.path ≠ none ∧ rd.request.method ≠ none

theorem Sound.init : Sound .fresh where
  toHeaded := Headed.init
  header h := by cases h

/-- There is room for the small objects that lines need. -/
def Roomy (room : ℕ → Bool) : Prop := ∀ n ≤ PTRDIFF_MAX, room n = true

section Line

variable {room : ℕ → Bool} (hroom : Roomy room) {rd : Reading}

include hroom

/-- **A line keeps the invariant.** -/
theorem Sound.line (h : Sound rd) {bol : CString} (hlen : bol.length < LINE_BUF_SIZE)
    {rd' : Reading} (hnext : line room bol rd = .next rd') : Sound rd' := by
  have hmax : LINE_BUF_SIZE ≤ PTRDIFF_MAX := by decide
  refine ⟨(h.toHeaded.line hnext).1, fun _ => ?_⟩
  unfold Http.line at hnext
  split at hnext
  · -- the request line sets both
    obtain ⟨-, -, hmethod, -, -, path, hpath, hle⟩ := requestLine_next hnext
    refine ⟨?_, hmethod⟩
    rw [hpath, strdup, hroom _ (by omega), if_pos rfl]
    exact Option.some_ne_none _
  · next hpart =>
    obtain ⟨rd₁, hnext₁, -, -, hpath₁, hmethod₁, -⟩ := headerLine_next room bol rd
    rw [hnext₁] at hnext
    cases hnext
    rw [hpath₁, hmethod₁]
    exact h.header hpart
  · next hpart => exact absurd hpart h.part

/-- **Scanning keeps the invariant.** -/
theorem Sound.scan {bs : List UInt8} (h : Sound rd) (hlen : bs.length < LINE_BUF_SIZE) :
    scan room rd bs ≠ .crash ∧
      (∀ rd' pending, scan room rd bs = .more rd' pending →
        Sound rd' ∧ pending.length ≤ bs.length) ∧
      ∀ rd' rest, scan room rd bs = .blank rd' rest →
        Sound rd' ∧ rest.length ≤ bs.length := by
  have hline : ∀ bol rd rd', CString.length bol ≤ bs.length → Sound rd →
      Http.line room bol rd = .next rd' → Sound rd' := fun _ _ _ hbol hs hnext =>
    hs.line hroom (Nat.lt_of_le_of_lt hbol hlen) hnext
  exact ⟨scan_ne_crash room (hroom _ (by decide)) rd bs,
    scan_keeps room hline h (Nat.le_refl _)⟩

end Line

/-! ### The connection -/

/-- **The connection invariant.** -/
structure StateInv {σ : Type} (c : Connection σ) : Prop where
  /-- There is room in the line buffer for a terminator. -/
  pos : c.line_pos ≤ LINE_BUF_SIZE - 1
  /-- Before the request line nothing is set. -/
  request : c.part = .REQUEST → c.request = .cleared ∧ c.headers = []
  /-- Behind it there are a path and a method. -/
  header : c.part = .HEADER → c.request.path ≠ none ∧ c.request.method ≠ none
  /-- In the lines of a request there is no body, and header lines are recorded. -/
  headed : c.part ≠ .BODY → Headed c.toReading
  /-- In a body there is memory for it, and something is still missing. -/
  body : c.part = .BODY → c.request.path ≠ none ∧ c.request.body ≠ none ∧
    0 < c.request.content_length ∧ c.request.content_length ≤ 2147483640 ∧
    (c.body_pos : ℤ) < c.request.content_length

/-- Every request that the handler has been called with has a path. -/
def HavePath (log : List Event) : Prop :=
  ∀ site req recorded, .process site req recorded ∈ log → req.path ≠ none

section StateInv

variable {σ : Type} (malloc : Malloc) (process : Handler σ) {c : Connection σ}

theorem HavePath.nil : HavePath [] := Logged.nil

theorem HavePath.respond {log : List Event} (h : HavePath log) (buf : List UInt8) :
    HavePath (log ++ [.respond buf]) :=
  Logged.respond h buf

theorem HavePath.process_request (h : HavePath c.log) (hpath : c.request.path ≠ none)
    (site : Site) : HavePath (process_request malloc process site c).log :=
  Logged.process_request malloc process h (fun _ => hpath) site

theorem StateInv.sound (h : StateInv c) (hpart : c.part ≠ .BODY) : Sound c.toReading where
  toHeaded := h.headed hpart
  header hheader := ⟨(h.header hheader).1, (h.header hheader).2⟩

theorem StateInv.of_sound (h : Sound c.toReading) (hpos : c.line_pos ≤ LINE_BUF_SIZE - 1) :
    StateInv c where
  pos := hpos
  request hreq := by
    have hfresh := h.fresh hreq
    exact ⟨congrArg Reading.request hfresh, congrArg Reading.headers hfresh⟩
  header := h.header
  headed _ := h.toHeaded
  body hbody := absurd hbody h.part

theorem StateInv.of_idle (h : Idle c) (hpos : c.line_pos ≤ LINE_BUF_SIZE - 1) : StateInv c :=
  StateInv.of_sound (h.reading ▸ Sound.init) hpos

/-- What is known while a body is received. It may be complete. -/
structure InBody (c : Connection σ) : Prop where
  part : c.part = .BODY
  pos : c.line_pos ≤ LINE_BUF_SIZE - 1
  path : c.request.path ≠ none
  body : c.request.body ≠ none
  range : 0 < c.request.content_length ∧ c.request.content_length ≤ 2147483640
  le : (c.body_pos : ℤ) ≤ c.request.content_length

theorem InBody.stateInv (h : InBody c) (hlt : (c.body_pos : ℤ) < c.request.content_length) :
    StateInv c where
  pos := h.pos
  request hp := by
    rw [h.part] at hp
    cases hp
  header hp := by
    rw [h.part] at hp
    cases hp
  headed hp := absurd h.part hp
  body _ := ⟨h.path, h.body, h.range.1, h.range.2, hlt⟩

/-- What an iteration leaves behind. -/
def Leaves (r : Iteration (Connection σ)) : Prop :=
  match r with
  | .ret c => (c.s = true → StateInv c) ∧ HavePath c.log
  | .blocked c => StateInv c ∧ HavePath c.log

/-- A response and the end of the connection. -/
theorem Leaves.refused {c' : Connection σ} {response : List UInt8} (href : Refused c c' response)
    (hlog : HavePath c.log) : Leaves (.ret c') := by
  refine ⟨fun hs => ?_, ?_⟩
  · rw [href.closed] at hs
    cases hs
  · rw [href.log]
    exact hlog.respond _

theorem InBody.finishBody (h : InBody c) (hlog : HavePath c.log) :
    Leaves (.ret (finishBody malloc process c)) := by
  unfold Http.finishBody
  split
  · -- the body is complete
    simp only
    constructor
    · intro hs
      obtain ⟨hidle, -⟩ := finish_idle hs
      refine StateInv.of_idle hidle ?_
      rw [finish_line_pos]
      exact h.pos
    · rw [finish_log]
      exact hlog.process_request malloc process h.path _
  · next hne =>
    exact ⟨fun _ => h.stateInv (lt_of_le_of_ne h.le hne), hlog⟩

/-- **In a body.** The part of the function for an empty body is not reached. -/
theorem InBody.bodyPart (h : InBody c) (hlog : HavePath c.log) :
    ∃ r, (∀ rest, bodyPart malloc process rest c = some r) ∧ Leaves r := by
  obtain ⟨mem, hmem⟩ := Option.ne_none_iff_exists'.mp h.body
  by_cases hlt : (c.body_pos : ℤ) < c.request.content_length
  · rcases hrecv : recv (c.request.content_length - c.body_pos).toNat c.input with ⟨r, input'⟩
    refine ⟨_, bodyPart_receive h.part hmem hlt hrecv, ?_⟩
    cases r with
    | blocked =>
      exact ⟨InBody.stateInv (c := { c with input := input' })
        ⟨h.part, h.pos, h.path, h.body, h.range, h.le⟩ hlt, hlog⟩
    | failed => exact ⟨fun hs => (by cases hs), hlog⟩
    | closed =>
      refine ⟨fun hs => (by cases hs), ?_⟩
      exact HavePath.process_request malloc process (c := { c with input := input' }) hlog h.path _
    | data bs =>
      obtain ⟨-, hroom, -, -⟩ := recv_spec hrecv
      refine InBody.finishBody malloc process (c := c.bodyPiece mem bs input') ⟨h.part,
        Nat.zero_le _, h.path, Option.some_ne_none _, h.range, ?_⟩ hlog
      change ((c.body_pos + bs.length : ℕ) : ℤ) ≤ c.request.content_length
      omega
  · exact ⟨_, bodyPart_complete h.part hmem hlt, h.finishBody malloc process hlog⟩

/-- Nothing has arrived in the lines of a request. -/
theorem StateInv.lineNothing {input' : Input} {res : RecvResult} (h : StateInv c)
    (hlog : HavePath c.log) (hpart : c.part ≠ .BODY)
    (hrecv : recv (LINE_BUF_SIZE - c.line_pos - 1) c.input = (res, input'))
    (hres : ∀ bs, res ≠ .data bs) :
    ∃ r, (∀ rest, iterationWith malloc process rest c = some r) ∧ Leaves r := by
  have hfit : c.line_pos < LINE_BUF_SIZE := Nat.lt_of_le_of_lt h.pos (by decide)
  have hline := linePart_nothing malloc process hfit hrecv hres
  refine ⟨_, iterationWith_inl malloc process hpart hline, ?_⟩
  cases res with
  | data bs => exact absurd rfl (hres bs)
  | blocked => exact ⟨⟨h.pos, h.request, h.header, h.headed, h.body⟩, hlog⟩
  | failed => exact ⟨fun hs => (by cases hs), hlog⟩
  | closed =>
    refine ⟨fun hs => (by cases hs), ?_⟩
    -- the handler is called only with a path
    change HavePath (if c.request.path.isSome then _ else _ : Connection σ).log
    split
    · next hsome =>
      exact HavePath.process_request malloc process (c := { c with input := input' }) hlog
        (Option.isSome_iff_ne_none.mp hsome) _
    · exact hlog

/-- A request that gets past the blank line has a path. -/
theorem Sound.path_of_verdict {rd : Reading} {alloc : ℕ → Option Memory} (h : Sound rd)
    (hv : ∀ text, verdict alloc rd.request ≠ .refuse text) : rd.request.path ≠ none := by
  have hattr := verdict_attr hv
  cases hp : rd.part with
  | REQUEST =>
    rw [h.fresh hp] at hattr
    exact absurd hattr (by decide)
  | HEADER => exact (h.header hp).1
  | BODY => exact absurd hp h.part

/-- The blank line has arrived, with `rest` behind it. -/
theorem Sound.blankPiece {input' : Input} {bs rest : List UInt8} {rd : Reading}
    (hsound : Sound rd) (hle : rest.length ≤ LINE_BUF_SIZE - 1) (hlog : HavePath c.log)
    (hpart : c.part ≠ .BODY) (hfit : c.line_pos < LINE_BUF_SIZE)
    (hrecv : recv (LINE_BUF_SIZE - c.line_pos - 1) c.input = (.data bs, input'))
    (hscan : Http.scan (c.room malloc) c.toReading (read c.line_buf c.line_pos ++ bs)
      = .blank rd rest) :
    ∃ r, (∀ next, iterationWith malloc process next c = some r) ∧ Leaves r := by
  cases hv : verdict (malloc.alloc c.log.length) rd.request with
  | refuse text =>
    obtain ⟨c', href, hrun⟩ := iteration_rejected malloc process hpart hfit hrecv hscan hv
    exact ⟨_, hrun, Leaves.refused href hlog⟩
  -- there is no body: the request is passed on
  | process =>
    obtain ⟨buf, -, hrun⟩ := iteration_processed malloc process hpart hfit hrecv hscan hv
    have hpath : rd.request.path ≠ none := hsound.path_of_verdict fun text heq => by
      rw [hv] at heq
      cases heq
    refine ⟨_, hrun, fun hs => ?_, ?_⟩
    · obtain ⟨hidle, -⟩ := finish_idle hs
      refine StateInv.of_idle hidle ?_
      rw [passed, finish_line_pos]
      exact hle
    · rw [passed, finish_log]
      refine HavePath.process_request malloc process ?_ ?_ _
      · exact hlog
      · exact hpath
  -- the body begins with what is behind the blank line
  | receive mem =>
    obtain ⟨buf, hrun⟩ := iteration_announced malloc process hpart hfit hrecv hscan hv
    have hpath : rd.request.path ≠ none := hsound.path_of_verdict fun text heq => by
      rw [hv] at heq
      cases heq
    obtain ⟨-, hlow, hhigh, -, -⟩ := verdict_receive hv
    have hin : InBody (receiving (c.received bs input') rd mem rest buf) := by
      refine ⟨rfl, ?_, hpath, Option.some_ne_none _, ⟨hlow, hhigh⟩, ?_⟩
      · change rest.length - _ ≤ LINE_BUF_SIZE - 1
        omega
      · change ((min rd.request.content_length.toNat rest.length : ℕ) : ℤ)
          ≤ rd.request.content_length
        omega
    obtain ⟨r, hr, hleaves⟩ := hin.bodyPart malloc process hlog
    refine ⟨r, fun next => ?_, hleaves⟩
    rw [hrun]
    exact hr next

/-- A piece has arrived in the lines of a request. -/
theorem StateInv.linePiece {input' : Input} {bs : List UInt8} (hmalloc : malloc.Succeeds)
    (h : StateInv c) (hlog : HavePath c.log) (hpart : c.part ≠ .BODY)
    (hrecv : recv (LINE_BUF_SIZE - c.line_pos - 1) c.input = (.data bs, input')) :
    ∃ r, (∀ rest, iterationWith malloc process rest c = some r) ∧ Leaves r := by
  have hfit : c.line_pos < LINE_BUF_SIZE := Nat.lt_of_le_of_lt h.pos (by decide)
  obtain ⟨-, hcap, -, -⟩ := recv_spec hrecv
  have hlen : (read c.line_buf c.line_pos ++ bs).length < LINE_BUF_SIZE := by
    rw [List.length_append, length_read]
    omega
  have hroomy : Roomy (c.room malloc) := by
    intro n hn
    obtain ⟨mem, hmem⟩ := hmalloc c.log.length n hn
    rw [Connection.room, hmem]
    rfl
  obtain ⟨hcrash, hmore, hblank⟩ := (h.sound hpart).scan hroomy hlen
  cases hscan : scan (c.room malloc) c.toReading (read c.line_buf c.line_pos ++ bs) with
  | crash => exact absurd hscan hcrash
  | more rd pending =>
    obtain ⟨buf, -, hrun⟩ := iteration_more malloc process hpart hfit hrecv hscan
    obtain ⟨hsound', hle⟩ := hmore rd pending hscan
    refine ⟨_, hrun, fun _ => StateInv.of_sound hsound' ?_, hlog⟩
    change pending.length ≤ LINE_BUF_SIZE - 1
    omega
  | refuse response =>
    obtain ⟨c', href, hrun⟩ := iteration_refused malloc process hpart hfit hrecv hscan
    exact ⟨_, hrun, Leaves.refused href hlog⟩
  | blank rd rest =>
    obtain ⟨hsound', hle⟩ := hblank rd rest hscan
    exact hsound'.blankPiece malloc process (by omega) hlog hpart hfit hrecv hscan

/-- **An iteration keeps the invariant.** It goes through without an error and without
the part for an empty body. -/
theorem StateInv.iteration (hmalloc : malloc.Succeeds) (h : StateInv c) (hlog : HavePath c.log) :
    ∃ r, (∀ rest, iterationWith malloc process rest c = some r) ∧ Leaves r := by
  by_cases hpart : c.part = .BODY
  · obtain ⟨hpath, hbody, hlow, hhigh, hlt⟩ := h.body hpart
    have hin : InBody c := ⟨hpart, h.pos, hpath, hbody, ⟨hlow, hhigh⟩, hlt.le⟩
    obtain ⟨r, hr, hleaves⟩ := hin.bodyPart malloc process hlog
    refine ⟨r, fun rest => ?_, hleaves⟩
    rw [iterationWith, if_pos hpart]
    exact hr rest
  · rcases hrecv : recv (LINE_BUF_SIZE - c.line_pos - 1) c.input with ⟨res, input'⟩
    cases res with
    | data bs => exact h.linePiece malloc process hmalloc hlog hpart hrecv
    | blocked => exact h.lineNothing malloc process hlog hpart hrecv (by simp)
    | failed => exact h.lineNothing malloc process hlog hpart hrecv (by simp)
    | closed => exact h.lineNothing malloc process hlog hpart hrecv (by simp)

/-- The state of a new connection. -/
theorem Idle.init (line_buf : Memory) (input : Input) (world : σ) :
    Idle (Connection.init line_buf input world) :=
  ⟨rfl, rfl, rfl⟩

/-- The invariant holds between any two iterations. -/
theorem Reachable.leaves (hmalloc : malloc.Succeeds) {line_buf : Memory} {input : Input}
    {world : σ} (h : Reachable malloc process (Connection.init line_buf input world) c) :
    (c.s = true → StateInv c) ∧ HavePath c.log := by
  induction h with
  | start => exact ⟨fun _ => StateInv.of_idle (Idle.init _ _ _) (Nat.zero_le _), HavePath.nil⟩
  | step _ hs hc ih =>
    obtain ⟨r, hr, hleaves⟩ := (ih.1 hs).iteration malloc process hmalloc ih.2
    have hrun := hr (emptyBody malloc process)
    rw [← http_input_iteration, hc] at hrun
    cases hrun
    exact hleaves

end StateInv

/-- **The invariant of a connection.** Whatever a client sends, in whatever pieces, and
whatever the handler does: as long as the connection is open the invariant holds
between two iterations. The next iteration then goes through without a position that
becomes negative or an access outside of the line buffer, and does not depend on the
part of the function for an empty body. The handler is never called without a path. The heap
is intact, and the state that of the code, exactly if every recorded head has fitted the first
header buffer. -/
theorem connection_inv {σ : Type} {malloc : Malloc} {process : Handler σ} {line_buf : Memory}
    {input : Input} {world : σ} {c : Connection σ} (hmalloc : malloc.Succeeds)
    (h : Reachable malloc process (Connection.init line_buf input world) c) :
    HavePath c.log ∧ (c.overrun = false ↔ HeadsFit malloc c.log) ∧
      (c.s = true → StateInv c ∧
        ∃ r, (∀ rest, iterationWith malloc process rest c = some r) ∧ Leaves r) := by
  obtain ⟨hinv, hlog⟩ := h.leaves malloc process hmalloc
  exact ⟨hlog, h.overrun_iff, fun hs =>
    ⟨hinv hs, (hinv hs).iteration malloc process hmalloc hlog⟩⟩

/-- A `GET`, and behind it the head of a `PUT` with two of the three bytes of its body. -/
def openPut : Input :=
  ⟨[⟨ascii "GET /a HTTP/1.1\r\nHost: x\r\n\r\n", by decide⟩,
    ⟨ascii "PUT /data/k HTTP/1.1\r\nHost: x\r\nContent-Length: 3\r\n\r\na", by decide⟩,
    ⟨ascii "b", by decide⟩], .waiting⟩

/-- The state in which the third byte is waited for. -/
theorem connection_inv_body : ∃ c : Connection Unit,
    (c.part = .BODY ∧ c.body_pos = 2 ∧ c.log.length = 1 ∧ c.s = true) ∧
      HavePath c.log ∧ (c.overrun = false ↔ HeadsFit Malloc.plenty c.log) ∧
      (c.s = true → StateInv c ∧ ∃ r, (∀ rest,
        iterationWith Malloc.plenty (fun req w => (false, req, w)) rest c = some r) ∧
          Leaves r) := by
  have hrun : ((Connection.init (fun _ => 65) openPut ()).advance Malloc.plenty
      (fun req w => (false, req, w)) >>= Connection.advance Malloc.plenty
        fun req w => (false, req, w)).map (fun c => (c.part, c.body_pos, c.log.length, c.s))
      = some (.BODY, 2, 1, true) := by decide +kernel
  obtain ⟨c, hc, hstate⟩ := Option.map_eq_some_iff.mp hrun
  obtain ⟨c₁, hc₁, hc⟩ := Option.bind_eq_some_iff.mp hc
  obtain ⟨hpart, hpos, hlog, hs⟩ : c.part = .BODY ∧ c.body_pos = 2 ∧ c.log.length = 1 ∧
      c.s = true := by
    rw [Prod.mk.injEq, Prod.mk.injEq, Prod.mk.injEq] at hstate
    exact hstate
  exact ⟨c, ⟨hpart, hpos, hlog, hs⟩,
    connection_inv Malloc.plenty_succeeds ((Reachable.start.advance hc₁).advance hc)⟩

end Http
end Osrv
