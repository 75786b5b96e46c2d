import Osrv.Http.Answer

/-!
# Heads that fit the first buffer

`collect_buffers` copies all that has been recorded of a request to the data of its first
buffer. If that is more than the buffer and the rest of its structure can take, the heap is
overwritten before the handler is called, and the model says nothing of what follows in the
code. The flag `overrun` keeps account of it.

The first buffer has the same size in every request, so the log says whether this has
happened (`Reachable.overrun_iff`): as long as every recorded head fits, the heap is intact.
-/

namespace Osrv
namespace Http

open Bytes Net

/-- The head recorded for the `k`-th event fits the first buffer, or there is no memory to
collect it. The structure has room for eight bytes more than its size says. -/
def HeadFits (malloc : Malloc) (k : ℕ) (recorded : List UInt8) : Prop :=
  (malloc.alloc k (sizeof_raw + recorded.length)).isSome = true → recorded.length ≤ 1024 + 8

instance (malloc : Malloc) (k : ℕ) (recorded : List UInt8) :
    Decidable (HeadFits malloc k recorded) :=
  inferInstanceAs (Decidable (_ → _))

theorem HeadFits.of_le {malloc : Malloc} {k : ℕ} {recorded : List UInt8}
    (h : recorded.length ≤ 1024 + 8) : HeadFits malloc k recorded := fun _ => h

/-- What is recorded of the head of the request `msg` fits the first buffer. -/
def RequestFits (malloc : Malloc) (k : ℕ) (msg : List UInt8) : Prop :=
  ∀ rd got, scan (roomAt malloc k) .fresh msg = .blank rd got → HeadFits malloc k rd.headers.bytes

/-- A request that is passed on has the head that was read of it. -/
theorem answer_call_scan {malloc : Malloc} {k : ℕ} {xs left : List UInt8} {rd : Reading}
    (h : answer malloc k xs = .call rd left) :
    ∃ rd₀ got, scan (roomAt malloc k) .fresh xs = .blank rd₀ got ∧ rd.headers = rd₀.headers := by
  unfold answer at h
  split at h
  · cases h
  · cases h
  · cases h
  · next rd₀ got hscan =>
    refine ⟨rd₀, got, hscan, ?_⟩
    split at h
    · cases h
    · obtain ⟨rfl, -⟩ := Answer.call.inj h
      rfl
    · split at h
      · cases h
      · obtain ⟨rfl, -⟩ := Answer.call.inj h
        rfl

/-- Every head that the handler has been called with fits. -/
def HeadsFit (malloc : Malloc) (log : List Event) : Prop :=
  ∀ k site req recorded, log[k]? = some (.process site req recorded) → HeadFits malloc k recorded

section Log

variable {malloc : Malloc} {log : List Event}

theorem HeadsFit.nil : HeadsFit malloc [] := fun _ _ _ _ h => absurd h (by simp)

/-- One more event. -/
theorem headsFit_snoc (e : Event) : HeadsFit malloc (log ++ [e]) ↔
    HeadsFit malloc log ∧
      ∀ site req recorded, e = .process site req recorded →
        HeadFits malloc log.length recorded := by
  constructor
  · refine fun h => ⟨fun k site req recorded hk => h k site req recorded ?_,
      fun site req recorded he => h log.length site req recorded ?_⟩
    · rw [List.getElem?_append_left (List.getElem?_eq_some_iff.mp hk).1]
      exact hk
    · rw [List.getElem?_concat_length, he]
  · rintro ⟨h, he⟩ k site req recorded hk
    by_cases hlt : k < log.length
    · rw [List.getElem?_append_left hlt] at hk
      exact h k site req recorded hk
    · have hle : k = log.length := by
        have hbound := (List.getElem?_eq_some_iff.mp hk).1
        rw [List.length_append, List.length_singleton] at hbound
        omega
      subst hle
      rw [List.getElem?_concat_length] at hk
      exact he site req recorded (Option.some.inj hk)

theorem headsFit_respond (buf : List UInt8) :
    HeadsFit malloc (log ++ [.respond buf]) ↔ HeadsFit malloc log := by
  rw [headsFit_snoc]
  exact and_iff_left fun _ _ _ h => by cases h

end Log

/-! ### The first buffer -/

/-- The first buffer, if there is one, is of the size that it is always given. -/
def Chain.Rooted (hs : Chain) : Prop := ∀ n ∈ (hs.map Buffer.size).head?, n = 1024

section Rooted

variable {room : ℕ → Bool} {hs : Chain}

theorem Chain.Rooted.nil : Chain.Rooted [] := fun _ h => absurd h (by simp)

theorem Chain.Rooted.start (h : hs.Rooted) : (hs.start room).Rooted := by
  rw [Chain.start]
  split
  · intro n hn
    exact (Option.some.inj hn).symm
  · exact h

/-- Bytes do not change the sizes. -/
theorem sizes_append (hs : Chain) (bs : List UInt8) :
    (hs.append bs).map Buffer.size = hs.map Buffer.size := by
  rcases List.eq_nil_or_concat hs with rfl | ⟨front, tail, rfl⟩
  · rfl
  · rw [List.concat_eq_append, Chain.append, List.getLast?_concat, List.dropLast_concat]
    simp

theorem Chain.Rooted.append (h : hs.Rooted) (bs : List UInt8) : (hs.append bs).Rooted := by
  rw [Chain.Rooted, sizes_append]
  exact h

theorem Chain.Rooted.record (h : hs.Rooted) (bol : List UInt8) : (hs.record room bol).Rooted := by
  rw [Chain.record]
  split
  · exact h
  · next tail htail =>
    simp only
    split
    · exact h
    · split
      · split
        -- a new buffer is not the first one
        · have hne : hs.append (bol.take (tail.size - tail.data.length)) ≠ [] := by
            refine append_ne_nil ?_ _
            rintro rfl
            cases htail
          intro n hn
          rw [List.map_append, List.head?_append_of_ne_nil _ (by simpa using hne)] at hn
          exact h.append _ n hn
        · exact h.append _
      · exact h.append _

/-- **A line** leaves the first buffer as it is. -/
theorem Chain.Rooted.line {bol : CString} {rd rd' : Reading} (h : rd.headers.Rooted)
    (hnext : Http.line room bol rd = .next rd') : rd'.headers.Rooted := by
  unfold Http.line at hnext
  split at hnext
  · unfold requestLine at hnext
    simp only at hnext
    split at hnext
    · cases hnext
    · split at hnext
      · cases hnext
      · split at hnext
        · cases hnext
        · cases hnext
          show (if _ then _ else _ : Chain).Rooted
          split
          · exact h.start.append _
          · exact h.start
  · obtain ⟨rd₁, hnext₁, -, hheaders, -⟩ := headerLine_next room bol rd
    rw [hnext₁] at hnext
    cases hnext
    rw [hheaders]
    exact h.start.record _
  · cases hnext
    exact h

theorem Chain.Rooted.scan {rd : Reading} (h : rd.headers.Rooted) (bs : List UInt8) :
    (∀ rd' pending, Http.scan room rd bs = .more rd' pending → rd'.headers.Rooted) ∧
      ∀ rd' rest, Http.scan room rd bs = .blank rd' rest → rd'.headers.Rooted := by
  have hkeeps := scan_keeps room (P := fun rd => rd.headers.Rooted)
    (fun _ _ _ _ hrd hnext => hrd.line hnext) h (Nat.le_refl bs.length)
  exact ⟨fun rd' pending heq => (hkeeps.1 rd' pending heq).1,
    fun rd' rest heq => (hkeeps.2 rd' rest heq).1⟩

end Rooted

/-! ### Between two calls -/

section Connection

variable {σ : Type} {malloc : Malloc} {process : Handler σ} {c : Connection σ}
  {r : Iteration (Connection σ)}

theorem overfull_eq_false {k : ℕ} {hs : Chain} (h : hs.Rooted) :
    overfull malloc k hs = false ↔ HeadFits malloc k hs.bytes := by
  unfold overfull HeadFits
  cases malloc.alloc k (sizeof_raw + hs.bytes.length) with
  | none => exact iff_of_true rfl fun hsome => by cases hsome
  | some mem =>
    cases hs with
    | nil => exact iff_of_true rfl fun _ => Nat.zero_le _
    | cons root rest =>
      have hroot : root.size = 1024 := h root.size rfl
      simp only [Option.isSome_some, forall_const, hroot, decide_eq_false_iff_not, Nat.not_lt]

/-- **A request whose head fits** leaves the heap intact. -/
theorem Called.intact {c' : Connection σ} {rd : Reading} {xs left : List UInt8}
    (h : Called malloc process c c' rd left)
    (hanswer : answer malloc c.log.length xs = .call rd left)
    (hfits : RequestFits malloc c.log.length xs) (hover : c.overrun = false) :
    c'.overrun = false := by
  obtain ⟨rd₀, got, hscan, hheaders⟩ := answer_call_scan hanswer
  have hrooted : rd₀.headers.Rooted := (Chain.Rooted.nil.scan xs).2 _ _ hscan
  rw [h.overrun, hover, Bool.false_or, hheaders, overfull_eq_false hrooted]
  exact hfits _ _ hscan

/-- **The account of the heap.** -/
structure Tallied (malloc : Malloc) (c : Connection σ) : Prop where
  /-- The first buffer of an open connection has its size. -/
  rooted : c.s = true → c.headers.Rooted
  /-- The heap is intact exactly if all heads have fitted. -/
  overrun : c.overrun = false ↔ HeadsFit malloc c.log

/-- The account behind a call. -/
def KeepsTally (malloc : Malloc) : Iteration (Connection σ) → Prop
  | .ret c => Tallied malloc c
  | .blocked c => Tallied malloc c

theorem Tallied.closed (hover : c.overrun = false ↔ HeadsFit malloc c.log) :
    Tallied malloc (http_close c) where
  rooted hs := by cases hs
  overrun := hover

theorem process_request_tally (hrooted : c.headers.Rooted)
    (hover : c.overrun = false ↔ HeadsFit malloc c.log) (site : Site) :
    (process_request malloc process site c).overrun = false ↔
      HeadsFit malloc (process_request malloc process site c).log := by
  rw [process_request_log, headsFit_snoc, process_request_overrun, Bool.or_eq_false_iff, hover,
    collect_buffers_snd, overfull_eq_false hrooted]
  refine and_congr_right fun _ => ⟨fun h _ _ _ heq => ?_, fun h => h _ _ _ rfl⟩
  cases heq
  exact h

theorem finish_tally {double : Bool} (hover : c.overrun = false ↔ HeadsFit malloc c.log) :
    Tallied malloc (finish double c) := by
  refine ⟨fun hs => ?_, ?_⟩
  · rw [congrArg Reading.headers (finish_idle hs).1.reading]
    exact Chain.Rooted.nil
  · rw [finish_overrun, finish_log]
    exact hover

theorem Tallied.finishBody (h : Tallied malloc c) (hrooted : c.headers.Rooted) :
    Tallied malloc (finishBody malloc process c) := by
  unfold Http.finishBody
  split
  · exact finish_tally (process_request_tally hrooted h.overrun _)
  · exact h

theorem Tallied.bodyStep (h : Tallied malloc c) (hrooted : c.headers.Rooted)
    (hstep : BodyStep malloc process c r) : KeepsTally malloc r := by
  cases hstep with
  | waiting hrecv => exact ⟨h.rooted, h.overrun⟩
  | failed hrecv => exact Tallied.closed h.overrun
  | @hangup input' hrecv =>
    exact Tallied.closed (process_request_tally (c := { c with input := input' }) hrooted
      h.overrun _)
  | @piece input' bs mem hrecv hmem =>
    exact Tallied.finishBody ⟨fun _ => hrooted, h.overrun⟩ hrooted
  | full hfull => exact h.finishBody hrooted

/-- **A call keeps the account.** -/
theorem Tallied.iteration (h : Tallied malloc c) (hs : c.s = true) (hin : InRange c)
    (hrun : http_input_iteration malloc process c = some r) : KeepsTally malloc r := by
  have hrooted := h.rooted hs
  have hstep := iteration_step (fun _ => hin.pos)
    (fun hpart => ⟨(hin.body hpart).1, (hin.body hpart).2.2.2⟩) hrun
  obtain ⟨-, hstep⟩ | ⟨-, hstep⟩ := hstep
  · exact h.bodyStep hrooted hstep
  · cases hstep with
    | waiting hrecv => exact ⟨h.rooted, h.overrun⟩
    | failed hrecv => exact Tallied.closed h.overrun
    | early hrecv hpath => exact Tallied.closed h.overrun
    -- what there is of the request is passed on
    | @hangup input' hrecv hpath =>
      exact Tallied.closed (process_request_tally (c := { c with input := input' }) hrooted
        h.overrun _)
    | more hrecv hscan hbuf => exact ⟨fun _ => (hrooted.scan _).1 _ _ hscan, h.overrun⟩
    | refused hrecv href =>
      refine ⟨fun hs' => ?_, ?_⟩
      · rw [href.closed] at hs'
        cases hs'
      · rw [href.overrun, href.log, headsFit_respond]
        exact h.overrun
    | @processed input' bs rest rd buf hrecv hscan hverdict hbuf =>
      have hrooted' := (hrooted.scan _).2 _ _ hscan
      exact finish_tally (process_request_tally (c := { c.received bs input' with
        request := rd.request
        part := .BODY
        headers := rd.headers
        body_pos := 0
        line_buf := buf
        line_pos := rest.length }) hrooted' h.overrun _)
    | @announced input' bs rest rd mem buf r hrecv hscan hverdict hbody =>
      have hrooted' := (hrooted.scan _).2 _ _ hscan
      have hreceiving : Tallied malloc (receiving (c.received bs input') rd mem rest buf) :=
        ⟨fun _ => hrooted', h.overrun⟩
      exact hreceiving.bodyStep hrooted' hbody

/-- **The heap is intact** exactly if every head that the handler has been called with fits
the first buffer. -/
theorem Reachable.overrun_iff {line_buf : Memory} {input : Input} {world : σ}
    (h : Reachable malloc process (Connection.init line_buf input world) c) :
    c.overrun = false ↔ HeadsFit malloc c.log := by
  suffices htally : Tallied malloc c from htally.overrun
  induction h with
  | start => exact ⟨fun _ => Chain.Rooted.nil, iff_of_true rfl HeadsFit.nil⟩
  | step hreach hs hc ih => exact ih.iteration hs (hreach.inRange.1 hs) hc

end Connection

end Http
end Osrv
