import Osrv.Http.Request

/-!
# What lines do

One lemma for each of the two kinds of lines, and the invariant of the lines of
a request that follows (`Headed.line`). A request line that is accepted sets the
path and the method and starts the recording of the header lines. A header line
is always accepted, and an empty one does nothing.
-/

namespace Osrv
namespace Http

open Bytes

/-! ### The two kinds of lines -/

section Chain

variable {room : ℕ → Bool} {hs : Chain}

theorem start_of_ne_nil (h : hs ≠ []) : hs.start room = hs := by
  rw [Chain.start, List.isEmpty_eq_false_iff.mpr h]
  rfl

theorem start_ne_nil (hroom : room (sizeof_buffer + 1024) = true) : hs.start room ≠ [] := by
  by_cases h : hs = []
  · subst h
    simp [Chain.start, hroom]
  · rwa [start_of_ne_nil h]

theorem append_ne_nil (h : hs ≠ []) (bs : List UInt8) : hs.append bs ≠ [] := by
  rw [Chain.append]
  split
  · simp
  · exact h

theorem record_ne_nil (h : hs ≠ []) (bol : List UInt8) : hs.record room bol ≠ [] := by
  rw [Chain.record]
  split
  · exact h
  · simp only
    split
    · exact h
    · split
      · split
        · simp
        · exact append_ne_nil h _
      · exact append_ne_nil h _

end Chain

/-- A length was announced if there is one. -/
def LengthAnnounced (req : HttpRequest) : Prop :=
  req.content_length ≠ 0 → req.attr.CONTENT_LENGTH = true

/-- The fields of a header line leave the path, the method and the body alone. -/
theorem headerField_frame (room : ℕ → Bool) (name value : List UInt8) (req : HttpRequest) :
    (headerField room name value req).path = req.path ∧
      (headerField room name value req).method = req.method ∧
      (headerField room name value req).body = req.body ∧
      (LengthAnnounced req → LengthAnnounced (headerField room name value req)) := by
  unfold headerField
  repeat' split
  all_goals exact ⟨rfl, rfl, rfl, fun h => by first | exact h | exact fun _ => rfl⟩

/-- **The request line.** If it is accepted, it sets the path and the method. -/
theorem requestLine_next {room : ℕ → Bool} {bol : CString} {rd rd' : Reading}
    (h : requestLine room bol rd = .next rd') :
    rd'.part = .HEADER ∧ rd'.headers ≠ [] ∧ rd'.request.method ≠ none ∧
      rd'.request.body = rd.request.body ∧
      (LengthAnnounced rd.request → LengthAnnounced rd'.request) ∧
      ∃ path, rd'.request.path = strdup room path ∧ path.length ≤ bol.length := by
  unfold requestLine at h
  simp only at h
  split at h
  · cases h
  · split at h
    · cases h
    · next tail htail =>
      have hne : rd.headers.start room ≠ [] := by
        intro hnil
        rw [hnil] at htail
        cases htail
      split at h
      · cases h
      · next method hmethod =>
        cases h
        refine ⟨rfl, ?_, Option.some_ne_none _, rfl, fun h => h, _, rfl, ?_⟩
        · show (if _ then _ else _) ≠ ([] : Chain)
          split
          · exact append_ne_nil hne _
          · exact hne
        · -- the path is a part of the line
          rw [CString.length, cstr_bytes]
          refine (List.takeWhile_sublist _).length_le.trans ?_
          rw [List.length_drop, List.length_set]
          exact Nat.sub_le _ _

/-- **A header line** is always accepted. -/
theorem headerLine_next (room : ℕ → Bool) (bol : CString) (rd : Reading) :
    ∃ rd', headerLine room bol rd = .next rd' ∧ rd'.part = rd.part ∧
      rd'.headers = (rd.headers.start room).record room bol.bytes ∧
      rd'.request.path = rd.request.path ∧ rd'.request.method = rd.request.method ∧
      rd'.request.body = rd.request.body ∧
      (LengthAnnounced rd.request → LengthAnnounced rd'.request) := by
  unfold headerLine
  simp only
  split
  · exact ⟨_, rfl, rfl, rfl, rfl, rfl, rfl, fun h => h⟩
  · next k _ =>
    obtain ⟨hpath, hmethod, hbody, hlength⟩ := headerField_frame room
      ((bol.bytes.takeWhile (· ≠ 58)).map lower) (k.dropWhile fun b => b = 32 ∨ b = 9) rd.request
    exact ⟨_, rfl, rfl, rfl, hpath, hmethod, hbody, hlength⟩

/-- A null pointer is followed only if there is no memory for the first buffer. -/
theorem line_ne_crash {room : ℕ → Bool} (hroom : room (sizeof_buffer + 1024) = true)
    (bol : CString) (rd : Reading) : line room bol rd ≠ .crash := by
  intro hcrash
  unfold line at hcrash
  split at hcrash
  · unfold requestLine at hcrash
    simp only at hcrash
    split at hcrash
    · cases hcrash
    · split at hcrash
      · next hnone =>
        rw [List.getLast?_eq_none_iff] at hnone
        exact start_ne_nil hroom hnone
      · split at hcrash <;> cases hcrash
  · obtain ⟨rd', hnext, -⟩ := headerLine_next room bol rd
    rw [hnext] at hcrash
    cases hcrash
  · cases hcrash

/-! ### The invariant -/

/-- What is known while the lines of a request are read. -/
structure Headed (rd : Reading) : Prop where
  /-- The body is not reached by lines. -/
  part : rd.part ≠ .BODY
  /-- Before the request line nothing is set. -/
  fresh : rd.part = .REQUEST → rd = .fresh
  /-- Behind it header lines are recorded. -/
  headers : rd.part = .HEADER → rd.headers ≠ []
  /-- There is no body yet. -/
  body : rd.request.body = none
  /-- The length of one comes from a header line. -/
  length : LengthAnnounced rd.request

theorem Headed.init : Headed .fresh where
  part := by decide
  fresh _ := rfl
  headers h := by cases h
  body := rfl
  length h := absurd rfl h

/-- **A line keeps the invariant**, and header lines come next. -/
theorem Headed.line {room : ℕ → Bool} {bol : CString} {rd rd' : Reading} (h : Headed rd)
    (hnext : line room bol rd = .next rd') : Headed rd' ∧ rd'.part = .HEADER := by
  unfold Http.line at hnext
  split at hnext
  · obtain ⟨hpart, hne, -, hbody, hlength, -⟩ := requestLine_next hnext
    refine ⟨⟨?_, fun hreq => ?_, fun _ => hne, hbody.trans h.body, hlength h.length⟩, hpart⟩
    · rw [hpart]
      decide
    · rw [hpart] at hreq
      cases hreq
  · next hheader =>
    obtain ⟨rd₁, hnext₁, hpart, hheaders, -, -, hbody, hlength⟩ := headerLine_next room bol rd
    rw [hnext₁] at hnext
    cases hnext
    rw [hheader] at hpart
    refine ⟨⟨?_, fun hreq => ?_, fun _ => ?_, hbody.trans h.body, hlength h.length⟩, hpart⟩
    · rw [hpart]
      decide
    · rw [hpart] at hreq
      cases hreq
    · rw [hheaders, start_of_ne_nil (h.headers hheader)]
      exact record_ne_nil (h.headers hheader) _
  · next hbody => exact absurd hbody h.part

/-- An empty line among the header lines does nothing. -/
theorem Headed.line_empty {rd : Reading} (h : Headed rd) (hpart : rd.part = .HEADER)
    (room : ℕ → Bool) : Http.line room (cstr []) rd = .next rd := by
  have hne := h.headers hpart
  have hrecord : (rd.headers.start room).record room (cstr []).bytes = rd.headers := by
    rw [start_of_ne_nil hne, Chain.record]
    split
    · rfl
    · rfl
  rw [Http.line, hpart]
  unfold headerLine
  simp only [hrecord]
  rfl

/-- Only a request line is refused, and one that is empty always is. -/
theorem line_empty_request {rd : Reading} (hpart : rd.part = .REQUEST) (room : ℕ → Bool) :
    ∃ response, line room (cstr []) rd = .refuse response := by
  rw [Http.line, hpart]
  exact ⟨_, rfl⟩

end Http
end Osrv
