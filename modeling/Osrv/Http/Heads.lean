import Osrv.Http.Refusals

/-!
# The head of a request

What the lines of a request come to, as a function of the list of the lines: the request line
sets the method, the version and the path (`firstLine`), the header lines set the fields
(`HeadersRead`), and at the blank line the request is let in if it passes the checks (`LetIn`).
`scan_of_head` says that the scanner makes of the bytes in its buffer what is said here of
their lines.
-/

namespace Osrv
namespace Http

open Bytes Net

/-! ### Lines -/

/-- The lines at the start of bytes that have an end, up to the blank line. -/
def completeLines (bs : List UInt8) : List CString :=
  (if (splitHead bs).2 = none then (splitHead bs).1.dropLast else (splitHead bs).1).map cstr

/-- Processes lines one after the other. -/
def readLines (room : ℕ → Bool) : List CString → Reading → LineResult
  | [], rd => .next rd
  | l :: ls, rd =>
    match line room l rd with
    | .next rd => readLines room ls rd
    | .refuse response => .refuse response
    | .crash => .crash

/-- What a scan comes to whose lines come to this, with a blank line behind them. -/
def LineResult.atBlank (rest : List UInt8) : LineResult → Scan
  | .next rd => .blank rd rest
  | .refuse response => .refuse response
  | .crash => .crash

section Lines

variable {room : ℕ → Bool} {bs rest : List UInt8} {rd rd' : Reading} {l : CString}
  {ls ls' : List CString}

theorem completeLines_blank (h : afterBlank bs = some rest) : completeLines bs = [] := by
  rw [completeLines, splitHead_blank h]
  rfl

theorem completeLines_more (h : afterBlank bs = none) (ht : afterEol (tailOf bs) = none) :
    completeLines bs = [] := by
  rw [completeLines, splitHead_more h ht]
  rfl

/-- Without a blank line there is a last line that has no end. -/
theorem splitHead_ne_nil (h : (splitHead bs).2 = none) : (splitHead bs).1 ≠ [] := by
  cases hblank : afterBlank bs with
  | some rest =>
    rw [splitHead_blank hblank] at h
    cases h
  | none =>
    cases htail : afterEol (tailOf bs) with
    | none =>
      rw [splitHead_more hblank htail]
      exact List.cons_ne_nil _ _
    | some rest =>
      rw [splitHead_line hblank htail]
      exact List.cons_ne_nil _ _

theorem completeLines_line (h : afterBlank bs = none) (ht : afterEol (tailOf bs) = some rest) :
    completeLines bs = cstr (lineOf bs) :: completeLines rest := by
  rw [completeLines, completeLines, splitHead_line h ht]
  by_cases hnone : (splitHead rest).2 = none
  · rw [if_pos hnone, if_pos hnone, List.dropLast_cons_of_ne_nil (splitHead_ne_nil hnone),
      List.map_cons]
  · rw [if_neg hnone, if_neg hnone, List.map_cons]

theorem readLines_append (h : readLines room ls rd = .next rd') :
    readLines room (ls ++ ls') rd = readLines room ls' rd' := by
  induction ls generalizing rd with
  | nil =>
    cases h
    rfl
  | cons l ls ih =>
    rw [readLines] at h
    rw [List.cons_append, readLines]
    cases hline : line room l rd with
    | next rd₁ =>
      rw [hline] at h
      exact ih h
    | refuse response =>
      rw [hline] at h
      cases h
    | crash =>
      rw [hline] at h
      cases h

/-- **The scan of a head** is the reading of its lines. -/
theorem scan_of_head (h : (splitHead bs).2 = some rest) :
    scan room rd bs = (readLines room (completeLines bs) rd).atBlank rest := by
  induction bs using line_induction generalizing rd with
  | blank bs rest' hblank =>
    rw [splitHead_blank hblank] at h
    obtain rfl := Option.some.inj h
    rw [scan_blank hblank, completeLines_blank hblank]
    rfl
  | more bs hblank htail =>
    rw [splitHead_more hblank htail] at h
    cases h
  | line bs rest' hblank htail ih =>
    rw [splitHead_line hblank htail] at h
    rw [scan_line hblank htail, completeLines_line hblank htail, readLines]
    cases line room (cstr (lineOf bs)) rd with
    | next rd₁ => exact ih h
    | refuse response => rfl
    | crash => rfl

/-- The lines of a scan that waits for more have been read. -/
theorem readLines_of_more {pending : List UInt8} (h : scan room rd bs = .more rd' pending) :
    readLines room (completeLines bs) rd = .next rd' := by
  induction bs using line_induction generalizing rd with
  | blank bs rest hblank =>
    rw [scan_blank hblank] at h
    cases h
  | more bs hblank htail =>
    rw [scan_more hblank htail] at h
    rw [completeLines_more hblank htail]
    cases h
    rfl
  | line bs rest hblank htail ih =>
    obtain ⟨rd₁, hline, hscan⟩ := scan_line_more hblank htail h
    rw [completeLines_line hblank htail, readLines, hline]
    exact ih hscan

/-- A scan follows a null pointer if the reading of the lines does. -/
theorem scan_crash_iff :
    scan room rd bs = .crash ↔ readLines room (completeLines bs) rd = .crash := by
  induction bs using line_induction generalizing rd with
  | blank bs rest hblank =>
    rw [scan_blank hblank, completeLines_blank hblank]
    exact iff_of_false (fun h => by cases h) (fun h => by cases h)
  | more bs hblank htail =>
    rw [scan_more hblank htail, completeLines_more hblank htail]
    exact iff_of_false (fun h => by cases h) (fun h => by cases h)
  | line bs rest hblank htail ih =>
    rw [scan_line hblank htail, completeLines_line hblank htail, readLines]
    cases line room (cstr (lineOf bs)) rd with
    | next rd₁ => exact ih
    | refuse response => exact iff_of_false (fun h => by cases h) (fun h => by cases h)
    | crash => exact iff_of_true rfl rfl

/-- The lines of a scan that stops at the blank line have been read. -/
theorem readLines_of_blank (h : scan room rd bs = .blank rd' rest) :
    (splitHead bs).2 = some rest ∧ readLines room (completeLines bs) rd = .next rd' := by
  have hhead := (scan_splitHead room rd bs).2 _ _ h
  refine ⟨hhead, ?_⟩
  rw [scan_of_head hhead] at h
  cases hread : readLines room (completeLines bs) rd with
  | next rd₁ =>
    rw [hread] at h
    obtain ⟨rfl, -⟩ := Scan.blank.inj h
    rfl
  | refuse response =>
    rw [hread] at h
    cases h
  | crash =>
    rw [hread] at h
    cases h

end Lines

/-! ### The request line -/

/-- Where the version starts in a request line. -/
def versionAt (l : CString) : ℕ := l.length - 9

/-- The version is of the form that is asked for. -/
def Versioned (l : CString) : Prop :=
  14 ≤ l.length ∧ (l.bytes.drop (versionAt l)).take 8 = ascii " HTTP/1."

/-- The version is 1.0. -/
def isVersion10 (l : CString) : Bool := l.bytes.drop (l.length - 3) = ascii "1.0"

/-- The method is known, or its name can be recorded. -/
def MethodFits (l : CString) : Prop := methodOf l.bytes ≠ none ∨ 18 + l.bytes.idxOf 32 ≤ 1024

/-- What is passed on as the path. -/
def pathOf (l : CString) : CString :=
  cstr ((l.bytes.set (versionAt l) 0).drop (l.bytes.idxOf 32 + 1))

/-- **What the request line comes to**, by the checks that it passes. -/
inductive FirstLine (room : ℕ → Bool) (l : CString) : LineResult → Prop
  | version (response : List UInt8) (hnot : ¬ Versioned l) : FirstLine room l (.refuse response)
  | crash (hversion : Versioned l) (hroom : room (sizeof_buffer + 1024) = false) :
      FirstLine room l .crash
  | method (response : List UInt8) (hversion : Versioned l)
      (hroom : room (sizeof_buffer + 1024) = true) (hnot : ¬ MethodFits l) :
      FirstLine room l (.refuse response)
  | next {rd : Reading} (hversion : Versioned l) (hroom : room (sizeof_buffer + 1024) = true)
      (hmethod : MethodFits l) (part : rd.part = .HEADER)
      (path : rd.request.path = strdup room (pathOf l))
      (method : rd.request.method = some ((methodOf l.bytes).getD .OTHER))
      (attr : rd.request.attr = { Attr.zero with HTTP_1_0 := isVersion10 l })
      (length : rd.request.content_length = 0) : FirstLine room l (.next rd)

/-- A version has a space in front of it. -/
theorem Versioned.space {l : CString} (h : Versioned l) : 32 ∈ l.bytes := by
  have hmem : (32 : UInt8) ∈ (l.bytes.drop (versionAt l)).take 8 := by
    rw [h.2]
    exact List.mem_cons_self
  exact List.mem_of_mem_drop (List.mem_of_mem_take hmem)

theorem firstLine (room : ℕ → Bool) (l : CString) :
    FirstLine room l (requestLine room l .fresh) := by
  by_cases hversion : Versioned l
  · have hcheck : ¬ (32 ∉ l.bytes ∨ l.length < 14 ∨
        (l.bytes.drop (l.length - 9)).take 8 ≠ ascii " HTTP/1.") := by
      rintro (hspace | hshort | hother)
      · exact hspace hversion.space
      · exact absurd hversion.1 (Nat.not_le.mpr hshort)
      · exact hother hversion.2
    rw [requestLine]
    simp only [if_neg hcheck]
    cases hroom : room (sizeof_buffer + 1024) with
    | false =>
      -- without memory there is no buffer to write the method to
      have hstart : Reading.fresh.headers.start room = [] := by
        rw [Chain.start, hroom, Bool.and_false]
        rfl
      simp only [hstart]
      exact .crash hversion hroom
    | true =>
      -- the method goes into the first buffer
      have hstart : Reading.fresh.headers.start room = [⟨1024, []⟩] := by
        rw [Chain.start, hroom]
        rfl
      simp only [hstart, List.getLast?_singleton]
      have hnone : (methodOf l.bytes).or Reading.fresh.request.method = methodOf l.bytes :=
        Option.or_none
      simp only [hnone]
      by_cases hfits : 18 + l.bytes.idxOf 32 ≤ 1024
      · have hfit : decide (([] : List UInt8).length + 18 + l.bytes.idxOf 32 ≤ 1024) = true := by
          rw [decide_eq_true_iff, List.length_nil, Nat.zero_add]
          exact hfits
        have hmethod : (methodOf l.bytes).or (some .OTHER)
            = some ((methodOf l.bytes).getD .OTHER) := by
          cases methodOf l.bytes <;> rfl
        simp only [hfit, if_true, hmethod]
        exact .next hversion hroom (Or.inr hfits) rfl rfl rfl rfl rfl
      -- it does not fit: only a method without a code needs it
      · have hfit : decide (([] : List UInt8).length + 18 + l.bytes.idxOf 32 ≤ 1024) = false := by
          rw [decide_eq_false_iff_not, List.length_nil, Nat.zero_add]
          exact hfits
        simp only [hfit]
        cases hmethod : methodOf l.bytes with
        | none =>
          refine .method _ hversion hroom ?_
          rintro (hknown | hroom')
          · exact hknown hmethod
          · exact hfits hroom'
        | some m =>
          refine .next hversion hroom (Or.inl ?_) rfl rfl ?_ rfl rfl
          · rw [hmethod]
            exact Option.some_ne_none m
          · rw [hmethod]
            rfl
  -- another version, or none
  · have hcheck : 32 ∉ l.bytes ∨ l.length < 14 ∨
        (l.bytes.drop (l.length - 9)).take 8 ≠ ascii " HTTP/1." := by
      by_contra hnot
      push Not at hnot
      exact hversion ⟨hnot.2.1, hnot.2.2⟩
    rw [requestLine]
    simp only [if_pos hcheck]
    exact .version _ hversion

/-! ### The header lines -/

/-- The name and the value of a header line. -/
def fieldOf (l : CString) : Option (List UInt8 × List UInt8) :=
  match l.bytes.dropWhile (· ≠ 58) with
  | [] => none
  | _ :: k => some ((l.bytes.takeWhile (· ≠ 58)).map lower, k.dropWhile fun b => b = 32 ∨ b = 9)

/-- The values of the fields of a name. -/
def valuesOf (name : List UInt8) (hs : List CString) : List (List UInt8) :=
  ((hs.filterMap fieldOf).filter fun f => f.1 = name).map Prod.snd

/-- The length that is announced: that of the last field. -/
def lengthOf (hs : List CString) : ℤ :=
  match (valuesOf (ascii "content-length") hs).getLast? with
  | none => 0
  | some v => atol (cstr v)

/-- What a field does to what is looked at behind the blank line. -/
structure FieldRead (name value : List UInt8) (req req' : HttpRequest) : Prop where
  version : req'.attr.HTTP_1_0 = req.attr.HTTP_1_0
  host : req'.attr.HOST_HEADER = true ↔ req.attr.HOST_HEADER = true ∨ name = ascii "host"
  announced : req'.attr.CONTENT_LENGTH = true ↔
    req.attr.CONTENT_LENGTH = true ∨ name = ascii "content-length"
  length : req'.content_length
    = if name = ascii "content-length" then atol (cstr value) else req.content_length

/-- A field of another name is not looked at there. -/
theorem FieldRead.other {name value : List UInt8} {req req' : HttpRequest}
    (hhost : name ≠ ascii "host") (hlength : name ≠ ascii "content-length")
    (h₁ : req'.attr.HTTP_1_0 = req.attr.HTTP_1_0)
    (h₂ : req'.attr.HOST_HEADER = req.attr.HOST_HEADER)
    (h₃ : req'.attr.CONTENT_LENGTH = req.attr.CONTENT_LENGTH)
    (h₄ : req'.content_length = req.content_length) : FieldRead name value req req' where
  version := h₁
  host := by rw [h₂, or_iff_left hhost]
  announced := by rw [h₃, or_iff_left hlength]
  length := by rw [h₄, if_neg hlength]

theorem headerField_read (room : ℕ → Bool) (name value : List UInt8) (req : HttpRequest) :
    FieldRead name value req (headerField room name value req) := by
  have hnames : ∀ other ∈ [ascii "upgrade", ascii "content-type", ascii "connection",
      ascii "sec-websocket-key", ascii "sec-websocket-protocol", ascii "sec-websocket-version"],
      other ≠ ascii "host" ∧ other ≠ ascii "content-length" := by
    decide
  unfold headerField
  split
  · next heq =>
    obtain ⟨h₁, h₂⟩ := hnames name (by rw [heq]; decide)
    split <;> exact .other h₁ h₂ rfl rfl rfl rfl
  · split
    · next heq =>
      subst heq
      exact ⟨rfl, (or_iff_left (by decide)).symm, iff_of_true rfl (Or.inr rfl), rfl⟩
    · next hlength =>
      split
      · next heq =>
        obtain ⟨h₁, h₂⟩ := hnames name (by rw [heq]; decide)
        exact .other h₁ h₂ rfl rfl rfl rfl
      · split
        · next heq =>
          subst heq
          exact ⟨rfl, iff_of_true rfl (Or.inr rfl), (or_iff_left hlength).symm,
            (if_neg hlength).symm⟩
        · next hhost =>
          repeat' split
          all_goals exact .other hhost hlength rfl rfl rfl rfl

/-- **What header lines do** to a request. -/
structure HeadersRead (hs : List CString) (rd rd' : Reading) : Prop where
  part : rd'.part = rd.part
  path : rd'.request.path = rd.request.path
  method : rd'.request.method = rd.request.method
  body : rd'.request.body = rd.request.body
  version : rd'.request.attr.HTTP_1_0 = rd.request.attr.HTTP_1_0
  host : rd'.request.attr.HOST_HEADER = true ↔
    rd.request.attr.HOST_HEADER = true ∨ valuesOf (ascii "host") hs ≠ []
  announced : rd'.request.attr.CONTENT_LENGTH = true ↔
    rd.request.attr.CONTENT_LENGTH = true ∨ valuesOf (ascii "content-length") hs ≠ []
  length : rd'.request.content_length
    = if valuesOf (ascii "content-length") hs = [] then rd.request.content_length
      else lengthOf hs

section Headers

variable {room : ℕ → Bool} {l : CString} {hs : List CString} {rd rd' : Reading}

theorem valuesOf_cons (name : List UInt8) (l : CString) (hs : List CString) :
    valuesOf name (l :: hs) = valuesOf name [l] ++ valuesOf name hs := by
  rw [valuesOf, valuesOf, valuesOf, ← List.map_append, ← List.filter_append,
    ← List.filterMap_append]
  rfl

theorem valuesOf_singleton {name : List UInt8} {f : List UInt8 × List UInt8}
    (h : fieldOf l = some f) : valuesOf name [l] = if f.1 = name then [f.2] else [] := by
  rw [valuesOf, List.filterMap_cons_some h, List.filterMap_nil, List.filter_singleton]
  by_cases hname : f.1 = name <;> simp [hname]

theorem HeadersRead.nil : HeadersRead [] rd rd where
  part := rfl
  path := rfl
  method := rfl
  body := rfl
  version := rfl
  host := (or_iff_left (fun h => h rfl)).symm
  announced := (or_iff_left (fun h => h rfl)).symm
  length := rfl

/-- What a header line does. -/
theorem headerLine_read (room : ℕ → Bool) (l : CString) (rd : Reading) :
    ∃ rd', headerLine room l rd = .next rd' ∧ HeadersRead [l] rd rd' := by
  unfold headerLine
  simp only
  split
  · next hnone =>
    -- without a colon it is only recorded
    have hfield : fieldOf l = none := by
      rw [fieldOf, hnone]
    refine ⟨_, rfl, ?_⟩
    have hvalues : ∀ name, valuesOf name [l] = [] := by
      intro name
      rw [valuesOf, List.filterMap_cons_none hfield]
      rfl
    exact ⟨rfl, rfl, rfl, rfl, rfl, by rw [hvalues, or_iff_left (fun h => h rfl)],
      by rw [hvalues, or_iff_left (fun h => h rfl)], by rw [if_pos (hvalues _)]⟩
  · next b k hcolon =>
    have hfield : fieldOf l = some ((l.bytes.takeWhile (· ≠ 58)).map lower,
        k.dropWhile fun b => b = 32 ∨ b = 9) := by
      rw [fieldOf, hcolon]
    obtain ⟨hpath, hmethod, hbody, -⟩ := headerField_frame room
      ((l.bytes.takeWhile (· ≠ 58)).map lower) (k.dropWhile fun b => b = 32 ∨ b = 9) rd.request
    have hread := headerField_read room ((l.bytes.takeWhile (· ≠ 58)).map lower)
      (k.dropWhile fun b => b = 32 ∨ b = 9) rd.request
    refine ⟨_, rfl, rfl, hpath, hmethod, hbody, hread.version, ?_, ?_, ?_⟩
    · rw [valuesOf_singleton hfield]
      refine hread.host.trans (or_congr Iff.rfl ?_)
      split <;> simp_all
    · rw [valuesOf_singleton hfield]
      refine hread.announced.trans (or_congr Iff.rfl ?_)
      split <;> simp_all
    · rw [lengthOf, valuesOf_singleton hfield]
      refine hread.length.trans ?_
      split <;> rfl

theorem HeadersRead.cons {rd₁ : Reading} (h : HeadersRead [l] rd rd₁)
    (h' : HeadersRead hs rd₁ rd') : HeadersRead (l :: hs) rd rd' where
  part := h'.part.trans h.part
  path := h'.path.trans h.path
  method := h'.method.trans h.method
  body := h'.body.trans h.body
  version := h'.version.trans h.version
  host := by
    rw [h'.host, h.host, valuesOf_cons _ l hs, Ne, Ne, Ne, List.append_eq_nil_iff, not_and_or,
      or_assoc]
  announced := by
    rw [h'.announced, h.announced, valuesOf_cons _ l hs, Ne, Ne, Ne, List.append_eq_nil_iff,
      not_and_or, or_assoc]
  length := by
    rw [h'.length]
    by_cases hnone : valuesOf (ascii "content-length") hs = []
    · have hsame : valuesOf (ascii "content-length") (l :: hs)
          = valuesOf (ascii "content-length") [l] := by
        rw [valuesOf_cons, hnone, List.append_nil]
      rw [if_pos hnone, h.length, lengthOf, lengthOf, hsame]
    · rw [if_neg hnone, lengthOf, lengthOf, valuesOf_cons _ l hs,
        List.getLast?_append_of_ne_nil _ hnone, if_neg]
      exact fun hnil => hnone (List.append_eq_nil_iff.mp hnil).2

/-- **Header lines** are all read. -/
theorem readLines_headers (room : ℕ → Bool) (hs : List CString) {rd : Reading}
    (hpart : rd.part = .HEADER) :
    ∃ rd', readLines room hs rd = .next rd' ∧ HeadersRead hs rd rd' := by
  induction hs generalizing rd with
  | nil => exact ⟨rd, rfl, .nil⟩
  | cons l hs ih =>
    obtain ⟨rd₁, hnext, hread⟩ := headerLine_read room l rd
    obtain ⟨rd', hrest, hread'⟩ := ih (hread.part.trans hpart)
    refine ⟨rd', ?_, hread.cons hread'⟩
    rw [readLines, line, hpart, hnext]
    exact hrest

end Headers

/-! ### At the blank line -/

/-- **What a request has to have** at the blank line. -/
theorem verdict_ne_refuse_iff {alloc : ℕ → Option Memory} {req : HttpRequest}
    (hlength : LengthAnnounced req) :
    (∀ text, verdict alloc req ≠ .refuse text) ↔
      (req.attr.HTTP_1_0 = true ∨ req.attr.HOST_HEADER = true) ∧
      (0 ≤ req.content_length ∧ req.content_length ≤ 2147483640) ∧
      (0 < req.content_length → alloc (req.content_length.toNat + 1) ≠ none ∧
        req.method ≠ some .GET ∧ req.method ≠ some .HEAD) := by
  by_cases hhost : req.attr.HTTP_1_0 = true ∨ req.attr.HOST_HEADER = true
  · have hcheck : ¬ (¬ req.attr.HTTP_1_0 = true ∧ ¬ req.attr.HOST_HEADER = true) := by
      rwa [← not_or, not_not]
    rw [and_iff_right hhost, verdict, if_neg hcheck, allocBody, announced]
    by_cases hzero : req.content_length = 0
    · -- no body
      have hless : bodyless req = true := by simp [bodyless, hzero]
      simp [hzero, hless]
    -- a length other than zero has been announced
    · have hannounced := hlength hzero
      by_cases hrange : req.content_length < 0 ∨ req.content_length > 2147483640
      -- a length that is out of range
      · refine iff_of_false (fun h => h bodyTooBig ?_) fun h => ?_
        · simp [hzero, hannounced, hrange]
        · omega
      · have hpos : 0 < req.content_length := by omega
        cases halloc : alloc (req.content_length.toNat + 1) with
        -- no memory for the body is reported as a body that is too big
        | none =>
          refine iff_of_false (fun h => h bodyTooBig ?_) fun h => (h.2 hpos).1 rfl
          simp [hzero, hannounced, hrange]
        | some mem =>
          by_cases hmethod : req.method = some .GET ∨ req.method = some .HEAD
          · have hless : bodyless req = true := by
              rcases hmethod with h | h <;> simp [bodyless, h]
            refine iff_of_false (fun h => h getWithBody ?_) fun h => ?_
            · simp [hzero, hannounced, hrange, hpos, hless]
            · exact hmethod.elim (h.2 hpos).2.1 (h.2 hpos).2.2
          · have hless : bodyless req = false := by
              rw [not_or] at hmethod
              simp [bodyless, hannounced, hzero, hmethod]
            refine iff_of_true (fun text => ?_) ⟨by omega, fun _ => ⟨Option.some_ne_none mem, ?_⟩⟩
            · simp [hzero, hannounced, hrange, hless]
            · rwa [← not_or]
  -- no host
  · refine iff_of_false (fun h => h hostMissing ?_) fun h => hhost h.1
    rw [verdict, if_pos]
    rwa [not_or] at hhost

/-- A request line of a method that takes no body. -/
def TakesNoBody (l : CString) : Prop :=
  methodOf l.bytes = some .GET ∨ methodOf l.bytes = some .HEAD

/-- **The checks that a request has to pass**, by its lines. -/
structure LetIn (alloc : ℕ → Option Memory) (l : CString) (hs : List CString) : Prop where
  versioned : Versioned l
  fits : MethodFits l
  /-- Version 1.1 needs a host. -/
  host : isVersion10 l = true ∨ valuesOf (ascii "host") hs ≠ []
  /-- The last length is in range. -/
  range : 0 ≤ lengthOf hs ∧ lengthOf hs ≤ 2147483640
  /-- There is memory for a body, and the method takes one. -/
  body : 0 < lengthOf hs → alloc ((lengthOf hs).toNat + 1) ≠ none ∧ ¬ TakesNoBody l

/-- **What the lines of a request are read into.** -/
structure HeadRead (room : ℕ → Bool) (l : CString) (hs : List CString) (rd : Reading) :
    Prop where
  versioned : Versioned l
  buffer : room (sizeof_buffer + 1024) = true
  fits : MethodFits l
  path : rd.request.path = strdup room (pathOf l)
  method : rd.request.method = some ((methodOf l.bytes).getD .OTHER)
  version : rd.request.attr.HTTP_1_0 = isVersion10 l
  host : rd.request.attr.HOST_HEADER = true ↔ valuesOf (ascii "host") hs ≠ []
  announced : rd.request.attr.CONTENT_LENGTH = true ↔ valuesOf (ascii "content-length") hs ≠ []
  length : rd.request.content_length = lengthOf hs

section Head

variable {alloc : ℕ → Option Memory} {room : ℕ → Bool} {l : CString} {hs : List CString}
  {rd : Reading}

/-- **The lines of a request** are refused, lead to a null pointer or are read, by what the
request line comes to. -/
theorem readLines_cons (room : ℕ → Bool) (l : CString) (hs : List CString) :
    (¬ (Versioned l ∧ (room (sizeof_buffer + 1024) = true → MethodFits l)) ∧
        ∃ response, readLines room (l :: hs) .fresh = .refuse response) ∨
      (Versioned l ∧ room (sizeof_buffer + 1024) = false ∧
        readLines room (l :: hs) .fresh = .crash) ∨
      ∃ rd, readLines room (l :: hs) .fresh = .next rd ∧ HeadRead room l hs rd := by
  have hfirst := firstLine room l
  have hline : line room l .fresh = requestLine room l .fresh := rfl
  cases hres : requestLine room l .fresh with
  -- a request line that is refused is not of the version, or its method does not fit
  | refuse response =>
    rw [hres] at hfirst
    have hread : readLines room (l :: hs) .fresh = .refuse response := by
      rw [readLines, hline, hres]
    refine Or.inl ⟨?_, response, hread⟩
    cases hfirst with
    | version _ hnot => exact fun h => hnot h.1
    | method _ hversion hroom hnot => exact fun h => hnot (h.2 hroom)
  -- without memory for the method a null pointer is followed
  | crash =>
    rw [hres] at hfirst
    have hread : readLines room (l :: hs) .fresh = .crash := by
      rw [readLines, hline, hres]
    cases hfirst with
    | crash hversion hroom => exact Or.inr (Or.inl ⟨hversion, hroom, hread⟩)
  -- the headers are read behind it
  | next rd₁ =>
    rw [hres] at hfirst
    cases hfirst with
    | next hversion hroom hmethod part path method attr length =>
      obtain ⟨rd, hrest, h⟩ := readLines_headers room hs part
      have hread : readLines room (l :: hs) .fresh = .next rd := by
        rw [readLines, hline, hres]
        exact hrest
      refine Or.inr (Or.inr ⟨rd, hread, hversion, hroom, hmethod, h.path.trans path,
        h.method.trans method, ?_, ?_, ?_, ?_⟩)
      · rw [h.version, attr]
      · rw [h.host, attr, or_iff_right]
        exact Bool.false_ne_true
      · rw [h.announced, attr, or_iff_right]
        exact Bool.false_ne_true
      · rw [h.length, length, lengthOf]
        split
        · next hnil => rw [hnil, List.getLast?_nil]
        · rfl

/-- Lines that have been read are a request line and headers. -/
theorem HeadRead.of_next (h : readLines room (l :: hs) .fresh = .next rd) :
    HeadRead room l hs rd := by
  obtain ⟨-, response, hrefuse⟩ | ⟨-, -, hcrash⟩ | ⟨rd', hnext, hhead⟩ := readLines_cons room l hs
  · rw [h] at hrefuse
    cases hrefuse
  · rw [h] at hcrash
    cases hcrash
  · rw [h] at hnext
    exact LineResult.next.inj hnext ▸ hhead

/-- A length comes from a field. -/
theorem HeadRead.lengthAnnounced (h : HeadRead room l hs rd) : LengthAnnounced rd.request := by
  intro hne
  rw [h.announced]
  intro hnil
  rw [h.length, lengthOf, hnil] at hne
  exact hne rfl

/-- **A request whose lines have been read is let in** exactly if it passes the checks. -/
theorem HeadRead.letIn_iff (h : HeadRead room l hs rd) :
    (∀ text, verdict alloc rd.request ≠ .refuse text) ↔ LetIn alloc l hs := by
  have hmethod : ∀ m, m ≠ Method.OTHER →
      (rd.request.method ≠ some m ↔ methodOf l.bytes ≠ some m) := by
    intro m hm
    rw [h.method]
    cases methodOf l.bytes with
    | none => simpa using hm.symm
    | some m' => rfl
  rw [verdict_ne_refuse_iff h.lengthAnnounced, h.length, h.version, h.host,
    hmethod .GET (by decide), hmethod .HEAD (by decide), ← not_or]
  constructor
  · rintro ⟨hhost, hrange, hbody⟩
    exact ⟨h.versioned, h.fits, hhost, hrange, hbody⟩
  · intro hin
    exact ⟨hin.host, hin.range, hin.body⟩

end Head

end Http
end Osrv
