import Mathlib.Algebra.Order.BigOperators.Group.List
import Osrv.Http.Turn
import Osrv.Lib.Message

/-!
# Requests as clients write them

A client writes the request line and the header lines, the empty one and the body. If the
lines are text, name a host, announce the length of the body and do not ask for the
connection to be closed, and if the head fits the line buffer and what is recorded of it the
first header buffer, then the server, however the bytes arrive, calls the handler with just
this request (`WrittenRequest.asks`) and keeps the connection open (`WrittenRequest.keepAlive`).
-/

namespace Osrv
namespace Http

open Bytes Net

/-! ### Heads -/

/-- A line of a head. -/
def IsLine (line : List UInt8) : Prop := line ≠ [] ∧ ∀ b ∈ line, isText b = true

instance (line : List UInt8) : Decidable (IsLine line) :=
  @instDecidableAnd _ _ _ (List.decidableBAll _ _)

section Heads

variable {line rest : List UInt8} {lines : List (List UInt8)}

/-- A line with its end. -/
theorem IsLine.split (h : IsLine line) (rest : List UInt8) :
    afterBlank (line ++ 13 :: 10 :: rest) = none ∧ lineOf (line ++ 13 :: 10 :: rest) = line ∧
      afterEol (tailOf (line ++ 13 :: 10 :: rest)) = some rest := by
  obtain ⟨hne, htext⟩ := h
  refine ⟨?_, takeWhile_append_stop _ htext rfl, ?_⟩
  · obtain ⟨b, bs, rfl⟩ := List.exists_cons_of_ne_nil hne
    have hb := htext b List.mem_cons_self
    rw [List.cons_append]
    unfold afterBlank
    split
    · next heq =>
      obtain rfl := (List.cons.inj heq).1
      cases hb
    · next heq =>
      obtain rfl := (List.cons.inj heq).1
      cases hb
    · rfl
  · rw [tailOf, List.dropWhile_append_of_pos htext]
    rfl

/-- **A head is read** up to the empty line. -/
theorem splitHead_writeHead (h : ∀ line ∈ lines, IsLine line) (rest : List UInt8) :
    splitHead (Message.writeHead lines ++ rest) = (lines, some rest) := by
  induction lines with
  | nil => exact splitHead_blank rfl
  | cons line lines ih =>
    obtain ⟨hblank, hline, hend⟩ :=
      (h line List.mem_cons_self).split (Message.writeHead lines ++ rest)
    have hwritten : Message.writeHead (line :: lines) ++ rest
        = line ++ 13 :: 10 :: (Message.writeHead lines ++ rest) := by
      rw [Message.writeHead_cons, List.append_assoc]
      rfl
    rw [hwritten, splitHead_line hblank hend, hline,
      ih fun l hl => h l (List.mem_cons_of_mem _ hl)]

theorem zero_notMem_writeHead (h : ∀ line ∈ lines, IsLine line) :
    (0 : UInt8) ∉ Message.writeHead lines := by
  intro hmem
  rw [Message.writeHead, List.mem_append, List.mem_flatMap] at hmem
  obtain ⟨line, hline, hmem⟩ | hmem := hmem
  · rw [List.mem_append] at hmem
    obtain hmem | hmem := hmem
    · cases (h line hline).2 0 hmem
    · revert hmem
      decide
  · revert hmem
    decide

/-- A front of a head and what follows it has the head in it, or is part of the head. -/
theorem front_of_writeHead (h : ∀ line ∈ lines, IsLine line) {xs ys body : List UInt8}
    (hsplit : Message.writeHead lines ++ body = xs ++ ys) :
    (splitHead xs).2 ≠ none ∨ xs <+: Message.writeHead lines ∧ xs ≠ Message.writeHead lines := by
  have hwhole : ∀ more, (splitHead (Message.writeHead lines ++ more)).2 ≠ none := by
    intro more
    rw [splitHead_writeHead h more]
    exact Option.some_ne_none _
  obtain ⟨more, rfl, -⟩ | ⟨more, hfront, -⟩ := List.append_eq_append_iff.mp hsplit
  · exact Or.inl (hwhole more)
  · by_cases heq : xs = Message.writeHead lines
    · left
      rw [heq, ← List.append_nil (Message.writeHead lines)]
      exact hwhole []
    · exact Or.inr ⟨⟨more, hfront.symm⟩, heq⟩

end Heads

/-! ### Fields that keep the connection open -/

section Fields

variable {room : ℕ → Bool} {l : CString} {hs : List CString} {rd rd' : Reading}

/-- The values of a field that ask for the connection to be closed. -/
def closes (value : List UInt8) : Bool := (ascii "close").isPrefixOf (value.map lower)

theorem headerField_close {name value : List UInt8} {req : HttpRequest}
    (hreq : req.attr.CONNECTION_CLOSE = false)
    (h : name = ascii "connection" → closes value = false) :
    (headerField room name value req).attr.CONNECTION_CLOSE = false := by
  unfold headerField
  repeat' split
  all_goals first | exact hreq | skip
  next hname =>
    show (req.attr.CONNECTION_CLOSE || closes value) = false
    rw [hreq, h hname]
    rfl

theorem headerLine_close (hrd : rd.request.attr.CONNECTION_CLOSE = false)
    (h : ∀ v ∈ valuesOf (ascii "connection") [l], closes v = false)
    (hline : headerLine room l rd = .next rd') :
    rd'.request.attr.CONNECTION_CLOSE = false := by
  unfold headerLine at hline
  simp only at hline
  split at hline
  · cases hline
    exact hrd
  · next b k hcolon =>
    cases hline
    refine headerField_close hrd fun hname => h _ ?_
    have hfield : fieldOf l = some ((l.bytes.takeWhile (· ≠ 58)).map lower,
        k.dropWhile fun b => b = 32 ∨ b = 9) := by
      rw [fieldOf, hcolon]
    rw [valuesOf_singleton hfield, if_pos hname]
    exact List.mem_singleton_self _

/-- Header lines that do not ask for it leave the connection open. -/
theorem readLines_close (hpart : rd.part = .HEADER)
    (hrd : rd.request.attr.CONNECTION_CLOSE = false)
    (h : ∀ v ∈ valuesOf (ascii "connection") hs, closes v = false)
    (hread : readLines room hs rd = .next rd') :
    rd'.request.attr.CONNECTION_CLOSE = false := by
  induction hs generalizing rd with
  | nil =>
    cases hread
    exact hrd
  | cons l hs ih =>
    rw [valuesOf_cons] at h
    obtain ⟨rd₁, hnext, hline⟩ := headerLine_read room l rd
    rw [readLines, line, hpart, hnext] at hread
    exact ih (hline.part.trans hpart)
      (headerLine_close hrd (fun v hv => h v (List.mem_append_left _ hv)) hnext)
      (fun v hv => h v (List.mem_append_right _ hv)) hread

/-- The request line does not ask for it. -/
theorem head_close (h : ∀ v ∈ valuesOf (ascii "connection") hs, closes v = false)
    (hread : readLines room (l :: hs) .fresh = .next rd) :
    rd.request.attr.CONNECTION_CLOSE = false := by
  have hfirst := firstLine room l
  have hline : line room l .fresh = requestLine room l .fresh := rfl
  rw [readLines, hline] at hread
  generalize requestLine room l .fresh = r at hfirst hread
  cases hfirst with
  | version response hnot => cases hread
  | crash hversion hroom => cases hread
  | method response hversion hroom hnot => cases hread
  | next hversion hroom hmethod part path method attr length =>
    exact readLines_close part (congrArg Attr.CONNECTION_CLOSE attr) h hread

end Fields

/-! ### What is recorded -/

section Recorded

variable {room : ℕ → Bool} {l : CString} {ls : List CString} {rd rd' : Reading}

theorem length_bytes_append (hs : Chain) (bs : List UInt8) :
    (hs.append bs).bytes.length ≤ hs.bytes.length + bs.length := by
  rcases List.eq_nil_or_concat hs with rfl | ⟨front, tail, rfl⟩
  · exact Nat.zero_le _
  · rw [List.concat_eq_append, Chain.append, List.getLast?_concat, List.dropLast_concat]
    simp only [Chain.bytes, List.flatMap_append, List.flatMap_singleton, List.length_append]
    omega

/-- A line is recorded with one byte behind it, at most. -/
theorem length_bytes_record (hs : Chain) (bol : List UInt8) :
    (hs.record room bol).bytes.length ≤ hs.bytes.length + (bol.length + 1) := by
  rw [Chain.record]
  split
  · exact Nat.le_add_right _ _
  · next tail htail =>
    simp only
    split
    · exact Nat.le_add_right _ _
    · split
      -- what does not fit goes to a new buffer
      · have hfront := length_bytes_append hs (bol.take (tail.size - tail.data.length))
        rw [List.length_take] at hfront
        split
        · simp only [Chain.bytes, List.flatMap_append, List.flatMap_singleton,
            List.length_append, List.length_drop, List.length_singleton] at hfront ⊢
          omega
        · omega
      · refine (length_bytes_append hs _).trans_eq ?_
        rw [List.length_append, List.length_singleton]

theorem bytes_start (hs : Chain) : (hs.start room).bytes = hs.bytes := by
  rw [Chain.start]
  split
  · next hnew =>
    rw [Bool.and_eq_true, List.isEmpty_iff] at hnew
    rw [hnew.1]
    rfl
  · rfl

/-- Of the request line the method is recorded. -/
theorem length_recorded_first (h : requestLine room l .fresh = .next rd) :
    rd.headers.bytes.length ≤ 17 + l.bytes.idxOf 32 := by
  unfold requestLine at h
  simp only at h
  split at h
  · cases h
  · split at h
    · cases h
    · split at h
      · cases h
      · cases h
        show (if _ then _ else _ : Chain).bytes.length ≤ _
        have hnone : (Reading.fresh.headers.start room).bytes.length = 0 :=
          congrArg List.length (bytes_start [])
        split
        · refine (length_bytes_append _ _).trans ?_
          rw [hnone, List.length_append, List.length_append, List.length_take,
            List.length_singleton, show (ascii "Request-Method: ").length = 16 from rfl]
          omega
        · rw [hnone]
          exact Nat.zero_le _

theorem length_recorded_headers (hpart : rd.part = .HEADER)
    (h : readLines room ls rd = .next rd') : rd'.headers.bytes.length
      ≤ rd.headers.bytes.length + (ls.map fun l => l.bytes.length + 1).sum := by
  induction ls generalizing rd with
  | nil =>
    cases h
    exact Nat.le_refl _
  | cons l ls ih =>
    obtain ⟨rd₁, hnext, hpart₁, hheaders, -⟩ := headerLine_next room l rd
    rw [readLines, line, hpart, hnext] at h
    refine (ih (hpart₁.trans hpart) h).trans ?_
    have hline : ((rd.headers.start room).record room l.bytes).bytes.length
        ≤ (rd.headers.start room).bytes.length + (l.bytes.length + 1) :=
      length_bytes_record (rd.headers.start room) l.bytes
    rw [bytes_start] at hline
    rw [hheaders, List.map_cons, List.sum_cons]
    omega

/-- **What is recorded of a head** is the method and the header lines, at most. -/
theorem length_recorded (h : readLines room (l :: ls) .fresh = .next rd) :
    rd.headers.bytes.length
      ≤ 17 + l.bytes.idxOf 32 + (ls.map fun l => l.bytes.length + 1).sum := by
  have hfirst := firstLine room l
  have hline : line room l .fresh = requestLine room l .fresh := rfl
  rw [readLines, hline] at h
  cases hres : requestLine room l .fresh with
  | refuse response =>
    rw [hres] at h
    cases h
  | crash =>
    rw [hres] at h
    cases h
  | next rd₁ =>
    rw [hres] at h hfirst
    cases hfirst with
    | next hversion hroom hmethod part path method attr length =>
      exact (length_recorded_headers part h).trans
        (Nat.add_le_add_right (length_recorded_first hres) _)

end Recorded

/-! ### Requests -/

/-- The name of a method. -/
def Method.word : Method → List UInt8
  | .POST => ascii "POST"
  | .GET => ascii "GET"
  | .HEAD => ascii "HEAD"
  | .PUT => ascii "PUT"
  | .DELETE => ascii "DELETE"
  | .OTHER => []

theorem methodOf_word {m : Method} (h : m ≠ .OTHER) (rest : List UInt8) :
    methodOf (m.word ++ 32 :: rest) = some m := by
  cases m with
  | OTHER => exact absurd rfl h
  | _ => rfl

theorem space_notMem_word (m : Method) : (32 : UInt8) ∉ m.word := by
  cases m <;> decide

def startLine (m : Method) (target : List UInt8) : List UInt8 :=
  m.word ++ 32 :: target ++ ascii " HTTP/1.1"

/-- **A request** as it is written. -/
def writeRequest (m : Method) (target : List UInt8) (fields : List (List UInt8))
    (body : List UInt8) : List UInt8 :=
  Message.writeHead (startLine m target :: fields) ++ body

/-- What is recorded of its head. -/
def recordedHead (m : Method) (fields : List (List UInt8)) : List UInt8 :=
  ascii "Request-Method: " ++ m.word ++ 10 :: fields.flatMap fun line => line ++ [10]

/-- A request that can be written, and that keeps the connection open. -/
structure WrittenRequest (m : Method) (target : CString) (fields : List (List UInt8))
    (body : List UInt8) : Prop where
  known : m ≠ .OTHER
  /-- Only some methods take a body. -/
  bodiless : m = .GET ∨ m = .HEAD → body = []
  named : target.bytes ≠ [] ∧ ∀ b ∈ target.bytes, isText b = true
  lines : ∀ line ∈ fields, IsLine line
  host : valuesOf (ascii "host") (fields.map cstr) ≠ []
  /-- The length of the body is announced if there is one. -/
  length : lengthOf (fields.map cstr) = body.length
  keeps : ∀ v ∈ valuesOf (ascii "connection") (fields.map cstr), closes v = false
  /-- The head fits the line buffer. -/
  short : (Message.writeHead (startLine m target.bytes :: fields)).length < LINE_BUF_SIZE
  /-- What is recorded of it fits the first header buffer. -/
  recorded : (recordedHead m fields).length ≤ 1024 + 8
  small : body.length ≤ 2147483640

/-- **What the handler is asked for.** -/
structure Asks (req : HttpRequest) (m : Method) (target : CString) (body : List UInt8) :
    Prop where
  path : req.path = some target
  method : req.method = some m
  version : req.attr.HTTP_1_0 = false
  length : req.content_length = body.length
  bytes : bodyBytes req = if body = [] then none else some body

section Written

variable {m : Method} {target : CString} {fields : List (List UInt8)} {body : List UInt8}
  {malloc : Malloc} {k : ℕ}

/-- The request line as the server has it. -/
theorem startLine_bytes (htarget : ∀ b ∈ target.bytes, isText b = true) :
    (cstr (startLine m target.bytes)).bytes
      = m.word ++ 32 :: target.bytes ++ ascii " HTTP/1." ++ [49] := by
  have hline : startLine m target.bytes
      = m.word ++ 32 :: target.bytes ++ ascii " HTTP/1." ++ [49] :=
    (List.append_assoc _ (ascii " HTTP/1.") [49]).symm
  rw [← hline, cstr_bytes, List.takeWhile_eq_self_iff]
  intro b hb
  rw [bne_iff_ne]
  rintro rfl
  rw [startLine, List.mem_append, List.mem_append, List.mem_cons] at hb
  obtain (hmethod | hspace | hmem) | hversion := hb
  · revert hmethod
    cases m <;> decide
  · cases hspace
  · cases htarget 0 hmem
  · revert hversion
    decide

namespace WrittenRequest

variable (h : WrittenRequest m target fields body)

include h

theorem isLine : ∀ line ∈ startLine m target.bytes :: fields, IsLine line := by
  intro line hline
  obtain rfl | hline := List.mem_cons.mp hline
  · refine ⟨by simp [startLine], fun b hb => ?_⟩
    rw [startLine, List.mem_append, List.mem_append, List.mem_cons] at hb
    obtain (hmethod | rfl | hmem) | hversion := hb
    · have hword : m.word.all isText = true := by
        cases m <;> decide
      exact List.all_eq_true.mp hword b hmethod
    · rfl
    · exact h.named.2 b hmem
    · have htext : (ascii " HTTP/1.1").all isText = true := by decide
      exact List.all_eq_true.mp htext b hversion
  · exact h.lines line hline

theorem splitHead : Http.splitHead (writeRequest m target.bytes fields body)
    = (startLine m target.bytes :: fields, some body) :=
  splitHead_writeHead h.isLine body

theorem completeLines : Http.completeLines (writeRequest m target.bytes fields body)
    = cstr (startLine m target.bytes) :: fields.map cstr := by
  rw [Http.completeLines, h.splitHead, if_neg (Option.some_ne_none _)]
  rfl

/-- The target is at most as long as the head. -/
theorem length_target : target.length + 1 < LINE_BUF_SIZE := by
  have hshort := h.short
  rw [Message.writeHead_cons, startLine] at hshort
  simp only [List.length_append, List.length_cons] at hshort
  change target.bytes.length + 1 < LINE_BUF_SIZE
  omega

theorem versioned : Versioned (cstr (startLine m target.bytes)) := by
  have hbytes := startLine_bytes (m := m) h.named.2
  obtain ⟨-, hat, -⟩ := places hbytes (space_notMem_word m)
  have hword : 3 ≤ m.word.length := by
    have hknown := h.known
    cases m with
    | OTHER => exact absurd rfl hknown
    | _ => decide
  have hpos := List.length_pos_of_ne_nil h.named.1
  constructor
  · rw [CString.length, hbytes, List.length_append, List.length_append, List.length_append,
      List.length_cons, show (ascii " HTTP/1.").length = 8 from rfl, List.length_singleton]
    omega
  · have hfront : (m.word ++ 32 :: target.bytes).length
        = m.word.length + 1 + target.bytes.length := by
      rw [List.length_append, List.length_cons]
      omega
    rw [hat, hbytes, List.append_assoc, ← hfront, List.drop_left]
    rfl

theorem method : methodOf (cstr (startLine m target.bytes)).bytes = some m := by
  rw [startLine_bytes h.named.2, List.append_assoc, List.append_assoc, List.cons_append]
  exact methodOf_word h.known _

theorem version : isVersion10 (cstr (startLine m target.bytes)) = false := by
  have hbytes : (cstr (startLine m target.bytes)).bytes
      = (m.word ++ 32 :: target.bytes ++ ascii " HTTP/") ++ [49, 46, 49] := by
    rw [startLine_bytes h.named.2, List.append_assoc, List.append_assoc _ (ascii " HTTP/")]
    rfl
  rw [isVersion10, CString.length, hbytes, List.length_append,
    show ([49, 46, 49] : List UInt8).length = 3 from rfl, Nat.add_sub_cancel, List.drop_left]
  decide

/-- **The head is read** as it was written. -/
theorem read (hmalloc : malloc.Succeeds) (k : ℕ) : ∃ rd,
    scan (roomAt malloc k) .fresh (writeRequest m target.bytes fields body) = .blank rd body ∧
      HeadRead (roomAt malloc k) (cstr (startLine m target.bytes)) (fields.map cstr) rd ∧
      rd.request.path = some target ∧ rd.request.method = some m ∧
      rd.request.attr.HTTP_1_0 = false ∧ rd.request.attr.CONNECTION_CLOSE = false ∧
      rd.request.content_length = body.length := by
  have hroom : ∀ n, n ≤ PTRDIFF_MAX → roomAt malloc k n = true := by
    intro n hn
    obtain ⟨mem, hmem⟩ := hmalloc k n hn
    rw [roomAt, hmem]
    rfl
  have hscan : scan (roomAt malloc k) .fresh (writeRequest m target.bytes fields body) = _ :=
    scan_of_head (congrArg Prod.snd h.splitHead)
  rw [h.completeLines] at hscan
  have hfits : MethodFits (cstr (startLine m target.bytes)) := by
    left
    rw [h.method]
    exact Option.some_ne_none m
  obtain ⟨hnot, -⟩ | ⟨-, hnone, -⟩ | ⟨rd, hread, hhead⟩ := readLines_cons (roomAt malloc k)
    (cstr (startLine m target.bytes)) (fields.map cstr)
  · exact absurd ⟨h.versioned, fun _ => hfits⟩ hnot
  · rw [hroom _ (by decide)] at hnone
    cases hnone
  · rw [hread] at hscan
    obtain ⟨-, -, -, hpath⟩ := places (startLine_bytes (m := m) h.named.2) (space_notMem_word m)
    refine ⟨rd, hscan, hhead, ?_, ?_, ?_, head_close h.keeps hread, ?_⟩
    · have hlen : (pathOf (cstr (startLine m target.bytes))).length = target.length :=
        congrArg List.length hpath
      have hmax : LINE_BUF_SIZE ≤ PTRDIFF_MAX := by decide
      have hshort := h.length_target
      rw [hhead.path, strdup, hlen, hroom _ (by omega), if_pos rfl]
      exact congrArg some (CString.ext hpath)
    · rw [hhead.method, h.method]
      rfl
    · rw [hhead.version, h.version]
    · rw [hhead.length, h.length]

/-- The handler is called with it. -/
theorem answer (hmalloc : malloc.Succeeds) (k : ℕ) :
    ∃ rd, Http.answer malloc k (writeRequest m target.bytes fields body) = .call rd [] := by
  obtain ⟨rd, hscan, hhead, -, -, -, -, hlength⟩ := h.read hmalloc k
  have hbody : rd.bodyLength = body.length := by
    rw [Reading.bodyLength, hlength]
    exact Int.toNat_natCast _
  have hin : LetIn (malloc.alloc k) (cstr (startLine m target.bytes)) (fields.map cstr) := by
    refine ⟨h.versioned, hhead.fits, Or.inr h.host, ?_, fun hpos => ⟨?_, ?_⟩⟩
    · have hsmall := h.small
      rw [h.length]
      omega
    · have hsmall := h.small
      have hmax : 2147483640 + 1 ≤ PTRDIFF_MAX := by decide
      obtain ⟨mem, hmem⟩ := hmalloc k (body.length + 1) (by omega)
      rw [h.length, Int.toNat_natCast, hmem]
      exact Option.some_ne_none mem
    · rw [h.length] at hpos
      rintro hnobody
      rw [TakesNoBody, h.method, Option.some.injEq, Option.some.injEq] at hnobody
      rw [h.bodiless hnobody] at hpos
      exact absurd hpos (Int.lt_irrefl _)
  cases hverdict : verdict (malloc.alloc k) rd.request with
  | refuse text => exact absurd hverdict (hhead.letIn_iff.mpr hin text)
  | process =>
    have hzero := content_length_of_process hscan hverdict
    rw [hlength, Int.natCast_eq_zero, List.length_eq_zero_iff] at hzero
    subst hzero
    exact ⟨rd, answer_process hscan hverdict⟩
  | receive mem =>
    refine ⟨rd.withBody mem body, ?_⟩
    rw [answer_receive hscan hverdict, hbody, if_neg (Nat.lt_irrefl _), List.drop_length]

/-- The heap stays intact. -/
theorem fits : RequestFits malloc k (writeRequest m target.bytes fields body) := by
  intro rd got hscan
  obtain ⟨-, hread⟩ := readLines_of_blank hscan
  rw [h.completeLines] at hread
  obtain ⟨hword, -⟩ := places (startLine_bytes (m := m) h.named.2) (space_notMem_word m)
  have hlines : ((fields.map cstr).map fun l => l.bytes.length + 1).sum
      ≤ (fields.flatMap fun line => line ++ [10]).length := by
    rw [List.map_map, List.length_flatMap]
    refine List.sum_le_sum fun line _ => ?_
    rw [List.length_append, List.length_singleton, Function.comp_apply, cstr_bytes]
    exact Nat.add_le_add_right (List.takeWhile_sublist _).length_le 1
  have hrecorded := h.recorded
  have hbound := length_recorded hread
  rw [hword] at hbound
  rw [recordedHead, List.length_append, List.length_append, List.length_cons,
    show (ascii "Request-Method: ").length = 16 from rfl] at hrecorded
  exact .of_le (by omega)

/-- **The connection is kept open.** -/
theorem keepAlive (hmalloc : malloc.Succeeds) (k : ℕ) :
    KeepAliveRequest malloc k (writeRequest m target.bytes fields body) := by
  obtain ⟨rd, hscan, hhead, -, -, hversion, hclose, hlength⟩ := h.read hmalloc k
  have hsame : ∀ {rd' got}, scan (roomAt malloc k) .fresh
      (writeRequest m target.bytes fields body) = .blank rd' got → rd' = rd ∧ got = body := by
    intro rd' got hscan'
    rw [hscan] at hscan'
    cases hscan'
    exact ⟨rfl, rfl⟩
  refine ⟨⟨?_, ?_, ?_, ?_⟩, h.fits, ?_, h.answer hmalloc k, ?_⟩
  · have hline := h.isLine _ List.mem_cons_self
    have hfirst := (hline.split (Message.writeHead fields ++ body)).2.1
    have hwritten : writeRequest m target.bytes fields body = startLine m target.bytes
        ++ 13 :: 10 :: (Message.writeHead fields ++ body) := by
      rw [writeRequest, Message.writeHead_cons, List.append_assoc]
      rfl
    rw [hwritten, hfirst]
    exact hline.1
  · rw [h.splitHead]
    exact Option.some_ne_none _
  · intro xs ys hsplit hnone
    obtain hsome | ⟨hfront, -⟩ := front_of_writeHead h.isLine hsplit
    · exact absurd hnone hsome
    · exact fun hzero => zero_notMem_writeHead h.isLine (hfront.mem hzero)
  · intro rd' got hscan'
    obtain ⟨rfl, rfl⟩ := hsame hscan'
    rw [Reading.bodyLength, hlength]
    exact (Int.toNat_natCast _).symm
  · intro xs ys hsplit hlong
    obtain hsome | ⟨hfront, hne⟩ := front_of_writeHead h.isLine hsplit
    · exact hsome
    · -- a part of the head is shorter than the line buffer
      have hlt : xs.length < (Message.writeHead (startLine m target.bytes :: fields)).length :=
        Nat.lt_of_le_of_ne hfront.length_le fun hlen => hne (hfront.eq_of_length hlen)
      have hshort := h.short
      omega
  · intro rd' got hscan'
    obtain ⟨rfl, -⟩ := hsame hscan'
    exact ⟨hversion, hclose⟩

/-- **The handler gets what was written.** -/
theorem asks (hmalloc : malloc.Succeeds) {rd : Reading} {left : List UInt8}
    (hanswer : Http.answer malloc k (writeRequest m target.bytes fields body) = .call rd left) :
    Asks (handed malloc k rd) m target body := by
  obtain ⟨rd₀, hscan, -, hpath, hmethod, hversion, -, hlength⟩ := h.read hmalloc k
  obtain ⟨⟨body', hcomplete⟩, -⟩ := complete_of_answer hanswer
  obtain ⟨rd', got', mem, raw, hscan', hreq⟩ := hcomplete.lines
  obtain ⟨rfl, -⟩ := Scan.blank.inj (hscan'.symm.trans hscan)
  have hlen := hcomplete.length
  rw [hreq] at hlen
  have hbody : body' = body := by
    obtain ⟨got, hgot, hprefix⟩ := hcomplete.head
    rw [h.splitHead] at hgot
    obtain rfl := Option.some.inj hgot
    refine hprefix.eq_of_length ?_
    rw [hlength] at hlen
    exact Int.natCast_inj.mp hlen
  have hbytes := hcomplete.bytes
  rw [hbody] at hbytes
  refine ⟨?_, ?_, ?_, ?_, hbytes⟩
  · rw [hreq]
    exact hpath
  · rw [hreq]
    exact hmethod
  · rw [hreq]
    exact hversion
  · rw [hreq]
    exact hlength

end WrittenRequest

end Written

end Http
end Osrv
