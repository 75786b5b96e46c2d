import Osrv.Http.Process
import Osrv.Lib.Message

/-!
# The head of a response

`http_response` writes a head that a client reads back: `responseText` is the list of
lines that the library of messages writes, and it fits the buffer of 512 bytes. What the
client can tell of the body is in the fields: the length if it is not negative as an
`int`, and the coding of a streamed body.
-/

namespace Osrv
namespace Http

open Bytes Net

/-! ### The lines -/

def statusLine (attr : Attr) (code : ℕ) (txt : List UInt8) : List UInt8 :=
  HTTP_SIG attr ++ 32 :: decimal code ++ 32 :: txt

/-- The fields of a response, `headers` being further lines. -/
def fields (content_type : List UInt8) (content_length : ℤ) (headers : List (List UInt8)) :
    List (List UInt8) :=
  (ascii "Content-type: " ++ content_type)
    :: ((if content_length < 0 then []
      else [ascii "Content-length: " ++ decimal content_length.toNat]) ++ headers)

/-- The lines that `http_response` gets as a text. -/
def joinLines (headers : List (List UInt8)) : List UInt8 :=
  headers.flatMap fun line => line ++ [13, 10]

theorem responseText_eq (attr : Attr) (code : ℕ) (txt content_type : List UInt8)
    (content_length : ℤ) (headers : List (List UInt8)) :
    responseText attr code txt content_type content_length (joinLines headers)
      = Message.writeHead
        (statusLine attr code txt :: fields content_type content_length headers) := by
  have hcrlf : ascii "\r\n" = [13, 10] := rfl
  have htype : ascii "\r\nContent-type: " = 13 :: 10 :: ascii "Content-type: " := rfl
  rw [responseText, Message.writeHead, hcrlf, htype, statusLine, fields, joinLines]
  split <;> simp

/-- A text that may stand in a response: without a line end, and short. -/
structure Text (txt : List UInt8) : Prop where
  cr : (13 : UInt8) ∉ txt
  short : txt.length ≤ 40

/-- What `http_response` is called with. -/
structure Writable (code : ℕ) (txt content_type : List UInt8) (content_length : ℤ)
    (headers : List (List UInt8)) : Prop where
  code : code < 1000
  txt : Text txt
  content_type : Text content_type
  content_length : content_length < 2 ^ 31
  header : ∀ line ∈ headers, line ≠ [] ∧ Text line
  one : headers.length ≤ 1

section Writable

variable {attr : Attr} {code : ℕ} {txt content_type : List UInt8} {content_length : ℤ}
  {headers : List (List UInt8)}

theorem cr_notMem_decimal (n : ℕ) : (13 : UInt8) ∉ decimal n := fun h => by
  cases isDigit_of_mem_decimal h

theorem cr_notMem_sig (attr : Attr) : (13 : UInt8) ∉ HTTP_SIG attr := by
  unfold HTTP_SIG
  split <;> decide

theorem length_sig (attr : Attr) : (HTTP_SIG attr).length = 8 := by
  unfold HTTP_SIG
  split <;> rfl

/-- Every line of the response can be read back. -/
theorem Writable.lines (h : Writable code txt content_type content_length headers) :
    ∀ line ∈ statusLine attr code txt :: fields content_type content_length headers,
      line ≠ [] ∧ (13 : UInt8) ∉ line := by
  intro line hline
  rw [List.mem_cons, fields, List.mem_cons, List.mem_append] at hline
  obtain rfl | rfl | hlength | hheader := hline
  · refine ⟨by simp [statusLine], ?_⟩
    simp only [statusLine, List.mem_append, List.mem_cons, not_or]
    exact ⟨⟨cr_notMem_sig attr, by decide, cr_notMem_decimal code⟩, by decide, h.txt.cr⟩
  · refine ⟨by simp [ascii], ?_⟩
    rw [List.mem_append, not_or]
    exact ⟨by decide, h.content_type.cr⟩
  · split at hlength
    · exact absurd hlength List.not_mem_nil
    · obtain rfl := List.mem_singleton.mp hlength
      refine ⟨by simp [ascii], ?_⟩
      rw [List.mem_append, not_or]
      exact ⟨by decide, cr_notMem_decimal _⟩
  · exact ⟨(h.header line hheader).1, (h.header line hheader).2.cr⟩

/-- The text fits the buffer. -/
theorem Writable.fits (h : Writable code txt content_type content_length headers) :
    (responseText attr code txt content_type content_length (joinLines headers)).length
      ≤ MAX_RESPONSE := by
  have hcode := length_decimal_le (k := 3) (by decide) h.code
  have htxt := h.txt.short
  have htype := h.content_type.short
  have hsig := length_sig attr
  have hlength : (if content_length < 0 then []
      else ascii "Content-length: " ++ decimal content_length.toNat ++ ascii "\r\n").length
        ≤ 28 := by
    split
    · exact Nat.zero_le _
    · have hlt : content_length.toNat < 10 ^ 10 := by
        have := h.content_length
        omega
      have hdigits := length_decimal_le (k := 10) (by decide) hlt
      rw [List.length_append, List.length_append, show (ascii "Content-length: ").length = 16
        from rfl, show (ascii "\r\n").length = 2 from rfl]
      omega
  have hheaders : (joinLines headers).length ≤ 42 := by
    have hone := h.one
    have htext := h.header
    match headers, hone, htext with
    | [], _, _ => exact Nat.zero_le _
    | [line], _, htext =>
      have := (htext line (List.mem_singleton_self _)).2.short
      simp only [joinLines, List.flatMap_cons, List.flatMap_nil, List.append_nil,
        List.length_append, List.length_cons, List.length_nil]
      omega
    | _ :: _ :: _, hone, _ => simp at hone
  have hmax : MAX_RESPONSE = 511 := rfl
  simp only [responseText, List.length_append, List.length_cons, hsig,
    show (ascii "\r\nContent-type: ").length = 16 from rfl, show (ascii "\r\n").length = 2 from rfl]
  omega

/-- **The head goes out** as a whole. -/
theorem http_response_sends {send : SendFn} (hs : send.Succeeds)
    (h : Writable code txt content_type content_length headers) (attr : Attr) (w : Server) :
    ∃ k, http_response send attr code txt content_type content_length (joinLines headers) w
      = { w with conn := ⟨k, w.conn.out ++ Message.writeHead
        (statusLine attr code txt :: fields content_type content_length headers)⟩ } := by
  obtain ⟨k, hk⟩ := http_send_ok hs w.conn
    (responseText attr code txt content_type content_length (joinLines headers))
  refine ⟨k, ?_⟩
  rw [http_response, List.take_of_length_le h.fits, hk, responseText_eq]

/-- **And it is read back**, whatever follows it. -/
theorem Writable.read (h : Writable code txt content_type content_length headers) (attr : Attr)
    (x : Message.Exchange) (rest : List UInt8) :
    Message.readResponse x (Message.writeHead
        (statusLine attr code txt :: fields content_type content_length headers) ++ rest)
      = Message.readBody x (fields content_type content_length headers) rest := by
  refine Message.readResponse_writeHead x rest ?_ h.lines
  have hsig : ascii "HTTP/1." <+: HTTP_SIG attr := by
    unfold HTTP_SIG
    split <;> decide
  rw [statusLine, List.append_assoc]
  exact hsig.trans (List.prefix_append _ _)

theorem codeOf_statusLine (attr : Attr) (code : ℕ) (txt : List UInt8) :
    Message.codeOf (statusLine attr code txt) = some code := by
  have hdigit : ∀ b ∈ decimal code, (b != 32) = true := by
    intro b hb
    rw [bne_iff_ne]
    rintro rfl
    cases isDigit_of_mem_decimal hb
  have hdrop : (statusLine attr code txt).drop 9 = decimal code ++ 32 :: txt := by
    rw [statusLine, HTTP_SIG]
    split <;> rfl
  rw [Message.codeOf, hdrop, takeWhile_append_stop _ hdigit rfl, Message.readNumber_decimal]

/-- The client takes the code and the body. -/
theorem Writable.reply (h : Writable code txt content_type content_length headers) (attr : Attr)
    (x : Message.Exchange) (rest : List UInt8) :
    Message.readReply x (Message.writeHead
        (statusLine attr code txt :: fields content_type content_length headers) ++ rest)
      = (Message.readBody x (fields content_type content_length headers) rest).map
        fun r => (⟨code, r.1⟩, r.2) := by
  rw [Message.readReply, Message.readCode_writeHead rest h.lines, codeOf_statusLine, h.read]
  rfl

end Writable

/-! ### What the fields say -/

section Fields

variable (content_type : List UInt8)

theorem field_content_type {name : List UInt8} (hname : name ≠ ascii "content-type")
    (hct : content_type.head? ≠ some 32) (lines : List (List UInt8)) :
    Message.field name ((ascii "Content-type: " ++ content_type) :: lines)
      = Message.field name lines := by
  have hline : Message.fieldOf (ascii "Content-type" ++ 58 :: 32 :: content_type)
      = (ascii "content-type", content_type) :=
    Message.fieldOf_append (by decide) hct
  have hshape : ascii "Content-type: " ++ content_type
      = ascii "Content-type" ++ 58 :: 32 :: content_type := rfl
  rw [hshape, Message.field_cons hline, if_neg hname]

theorem field_content_length {name : List UInt8} (n : ℕ) (lines : List (List UInt8)) :
    Message.field name ((ascii "Content-length: " ++ decimal n) :: lines)
      = if name = ascii "content-length" then some (decimal n) else Message.field name lines := by
  have hhead : (decimal n).head? ≠ some 32 := by
    intro h
    have hdigit := isDigit_of_mem_decimal (List.mem_of_head? h)
    cases hdigit
  have hline : Message.fieldOf (ascii "Content-length" ++ 58 :: 32 :: decimal n)
      = (ascii "content-length", decimal n) :=
    Message.fieldOf_append (by decide) hhead
  have hshape : ascii "Content-length: " ++ decimal n
      = ascii "Content-length" ++ 58 :: 32 :: decimal n := rfl
  rw [hshape, Message.field_cons hline]

/-- A length that is not negative is announced. -/
theorem fields_length {content_length : ℤ} (hct : content_type.head? ≠ some 32)
    (h : ¬ content_length < 0) :
    Message.field (ascii "transfer-encoding") (fields content_type content_length []) = none ∧
      Message.field (ascii "content-length") (fields content_type content_length [])
        = some (decimal content_length.toNat) := by
  rw [fields, if_neg h, List.append_nil]
  constructor
  · rw [field_content_type _ (by decide) hct, field_content_length, if_neg (by decide)]
    rfl
  · rw [field_content_type _ (by decide) hct, field_content_length, if_pos rfl]

/-- A negative one is not. -/
theorem fields_open {content_length : ℤ} (hct : content_type.head? ≠ some 32)
    (h : content_length < 0) :
    Message.field (ascii "transfer-encoding") (fields content_type content_length []) = none ∧
      Message.field (ascii "content-length") (fields content_type content_length []) = none := by
  rw [fields, if_pos h]
  constructor
  · rw [field_content_type _ (by decide) hct]
    rfl
  · rw [field_content_type _ (by decide) hct]
    rfl

/-- The line without its end. -/
def chunkedLine : List UInt8 := ascii "Transfer-Encoding: chunked"

theorem joinLines_chunked : joinLines [chunkedLine] = transferEncoding := rfl

theorem fields_chunked (hct : content_type.head? ≠ some 32) :
    Message.field (ascii "transfer-encoding") (fields content_type (-1) [chunkedLine])
      = some (ascii "chunked") := by
  have hline : Message.fieldOf chunkedLine = (ascii "transfer-encoding", ascii "chunked") := by
    decide
  rw [fields, if_pos (by decide), List.nil_append, field_content_type _ (by decide) hct,
    Message.field_cons hline, if_pos rfl]

end Fields

end Http
end Osrv
