import Osrv.Lib.Chunked
import Osrv.Lib.Scan

/-!
# Responses on a connection

What a client can tell from the bytes of a response alone: `readResponse` reads the lines
of the head up to the empty one, and then the body, whose end it finds by the rules of
the protocol. A response to `HEAD` has no body. A coded body is read by the chunked
coding, which a client of version 1.0 does not know. Otherwise the body has the length
that the head announces, and without one it ends where the connection does.

`writeHead` writes a head, and `readResponse_writeHead` reads it back. A client that keeps
its connection reads one reply after the other: `readReplies`.
-/

namespace Message

open Bytes

/-! ### Lines -/

/-- The first line and what follows its end. -/
def readLine : List UInt8 → Option (List UInt8 × List UInt8)
  | [] => none
  | b :: bs =>
    if b = 13 ∧ bs.head? = some 10 then some ([], bs.tail)
    else (readLine bs).map fun r => (b :: r.1, r.2)

theorem readLine_length_lt {bs line rest : List UInt8} (h : readLine bs = some (line, rest)) :
    rest.length < bs.length := by
  induction bs generalizing line rest with
  | nil => cases h
  | cons b bs ih =>
    rw [readLine] at h
    split at h
    · obtain ⟨-, rfl⟩ := Prod.mk.inj (Option.some.inj h)
      rw [List.length_tail, List.length_cons]
      omega
    · obtain ⟨⟨line', rest'⟩, hline, heq⟩ := Option.map_eq_some_iff.mp h
      obtain ⟨-, rfl⟩ := Prod.mk.inj heq
      exact (ih hline).trans (Nat.lt_succ_self _)

/-- The lines up to the empty one and what follows it. -/
def readLines (bs : List UInt8) : Option (List (List UInt8) × List UInt8) :=
  match _h : readLine bs with
  | none => none
  | some (line, rest) =>
    if line = [] then some ([], rest)
    else (readLines rest).map fun r => (line :: r.1, r.2)
termination_by bs.length
decreasing_by exact readLine_length_lt _h

/-- Writes lines and the empty one behind them. -/
def writeHead (lines : List (List UInt8)) : List UInt8 :=
  lines.flatMap (fun line => line ++ [13, 10]) ++ [13, 10]

theorem writeHead_cons (line : List UInt8) (lines : List (List UInt8)) :
    writeHead (line :: lines) = line ++ 13 :: 10 :: writeHead lines := by
  simp [writeHead]

theorem readLine_append {line : List UInt8} (h : (13 : UInt8) ∉ line) (rest : List UInt8) :
    readLine (line ++ 13 :: 10 :: rest) = some (line, rest) := by
  induction line with
  | nil => rfl
  | cons b line ih =>
    have hb : b ≠ 13 := fun heq => h (heq ▸ List.mem_cons_self ..)
    rw [List.cons_append, readLine, if_neg fun hand => hb hand.1,
      ih fun hmem => h (List.mem_cons_of_mem _ hmem)]
    rfl

theorem readLines_of_readLine {bs line rest : List UInt8} (h : readLine bs = some (line, rest)) :
    readLines bs
      = if line = [] then some ([], rest)
        else (readLines rest).map fun r => (line :: r.1, r.2) := by
  rw [readLines]
  split
  · next hnone =>
    rw [h] at hnone
    cases hnone
  · next heq =>
    rw [h] at heq
    obtain ⟨rfl, rfl⟩ := Prod.mk.inj (Option.some.inj heq)
    rfl

/-- **A head is read back.** -/
theorem readLines_writeHead {lines : List (List UInt8)} (rest : List UInt8)
    (h : ∀ line ∈ lines, line ≠ [] ∧ (13 : UInt8) ∉ line) :
    readLines (writeHead lines ++ rest) = some (lines, rest) := by
  induction lines with
  | nil =>
    change readLines ([] ++ 13 :: 10 :: rest) = _
    rw [readLines_of_readLine (readLine_append List.not_mem_nil rest), if_pos rfl]
  | cons line lines ih =>
    obtain ⟨hne, hcr⟩ := h line (List.mem_cons_self ..)
    rw [writeHead_cons, List.append_assoc, List.cons_append, List.cons_append,
      readLines_of_readLine (readLine_append hcr _), if_neg hne,
      ih fun l hl => h l (List.mem_cons_of_mem _ hl)]
    rfl

/-! ### Fields -/

/-- The name of a field, in lower case, and its value. -/
def fieldOf (line : List UInt8) : List UInt8 × List UInt8 :=
  ((line.takeWhile (· != 58)).map lower, (line.dropWhile (· != 58)).tail.dropWhile (· == 32))

/-- The value of the first field of a name. -/
def field (name : List UInt8) (lines : List (List UInt8)) : Option (List UInt8) :=
  (lines.map fieldOf).lookup name

/-- A field as it is written. -/
theorem fieldOf_append {name value : List UInt8} (h : (58 : UInt8) ∉ name)
    (hvalue : value.head? ≠ some 32) :
    fieldOf (name ++ 58 :: 32 :: value) = (name.map lower, value) := by
  have hname : ∀ b ∈ name, (b != 58) = true := fun b hb =>
    bne_iff_ne.mpr fun heq => h (heq ▸ hb)
  have hstop : value.dropWhile (· == 32) = value := by
    cases value with
    | nil => rfl
    | cons b value =>
      have hb : (b == 32) = false := beq_eq_false_iff_ne.mpr fun heq => hvalue (congrArg some heq)
      rw [List.dropWhile_cons, hb]
      rfl
  rw [fieldOf, takeWhile_append_stop _ hname rfl, List.dropWhile_append_of_pos hname,
    List.dropWhile_cons]
  simp [hstop]

theorem field_cons {name : List UInt8} {line value : List UInt8} {key : List UInt8}
    (hline : fieldOf line = (key, value)) (lines : List (List UInt8)) :
    field name (line :: lines) = if name = key then some value else field name lines := by
  rw [field, List.map_cons, hline, List.lookup_cons]
  by_cases h : name = key
  · rw [if_pos h, beq_iff_eq.mpr h]
  · rw [if_neg h, beq_eq_false_iff_ne.mpr h]
    rfl

/-! ### The end of a response -/

/-- What a client knows of a response beside its bytes. -/
structure Exchange where
  /-- The method of the request is `HEAD`. -/
  head : Bool
  /-- Its version is 1.0. -/
  http10 : Bool
  /-- The server closes the connection behind the response. -/
  closes : Bool

/-- A number in decimal digits. -/
def readNumber (value : List UInt8) : Option ℕ :=
  if value ≠ [] ∧ value.all isDigit then some (decVal value) else none

theorem readNumber_decimal (n : ℕ) : readNumber (decimal n) = some n := by
  have hall : (decimal n).all isDigit = true :=
    List.all_eq_true.mpr fun b hb => isDigit_of_mem_decimal hb
  rw [readNumber, if_pos ⟨decimal_ne_nil n, hall⟩, decVal_decimal]

/-- The body and what follows it. -/
def readBody (x : Exchange) (fields : List (List UInt8)) (bs : List UInt8) :
    Option (List UInt8 × List UInt8) :=
  if x.head then some ([], bs)
  else
    match field (ascii "transfer-encoding") fields with
    | some coding =>
      if coding = ascii "chunked" ∧ x.http10 = false then
        (Chunked.decode bs).map fun r => (r.1.flatten, r.2)
      else none
    | none =>
      match field (ascii "content-length") fields with
      | some value => (readNumber value).bind fun n =>
          if n ≤ bs.length then some (bs.take n, bs.drop n) else none
      | none => if x.closes then some (bs, []) else none

/-- The body of a response and what follows it. -/
def readResponse (x : Exchange) (bs : List UInt8) : Option (List UInt8 × List UInt8) :=
  (readLines bs).bind fun r =>
    match r.1 with
    | [] => none
    | status :: fields =>
      if (ascii "HTTP/1.").isPrefixOf status then readBody x fields r.2 else none

/-- **A response is read** behind its head. -/
theorem readResponse_writeHead (x : Exchange) {status : List UInt8} {fields : List (List UInt8)}
    (rest : List UInt8) (hstatus : ascii "HTTP/1." <+: status)
    (h : ∀ line ∈ status :: fields, line ≠ [] ∧ (13 : UInt8) ∉ line) :
    readResponse x (writeHead (status :: fields) ++ rest) = readBody x fields rest := by
  rw [readResponse, readLines_writeHead rest h, Option.bind_some]
  simp only [List.isPrefixOf_iff_prefix.mpr hstatus, if_true]

/-! ### Ways to announce a body -/

section Body

variable {x : Exchange} {fields : List (List UInt8)}

theorem readBody_head (hx : x.head = true) (bs : List UInt8) :
    readBody x fields bs = some ([], bs) := by
  rw [readBody, if_pos hx]

/-- A coded body. -/
theorem readBody_chunked (hx : x.head = false)
    (hfield : field (ascii "transfer-encoding") fields = some (ascii "chunked"))
    (bs : List UInt8) : readBody x fields bs =
      if x.http10 = false then (Chunked.decode bs).map fun r => (r.1.flatten, r.2) else none := by
  rw [readBody, if_neg (by simp [hx]), hfield]
  simp only [true_and]

/-- A body of an announced length. -/
theorem readBody_length (hx : x.head = false)
    (hplain : field (ascii "transfer-encoding") fields = none) {n : ℕ}
    (hfield : field (ascii "content-length") fields = some (decimal n)) (bs : List UInt8) :
    readBody x fields bs = if n ≤ bs.length then some (bs.take n, bs.drop n) else none := by
  rw [readBody, if_neg (by simp [hx]), hplain]
  simp only [hfield, readNumber_decimal, Option.bind_some]

/-- A body without an announced length. -/
theorem readBody_open (hx : x.head = false)
    (hplain : field (ascii "transfer-encoding") fields = none)
    (hfield : field (ascii "content-length") fields = none) (bs : List UInt8) :
    readBody x fields bs = if x.closes then some (bs, []) else none := by
  rw [readBody, if_neg (by simp [hx]), hplain]
  simp only [hfield]

end Body

/-! ### Replies -/

/-- The code in the first line, between the version and the next space. -/
def codeOf (status : List UInt8) : Option ℕ :=
  readNumber ((status.drop 9).takeWhile (· != 32))

/-- The code of a response. -/
def readCode (bs : List UInt8) : Option ℕ := (readLines bs).bind fun r => r.1.head?.bind codeOf

/-- What a client takes from a response. -/
structure Reply where
  code : ℕ
  body : List UInt8
  deriving DecidableEq

/-- A reply and what follows it. -/
def readReply (x : Exchange) (bs : List UInt8) : Option (Reply × List UInt8) :=
  (readCode bs).bind fun code => (readResponse x bs).map fun r => (⟨code, r.1⟩, r.2)

/-- The replies to requests that were sent one after the other, and what follows them. -/
def readReplies : List Exchange → List UInt8 → Option (List Reply × List UInt8)
  | [], bs => some ([], bs)
  | x :: xs, bs =>
    (readReply x bs).bind fun r => (readReplies xs r.2).map fun rs => (r.1 :: rs.1, rs.2)

/-- The bytes are the replies, whatever follows them. -/
def Replied (xs : List Exchange) (bs : List UInt8) (rs : List Reply) : Prop :=
  ∀ more, readReplies xs (bs ++ more) = some (rs, more)

section Replies

variable {x : Exchange} {xs : List Exchange} {bs response : List UInt8} {r : Reply}
  {rs : List Reply}

theorem readCode_writeHead {status : List UInt8} {fields : List (List UInt8)} (rest : List UInt8)
    (h : ∀ line ∈ status :: fields, line ≠ [] ∧ (13 : UInt8) ∉ line) :
    readCode (writeHead (status :: fields) ++ rest) = codeOf status := by
  rw [readCode, readLines_writeHead rest h]
  rfl

theorem readReply_nil (x : Exchange) : readReply x [] = none := by
  have hnone : readLines [] = none := by
    rw [readLines]
    rfl
  rw [readReply, readCode, hnone]
  rfl

theorem readReplies_append (xs ys : List Exchange) (bs : List UInt8) :
    readReplies (xs ++ ys) bs = (readReplies xs bs).bind fun rs =>
      (readReplies ys rs.2).map fun rs' => (rs.1 ++ rs'.1, rs'.2) := by
  induction xs generalizing bs with
  | nil =>
    show readReplies ys bs = (readReplies ys bs).map _
    exact Option.map_id'.symm
  | cons x xs ih =>
    rw [List.cons_append, readReplies, readReplies]
    cases readReply x bs with
    | none => rfl
    | some r =>
      rw [Option.bind_some, Option.bind_some, ih]
      cases readReplies xs r.2 with
      | none => rfl
      | some rs =>
        rw [Option.bind_some, Option.map_some, Option.bind_some, Option.map_map]
        rfl

/-- There is a reply to each request. -/
theorem length_readReplies {rest : List UInt8} (h : readReplies xs bs = some (rs, rest)) :
    rs.length = xs.length := by
  induction xs generalizing bs rs rest with
  | nil =>
    obtain ⟨rfl, -⟩ := Prod.mk.inj (Option.some.inj h)
    rfl
  | cons x xs ih =>
    rw [readReplies, Option.bind_eq_some_iff] at h
    obtain ⟨r, -, h⟩ := h
    obtain ⟨⟨rs', rest'⟩, hread, heq⟩ := Option.map_eq_some_iff.mp h
    obtain ⟨rfl, -⟩ := Prod.mk.inj heq
    rw [List.length_cons, List.length_cons, ih hread]

theorem Replied.length_eq (h : Replied xs bs rs) : rs.length = xs.length :=
  length_readReplies (h [])

theorem Replied.nil : Replied [] [] [] := fun _ => rfl

/-- One more reply. -/
theorem Replied.snoc (h : Replied xs bs rs)
    (hread : ∀ more, readReply x (response ++ more) = some (r, more)) :
    Replied (xs ++ [x]) (bs ++ response) (rs ++ [r]) := by
  intro more
  rw [readReplies_append, List.append_assoc, h, Option.bind_some, readReplies, hread]
  rfl

/-- A reply that has not come yet is missed. -/
theorem Replied.missing (h : Replied xs bs rs) (x : Exchange) (ys : List Exchange) :
    readReplies (xs ++ x :: ys) bs = none := by
  have hall := h []
  rw [List.append_nil] at hall
  rw [readReplies_append, hall, Option.bind_some, readReplies, readReply_nil]
  rfl

end Replies

end Message
