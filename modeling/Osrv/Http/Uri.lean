import Osrv.Lib.Ends
import Osrv.Lib.Percent
import Osrv.Lib.Scan

/-!
# Decoding a URI in place

`uri_decode` of `http.c` moves two pointers through one string, one that reads and one that
writes. Every access is kept in a list with the places where both pointers are at the time.

In front of each turn the memory is the original one with the decoded bytes at its start,
the write position is right behind these, and the bytes from the read position on are still
the original ones (`Decoding`). A turn takes one, two or three bytes and puts one (`Turned`),
so that the writes never get ahead of the reads. What is written is what `Percent.decode`
makes of the original string (`uri_decode_in_place`).
-/

namespace Osrv
namespace Http
namespace Uri

open Bytes Lib

/-! ### `uri_decode` -/

/-- An access to the string, with both pointers as they are at the time: `*s` is read, or a
byte is stored in `*t`. -/
structure Access where
  s : ℕ
  t : ℕ
  stored : Option UInt8

/-- The memory, the two pointers, and the accesses so far. -/
structure Cursor where
  mem : Memory
  s : ℕ
  t : ℕ
  accesses : List Access

/-- Keeps an access. -/
def Cursor.access (c : Cursor) (stored : Option UInt8) : Cursor :=
  { c with accesses := c.accesses ++ [⟨c.s, c.t, stored⟩] }

@[simp] theorem Cursor.access_mem (c : Cursor) (b : Option UInt8) : (c.access b).mem = c.mem := rfl

@[simp] theorem Cursor.access_s (c : Cursor) (b : Option UInt8) : (c.access b).s = c.s := rfl

@[simp] theorem Cursor.access_t (c : Cursor) (b : Option UInt8) : (c.access b).t = c.t := rfl

@[simp] theorem Cursor.access_accesses (c : Cursor) (b : Option UInt8) :
    (c.access b).accesses = c.accesses ++ [⟨c.s, c.t, b⟩] := rfl

/-- A computation that may run out of turns. -/
abbrev Walk := EStateM Unit Cursor

/-- `*s`. -/
def deref : Walk UInt8 := do
  let c ← get
  set (c.access none)
  return c.mem c.s

/-- `s++`. -/
def next : Walk Unit := modify fun c => { c with s := c.s + 1 }

/-- `*t = b`. -/
def store (b : UInt8) : Walk Unit :=
  modify fun c => { c.access (some b) with mem := write c.mem c.t [b] }

/-- `*(t++) = b`. -/
def put (b : UInt8) : Walk Unit := do
  store b
  modify fun c => { c with t := c.t + 1 }

/-- The value of a digit. A byte from 128 on is none, whether `char` has a sign or not. -/
def nibble (b : UInt8) : UInt8 :=
  if 48 ≤ b ∧ b ≤ 57 then b - 48
  else if 97 ≤ b ∧ b ≤ 102 then b - 97 + 10
  else if 65 ≤ b ∧ b ≤ 70 then b - 65 + 10
  else 0

/-- One of the two digits behind `%`. The pointer stays at the terminator. -/
def hexDigit : Walk UInt8 := do
  let b ← deref
  let more ← deref
  (if more ≠ 0 then next else pure ())
  return nibble b

/-- The body of the loop, for the byte at the read position. The source reads this byte again in
each of its tests, and nothing is stored in between. -/
def turn (b : UInt8) : Walk Unit :=
  if b = 43 then do
    put 32
    next
  else if b = 37 then do
    next
    let hi ← hexDigit
    let lo ← hexDigit
    put (hi <<< 4 ||| lo)
  else do
    put b
    next

/-- The loop and what follows it, with at most `n` tests of the loop's condition. -/
def loop : ℕ → Walk Unit
  | 0 => throw ()
  | n + 1 => do
    let b ← deref
    if b ≠ 0 then do
      turn b
      loop n
    else store 0

/-- `uri_decode`, for the string at `s`. -/
def uri_decode (n : ℕ) (mem : Memory) (s : ℕ) : EStateM.Result Unit Cursor Unit :=
  loop n ⟨mem, s, s, []⟩

/-- The bytes that have been written, one after the other. -/
def written (es : List Access) : List UInt8 := es.filterMap Access.stored

/-! ### The byte of an escape -/

theorem toNat_nibble (b : UInt8) : (nibble b).toNat = Percent.hexVal b := by
  unfold nibble Percent.hexVal Chunked.digitVal
  split
  · next h => exact UInt8.toNat_sub_of_le _ _ h.1
  split
  · next h =>
    have hlow : 97 ≤ b.toNat := h.1
    have hhigh : b.toNat ≤ 102 := h.2
    rw [UInt8.toNat_add, UInt8.toNat_sub_of_le _ _ h.1]
    show (b.toNat - 97 + 10) % 256 = b.toNat - 87
    omega
  split
  · next h =>
    have hlow : 65 ≤ b.toNat := h.1
    have hhigh : b.toNat ≤ 70 := h.2
    rw [UInt8.toNat_add, UInt8.toNat_sub_of_le _ _ h.1]
    show (b.toNat - 65 + 10) % 256 = b.toNat - 55
    omega
  · rfl

theorem nibbles_eq (x y : UInt8) :
    nibble x <<< 4 ||| nibble y = Percent.byte (Percent.hexVal x) (Percent.hexVal y) := by
  have hx := Percent.hexVal_lt x
  have hy := Percent.hexVal_lt y
  have hshift : (nibble x <<< 4).toNat = Percent.hexVal x <<< 4 := by
    rw [UInt8.toNat_shiftLeft, toNat_nibble]
    show (Percent.hexVal x <<< 4) % 256 = _
    rw [Nat.shiftLeft_eq]
    omega
  apply UInt8.toNat_inj.mp
  rw [UInt8.toNat_or, hshift, toNat_nibble, Percent.byte, UInt8.toNat_ofNat',
    ← Nat.shiftLeft_add_eq_or_of_lt (show Percent.hexVal y < 2 ^ 4 from hy), Nat.shiftLeft_eq]
  omega

/-! ### A turn -/

section Turn

variable {c c' : Cursor} {rest : List UInt8} {b : UInt8} {n k : ℕ}

theorem deref_ok (c : Cursor) : deref c = .ok (c.mem c.s) (c.access none) := rfl

/-- A digit is taken if there is a character. Without one it is zero. -/
theorem hexDigit_ok (h : At c.mem c.s (rest ++ [0])) (h0 : (0 : UInt8) ∉ rest) :
    hexDigit c = .ok (nibble (rest.headD 0))
      { (c.access none).access none with s := c.s + (rest.take 1).length } := by
  unfold hexDigit
  rw [bind_ok (deref_ok c), bind_ok (deref_ok _), Cursor.access_mem, Cursor.access_s]
  cases rest with
  | nil =>
    -- the terminator
    have hb : c.mem c.s = 0 := (at_cons.mp h).1
    rw [hb]
    rfl
  | cons x rest =>
    have hb : c.mem c.s = x := (at_cons.mp h).1
    have hne : x ≠ 0 := fun heq => h0 (heq ▸ List.mem_cons_self ..)
    rw [hb, if_pos hne]
    rfl

/-- What a turn comes to: it takes `k` of the bytes from the read position on, looks at none
behind the next `n`, and puts a byte where the write position was. -/
structure Turned (c : Cursor) (n k : ℕ) (b : UInt8) (c' : Cursor) : Prop where
  mem : c'.mem = write c.mem c.t [b]
  s : c'.s = c.s + k
  t : c'.t = c.t + 1
  accesses : ∃ es, c'.accesses = c.accesses ++ es ∧ written es = [b] ∧
    ∀ e ∈ es, e.t = c.t ∧ c.s ≤ e.s ∧ e.s ≤ c.s + n

/-- An escape. -/
theorem turn_escape (h : At c.mem c.s (37 :: (rest ++ [0]))) (h0 : (0 : UInt8) ∉ rest) :
    ∃ c', turn 37 c = .ok () c' ∧ Turned c (rest.length + 1) (1 + (rest.take 2).length)
      (Percent.byte (Percent.hexVal (rest.headD 0)) (Percent.hexVal (rest.tail.headD 0))) c' := by
  -- at the first digit, at the second one, and behind the escape
  let c₁ : Cursor := { c with s := c.s + 1 }
  have h₁ : At c₁.mem c₁.s (rest ++ [0]) := (at_cons.mp h).2
  let c₂ : Cursor := { (c₁.access none).access none with s := c₁.s + (rest.take 1).length }
  have h₂ : At c₂.mem c₂.s (rest.tail ++ [0]) := by
    cases rest with
    | nil => exact h₁
    | cons x rest => exact (at_cons.mp h₁).2
  have h0' : (0 : UInt8) ∉ rest.tail := fun hmem => h0 (List.mem_of_mem_tail hmem)
  let r : ℕ := c₂.s + (rest.tail.take 1).length
  have hrun : turn 37 c = put (nibble (rest.headD 0) <<< 4 ||| nibble (rest.tail.headD 0))
      { (c₂.access none).access none with s := r } := by
    show (hexDigit >>= fun hi => hexDigit >>= fun lo => put (hi <<< 4 ||| lo)) c₁ = _
    rw [bind_ok (hexDigit_ok h₁ h0)]
    exact bind_ok (hexDigit_ok h₂ h0')
  rw [nibbles_eq] at hrun
  have htake : (rest.take 2).length = (rest.take 1).length + (rest.tail.take 1).length := by
    cases rest with
    | nil => rfl
    | cons x rest =>
      cases rest with
      | nil => rfl
      | cons y rest => rfl
  have hle : (rest.take 1).length ≤ rest.length := List.length_take_le' ..
  have hle : (rest.tail.take 1).length + (rest.take 1).length ≤ rest.length :=
    Nat.add_comm .. ▸ htake ▸ List.length_take_le' ..
  refine ⟨_, hrun, rfl, ?_, rfl, [⟨c₁.s, c.t, none⟩, ⟨c₁.s, c.t, none⟩, ⟨c₂.s, c.t, none⟩,
    ⟨c₂.s, c.t, none⟩, ⟨r, c.t, some _⟩], ?_, rfl, fun e he => ?_⟩
  · show c.s + 1 + (rest.take 1).length + (rest.tail.take 1).length = _
    omega
  · -- two reads for each digit, the store at last
    show c.accesses ++ [_] ++ [_] ++ [_] ++ [_] ++ [_] = _
    simp only [List.append_assoc, List.cons_append, List.nil_append]
    rfl
  · have hs₁ : c₁.s = c.s + 1 := rfl
    have hs₂ : c₂.s = c.s + 1 + (rest.take 1).length := rfl
    have hr : r = c₂.s + (rest.tail.take 1).length := rfl
    obtain rfl | rfl | rfl | rfl | rfl : e = ⟨c₁.s, c.t, none⟩ ∨ e = ⟨c₁.s, c.t, none⟩ ∨
        e = ⟨c₂.s, c.t, none⟩ ∨ e = ⟨c₂.s, c.t, none⟩ ∨ e = ⟨r, c.t, some _⟩ := by
      simpa only [List.mem_cons, List.not_mem_nil, or_false] using he
    all_goals
      refine ⟨rfl, ?_⟩
      dsimp only
      omega

/-- The turn of a byte that stands for itself or for a space. -/
theorem turn_put (c : Cursor) (n : ℕ) (out : UInt8) :
    ∃ c', (put out >>= fun _ => next) c = .ok () c' ∧ Turned c n 1 out c' := by
  refine ⟨_, rfl, rfl, rfl, rfl, [⟨c.s, c.t, some out⟩], rfl, rfl, fun e he => ?_⟩
  rw [List.mem_singleton.mp he]
  exact ⟨rfl, Nat.le_refl _, Nat.le_add_right ..⟩

/-- **A turn** puts the first of the bytes that the decoder makes of what is unread, and leaves
unread what the decoder goes on with. -/
theorem turn_ok (h : At c.mem c.s (b :: (rest ++ [0]))) (h0 : (0 : UInt8) ∉ rest) :
    ∃ k out c', turn b c = .ok () c' ∧ Turned c (rest.length + 1) (1 + k) out c' ∧
      k ≤ rest.length ∧ Percent.decode (b :: rest) = out :: Percent.decode (rest.drop k) := by
  unfold turn
  by_cases hplus : b = 43
  · obtain ⟨c', hrun, hturned⟩ := turn_put c (rest.length + 1) 32
    rw [if_pos hplus]
    exact ⟨0, 32, c', hrun, hturned, Nat.zero_le _, hplus ▸ Percent.decode_plus rest⟩
  by_cases hpercent : b = 37
  · subst hpercent
    obtain ⟨c', hrun, hturned⟩ := turn_escape h h0
    -- the escape may be cut short by the terminator
    have hdrop : rest.drop (rest.take 2).length = rest.drop 2 := by
      rw [List.length_take]
      obtain hle | hle := Nat.le_total 2 rest.length
      · rw [Nat.min_eq_left hle]
      · rw [Nat.min_eq_right hle, List.drop_length, List.drop_eq_nil_of_le hle]
    exact ⟨(rest.take 2).length, _, c', hrun, hturned, List.length_take_le' ..,
      hdrop ▸ Percent.decode_escape rest⟩
  · obtain ⟨c', hrun, hturned⟩ := turn_put c (rest.length + 1) b
    rw [if_neg hplus, if_neg hpercent]
    exact ⟨0, b, c', hrun, hturned, Nat.zero_le _, Percent.decode_plain hplus hpercent⟩

end Turn

/-! ### The loop -/

section Loop

variable {m₀ : Memory} {a k : ℕ} {str done rest : List UInt8} {b out : UInt8} {c c' : Cursor}

/-- **The invariant.** In front of a turn `done` is decoded and `rest` is unread. -/
structure Decoding (m₀ : Memory) (a : ℕ) (str done rest : List UInt8) (c : Cursor) : Prop where
  mem : c.mem = write m₀ a done
  t : c.t = a + done.length
  s : c.s + rest.length = a + str.length
  behind : c.t ≤ c.s
  unread : At m₀ c.s (rest ++ [0])
  nonzero : (0 : UInt8) ∉ rest
  decodes : done ++ Percent.decode rest = Percent.decode str
  bounds : ∀ e ∈ c.accesses, a ≤ e.t ∧ e.t ≤ e.s ∧ e.s ≤ a + str.length
  written : written c.accesses = done

/-- What is unread is still in the memory, since all writes are in front of it. -/
theorem Decoding.at_s (h : Decoding m₀ a str done rest c) : At c.mem c.s (rest ++ [0]) := by
  rw [h.mem]
  exact h.unread.write_before (h.t ▸ h.behind)

theorem Decoding.start (h : At m₀ a (str ++ [0])) (h0 : (0 : UInt8) ∉ str) :
    Decoding m₀ a str [] str ⟨m₀, a, a, []⟩ where
  mem := (write_nil m₀ a).symm
  t := rfl
  s := rfl
  behind := Nat.le_refl a
  unread := h
  nonzero := h0
  decodes := rfl
  bounds := fun _ he => absurd he List.not_mem_nil
  written := rfl

/-- An access between the start and the terminator. -/
theorem Decoding.access_bounds (h : Decoding m₀ a str done rest c) (o : Option UInt8) :
    ∀ e ∈ (c.access o).accesses, a ≤ e.t ∧ e.t ≤ e.s ∧ e.s ≤ a + str.length := by
  intro e he
  obtain he | he := List.mem_append.mp he
  · exact h.bounds e he
  · have ht := h.t
    have hs := h.s
    have hbehind := h.behind
    rw [List.mem_singleton.mp he]
    dsimp only
    omega

theorem written_append (es es' : List Access) : written (es ++ es') = written es ++ written es' :=
  List.filterMap_append

/-- The condition of the loop reads a byte. -/
theorem Decoding.read (h : Decoding m₀ a str done rest c) :
    Decoding m₀ a str done rest (c.access none) where
  mem := h.mem
  t := h.t
  s := h.s
  behind := h.behind
  unread := h.unread
  nonzero := h.nonzero
  decodes := h.decodes
  bounds := h.access_bounds none
  written := by
    rw [Cursor.access_accesses, written_append, h.written]
    exact List.append_nil done

/-- **The invariant is kept** by a turn. -/
theorem Decoding.turned (h : Decoding m₀ a str done (b :: rest) c)
    (hturned : Turned c (rest.length + 1) (1 + k) out c') (hk : k ≤ rest.length)
    (hout : Percent.decode (b :: rest) = out :: Percent.decode (rest.drop k)) :
    Decoding m₀ a str (done ++ [out]) (rest.drop k) c' := by
  have ht := h.t
  have hs : c.s + (rest.length + 1) = a + str.length := h.s
  have hbehind := h.behind
  obtain ⟨es, haccesses, hwritten, hbounds⟩ := hturned.accesses
  exact
    { mem := by rw [hturned.mem, h.mem, ht, write_append]
      t := by rw [hturned.t, ht, List.length_append, List.length_singleton, Nat.add_assoc]
      s := by
        rw [hturned.s, List.length_drop]
        omega
      behind := by
        rw [hturned.s, hturned.t]
        omega
      unread := by
        -- the bytes that the turn has taken, and those behind them
        have hrest : At m₀ (c.s + 1) (rest.take k ++ (rest.drop k ++ [0])) := by
          rw [← List.append_assoc, List.take_append_drop]
          exact (at_cons.mp h.unread).2
        have hdrop := (at_append.mp hrest).2
        rw [List.length_take_of_le hk, Nat.add_assoc] at hdrop
        exact hturned.s ▸ hdrop
      nonzero := fun h0 => h.nonzero (List.mem_cons_of_mem b (List.mem_of_mem_drop h0))
      decodes := by rw [List.append_assoc, List.singleton_append, ← hout, h.decodes]
      bounds := by
        intro e he
        rw [haccesses] at he
        obtain he | he := List.mem_append.mp he
        · exact h.bounds e he
        · obtain ⟨het, hlow, hhigh⟩ := hbounds e he
          omega
      written := by rw [haccesses, written_append, h.written, hwritten] }

/-- **What has been done** to a string of `n` bytes at `a` when `out` is what it decodes to.
At each access the write position has not passed the read position, and this is not behind the
terminator. -/
structure InPlace (m₀ : Memory) (a n : ℕ) (out : List UInt8) (c : Cursor) : Prop where
  bounds : ∀ e ∈ c.accesses, a ≤ e.t ∧ e.t ≤ e.s ∧ e.s ≤ a + n
  written : written c.accesses = out ++ [0]
  mem : c.mem = write m₀ a (out ++ [0])
  outside : ∀ j, j < a ∨ a + n < j → c.mem j = m₀ j

/-- The store behind the loop ends the string. -/
theorem Decoding.finish (h : Decoding m₀ a str done [] c) :
    ∃ c', store 0 c = .ok () c' ∧ InPlace m₀ a str.length (Percent.decode str) c' := by
  have hdone : done = Percent.decode str := (List.append_nil done).symm.trans h.decodes
  have hmem : write c.mem c.t [0] = write m₀ a (Percent.decode str ++ [0]) := by
    rw [h.mem, h.t, write_append, hdone]
  refine ⟨_, rfl, h.access_bounds (some 0), ?_, hmem, fun j hj => ?_⟩
  · show Uri.written ((c.access (some 0)).accesses) = _
    rw [Cursor.access_accesses, written_append, h.written, hdone]
    rfl
  · have hlen := Percent.length_decode_le str
    show write c.mem c.t [0] j = m₀ j
    rw [hmem]
    refine write_outside m₀ ?_
    rw [List.length_append, List.length_singleton]
    omega

/-- **The loop**, with a turn for each of the bytes at most. -/
theorem loop_ok (h : Decoding m₀ a str done rest c) :
    ∃ c', (∀ more, loop (rest.length + 1 + more) c = .ok () c') ∧
      InPlace m₀ a str.length (Percent.decode str) c' := by
  induction hn : rest.length using Nat.strong_induction_on generalizing done rest c with
  | _ n ih =>
    subst hn
    have hderef (more : ℕ) : loop (rest.length + 1 + more) c
        = (if c.mem c.s ≠ 0 then (turn (c.mem c.s) >>= fun _ => loop (rest.length + more))
            else store 0) (c.access none) := by
      rw [Nat.add_right_comm]
      exact bind_ok (deref_ok c)
    cases rest with
    | nil =>
      have hb : c.mem c.s = 0 := (at_cons.mp h.at_s).1
      obtain ⟨c', hstore, hinplace⟩ := h.read.finish
      refine ⟨c', fun more => ?_, hinplace⟩
      rw [hderef, hb]
      exact hstore
    | cons b rest =>
      have hb : c.mem c.s = b := (at_cons.mp h.at_s).1
      have hne : b ≠ 0 := fun heq => h.nonzero (heq ▸ List.mem_cons_self ..)
      have h0 : (0 : UInt8) ∉ rest := fun hmem => h.nonzero (List.mem_cons_of_mem b hmem)
      obtain ⟨k, out, c₁, hturn, hturned, hk, hout⟩ := turn_ok h.read.at_s h0
      have hlen : (rest.drop k).length = rest.length - k := List.length_drop
      -- an escape takes up to three bytes in one turn, so that there are turns left over
      obtain ⟨c', hrun, hinplace⟩ := ih (rest.drop k).length
        (by rw [hlen, List.length_cons]; omega) (h.read.turned hturned hk hout) rfl
      refine ⟨c', fun more => ?_, hinplace⟩
      have hmore : (b :: rest).length + more = (rest.drop k).length + 1 + (k + more) := by
        rw [hlen, List.length_cons]
        omega
      rw [hderef, hb, if_pos hne, bind_ok hturn, hmore]
      exact hrun (k + more)

end Loop

/-! ### The whole string -/

section Whole

variable {mem : Memory} {a : ℕ} {s : CString}

/-- A string is decoded in place, whatever its escapes are like. -/
theorem uri_decode_ok (h : At mem a s.terminated) :
    ∃ c, (∀ more, uri_decode (s.length + 1 + more) mem a = .ok () c) ∧
      InPlace mem a s.length (Percent.decode s.bytes) c :=
  loop_ok (.start h s.zero_notMem)

/-- Bytes that have been written in any of the ways to encode them come back. -/
theorem uri_decode_encodes {bs : List UInt8} (h : At mem a s.terminated)
    (hbs : Percent.Encodes bs s.bytes) :
    ∃ c, (∀ more, uri_decode (s.length + 1 + more) mem a = .ok () c) ∧
      InPlace mem a s.length bs c := by
  have hok := uri_decode_ok h
  rwa [Percent.decode_of_encodes hbs] at hok

/-- **Decoding in place.** What is at the start of the string in the end is what the decoder makes
of the original one, and for the standard encoding of bytes it is the bytes. The pointer that
writes never passes the one that reads, which never passes the terminator. -/
theorem uri_decode_in_place :
    (∀ (s : CString) (mem : Memory) (a : ℕ), At mem a s.terminated →
      ∃ c, (∀ more, uri_decode (s.length + 1 + more) mem a = .ok () c) ∧
        InPlace mem a s.length (Percent.decode s.bytes) c) ∧
    ∀ (bs : List UInt8) (mem : Memory) (a : ℕ), At mem a (Percent.encode bs ++ [0]) →
      ∃ c, (∀ more, uri_decode ((Percent.encode bs).length + 1 + more) mem a = .ok () c) ∧
        InPlace mem a (Percent.encode bs).length bs c := by
  constructor
  · intro s mem a h
    exact uri_decode_ok h
  · intro bs mem a h
    have hencodes : Percent.Encodes bs (Percent.encode bs) := Percent.encodes_encode bs
    exact uri_decode_encodes (s := ⟨Percent.encode bs, Percent.zero_notMem_encode bs⟩) h hencodes

/-- `+a%4`, which ends inside of an escape, and the encoding of a NUL, a space and an `a`. -/
theorem uri_decode_in_place_examples :
    (∃ c, (∀ more, uri_decode (5 + more) (write (fun _ => 7) 10 [43, 97, 37, 52, 0]) 10
        = .ok () c) ∧
      InPlace (write (fun _ => 7) 10 [43, 97, 37, 52, 0]) 10 4 [32, 97, 64] c) ∧
    ∃ c, (∀ more, uri_decode (8 + more)
        (write (fun _ => 7) 10 [37, 48, 48, 37, 50, 48, 97, 0]) 10 = .ok () c) ∧
      InPlace (write (fun _ => 7) 10 [37, 48, 48, 37, 50, 48, 97, 0]) 10 7 [0, 32, 97] c :=
  ⟨uri_decode_in_place.1 ⟨[43, 97, 37, 52], by decide⟩ _ 10 (at_write _ _ _),
    uri_decode_in_place.2 [0, 32, 97] _ 10 (at_write _ _ _)⟩

end Whole

end Uri
end Http
end Osrv
