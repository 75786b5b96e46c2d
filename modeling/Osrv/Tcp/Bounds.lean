import Osrv.Tcp.DoProcess

/-!
# The pointers of a round

A round of `do_process` with every byte that it reads or ends a string at, the strings that
`strcmp`, `atol` and the store read included: `parse` is nothing if a pointer that is
followed is null or leaves `w->buf`. What it comes to is what the round acts on
(`request_of_parse`).

The NUL behind what was received stops all the loops. The one pointer that leaves the buffer
is the end of the line of a `PUT` that came without a newline, which is null and is followed
(`parse_in_bounds_iff`).
-/

namespace Osrv
namespace Tcp

open Bytes Net Obj Sfs

/-! ### The accesses -/

/-- Ends a string with a NUL. -/
def endAt (buf : Memory) (i : ℕ) : Option Memory :=
  if i < MAX_BUF then some (write buf i [0]) else none

/-- The loop that goes back over the line end in front of `i`. -/
def backOver (buf : Memory) : ℕ → Option ℕ
  | 0 => some 0
  | i + 1 => do
    if isEol (← peek MAX_BUF buf i) then backOver buf i else pure (i + 1)

/-- Reads a string up to its NUL. -/
def stringFrom (buf : Memory) (i : ℕ) : Option CString := do
  let _ ← skipWhile MAX_BUF (fun b => b != 0) buf i
  pure (stringAt MAX_BUF buf i)

/-- The command and its argument, in a line that has been ended. -/
def takeWord (d : Option ℕ) (buf : Memory) : Option (Memory × Option Command) := do
  let e ← skipWhile MAX_BUF isUpper buf 0
  if (← peek MAX_BUF buf e) = 0 then pure (buf, none)
  else
    let a ← skipWhile MAX_BUF isBlank buf e
    let buf ← endAt buf e
    let cmd ← stringFrom buf 0
    let arg ← stringFrom buf a
    pure (buf, some ⟨d, cmd, arg⟩)

/-- `commandLine` -/
def parseLine (buf : Memory) : Option (Memory × Option Command) := do
  match ← findNewline buf with
  | none => takeWord none buf
  | some d =>
    let d ← backOver buf (d + 1)
    let buf ← endAt buf d
    takeWord (some d) buf

/-- `putSize`, where `atol` reads a string that starts with a digit. -/
def parseSize (buf : Memory) (d : ℕ) : Option (Option (ℤ × ℕ)) := do
  if isDigit (← peek MAX_BUF buf d) then
    let _ ← stringFrom buf d
    putSize buf d
  else putSize buf d

/-- What a round acts on. -/
inductive Parsed
  | nothing
  | command (c : Command)
  | invalid
  | payload (a : CString) (len : ℤ) (d : ℕ)

/-- **The parsing of a round**, of a buffer in which `be` bytes have been received. -/
def parse (buf : Memory) (be : ℕ) : Option (Memory × Parsed) := do
  let (buf, c) ← parseLine buf
  match c with
  | none => pure (buf, .nothing)
  | some c =>
    if c.cmd.bytes = PUT then
      let d ← c.d
      if d < be then
        let d ← skipWhile MAX_BUF isEol buf (d + 1)
        match ← parseSize buf d with
        | none => pure (buf, .invalid)
        | some (len, d) => pure (buf, .payload c.arg len d)
      else pure (buf, .invalid)
    else pure (buf, .command c)

/-- What a round does with it. -/
def act (send : SendFn) (malloc : Malloc) (be : ℕ) (buf : Memory) (w : World) :
    Parsed → Option (Flow × World)
  | .nothing => some (.leave, w)
  | .command c => perform send malloc c be buf w
  | .invalid => some (refuse send w INV)
  | .payload a len d =>
    some (if len > 0 then putPayload send malloc a len.toNat d be buf w else reply send w UNSUPP)

/-! ### The round -/

section Round

variable {buf buf' : Memory}

theorem lineEnd_of_backOver {i d : ℕ} (h : backOver buf i = some d) : lineEnd buf i = d := by
  induction i with
  | zero => exact Option.some.inj h
  | succ i ih =>
    simp only [backOver, Option.bind_eq_bind, Option.bind_eq_some_iff] at h
    obtain ⟨b, hpeek, h⟩ := h
    have hb : buf i = b := by
      rw [peek] at hpeek
      split at hpeek
      · exact Option.some.inj hpeek
      · cases hpeek
    rw [lineEnd, hb]
    split at h
    · next heol => rw [if_pos heol, ih h]
    · next heol => rw [if_neg heol, Option.some.inj h]

theorem stringAt_of_stringFrom {i : ℕ} {s : CString} (h : stringFrom buf i = some s) :
    stringAt MAX_BUF buf i = s := by
  simp only [stringFrom, Option.bind_eq_bind, Option.bind_eq_some_iff] at h
  obtain ⟨-, -, h⟩ := h
  exact Option.some.inj h

theorem write_of_endAt {i : ℕ} (h : endAt buf i = some buf') : write buf i [0] = buf' := by
  rw [endAt] at h
  split at h
  · exact Option.some.inj h
  · cases h

/-- The word of a line, in `commandLine`. -/
theorem commandLine_of_takeWord {d : Option ℕ} {r : Memory × Option Command}
    (h : takeWord d buf = some r) :
    (do
      let e ← skipWhile MAX_BUF isUpper buf 0
      if (← peek MAX_BUF buf e) = 0 then pure (buf, none)
      else
        let a ← skipWhile MAX_BUF isBlank buf e
        let buf := write buf e [0]
        pure (buf, some ⟨d, stringAt MAX_BUF buf 0, stringAt MAX_BUF buf a⟩)) = some r := by
  simp only [takeWord, Option.bind_eq_bind, Option.bind_eq_some_iff] at h
  obtain ⟨e, he, b, hb, h⟩ := h
  simp only [he, hb, Option.bind_eq_bind, Option.bind_some]
  split at h
  · next hzero => rw [if_pos hzero, h]
  · next hzero =>
    simp only [Option.bind_eq_some_iff] at h
    obtain ⟨a, ha, buf', hbuf, cmd, hcmd, arg, harg, h⟩ := h
    obtain rfl := write_of_endAt hbuf
    simp only [if_neg hzero, ha, Option.bind_some, stringAt_of_stringFrom hcmd,
      stringAt_of_stringFrom harg, h]

theorem commandLine_of_parseLine {r : Memory × Option Command} (h : parseLine buf = some r) :
    commandLine buf = some r := by
  simp only [parseLine, Option.bind_eq_bind, Option.bind_eq_some_iff] at h
  obtain ⟨newline, hfind, h⟩ := h
  cases newline with
  | none =>
    simp only [commandLine, hfind, Option.bind_eq_bind, Option.bind_some, Option.map_none]
    exact commandLine_of_takeWord h
  | some d =>
    simp only [Option.bind_eq_some_iff] at h
    obtain ⟨d', hback, buf', hbuf, h⟩ := h
    obtain rfl := write_of_endAt hbuf
    simp only [commandLine, hfind, Option.bind_eq_bind, Option.bind_some, Option.map_some,
      lineEnd_of_backOver hback]
    exact commandLine_of_takeWord h

theorem putSize_of_parseSize {d : ℕ} {r : Option (ℤ × ℕ)} (h : parseSize buf d = some r) :
    putSize buf d = some r := by
  simp only [parseSize, Option.bind_eq_bind, Option.bind_eq_some_iff] at h
  obtain ⟨b, -, h⟩ := h
  split at h
  · simp only [Option.bind_eq_some_iff] at h
    obtain ⟨-, -, h⟩ := h
    exact h
  · exact h

/-- **The round acts on what the parsing comes to.** -/
theorem request_of_parse {bs : List UInt8} {r : Parsed} (send : SendFn) (malloc : Malloc)
    (w : World) (h : parse (write buf 0 (bs ++ [0])) bs.length = some (buf', r)) :
    request send malloc buf bs w
      = (act send malloc bs.length buf' w r).map fun p => (buf', p.1, p.2) := by
  simp only [parse, Option.bind_eq_bind, Option.bind_eq_some_iff] at h
  obtain ⟨⟨buf₁, c⟩, hline, h⟩ := h
  have hcommand := commandLine_of_parseLine hline
  simp only [request, hcommand, Option.bind_eq_bind, Option.bind_some]
  cases c with
  -- no command is in the line
  | none =>
    cases h
    rfl
  | some c =>
    simp only at h ⊢
    split at h
    · next hPUT =>
      -- a `PUT` is no other command
      have hGET : ¬ (c.cmd.bytes = GET ∨ c.cmd.bytes = HAS) := by
        rw [hPUT]
        decide
      have hDEL : ¬ c.cmd.bytes = DEL := by
        rw [hPUT]
        decide
      simp only [Option.bind_eq_some_iff] at h
      obtain ⟨d, hd, h⟩ := h
      simp only [perform, if_neg hGET, if_neg hDEL, if_pos hPUT, put, hd, Option.bind_eq_bind,
        Option.bind_some]
      split at h
      -- with a size
      · next hbe =>
        simp only [Option.bind_eq_some_iff] at h
        obtain ⟨d', hskip, size, hsize, h⟩ := h
        simp only [if_pos hbe, hskip, Option.bind_some, putSize_of_parseSize hsize]
        cases size with
        | none =>
          cases h
          rfl
        | some size =>
          cases h
          simp only [act]
          split <;> rfl
      -- without one
      · next hbe =>
        rw [if_neg hbe]
        cases h
        rfl
    · cases h
      simp only [act]
      cases perform send malloc c bs.length buf' w with
      | none => rfl
      | some p => rfl

end Round

/-! ### The bounds -/

section Bounds

variable {buf : Memory} {n : ℕ}

theorem peek_in {i : ℕ} (hi : i < MAX_BUF) : peek MAX_BUF buf i = some (buf i) := if_pos hi

/-- A string in front of the NUL. -/
theorem stringFrom_in (hn : n < MAX_BUF) (hnul : buf n = 0) {i : ℕ} (hi : i ≤ n) :
    stringFrom buf i = some (stringAt MAX_BUF buf i) := by
  obtain ⟨k, hk, -⟩ := skipWhile_stops (fun b => b != 0) buf hi hn (by rw [hnul]; rfl)
  simp only [stringFrom, hk]
  rfl

/-- `strchr` comes to a newline or to a NUL. -/
theorem findNewline_in (hn : n < MAX_BUF) (hnul : buf n = 0) :
    ∃ k ≤ n, (∀ l < k, buf l ≠ 10 ∧ buf l ≠ 0) ∧
      (findNewline buf = some (some k) ∧ buf k = 10 ∨ findNewline buf = some none ∧ buf k = 0) := by
  obtain ⟨k, hk, -, hkn, hstop, hrun⟩ :=
    skipWhile_stops (fun b => b != 10 && b != 0) buf (Nat.zero_le n) hn (by rw [hnul]; rfl)
  have hpeek : peek MAX_BUF buf k = some (buf k) := peek_in (Nat.lt_of_le_of_lt hkn hn)
  refine ⟨k, hkn, fun l hl => ?_, ?_⟩
  · have hbyte := hrun l (Nat.zero_le l) hl
    rw [Bool.and_eq_true, bne_iff_ne, bne_iff_ne] at hbyte
    exact hbyte
  · simp only [findNewline, hk, hpeek, Option.bind_eq_bind, Option.bind_some]
    by_cases hten : buf k = 10
    · exact Or.inl ⟨by rw [if_pos hten]; rfl, hten⟩
    · refine Or.inr ⟨by rw [if_neg hten]; rfl, ?_⟩
      rw [Bool.and_eq_false_iff, bne_eq_false_iff_eq, bne_eq_false_iff_eq] at hstop
      exact hstop.resolve_left hten

/-- The way back over the line end stops in the buffer or at its start. -/
theorem backOver_in {i : ℕ} (hi : i ≤ MAX_BUF) : ∃ d ≤ i, backOver buf i = some d := by
  induction i with
  | zero => exact ⟨0, Nat.le_refl 0, rfl⟩
  | succ i ih =>
    simp only [backOver, peek_in hi, Option.bind_eq_bind, Option.bind_some]
    split
    · obtain ⟨d, hd, hback⟩ := ih (Nat.le_of_succ_le hi)
      exact ⟨d, Nat.le_succ_of_le hd, hback⟩
    · exact ⟨i + 1, Nat.le_refl _, rfl⟩

/-- The word of a line: what is in front of the first byte that is not a capital. -/
theorem takeWord_in (hn : n < MAX_BUF) (hnul : buf n = 0) (d : Option ℕ) :
    ∃ e ≤ n, (∀ l < e, isUpper (buf l) = true) ∧ isUpper (buf e) = false ∧
      (buf e = 0 ∧ takeWord d buf = some (buf, none) ∨
        buf e ≠ 0 ∧ ∃ arg, takeWord d buf = some (write buf e [0],
          some ⟨d, stringAt MAX_BUF (write buf e [0]) 0, arg⟩)) := by
  obtain ⟨e, he, -, hen, hstop, hrun⟩ :=
    skipWhile_stops isUpper buf (Nat.zero_le n) hn (by rw [hnul]; rfl)
  have hpeek : peek MAX_BUF buf e = some (buf e) := peek_in (Nat.lt_of_le_of_lt hen hn)
  refine ⟨e, hen, fun l => hrun l (Nat.zero_le l), hstop, ?_⟩
  simp only [takeWord, he, hpeek, Option.bind_eq_bind, Option.bind_some]
  by_cases hzero : buf e = 0
  · exact Or.inl ⟨hzero, by rw [if_pos hzero]; rfl⟩
  · have hne : e ≠ n := by
      rintro rfl
      exact hzero hnul
    obtain ⟨a, ha, -, han, -⟩ := skipWhile_stops isBlank buf hen hn (by rw [hnul]; rfl)
    have hend : endAt buf e = some (write buf e [0]) := if_pos (Nat.lt_of_le_of_lt hen hn)
    -- the NUL behind what was received is still there
    have hnul' : write buf e [0] n = 0 := (write_of_ne hne.symm buf 0).trans hnul
    refine Or.inr ⟨hzero, stringAt MAX_BUF (write buf e [0]) a, ?_⟩
    simp only [if_neg hzero, ha, hend, Option.bind_some, stringFrom_in hn hnul' (Nat.zero_le n),
      stringFrom_in hn hnul' han]
    rfl

/-- A line end is gone over. -/
theorem skipEol_in (hn : n < MAX_BUF) (hnul : buf n = 0) {d : ℕ} (hd : d ≤ n)
    (heol : isEol (buf d) = true) : ∃ d', skipEol buf d = some d' ∧ d < d' ∧ d' ≤ n := by
  have hdn : d < n := by
    refine Nat.lt_of_le_of_ne hd ?_
    rintro rfl
    rw [hnul] at heol
    exact absurd heol (by decide)
  simp only [skipEol, peek_in (Nat.lt_of_le_of_lt hd hn), peek_in (Nat.lt_of_le_of_lt hdn hn),
    Option.bind_eq_bind, Option.bind_some]
  by_cases hcr : buf d = 13
  · by_cases hten : buf (d + 1) = 10
    · have hne : d + 1 ≠ n := by
        rintro rfl
        exact absurd (hnul.symm.trans hten) (by decide)
      refine ⟨d + 2, by rw [if_pos hcr, if_pos hten]; rfl, ?_, ?_⟩ <;> omega
    · exact ⟨d + 1, by rw [if_pos hcr, if_neg hten]; rfl, Nat.lt_succ_self d, hdn⟩
  · exact ⟨d + 1, by rw [if_neg hcr]; rfl, Nat.lt_succ_self d, hdn⟩

/-- What is behind the size line has been received. -/
theorem parseSize_in (hn : n < MAX_BUF) (hnul : buf n = 0) {d : ℕ} (hd : d ≤ n) :
    ∃ r, parseSize buf d = some r ∧ ∀ len d', r = some (len, d') → d ≤ d' ∧ d' ≤ n := by
  have hpeek : peek MAX_BUF buf d = some (buf d) := peek_in (Nat.lt_of_le_of_lt hd hn)
  simp only [parseSize, putSize, hpeek, Option.bind_eq_bind, Option.bind_some]
  by_cases hdigit : isDigit (buf d) = true
  · have hmark : ¬ buf d = 63 := by
      intro heq
      rw [heq] at hdigit
      exact absurd hdigit (by decide)
    obtain ⟨e, he, hde, hen, -⟩ := skipWhile_stops isDigit buf hd hn (by rw [hnul]; rfl)
    simp only [if_pos hdigit, stringFrom_in hn hnul hd, if_neg hmark, he,
      peek_in (Nat.lt_of_le_of_lt hen hn), Option.bind_some]
    split
    · exact ⟨none, rfl, fun _ _ h => by cases h⟩
    · next hvalid =>
      rw [not_or, not_not] at hvalid
      obtain ⟨d', hskip, hed, hdn⟩ := skipEol_in hn hnul hen hvalid.2
      refine ⟨some (atol (stringAt MAX_BUF buf d), d'), by rw [hskip]; rfl, ?_⟩
      rintro len d'' ⟨⟩
      omega
  · simp only [if_neg hdigit]
    by_cases hmark : buf d = 63
    · have hdn : d < n := by
        refine Nat.lt_of_le_of_ne hd ?_
        rintro rfl
        exact absurd (hnul.symm.trans hmark) (by decide)
      simp only [if_pos hmark, peek_in (Nat.lt_of_le_of_lt hdn hn), Option.bind_some]
      split
      · next heol =>
        obtain ⟨d', hskip, hed, hdn'⟩ := skipEol_in hn hnul hdn heol
        refine ⟨some (-1, d'), by rw [hskip]; rfl, ?_⟩
        rintro len d'' ⟨⟩
        omega
      · exact ⟨none, rfl, fun _ _ h => by cases h⟩
    · rw [if_neg hmark]
      exact ⟨none, rfl, fun _ _ h => by cases h⟩

/-- **A line with a newline** is parsed within what was received. -/
theorem parse_of_newline (hn : n < MAX_BUF) (hnul : buf n = 0) {k : ℕ} (hk : k ≤ n)
    (hfind : findNewline buf = some (some k)) (hten : buf k = 10) :
    ∃ buf' r, parse buf n = some (buf', r) ∧
      ∀ a len d, r = .payload a len d → d ≤ n ∧ ∀ i, d ≤ i → buf' i = buf i := by
  have hkn : k < n := by
    refine Nat.lt_of_le_of_ne hk ?_
    rintro rfl
    exact absurd (hnul.symm.trans hten) (by decide)
  -- the line ends at `d`, in front of its newline
  obtain ⟨d, hdk, hback⟩ := @backOver_in buf _ (Nat.le_of_lt (Nat.lt_of_le_of_lt hk hn))
  have hline : backOver buf (k + 1) = some d := by
    rw [backOver, peek_in (Nat.lt_of_le_of_lt hk hn)]
    simp only [Option.bind_eq_bind, Option.bind_some, hten]
    exact hback
  have hdn : d < n := Nat.lt_of_le_of_lt hdk hkn
  have hend : endAt buf d = some (write buf d [0]) := if_pos (Nat.lt_trans hdn hn)
  have hnul₁ : write buf d [0] n = 0 := (write_of_ne (Nat.ne_of_gt hdn) buf 0).trans hnul
  obtain ⟨e, -, hupper, -, hword⟩ := takeWord_in hn hnul₁ (some d)
  have hed : e ≤ d := by
    by_contra hlt
    have hzero : write buf d [0] d = 0 := write_self ..
    have hbyte := hupper d (Nat.not_le.mp hlt)
    rw [hzero] at hbyte
    exact absurd hbyte (by decide)
  have hparse : parseLine buf = takeWord (some d) (write buf d [0]) := by
    simp only [parseLine, hfind, hline, hend, Option.bind_eq_bind, Option.bind_some]
  rcases hword with ⟨-, hword⟩ | ⟨hne, arg, hword⟩
  · refine ⟨write buf d [0], .nothing, ?_, fun _ _ _ h => by cases h⟩
    simp only [parse, hparse, hword, Option.bind_eq_bind, Option.bind_some]
    rfl
  · have hen : e ≠ n := by omega
    have hnul₂ : write (write buf d [0]) e [0] n = 0 := (write_of_ne hen.symm _ 0).trans hnul₁
    obtain ⟨d₁, hskip, hdd₁, hd₁n, -⟩ :=
      skipWhile_stops isEol (write (write buf d [0]) e [0]) hdn hn (by rw [hnul₂]; rfl)
    obtain ⟨size, hsize, hbounds⟩ := parseSize_in hn hnul₂ hd₁n
    simp only [parse, hparse, hword, Option.bind_eq_bind, Option.bind_some]
    split
    · simp only [hskip, hsize, Option.bind_some]
      cases size with
      | none => exact ⟨_, .invalid, rfl, fun _ _ _ h => by cases h⟩
      | some size =>
        obtain ⟨len, d₂⟩ := size
        obtain ⟨hd₁₂, hd₂n⟩ := hbounds len d₂ rfl
        refine ⟨_, .payload arg len d₂, rfl, ?_⟩
        rintro a len' d' ⟨⟩
        -- the two NULs are in front of the payload
        refine ⟨hd₂n, fun i hi => ?_⟩
        rw [write_of_ne (by omega), write_of_ne (by omega)]
    · exact ⟨_, .command _, rfl, fun _ _ _ h => by cases h⟩

/-- **A line without a newline** is parsed unless it is that of a `PUT`. -/
theorem parse_of_open (hn : n < MAX_BUF) (hnul : buf n = 0)
    (hfind : findNewline buf = some none) :
    ∃ e ≤ n, (∀ l < e, isUpper (buf l) = true) ∧ isUpper (buf e) = false ∧
      (buf e ≠ 0 ∧ read buf e = PUT ∧ parse buf n = none ∨
        ¬ (buf e ≠ 0 ∧ read buf e = PUT) ∧
          ∃ buf' r, parse buf n = some (buf', r) ∧ ∀ a len d, r ≠ .payload a len d) := by
  obtain ⟨e, hen, hupper, hstop, hword⟩ := takeWord_in hn hnul none
  have hparse : parseLine buf = takeWord none buf := by
    simp only [parseLine, hfind, Option.bind_eq_bind, Option.bind_some]
  refine ⟨e, hen, hupper, hstop, ?_⟩
  rcases hword with ⟨hzero, hword⟩ | ⟨hne, arg, hword⟩
  · refine Or.inr ⟨fun h => h.1 hzero, buf, .nothing, ?_, fun _ _ _ h => by cases h⟩
    simp only [parse, hparse, hword, Option.bind_eq_bind, Option.bind_some]
    rfl
  · -- the word is what is in front of `e`
    have hnotMem : (0 : UInt8) ∉ read buf e := by
      intro hmem
      obtain ⟨l, hl, hbyte⟩ := List.mem_map.mp hmem
      have hcapital := hupper l (List.mem_range.mp hl)
      rw [hbyte] at hcapital
      exact absurd hcapital (by decide)
    have hat : At (write buf e [0]) 0 (read buf e ++ [0]) :=
      (at_read buf e).write_end (by rw [length_read, Nat.zero_add]) _
    have hcmd : stringAt MAX_BUF (write buf e [0]) 0 = ⟨read buf e, hnotMem⟩ := by
      refine stringAt_eq hat ?_
      show 0 + (read buf e).length < MAX_BUF
      rw [length_read, Nat.zero_add]
      exact Nat.lt_of_le_of_lt hen hn
    simp only [parse, hparse, hword, Option.bind_eq_bind, Option.bind_some, hcmd]
    by_cases hPUT : CString.bytes ⟨read buf e, hnotMem⟩ = PUT
    · -- null is followed
      rw [if_pos hPUT]
      exact Or.inl ⟨hne, hPUT, rfl⟩
    · rw [if_neg hPUT]
      exact Or.inr ⟨fun h => hPUT h.2, _, .command _, rfl, fun _ _ _ h => by cases h⟩

end Bounds

/-! ### What was received -/

/-- **A `PUT` that came without its newline**: behind the word there is more, and in front of
any newline there is a NUL. -/
structure OpenPut (bs : List UInt8) : Prop where
  word : ∃ b rest, bs = PUT ++ b :: rest ∧ isUpper b = false ∧ b ≠ 0
  line : ∀ line rest, bs = line ++ 10 :: rest → (0 : UInt8) ∈ line

section Received

variable {mem : Memory} {bs : List UInt8}

/-- The NUL behind what was received. -/
theorem nul_of_at (hat : At mem 0 (bs ++ [0])) : mem bs.length = 0 := by
  have hzero := (at_cons.mp (at_append.mp hat).2).1
  rwa [Nat.zero_add] at hzero

theorem byte_of_at (hat : At mem 0 (bs ++ [0])) {i : ℕ} (hi : i < bs.length) : mem i = bs[i] := by
  have hbyte := (at_append.mp hat).1 i hi
  rwa [Nat.zero_add] at hbyte

/-- No newline is found if each has a NUL in front of it. -/
theorem findNewline_none_iff (hat : At mem 0 (bs ++ [0])) (hn : bs.length < MAX_BUF) :
    findNewline mem = some none ↔
      ∀ line rest, bs = line ++ 10 :: rest → (0 : UInt8) ∈ line := by
  have hnul := nul_of_at hat
  obtain ⟨k, hk, hfront, ⟨hfind, hten⟩ | ⟨hfind, hzero⟩⟩ := findNewline_in hn hnul
  · -- the newline at `k` is in front of any NUL
    refine iff_of_false (by rw [hfind]; exact nofun) fun hline => ?_
    have hkn : k < bs.length := by
      refine Nat.lt_of_le_of_ne hk ?_
      rintro rfl
      exact absurd (hnul.symm.trans hten) (by decide)
    have hsplit : bs = bs.take k ++ 10 :: bs.drop (k + 1) := by
      rw [← hten, byte_of_at hat hkn, List.getElem_cons_drop, List.take_append_drop]
    obtain ⟨l, hl, hbl⟩ := List.getElem_of_mem (hline _ _ hsplit)
    rw [List.getElem_take] at hbl
    have hlk : l < k := Nat.lt_of_lt_of_le hl (List.length_take_le _ _)
    exact (hfront l hlk).2 ((byte_of_at hat (by omega)).trans hbl)
  · -- the NUL at `k` is in front of any newline
    refine iff_of_true hfind fun line rest heq => ?_
    have hlt : line.length < bs.length := by
      rw [heq, List.length_append, List.length_cons]
      omega
    have hten : mem line.length = 10 := by
      rw [byte_of_at hat hlt]
      simp [heq]
    have hkl : k < line.length := by
      obtain hlt' | heq' | hgt := Nat.lt_trichotomy k line.length
      · exact hlt'
      · rw [← heq'] at hten
        exact absurd (hzero.symm.trans hten) (by decide)
      · exact absurd hten (hfront line.length hgt).1
    have hbk : line.get ⟨k, hkl⟩ = 0 := by
      rw [← hzero, byte_of_at hat (by omega)]
      simp [heq, List.getElem_append_left hkl]
    exact hbk ▸ List.get_mem line ⟨k, hkl⟩

/-- The word in front of the first byte that is not a capital. -/
theorem read_word {e : ℕ} {b : UInt8} {rest : List UInt8} (hat : At mem 0 (PUT ++ b :: rest))
    (hb : isUpper b = false) (hupper : ∀ l < e, isUpper (mem l) = true)
    (hstop : isUpper (mem e) = false) : mem e = b ∧ read mem e = PUT := by
  obtain ⟨hPUT, hrest⟩ := at_append.mp hat
  have h3 : mem 3 = b := (at_cons.mp hrest).1
  have hcapital : ∀ l < 3, isUpper (mem l) = true := by
    intro l hl
    have hbyte := hPUT l hl
    rw [Nat.zero_add] at hbyte
    rw [hbyte]
    exact List.all_eq_true.mp (by decide : PUT.all isUpper = true) _ (List.getElem_mem _)
  obtain hlt | rfl | hgt := Nat.lt_trichotomy e 3
  · exact Bool.noConfusion ((hcapital e hlt).symm.trans hstop)
  · exact ⟨h3, hPUT.read_start⟩
  · exact Bool.noConfusion ((h3 ▸ hupper 3 hgt).symm.trans hb)

/-- **Null is followed** if a `PUT` came without its newline. -/
theorem parse_of_openPut (hat : At mem 0 (bs ++ [0])) (hn : bs.length < MAX_BUF)
    (hopen : OpenPut bs) : parse mem bs.length = none := by
  have hfind := (findNewline_none_iff hat hn).mpr hopen.line
  obtain ⟨e, -, hupper, hstop, ⟨-, -, hparse⟩ | ⟨hnot, -⟩⟩ :=
    parse_of_open hn (nul_of_at hat) hfind
  · exact hparse
  · obtain ⟨b, rest, rfl, hb, hb0⟩ := hopen.word
    obtain ⟨hbe, hread⟩ := read_word (at_append.mp hat).1 hb hupper hstop
    exact absurd ⟨hbe ▸ hb0, hread⟩ hnot

/-- All else is parsed within what was received. -/
theorem parse_of_not_openPut (hat : At mem 0 (bs ++ [0])) (hn : bs.length < MAX_BUF)
    (hopen : ¬ OpenPut bs) :
    ∃ buf' r, parse mem bs.length = some (buf', r) ∧
      ∀ a len d, r = .payload a len d → d ≤ bs.length ∧ At buf' d (bs.drop d) := by
  have hnul := nul_of_at hat
  obtain ⟨k, hk, -, ⟨hfind, hten⟩ | ⟨hfind, -⟩⟩ := findNewline_in hn hnul
  · obtain ⟨buf', r, hparse, hin⟩ := parse_of_newline hn hnul hk hfind hten
    refine ⟨buf', r, hparse, fun a len d hr => ?_⟩
    obtain ⟨hd, hsame⟩ := hin a len d hr
    refine ⟨hd, fun j hj => ?_⟩
    rw [List.length_drop] at hj
    rw [hsame (d + j) (Nat.le_add_right d j), byte_of_at hat (by omega), List.getElem_drop]
  · obtain ⟨e, hen, -, hstop, ⟨hne, hPUT, -⟩ | ⟨-, buf', r, hparse, hno⟩⟩ :=
      parse_of_open hn hnul hfind
    · -- the word has three bytes, and what stops it has been received
      refine absurd ⟨?_, (findNewline_none_iff hat hn).mp hfind⟩ hopen
      have he : e = 3 := by
        rw [← length_read mem e, hPUT]
        rfl
      subst he
      have hlt : 3 < bs.length := by
        refine Nat.lt_of_le_of_ne hen fun heq => hne ?_
        rw [heq]
        exact hnul
      rw [byte_of_at hat hlt] at hne hstop
      have htake : bs.take 3 = PUT := by
        have hread := (at_append.mp hat).1.read_take hen
        simp only [Nat.zero_add] at hread
        exact hread.symm.trans hPUT
      refine ⟨bs[3], bs.drop 4, ?_, hstop, hne⟩
      rw [← htake, List.getElem_cons_drop, List.take_append_drop]
    · exact ⟨buf', r, hparse, fun a len d hr => absurd hr (hno a len d)⟩

end Received

/-- **The round stays in its buffer.** All pointers that the parsing follows are into
`w->buf`, the payload starts no later than what was received ends, so that its bytes in the
buffer are received bytes, and the round acts on what the parsing comes to. -/
def InBounds (buf : Memory) (bs : List UInt8) : Prop :=
  ∃ buf' r, parse (write buf 0 (bs ++ [0])) bs.length = some (buf', r) ∧
    (∀ a len d, r = .payload a len d → d ≤ bs.length ∧ At buf' d (bs.drop d)) ∧
    ∀ send malloc w, request send malloc buf bs w
      = (act send malloc bs.length buf' w r).map fun p => (buf', p.1, p.2)

/-- **A round leaves its buffer exactly if it gets a `PUT` without a newline.** -/
theorem parse_in_bounds_iff {bs : List UInt8} (hlen : bs.length ≤ 65535) (buf : Memory) :
    InBounds buf bs ↔ ¬ OpenPut bs := by
  have hn : bs.length < MAX_BUF := Nat.lt_succ_of_le hlen
  have hat : At (write buf 0 (bs ++ [0])) 0 (bs ++ [0]) := at_write buf 0 _
  constructor
  · rintro ⟨buf', r, hparse, -⟩ hopen
    rw [parse_of_openPut hat hn hopen] at hparse
    cases hparse
  · intro hopen
    obtain ⟨buf', r, hparse, hin⟩ := parse_of_not_openPut hat hn hopen
    exact ⟨buf', r, hparse, hin, fun send malloc w => request_of_parse send malloc w hparse⟩

theorem parse_in_bounds_get :
    InBounds (fun _ => 0) (ascii "GET k") ↔ ¬ OpenPut (ascii "GET k") :=
  parse_in_bounds_iff (by decide) _

/-- The line of a `PUT` that has been cut off in its key. -/
theorem parse_out_of_bounds :
    (ascii "PUT k").length ≤ 65535 ∧ ¬ InBounds (fun _ => 0) (ascii "PUT k") := by
  refine ⟨by decide, ?_⟩
  have hopen : OpenPut (ascii "PUT k") := by
    refine ⟨⟨32, ascii "k", rfl, by decide, by decide⟩, fun line rest heq => ?_⟩
    have hmem : (10 : UInt8) ∈ ascii "PUT k" := heq ▸ List.mem_append_right _ List.mem_cons_self
    exact absurd hmem (by decide)
  rintro ⟨buf', r, hparse, -⟩
  rw [parse_of_openPut (at_write _ 0 _) (by decide) hopen] at hparse
  cases hparse

end Tcp
end Osrv
