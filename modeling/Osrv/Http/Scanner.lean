import Osrv.Http.Input
import Osrv.Http.Lines

/-!
# The line scanner

`scan` is what the loop over the line buffer makes of the bytes in it, without
the buffer: the lines are processed one after the other up to the blank line, to
a line that is refused or to one that has not been received to its end.
`scanLoop_spec` connects the loop to it.
-/

namespace Osrv
namespace Http

open Bytes Net

/-! ### Scanning bytes -/

/-- What scanning comes to. -/
inductive Scan
  | more (rd : Reading) (pending : List UInt8)
  | blank (rd : Reading) (rest : List UInt8)
  | refuse (response : List UInt8)
  | crash

/-- What follows a blank line at the start. -/
def afterBlank : List UInt8 → Option (List UInt8)
  | 10 :: bs => some bs
  | 13 :: 10 :: bs => some bs
  | _ => none

/-- What follows a line end at the start. -/
def afterEol : List UInt8 → Option (List UInt8)
  | 13 :: 10 :: bs => some bs
  | 13 :: bs => some bs
  | 10 :: bs => some bs
  | _ => none

theorem afterEol_length {bs rest : List UInt8} (h : afterEol bs = some rest) :
    rest.length < bs.length := by
  unfold afterEol at h
  split at h <;> cases h <;> simp only [List.length_cons] <;> omega

theorem afterBlank_length {bs rest : List UInt8} (h : afterBlank bs = some rest) :
    rest.length < bs.length := by
  unfold afterBlank at h
  split at h <;> cases h <;> simp only [List.length_cons] <;> omega

/-- The bytes of a line. -/
def lineOf (bs : List UInt8) : List UInt8 := bs.takeWhile isText

/-- What is behind the bytes of a line. -/
def tailOf (bs : List UInt8) : List UInt8 := bs.dropWhile isText

theorem lineOf_append_tailOf (bs : List UInt8) : lineOf bs ++ tailOf bs = bs :=
  List.takeWhile_append_dropWhile

theorem length_tailOf_le (bs : List UInt8) : (tailOf bs).length ≤ bs.length :=
  (List.dropWhile_sublist _).length_le

/-- The bytes behind a line are fewer. -/
theorem length_behind_lt {bs rest : List UInt8} (h : afterEol (tailOf bs) = some rest) :
    rest.length < bs.length :=
  Nat.lt_of_lt_of_le (afterEol_length h) (length_tailOf_le bs)

/-- **Induction over the lines** at the start of bytes. -/
theorem line_induction {P : List UInt8 → Prop}
    (blank : ∀ bs rest, afterBlank bs = some rest → P bs)
    (more : ∀ bs, afterBlank bs = none → afterEol (tailOf bs) = none → P bs)
    (line : ∀ bs rest, afterBlank bs = none → afterEol (tailOf bs) = some rest → P rest → P bs)
    (bs : List UInt8) : P bs := by
  induction hlen : bs.length using Nat.strong_induction_on generalizing bs with
  | _ len ih =>
    subst hlen
    cases hblank : afterBlank bs with
    | some rest => exact blank bs rest hblank
    | none =>
      cases htail : afterEol (tailOf bs) with
      | none => exact more bs hblank htail
      | some rest =>
        exact line bs rest hblank htail (ih rest.length (length_behind_lt htail) rest rfl)

variable (room : ℕ → Bool)

/-- Scans bytes line by line. A NUL ends them. At the start of a line it also makes the
scanner forget the rest. -/
def scan (rd : Reading) (bs : List UInt8) : Scan :=
  match afterBlank bs with
  | some rest => .blank rd rest
  | none =>
    match _h : afterEol (tailOf bs) with
    | none => .more rd (if bs.headD 0 = 0 then [] else bs)
    | some rest =>
      match line room (cstr (lineOf bs)) rd with
      | .crash => .crash
      | .refuse response => .refuse response
      | .next rd => scan rd rest
termination_by bs.length
decreasing_by
  exact length_behind_lt _h

section Equations

variable {room} {rd : Reading} {bs rest : List UInt8}

theorem scan_blank (h : afterBlank bs = some rest) : scan room rd bs = .blank rd rest := by
  rw [scan]
  split
  · next heq =>
    rw [h] at heq
    obtain rfl := Option.some.inj heq
    rfl
  · next heq =>
    rw [h] at heq
    cases heq

theorem scan_more (h : afterBlank bs = none) (ht : afterEol (tailOf bs) = none) :
    scan room rd bs = .more rd (if bs.headD 0 = 0 then [] else bs) := by
  rw [scan]
  split
  · next heq =>
    rw [h] at heq
    cases heq
  · split
    · rfl
    · next heq =>
      rw [ht] at heq
      cases heq

theorem scan_line (h : afterBlank bs = none) (ht : afterEol (tailOf bs) = some rest) :
    scan room rd bs =
      match line room (cstr (lineOf bs)) rd with
      | .crash => .crash
      | .refuse response => .refuse response
      | .next rd => scan room rd rest := by
  rw [scan]
  split
  · next heq =>
    rw [h] at heq
    cases heq
  · split
    · next heq =>
      rw [ht] at heq
      cases heq
    · next heq =>
      rw [ht] at heq
      obtain rfl := Option.some.inj heq
      rfl

end Equations

/-! ### The loop over the buffer -/

theorem isText_of_mem_lineOf {bs : List UInt8} {b : UInt8} (h : b ∈ lineOf bs) :
    isText b = true :=
  List.mem_takeWhile_imp h

theorem zero_notMem_lineOf (bs : List UInt8) : (0 : UInt8) ∉ lineOf bs := fun h =>
  absurd (isText_of_mem_lineOf h) (by decide)

theorem bytes_lineOf (bs : List UInt8) : (cstr (lineOf bs)).bytes = lineOf bs := by
  rw [cstr_bytes, List.takeWhile_eq_self_iff]
  intro b hb
  rw [bne_iff_ne]
  rintro rfl
  exact zero_notMem_lineOf bs hb

/-- What every line keeps, a scan keeps. -/
theorem scan_keeps {P : Reading → Prop} {n : ℕ} {rd : Reading} {bs : List UInt8}
    (hline : ∀ bol rd rd', CString.length bol ≤ n → P rd → line room bol rd = .next rd' → P rd')
    (h : P rd) (hn : bs.length ≤ n) :
    (∀ rd' pending, scan room rd bs = .more rd' pending → P rd' ∧ pending.length ≤ bs.length) ∧
      ∀ rd' rest, scan room rd bs = .blank rd' rest → P rd' ∧ rest.length ≤ bs.length := by
  induction bs using line_induction generalizing rd with
  | blank bs rest hblank =>
    rw [scan_blank hblank]
    refine ⟨fun _ _ heq => (by cases heq), fun rd' rest' heq => ?_⟩
    cases heq
    exact ⟨h, (afterBlank_length hblank).le⟩
  | more bs hblank htail =>
    rw [scan_more hblank htail]
    refine ⟨fun rd' pending heq => ?_, fun _ _ heq => (by cases heq)⟩
    cases heq
    refine ⟨h, ?_⟩
    split
    · exact Nat.zero_le _
    · exact Nat.le_refl _
  | line bs rest hblank htail ih =>
    have hrest : rest.length < bs.length := length_behind_lt htail
    have hbol : (cstr (lineOf bs)).length ≤ n := by
      rw [CString.length, bytes_lineOf]
      exact (List.takeWhile_sublist _).length_le.trans hn
    rw [scan_line hblank htail]
    cases hres : line room (cstr (lineOf bs)) rd with
    | crash => exact ⟨fun _ _ heq => (by cases heq), fun _ _ heq => (by cases heq)⟩
    | refuse response => exact ⟨fun _ _ heq => (by cases heq), fun _ _ heq => (by cases heq)⟩
    | next rd₁ =>
      obtain ⟨hmore, hblank'⟩ := ih (hline _ _ _ hbol h hres) (hrest.le.trans hn)
      refine ⟨fun rd' pending heq => ?_, fun rd' rest' heq => ?_⟩
      · obtain ⟨hP, hle⟩ := hmore rd' pending heq
        exact ⟨hP, hle.trans hrest.le⟩
      · obtain ⟨hP, hle⟩ := hblank' rd' rest' heq
        exact ⟨hP, hle.trans hrest.le⟩

/-- With memory for the first buffer no null pointer is followed. -/
theorem scan_ne_crash (hroom : room (sizeof_buffer + 1024) = true) (rd : Reading)
    (bs : List UInt8) : scan room rd bs ≠ .crash := by
  induction bs using line_induction generalizing rd with
  | blank bs rest hblank =>
    rw [scan_blank hblank]
    simp
  | more bs hblank htail =>
    rw [scan_more hblank htail]
    simp
  | line bs rest hblank htail ih =>
    rw [scan_line hblank htail]
    cases hres : line room (cstr (lineOf bs)) rd with
    | crash => exact absurd hres (line_ne_crash hroom _ _)
    | refuse response => simp
    | next rd₁ => exact ih rd₁

/-- **Scanning keeps the invariant of the lines.** -/
theorem Headed.scan {rd : Reading} {bs : List UInt8} (h : Headed rd) :
    (∀ rd' pending, Http.scan room rd bs = .more rd' pending →
      Headed rd' ∧ pending.length ≤ bs.length) ∧
      ∀ rd' rest, Http.scan room rd bs = .blank rd' rest →
        Headed rd' ∧ rest.length ≤ bs.length :=
  scan_keeps room (fun _ _ _ _ h hnext => (h.line hnext).1) h (Nat.le_refl _)

/-- The first byte behind a line is none of a line. -/
theorem isText_head_tailOf {bs : List UInt8} {b : UInt8} {r : List UInt8}
    (h : tailOf bs = b :: r) : isText b = false := by
  have hne : tailOf bs ≠ [] := by
    rw [h]
    exact List.cons_ne_nil _ _
  have hhead := List.head_dropWhile_not isText hne
  have : (tailOf bs).head hne = b := by simp [h]
  rw [← this]
  exact hhead

section Loop

variable {σ : Type} (malloc : Malloc) (process : Handler σ) {c : Connection σ} {s : ℕ}
  {bs rest : List UInt8}

/-- Ending a line puts a NUL behind it and leaves what follows. -/
theorem endLine_spec (h : At c.line_buf s (bs ++ [0])) (hend : afterEol bs = some rest) :
    ∃ buf s', endLine s c = ({ c with line_buf := buf }, s') ∧ At buf s' (rest ++ [0]) ∧
      s' + rest.length = s + bs.length ∧ buf s = 0 ∧ ∀ j < s, buf j = c.line_buf j := by
  unfold afterEol at hend
  split at hend
  · next bs' =>
    -- CR and LF
    cases hend
    obtain ⟨h13, h⟩ := at_cons.mp h
    obtain ⟨h10, h⟩ := at_cons.mp h
    refine ⟨write (write c.line_buf s [0]) (s + 1) [0], s + 2, ?_, ?_, ?_, ?_, ?_⟩
    · have h10' : write c.line_buf s [0] (s + 1) = 10 := by
        rw [← h10]
        simp [write]
      simp [endLine, h13, h10']
    · exact (h.write_before (by simp)).write_before (by simp)
    · simp only [List.length_cons]
      omega
    · simp [write]
    · intro j hj
      have h₁ : ¬ s ≤ j := by omega
      have h₂ : ¬ s + 1 ≤ j := by omega
      simp [write, h₁, h₂]
  · next bs' hne =>
    -- CR alone
    cases hend
    obtain ⟨h13, h⟩ := at_cons.mp h
    refine ⟨write c.line_buf s [0], s + 1, ?_, h.write_before (by simp), ?_, ?_, ?_⟩
    · have h10 : write c.line_buf s [0] (s + 1) ≠ 10 := by
        have heq : write c.line_buf s [0] (s + 1) = c.line_buf (s + 1) := by simp [write]
        rw [heq]
        cases rest with
        | nil =>
          rw [(at_cons.mp h).1]
          decide
        | cons b r =>
          rw [(at_cons.mp h).1]
          rintro rfl
          exact hne r rfl
      simp [endLine, h13, h10]
    · simp only [List.length_cons]
      omega
    · simp [write]
    · intro j hj
      have h₁ : ¬ s ≤ j := by omega
      simp [write, h₁]
  · next bs' =>
    -- LF
    cases hend
    obtain ⟨h10, h⟩ := at_cons.mp h
    refine ⟨write c.line_buf s [0], s + 1, ?_, h.write_before (by simp), ?_, ?_, ?_⟩
    · have h13 : c.line_buf s ≠ 13 := by
        rw [h10]
        decide
      simp [endLine, h10]
    · simp only [List.length_cons]
      omega
    · simp [write]
    · intro j hj
      have h₁ : ¬ s ≤ j := by omega
      simp [write, h₁]
  · cases hend

/-- A line has an end if the byte behind it is no NUL. -/
theorem afterEol_tailOf (bs : List UInt8) :
    ((tailOf bs).headD 0 = 0 ∧ afterEol (tailOf bs) = none) ∨
      ((tailOf bs).headD 0 ≠ 0 ∧ ∃ rest, afterEol (tailOf bs) = some rest) := by
  cases htail : tailOf bs with
  | nil => exact Or.inl ⟨rfl, rfl⟩
  | cons b r =>
    have htext := isText_head_tailOf htail
    simp only [isText, Bool.and_eq_false_iff, bne_eq_false_iff_eq] at htext
    obtain (rfl | rfl) | rfl := htext
    · exact Or.inl ⟨rfl, rfl⟩
    · refine Or.inr ⟨by simp, ?_⟩
      cases r with
      | nil => exact ⟨_, rfl⟩
      | cons b' r' =>
        by_cases h10 : b' = 10
        · subst h10
          exact ⟨_, rfl⟩
        · refine ⟨b' :: r', ?_⟩
          simp [afterEol, h10]
    · exact Or.inr ⟨by simp, r, rfl⟩

/-- The bytes of a line in the buffer and the byte behind them. -/
theorem at_lineOf (h : At c.line_buf s (bs ++ [0])) :
    At c.line_buf s (lineOf bs) ∧ At c.line_buf (s + (lineOf bs).length) (tailOf bs ++ [0]) ∧
      c.line_buf (s + (lineOf bs).length) = (tailOf bs).headD 0 := by
  have hsplit : bs ++ [0] = lineOf bs ++ (tailOf bs ++ [0]) := by
    rw [← List.append_assoc, lineOf_append_tailOf]
  rw [hsplit] at h
  obtain ⟨hline, htail⟩ := at_append.mp h
  refine ⟨hline, htail, ?_⟩
  cases hbs : tailOf bs with
  | nil =>
    rw [hbs] at htail
    exact (at_cons.mp htail).1
  | cons b r =>
    rw [hbs] at htail
    exact (at_cons.mp htail).1

/-- What the loop does from `s` on, by what `scan` makes of the bytes there. -/
def ScanSpec (n s : ℕ) (c : Connection σ) : Scan → Prop
  | .more rd pending => ∃ buf, At buf 0 pending ∧ scanLoop malloc process n s c
      = some (.ret { c with toReading := rd, line_buf := buf, line_pos := pending.length })
  | .blank rd rest => ∃ buf s', At buf s' rest ∧ s' + rest.length = c.line_pos ∧
      scanLoop malloc process n s c
        = endHeaders malloc process s' { c with toReading := rd, line_buf := buf }
  | .refuse response => ∃ rd buf, scanLoop malloc process n s c
      = some (.ret (refuse { c with toReading := rd, line_buf := buf } response))
  | .crash => scanLoop malloc process n s c = none

/-- A line that has not been received to its end. -/
theorem keepLine_spec (h : At c.line_buf s bs) (hpos : s + bs.length = c.line_pos)
    (hfit : c.line_pos < LINE_BUF_SIZE) :
    ∃ buf, At buf 0 bs ∧
      keepLine s c = some { c with line_buf := buf, line_pos := bs.length } := by
  by_cases h0 : s = 0
  · subst h0
    rw [Nat.zero_add] at hpos
    refine ⟨c.line_buf, h, ?_⟩
    rw [keepLine, if_pos rfl, if_pos hfit, hpos]
  · have hle : ¬ c.line_pos < s := by omega
    have hlen : c.line_pos - s = bs.length := by omega
    refine ⟨_, at_write c.line_buf 0 bs, ?_⟩
    rw [keepLine, if_neg h0, if_neg hle, hlen, h.read_eq]

/-- A blank line at `s`. -/
theorem scanLoop_blank {n : ℕ} (h : At c.line_buf s (bs ++ [0]))
    (hpos : s + bs.length = c.line_pos) (hfit : c.line_pos < LINE_BUF_SIZE)
    (hblank : afterBlank bs = some rest) :
    ∃ s', At c.line_buf s' rest ∧ s' + rest.length = c.line_pos ∧
      scanLoop malloc process (n + 1) s c = endHeaders malloc process s' c := by
  unfold afterBlank at hblank
  split at hblank
  · next r =>
    cases hblank
    simp only [List.length_cons] at hpos
    have hpeek : peek LINE_BUF_SIZE c.line_buf s = some 10 := peek_eq h (by omega)
    refine ⟨s + 1, (at_append.mp (at_cons.mp h).2).1, by omega, ?_⟩
    simp [scanLoop, hpeek]
  · next r =>
    cases hblank
    simp only [List.length_cons] at hpos
    have hpeek : peek LINE_BUF_SIZE c.line_buf s = some 13 := peek_eq h (by omega)
    have hpeek' : peek LINE_BUF_SIZE c.line_buf (s + 1) = some 10 :=
      peek_eq (at_cons.mp h).2 (by omega)
    refine ⟨s + 2, (at_append.mp (at_cons.mp (at_cons.mp h).2).2).1, by omega, ?_⟩
    simp [scanLoop, hpeek, hpeek']
  · cases hblank

/-- A line at `s`, from its first byte to the byte behind it. -/
theorem scanLoop_text {n : ℕ} (h : At c.line_buf s (bs ++ [0]))
    (hpos : s + bs.length = c.line_pos) (hfit : c.line_pos < LINE_BUF_SIZE)
    (hblank : afterBlank bs = none) (hne : bs.headD 0 ≠ 0) :
    scanLoop malloc process (n + 1) s c =
      if (tailOf bs).headD 0 = 0 then do
        let c ← keepLine s c
        pure (.ret c)
      else
        let (c', s') := endLine (s + (lineOf bs).length) c
        match line (c'.room malloc) (stringAt LINE_BUF_SIZE c'.line_buf s) c'.toReading with
        | .crash => none
        | .refuse response => pure (.ret (refuse c' response))
        | .next rd => scanLoop malloc process n s' { c' with toReading := rd } := by
  obtain ⟨b, bs', rfl⟩ : ∃ b bs', bs = b :: bs' := by
    cases bs with
    | nil => exact absurd rfl hne
    | cons b bs' => exact ⟨b, bs', rfl⟩
  have hlen : (b :: bs').length = bs'.length + 1 := rfl
  have hb : peek LINE_BUF_SIZE c.line_buf s = some b := peek_eq h (by omega)
  obtain ⟨b', hb'⟩ : ∃ b', peek LINE_BUF_SIZE c.line_buf (s + 1) = some b' :=
    ⟨c.line_buf (s + 1), if_pos (by omega)⟩
  -- neither of the branches for the end of the text and for a blank line is taken
  have h0 : b ≠ 0 := hne
  have h10 : b ≠ 10 := by
    rintro rfl
    cases hblank
  -- a CR is not followed by an LF
  have h13 : ¬ (b = 13 ∧ b' = 10) := by
    rintro ⟨rfl, rfl⟩
    have hbuf : c.line_buf (s + 1) = 10 := by
      have hlt : s + 1 < LINE_BUF_SIZE := by omega
      rw [peek, if_pos hlt] at hb'
      exact Option.some.inj hb'
    have hat := (at_cons.mp h).2
    cases bs' with
    | nil =>
      rw [(at_cons.mp hat).1] at hbuf
      exact absurd hbuf (by decide)
    | cons b'' bs'' =>
      rw [(at_cons.mp hat).1] at hbuf
      subst hbuf
      cases hblank
  -- the scan over the line stops behind it
  obtain ⟨hline, htail, hstop⟩ := at_lineOf h
  have hle := length_tailOf_le (b :: bs')
  have hsum : (lineOf (b :: bs')).length + (tailOf (b :: bs')).length = (b :: bs').length := by
    rw [← List.length_append, lineOf_append_tailOf]
  have hnot : isText ((tailOf (b :: bs')).headD 0) = false := by
    cases hbs : tailOf (b :: bs') with
    | nil => rfl
    | cons e r => exact isText_head_tailOf hbs
  have hskip : skipWhile LINE_BUF_SIZE isText c.line_buf s
      = some (s + (lineOf (b :: bs')).length) := by
    refine skipWhile_eq (at_append.mpr ⟨hline, at_cons.mpr ⟨hstop, at_nil _ _⟩⟩)
      (fun _ => isText_of_mem_lineOf) hnot (by omega)
  have hpeek : peek LINE_BUF_SIZE c.line_buf (s + (lineOf (b :: bs')).length)
      = some ((tailOf (b :: bs')).headD 0) := by
    rw [peek, if_pos (by omega), hstop]
  have hcrlf : (decide (b = 13) && decide (b' = 10)) = false := by
    rw [Bool.and_eq_false_iff, decide_eq_false_iff_not, decide_eq_false_iff_not]
    exact Decidable.not_and_iff_or_not.mp h13
  -- what is left is the branch for a line
  have hrun := scanLoop.eq_def malloc process (n + 1) s c
  simp only [hb, hb', hskip, hpeek, Option.bind_eq_bind, Option.bind_some, h0, h10, if_false,
    hcrlf, Bool.false_eq_true] at hrun
  exact hrun

/-- **The loop over the line buffer is the scan of the bytes in it.** -/
theorem scanLoop_spec {n : ℕ} (h : At c.line_buf s (bs ++ [0])) (hpos : s + bs.length = c.line_pos)
    (hfit : c.line_pos < LINE_BUF_SIZE) (hn : bs.length < n) :
    ScanSpec malloc process n s c (scan (c.room malloc) c.toReading bs) := by
  induction n generalizing s c bs with
  | zero => exact absurd hn (Nat.not_lt_zero _)
  | succ n ih =>
    cases hblank : afterBlank bs with
    | some rest =>
      -- the blank line comes next
      obtain ⟨s', hat, hs', hrun⟩ := scanLoop_blank malloc process (n := n) h hpos hfit hblank
      rw [scan_blank hblank]
      exact ⟨c.line_buf, s', hat, hs', hrun⟩
    | none =>
      by_cases hne : bs.headD 0 = 0
      · -- a NUL ends the loop, or the one behind the bytes does
        have htail : afterEol (tailOf bs) = none := by
          cases bs with
          | nil => rfl
          | cons b bs' =>
            obtain rfl : b = 0 := hne
            rfl
        have hpeek : peek LINE_BUF_SIZE c.line_buf s = some 0 := by
          cases bs with
          | nil => exact peek_eq h (by omega)
          | cons b bs' =>
            obtain rfl : b = 0 := hne
            exact peek_eq h (by omega)
        rw [scan_more hblank htail, if_pos hne]
        refine ⟨c.line_buf, at_nil _ _, ?_⟩
        simp only [scanLoop, hpeek, Option.bind_eq_bind, Option.bind_some, if_true]
        rfl
      · -- a line comes next, which may have its end in the bytes or not
        have hloop := scanLoop_text malloc process (n := n) h hpos hfit hblank hne
        obtain ⟨hzero, htail⟩ | ⟨hzero, rest, htail⟩ := afterEol_tailOf bs
        · -- the line goes on in the bytes to come
          obtain ⟨buf, hat, hkeep⟩ := keepLine_spec (at_append.mp h).1 hpos hfit
          rw [scan_more hblank htail, if_neg hne]
          refine ⟨buf, hat, ?_⟩
          rw [hloop, if_pos hzero, hkeep]
          rfl
        · obtain ⟨hline, htailAt, -⟩ := at_lineOf h
          obtain ⟨buf, s', hend, hrest, hs', hnul, hbefore⟩ := endLine_spec htailAt htail
          have hsum : (lineOf bs).length + (tailOf bs).length = bs.length := by
            rw [← List.length_append, lineOf_append_tailOf]
          have hlt := afterEol_length htail
          -- the line is a string now
          have hstring : stringAt LINE_BUF_SIZE buf s = cstr (lineOf bs) := by
            refine stringAt_eq ?_ (by
              rw [CString.length, bytes_lineOf]
              omega)
            rw [CString.terminated, bytes_lineOf]
            refine at_append.mpr ⟨fun j hj => ?_, at_cons.mpr ⟨hnul, at_nil _ _⟩⟩
            rw [hbefore (s + j) (by omega)]
            exact hline j hj
          rw [if_neg hzero, hend] at hloop
          simp only [hstring] at hloop
          rw [scan_line hblank htail]
          cases hres : line (c.room malloc) (cstr (lineOf bs)) c.toReading with
          | crash =>
            -- the line is taken, and what becomes of it is the result
            change scanLoop malloc process (n + 1) s c = none
            have hres' : line (Connection.room malloc { c with line_buf := buf })
                (cstr (lineOf bs)) c.toReading = .crash := hres
            rw [hloop, hres']
          | refuse response =>
            have hres' : line (Connection.room malloc { c with line_buf := buf })
                (cstr (lineOf bs)) c.toReading = .refuse response := hres
            refine ⟨c.toReading, buf, ?_⟩
            rw [hloop, hres']
            rfl
          | next rd =>
            have hres' : line (Connection.room malloc { c with line_buf := buf })
                (cstr (lineOf bs)) c.toReading = .next rd := hres
            -- the rest of the buffer, with what the line has changed
            have hpos' : s' + rest.length = c.line_pos := by omega
            have hrun := ih (c := { c with toReading := rd, line_buf := buf }) hrest hpos' hfit
              (by omega)
            rw [hres'] at hloop
            unfold ScanSpec at hrun ⊢
            rw [hloop]
            exact hrun

end Loop

end Http
end Osrv
