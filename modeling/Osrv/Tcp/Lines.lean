import Osrv.Tcp.DoProcess

/-!
# The lines of a request

How `do_process` takes a request apart. `Nameable` is a key that a line can give.
`commandLine_eq` and `commandLine_open` are the command line with and without its
newline, `commandLine_stop` a piece that ends in its command, and `putSize_eq` and
`putSize_open` the same for the size line. In a piece that ends early the line
ends at the NUL that `do_process` puts behind what it received.
-/

namespace Osrv
namespace Tcp

open Bytes Net Obj Sfs

/-! ### Keys and sizes -/

/-- A key without white space. -/
def Plain (key : CString) : Prop := ∀ b ∈ key.bytes, isSpace b = false

instance (key : CString) : Decidable (Plain key) :=
  List.decidableBAll (fun b => isSpace b = false) key.bytes

/-- A key as a line can give it. -/
structure Nameable (key : CString) : Prop where
  /-- The line does not end in it. -/
  newline : (10 : UInt8) ∉ key.bytes
  /-- Blanks in front of it would be skipped. -/
  front : ∀ b ∈ key.bytes.head?, isBlank b = false
  /-- A line end behind it would be cut off. -/
  back : ∀ b ∈ key.bytes.getLast?, isEol b = false

theorem isSpace_of_isEol {b : UInt8} (h : isEol b = true) : isSpace b = true := by
  rw [isEol, Bool.or_eq_true] at h
  rcases h with h | h <;> obtain rfl := eq_of_beq h <;> rfl

theorem isSpace_of_isBlank {b : UInt8} (h : isBlank b = true) : isSpace b = true := by
  rw [isBlank, Bool.or_eq_true] at h
  rcases h with h | h <;> obtain rfl := eq_of_beq h <;> rfl

theorem isEol_of_isDigit {b : UInt8} (h : isDigit b = true) : isEol b = false := by
  rw [isEol, Bool.or_eq_false_iff]
  constructor <;> rw [beq_eq_false_iff_ne] <;> rintro rfl <;> exact absurd h (by decide)

/-- White space is all that a line takes from a key. -/
theorem Plain.nameable {key : CString} (h : Plain key) : Nameable key where
  newline hmem := absurd (h 10 hmem) (by decide)
  front b hb := by
    by_contra hblank
    rw [Bool.not_eq_false] at hblank
    have hplain := h b (List.mem_of_mem_head? hb)
    rw [isSpace_of_isBlank hblank] at hplain
    exact Bool.noConfusion hplain
  back b hb := by
    by_contra heol
    rw [Bool.not_eq_false] at heol
    have hplain := h b (List.mem_of_mem_getLast? hb)
    rw [isSpace_of_isEol heol] at hplain
    exact Bool.noConfusion hplain

/-! ### The end of the line -/

theorem lineEnd_of_eol {buf : Memory} {i : ℕ} (h : isEol (buf i) = true) :
    lineEnd buf (i + 1) = lineEnd buf i := by
  rw [lineEnd, if_pos h]

theorem lineEnd_of_not_eol {buf : Memory} {i : ℕ} (h : isEol (buf i) = false) :
    lineEnd buf (i + 1) = i + 1 := by
  rw [lineEnd, h]
  rfl

/-- The loop for the newline stops behind a line, at a newline or a NUL. -/
theorem findNewline_stops {buf : Memory} {b : UInt8} (line : CString)
    (hat : At buf 0 (line.bytes ++ [b])) (hline : (10 : UInt8) ∉ line.bytes)
    (hstop : (b != 10 && b != 0) = false) (hfit : line.length < MAX_BUF) :
    findNewline buf = some (if b = 10 then some line.length else none) := by
  obtain ⟨hskip, hpeek⟩ := skipWhile_start hat (line_inner hline line.zero_notMem) hstop hfit
  simp only [findNewline, hskip, hpeek, Option.bind_eq_bind, Option.bind_some]
  rfl

/-- The newline of a line is found at its end. -/
theorem findNewline_eq {buf : Memory} (line : CString) {rest : List UInt8}
    (h : At buf 0 (line.bytes ++ 10 :: rest)) (hline : (10 : UInt8) ∉ line.bytes)
    (hfit : line.length < MAX_BUF) : findNewline buf = some (some line.length) := by
  have hat : At buf 0 (line.bytes ++ [10]) := by
    have hshape : line.bytes ++ 10 :: rest = (line.bytes ++ [10]) ++ rest := by simp
    rw [hshape] at h
    exact (at_append.mp h).1
  exact findNewline_stops line hat hline rfl hfit

/-- There is no newline in front of the NUL. -/
theorem findNewline_none {buf : Memory} (line : CString) (h : At buf 0 line.terminated)
    (hline : (10 : UInt8) ∉ line.bytes) (hfit : line.length < MAX_BUF) :
    findNewline buf = some none :=
  findNewline_stops line h hline rfl hfit

/-- The line ends behind its last byte, unless that is a line end itself. -/
theorem lineEnd_eq {buf : Memory} {bs : List UInt8} (h : At buf 0 (bs ++ [10]))
    (hback : ∀ b ∈ bs.getLast?, isEol b = false) :
    lineEnd buf (bs.length + 1) = bs.length := by
  obtain ⟨hline, hnl⟩ := at_append.mp h
  rw [Nat.zero_add] at hnl
  have h10 : buf bs.length = 10 := (at_cons.mp hnl).1
  rw [lineEnd_of_eol (by rw [h10]; rfl)]
  cases hlast : bs.length with
  | zero => rfl
  | succ k =>
    have hk : k < bs.length := by omega
    have hbyte : buf k = bs[k] := by
      have := hline k hk
      rwa [Nat.zero_add] at this
    refine lineEnd_of_not_eol (hbyte ▸ hback _ ?_)
    rw [List.getLast?_eq_getElem?, hlast, Nat.add_sub_cancel, List.getElem?_eq_getElem hk]
    rfl

/-! ### The command line -/

section CommandLine

variable {buf : Memory} {cmd key : CString} {rest : List UInt8}

/-- A line of a command and a key, up to its end. -/
def lineOf (cmd key : CString) : List UInt8 := cmd.bytes ++ 32 :: key.bytes

theorem length_lineOf (cmd key : CString) :
    (lineOf cmd key).length = cmd.length + 1 + key.length := by
  simp [lineOf, CString.length, Nat.add_assoc, Nat.add_comm 1]

theorem notMem_lineOf {b : UInt8} (hcmd : b ∉ cmd.bytes) (hblank : b ≠ 32) (hkey : b ∉ key.bytes) :
    b ∉ lineOf cmd key := by
  rw [lineOf, List.mem_append, List.mem_cons]
  rintro (h | h | h)
  · exact hcmd h
  · exact hblank h
  · exact hkey h

theorem notMem_of_upper {b : UInt8} (hb : isUpper b = false)
    (hcmd : ∀ b ∈ cmd.bytes, isUpper b = true) : b ∉ cmd.bytes := by
  intro hmem
  rw [hcmd b hmem] at hb
  exact Bool.noConfusion hb

/-- **Taking a line apart** that has been ended with a NUL: where the loops stop, and
the strings that are there once the command has been ended with a NUL too. -/
theorem takeCommand (h : At buf 0 (lineOf cmd key ++ [0]))
    (hcmd : ∀ b ∈ cmd.bytes, isUpper b = true) (hfront : ∀ b ∈ key.bytes.head?, isBlank b = false)
    (hfit : cmd.length + 1 + key.length < MAX_BUF) :
    skipWhile MAX_BUF isUpper buf 0 = some cmd.length ∧ peek MAX_BUF buf cmd.length = some 32 ∧
      skipWhile MAX_BUF isBlank buf cmd.length = some (cmd.length + 1) ∧
      stringAt MAX_BUF (write buf cmd.length [0]) 0 = cmd ∧
      stringAt MAX_BUF (write buf cmd.length [0]) (cmd.length + 1) = key := by
  have hshape : lineOf cmd key ++ [0] = cmd.bytes ++ ([32] ++ key.terminated) := by
    simp [lineOf, CString.terminated]
  rw [hshape, at_append, at_append, Nat.zero_add] at h
  obtain ⟨hcmdAt, hblank, hkeyAt⟩ := h
  change At buf cmd.length [32] at hblank
  change At buf (cmd.length + 1) key.terminated at hkeyAt
  have hcmd₁ : At buf 0 (cmd.bytes ++ [32]) :=
    at_append.mpr ⟨hcmdAt, by rw [Nat.zero_add]; exact hblank⟩
  have hcmdLen : cmd.length < MAX_BUF := by omega
  obtain ⟨hskip₁, hpeek⟩ := skipWhile_start hcmd₁ hcmd (by decide) hcmdLen
  -- what follows the blank is not a blank, be it the key or the NUL
  have hskip₂ : skipWhile MAX_BUF isBlank buf cmd.length = some (cmd.length + 1) := by
    obtain ⟨b, bs, hb⟩ : ∃ b bs, key.terminated = b :: bs :=
      List.exists_cons_of_ne_nil (by simp [CString.terminated])
    have hb' : isBlank b = false := by
      cases hkey : key.bytes with
      | nil =>
        rw [CString.terminated, hkey] at hb
        obtain rfl := (List.cons.inj hb).1
        rfl
      | cons c cs =>
        rw [CString.terminated, hkey] at hb
        obtain rfl := (List.cons.inj hb).1
        exact hfront _ (by rw [hkey]; rfl)
    rw [hb] at hkeyAt
    have hat : At buf cmd.length ([32] ++ [b]) :=
      at_append.mpr ⟨hblank, at_cons.mpr ⟨(at_cons.mp hkeyAt).1, at_nil _ _⟩⟩
    exact skipWhile_eq hat (List.forall_mem_singleton.mpr rfl) hb' (by
      rw [List.length_singleton]
      omega)
  -- the NUL goes behind the command
  have hcmd₂ : At (write buf cmd.length [0]) 0 cmd.terminated :=
    hcmdAt.write_end (Nat.zero_add _).symm _
  have hkey₂ : At (write buf cmd.length [0]) (cmd.length + 1) key.terminated :=
    hkeyAt.write_before (Nat.le_refl _)
  exact ⟨hskip₁, hpeek, hskip₂, stringAt_eq hcmd₂ (by omega),
    stringAt_eq hkey₂ (by omega)⟩

/-- **The command line.** A command in capitals, a blank and a key are taken apart, and
what follows the line is left as it is. -/
theorem commandLine_eq (h : At buf 0 (lineOf cmd key ++ 10 :: rest))
    (hcmd : ∀ b ∈ cmd.bytes, isUpper b = true) (hkey : Nameable key)
    (hfit : cmd.length + 1 + key.length < MAX_BUF) :
    ∃ buf', commandLine buf = some (buf', some ⟨some (cmd.length + 1 + key.length), cmd, key⟩) ∧
      At buf' (cmd.length + 1 + key.length + 1) rest := by
  have hlen := length_lineOf cmd key
  set d := cmd.length + 1 + key.length with hd
  have hzero : (0 : UInt8) ∉ lineOf cmd key :=
    notMem_lineOf cmd.zero_notMem (by decide) key.zero_notMem
  have hten : (10 : UInt8) ∉ lineOf cmd key :=
    notMem_lineOf (notMem_of_upper (by decide) hcmd) (by decide) hkey.newline
  have hback : ∀ b ∈ (lineOf cmd key).getLast?, isEol b = false := by
    intro b hb
    cases hlast : key.bytes.getLast? with
    | none =>
      rw [lineOf, List.getLast?_eq_none_iff.mp hlast, List.getLast?_append] at hb
      obtain rfl : (32 : UInt8) = b := Option.some.inj hb
      rfl
    | some c =>
      rw [lineOf, List.getLast?_append, List.getLast?_cons, hlast] at hb
      obtain rfl : c = b := Option.some.inj hb
      exact hkey.back _ hlast
  have hnewline : findNewline buf = some (some d) := by
    have hfind := findNewline_eq ⟨lineOf cmd key, hzero⟩ h hten (by
      change (lineOf cmd key).length < MAX_BUF
      omega)
    change findNewline buf = some (some (lineOf cmd key).length) at hfind
    rwa [hlen] at hfind
  have hend : lineEnd buf (d + 1) = d := by
    have hat : At buf 0 (lineOf cmd key ++ [10]) := by
      have hshape : lineOf cmd key ++ 10 :: rest = (lineOf cmd key ++ [10]) ++ rest := by simp
      rw [hshape] at h
      exact (at_append.mp h).1
    have := lineEnd_eq hat hback
    rwa [hlen] at this
  -- the first NUL goes behind the key
  obtain ⟨hline, hrest⟩ := at_append.mp h
  obtain ⟨-, hrest⟩ := at_cons.mp hrest
  rw [Nat.zero_add, hlen] at hrest
  have hline₁ : At (write buf d [0]) 0 (lineOf cmd key ++ [0]) :=
    hline.write_end (by rw [Nat.zero_add, hlen]) _
  have hrest₁ : At (write buf d [0]) (d + 1) rest := hrest.write_before (Nat.le_refl _)
  obtain ⟨hskip₁, hpeek, hskip₂, hcmdStr, hkeyStr⟩ := takeCommand hline₁ hcmd hkey.front hfit
  refine ⟨write (write buf d [0]) cmd.length [0], ?_, hrest₁.write_before (by
    change cmd.length + 1 ≤ d + 1
    omega)⟩
  have h32 : ¬ ((32 : UInt8) = 0) := by decide
  simp only [commandLine, hnewline, Option.bind_eq_bind, Option.bind_some, Option.map_some, hend,
    hskip₁, hpeek, h32, if_false, hskip₂, hcmdStr, hkeyStr]
  rfl

/-- **A command line without its newline** ends at the NUL behind what was received. -/
theorem commandLine_open (h : At buf 0 (lineOf cmd key ++ [0]))
    (hcmd : ∀ b ∈ cmd.bytes, isUpper b = true) (hten : (10 : UInt8) ∉ key.bytes)
    (hfront : ∀ b ∈ key.bytes.head?, isBlank b = false)
    (hfit : cmd.length + 1 + key.length < MAX_BUF) :
    ∃ buf', commandLine buf = some (buf', some ⟨none, cmd, key⟩) := by
  have hzero : (0 : UInt8) ∉ lineOf cmd key :=
    notMem_lineOf cmd.zero_notMem (by decide) key.zero_notMem
  have hnewline : findNewline buf = some none :=
    findNewline_none ⟨lineOf cmd key, hzero⟩ h
      (notMem_lineOf (notMem_of_upper (by decide) hcmd) (by decide) hten) (by
        change (lineOf cmd key).length < MAX_BUF
        rw [length_lineOf]
        exact hfit)
  obtain ⟨hskip₁, hpeek, hskip₂, hcmdStr, hkeyStr⟩ := takeCommand h hcmd hfront hfit
  have h32 : ¬ ((32 : UInt8) = 0) := by decide
  refine ⟨write buf cmd.length [0], ?_⟩
  simp only [commandLine, hnewline, Option.bind_eq_bind, Option.bind_some, Option.map_none,
    hskip₁, hpeek, h32, if_false, hskip₂, hcmdStr, hkeyStr]
  rfl

/-- A piece of nothing but capitals has no argument. -/
theorem commandLine_stop (h : At buf 0 cmd.terminated)
    (hcmd : ∀ b ∈ cmd.bytes, isUpper b = true) (hfit : cmd.length < MAX_BUF) :
    commandLine buf = some (buf, none) := by
  have hnewline : findNewline buf = some none :=
    findNewline_none cmd h (notMem_of_upper (by decide) hcmd) hfit
  obtain ⟨hskip, hpeek⟩ := skipWhile_start h hcmd (by decide) hfit
  simp only [commandLine, hnewline, Option.bind_eq_bind, Option.bind_some, Option.map_none, hskip,
    hpeek, if_true]
  rfl

/-- A newline with nothing in front of it has no command. -/
theorem commandLine_newline (h : At buf 0 (10 :: rest)) :
    ∃ buf', commandLine buf = some (buf', none) := by
  have hnewline : findNewline buf = some (some 0) :=
    findNewline_eq CString.empty h List.not_mem_nil (show 0 < MAX_BUF by decide)
  have hend : lineEnd buf (0 + 1) = 0 := lineEnd_of_eol (by rw [(at_cons.mp h).1]; rfl)
  have hnul : At (write buf 0 [0]) 0 ([] ++ [0]) := at_write _ _ _
  obtain ⟨hskip, hpeek⟩ := skipWhile_start (p := isUpper) hnul (by simp) (by decide)
    (show 0 < MAX_BUF by decide)
  rw [List.length_nil] at hskip hpeek
  refine ⟨write buf 0 [0], ?_⟩
  simp only [commandLine, hnewline, Option.bind_eq_bind, Option.bind_some, Option.map_some, hend,
    hskip, hpeek, if_true]
  rfl

end CommandLine

/-! ### The size line -/

section SizeLine

variable {buf : Memory} {len d : ℕ} {rest : List UInt8}

/-- Digits are read up to the byte behind them. -/
theorem skipDigits {ds : List UInt8} {b : UInt8} (h : At buf d (ds ++ b :: rest))
    (hds : ∀ b ∈ ds, isDigit b = true) (hb : isDigit b = false) (hfit : d + ds.length < MAX_BUF) :
    skipWhile MAX_BUF isDigit buf d = some (d + ds.length) ∧
      peek MAX_BUF buf (d + ds.length) = some b := by
  have hline : At buf d (ds ++ [b]) := by
    have hshape : ds ++ b :: rest = (ds ++ [b]) ++ rest := by simp
    rw [hshape] at h
    exact (at_append.mp h).1
  exact ⟨skipWhile_eq hline hds hb hfit, peek_eq (at_append.mp hline).2 hfit⟩

/-- **The size line.** The digits of a number and a newline are read as that number. -/
theorem putSize_eq (h : At buf d (decimal len ++ 10 :: rest)) (hlen : len ≤ LONG_MAX)
    (hfit : d + (decimal len).length < MAX_BUF) :
    putSize buf d = some (some ((len : ℤ), d + (decimal len).length + 1)) := by
  have hdigits : ∀ b ∈ decimal len, isDigit b = true := fun b => isDigit_of_mem_decimal
  obtain ⟨hskip, hpeek⟩ := skipDigits h hdigits (by decide) hfit
  have hline : At buf d (decimal len ++ [10]) := by
    have hshape : decimal len ++ 10 :: rest = (decimal len ++ [10]) ++ rest := by simp
    rw [hshape] at h
    exact (at_append.mp h).1
  -- the string at `d` goes on behind the line, but the number does not
  have hatol : atol (stringAt MAX_BUF buf d) = len := by
    have hzero : (0 : UInt8) ∉ decimal len ++ [10] := by
      intro hmem
      rw [List.mem_append, List.mem_singleton] at hmem
      obtain hmem | hmem := hmem
      · exact absurd (hdigits 0 hmem) (by decide)
      · exact absurd hmem (by decide)
    obtain ⟨tail, htail⟩ := bytes_stringAt MAX_BUF hline
      (by rw [List.length_append]; exact hfit) hzero
    rw [List.append_assoc, List.singleton_append] at htail
    exact atol_decimal htail (by decide) hlen
  -- the first byte is a digit
  obtain ⟨b, bs, hb⟩ := List.exists_cons_of_ne_nil (decimal_ne_nil len)
  have hdigit : isDigit b = true := hdigits b (hb ▸ List.mem_cons_self ..)
  have hquestion : b ≠ 63 := by
    rintro rfl
    exact absurd hdigit (by decide)
  have hfirst : peek MAX_BUF buf d = some b := by
    rw [hb, List.cons_append] at h
    exact peek_eq (at_cons.mpr (at_cons.mp h)) (by omega)
  have hnot : ¬ ((len : ℤ) < 0) := by omega
  have heol : isEol 10 = true := rfl
  have h13 : ¬ ((10 : UInt8) = 13) := by decide
  simp only [putSize, hfirst, Option.bind_eq_bind, Option.bind_some, hquestion, if_false, hdigit,
    if_true, hskip, hatol, hpeek, hnot, heol, skipEol, h13]
  rfl

/-- A size as a line can give it: a number, or a question mark. -/
def IsSize (size : List UInt8) : Prop := size = [63] ∨ size ≠ [] ∧ ∀ b ∈ size, isDigit b = true

/-- A size line comes to some number. -/
theorem putSize_closed {size : List UInt8} (h : At buf d (size ++ 10 :: rest)) (hsize : IsSize size)
    (hfit : d + size.length < MAX_BUF) : ∃ n d', putSize buf d = some (some (n, d')) := by
  have h13 : ¬ ((10 : UInt8) = 13) := by decide
  have heol : isEol 10 = true := rfl
  cases hsize with
  | inl hquestion =>
    subst hquestion
    have hfirst : peek MAX_BUF buf d = some 63 := peek_eq h (by omega)
    have hnext : peek MAX_BUF buf (d + 1) = some 10 := peek_eq (at_cons.mp h).2 hfit
    refine ⟨-1, d + 1 + 1, ?_⟩
    simp only [putSize, hfirst, Option.bind_eq_bind, Option.bind_some, if_true, hnext, heol,
      skipEol, h13, if_false]
    rfl
  | inr hdigits =>
    obtain ⟨hne, hdigits⟩ := hdigits
    obtain ⟨hskip, hpeek⟩ := skipDigits h hdigits (by decide) hfit
    obtain ⟨b, bs, rfl⟩ := List.exists_cons_of_ne_nil hne
    have hdigit : isDigit b = true := hdigits b (List.mem_cons_self ..)
    have hquestion : b ≠ 63 := by
      rintro rfl
      exact absurd hdigit (by decide)
    have hfirst : peek MAX_BUF buf d = some b := peek_eq h (by omega)
    -- a string that starts with a digit has no sign
    have hatol : ¬ atol (stringAt MAX_BUF buf d) < 0 := by
      have hrange : 48 ≤ b := by
        rw [isDigit, Bool.and_eq_true, decide_eq_true_iff] at hdigit
        exact hdigit.1
      obtain ⟨tail, htail⟩ := bytes_stringAt MAX_BUF (at_cons.mpr ⟨(at_cons.mp h).1, at_nil _ _⟩)
        (show d + [b].length ≤ MAX_BUF by rw [List.length_cons] at hfit; simp; omega) (by
          rw [List.mem_singleton]
          rintro rfl
          exact absurd hrange (by decide))
      exact atol_nonneg htail hdigit
    refine ⟨atol (stringAt MAX_BUF buf d), d + (b :: bs).length + 1, ?_⟩
    simp only [putSize, hfirst, Option.bind_eq_bind, Option.bind_some, hquestion, if_false, hdigit,
      if_true, hskip, hpeek, hatol, heol, skipEol, h13]
    rfl

/-- A size line that ends early is not valid. -/
theorem putSize_open {size part : List UInt8} (h : At buf d (part ++ 0 :: rest))
    (hsize : IsSize size) (hpart : part <+: size) (hfit : d + part.length < MAX_BUF) :
    putSize buf d = some none := by
  have heol : isEol 0 = false := rfl
  have hdigit0 : isDigit 0 = false := rfl
  have h63 : ¬ ((0 : UInt8) = 63) := by decide
  cases part with
  | nil =>
    have hfirst : peek MAX_BUF buf d = some 0 := peek_eq h hfit
    simp only [putSize, hfirst, Option.bind_eq_bind, Option.bind_some, h63, if_false, hdigit0]
    rfl
  | cons b bs =>
    have hfirst : peek MAX_BUF buf d = some b := peek_eq h (by omega)
    cases hsize with
    | inl hquestion =>
      subst hquestion
      obtain ⟨rfl, hnil⟩ := List.cons_prefix_cons.mp hpart
      obtain rfl := List.prefix_nil.mp hnil
      have hnext : peek MAX_BUF buf (d + 1) = some 0 := peek_eq (at_cons.mp h).2 hfit
      simp only [putSize, hfirst, Option.bind_eq_bind, Option.bind_some, if_true, hnext, heol]
      rfl
    | inr hdigits =>
      have hall : ∀ c ∈ b :: bs, isDigit c = true := fun c hc => hdigits.2 c (hpart.subset hc)
      obtain ⟨hskip, hpeek⟩ := skipDigits h hall hdigit0 hfit
      have hdigit : isDigit b = true := hall b (List.mem_cons_self ..)
      have hquestion : b ≠ 63 := by
        rintro rfl
        exact absurd hdigit (by decide)
      simp only [putSize, hfirst, Option.bind_eq_bind, Option.bind_some, hquestion, if_false,
        hdigit, if_true, hskip, hpeek, heol]
      simp

end SizeLine

end Tcp
end Osrv
