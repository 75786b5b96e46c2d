import Osrv.Http.Scanner

/-!
# Bytes that arrive later

The scanner processes what it has and goes on with what arrives later. By
`scan_append` this gives what a scan of all the bytes gives, unless they are cut
between the CR and the LF at the end of a line that is not empty: the CR alone
ends such a line already, and the LF is then taken for a blank line. A NUL is
the other exception, since the scanner stops at it.

`splitHead` says what the lines of a request are and where they end, without the
scanner.
-/

namespace Osrv
namespace Http

open Bytes

/-! ### Cuts -/

/-- The bytes are cut between the CR and the LF at the end of a line with text. -/
def CutsLine (xs ys : List UInt8) : Prop :=
  ∃ pre b, xs = pre ++ [b, 13] ∧ isText b = true ∧ ys.head? = some 10

theorem CutsLine.of_suffix {zs xs ys : List UInt8} (h : CutsLine xs ys) (hs : xs <:+ zs) :
    CutsLine zs ys := by
  obtain ⟨pre, b, rfl, hb, hys⟩ := h
  obtain ⟨pre', rfl⟩ := hs
  exact ⟨pre' ++ pre, b, by simp, hb, hys⟩

theorem cutsLine_append {xs ys zs : List UInt8} (hne : ys ≠ []) :
    CutsLine xs (ys ++ zs) ↔ CutsLine xs ys := by
  obtain ⟨y, ys', rfl⟩ := List.exists_cons_of_ne_nil hne
  rfl

/-! ### A line and more -/

section Append

variable {xs ys es rest : List UInt8}

theorem afterBlank_append (h : afterBlank xs = some rest) (ys : List UInt8) :
    afterBlank (xs ++ ys) = some (rest ++ ys) := by
  unfold afterBlank at h
  split at h <;> cases h <;> rfl

/-- The LF of a line end may be among the bytes to come. -/
theorem afterEol_append (h : afterEol es = some rest) (hcr : es = [13] → ys.head? ≠ some 10) :
    afterEol (es ++ ys) = some (rest ++ ys) := by
  unfold afterEol at h
  split at h
  · -- CR and LF
    cases h
    rfl
  · next bs hne =>
    -- CR alone
    cases h
    cases rest with
    | cons b r =>
      have hb : b ≠ 10 := fun heq => hne r (by rw [heq])
      rw [List.cons_append, afterEol.eq_def]
      split
      · next heq => exact absurd (List.cons.inj (List.cons.inj heq).2).1 hb
      · next heq => rw [(List.cons.inj heq).2]
      · next heq => cases heq
      · next h13 _ => exact absurd rfl (h13 _)
    | nil =>
      rw [List.cons_append, afterEol.eq_def]
      split
      · next heq =>
        refine absurd ?_ (hcr rfl)
        have hys : ys = 10 :: _ := (List.cons.inj heq).2
        rw [hys]
        rfl
      · next heq => rw [(List.cons.inj heq).2]
      · next heq => cases heq
      · next h13 _ => exact absurd rfl (h13 _)
  · -- LF
    cases h
    rfl
  · cases h

/-- A line with its end inside the first bytes is not changed by further ones. -/
theorem lineOf_append (h : afterEol (tailOf xs) = some rest) (ys : List UInt8) :
    lineOf (xs ++ ys) = lineOf xs ∧ tailOf (xs ++ ys) = tailOf xs ++ ys := by
  obtain ⟨b, r, hb⟩ : ∃ b r, tailOf xs = b :: r := by
    cases htl : tailOf xs with
    | nil =>
      rw [htl] at h
      cases h
    | cons b r => exact ⟨b, r, rfl⟩
  have hxs : xs ++ ys = lineOf xs ++ b :: (r ++ ys) := by
    rw [← List.cons_append, ← List.append_assoc, ← hb, lineOf_append_tailOf]
  have hline : lineOf (xs ++ ys) = lineOf xs := by
    rw [hxs]
    exact takeWhile_append_stop (r ++ ys) (fun _ => isText_of_mem_lineOf) (isText_head_tailOf hb)
  refine ⟨hline, ?_⟩
  have hsplit := lineOf_append_tailOf (xs ++ ys)
  rw [hline] at hsplit
  conv_rhs at hsplit => rw [hxs]
  rw [List.append_cancel_left hsplit, hb, List.cons_append]

/-- No blank line comes about in front of a line, unless a CR is all there is. -/
theorem afterBlank_append_none (h : afterBlank xs = none) (hne : xs ≠ [])
    (hcr : xs = [13] → ys.head? ≠ some 10) : afterBlank (xs ++ ys) = none := by
  obtain ⟨b, bs, rfl⟩ := List.exists_cons_of_ne_nil hne
  rw [List.cons_append]
  unfold afterBlank
  split
  · next heq =>
    obtain rfl := (List.cons.inj heq).1
    cases h
  · next heq =>
    obtain ⟨rfl, hrest⟩ := List.cons.inj heq
    cases bs with
    | nil =>
      rw [List.nil_append] at hrest
      refine absurd ?_ (hcr rfl)
      rw [hrest]
      rfl
    | cons b' bs' =>
      rw [List.cons_append] at hrest
      obtain rfl := (List.cons.inj hrest).1
      cases h
  · rfl

theorem ne_nil_of_afterEol (h : afterEol (tailOf xs) = some rest) : xs ≠ [] := by
  rintro rfl
  cases h

/-- **A line and more.** The line is the same, unless the LF of its end is among the bytes
to come. -/
theorem line_append (ys : List UInt8) (hblank : afterBlank xs = none)
    (htail : afterEol (tailOf xs) = some rest)
    (hcr : tailOf xs = [13] → ys.head? ≠ some 10) :
    afterBlank (xs ++ ys) = none ∧ lineOf (xs ++ ys) = lineOf xs ∧
      afterEol (tailOf (xs ++ ys)) = some (rest ++ ys) := by
  obtain ⟨hline, htailOf⟩ := lineOf_append htail ys
  refine ⟨afterBlank_append_none hblank (ne_nil_of_afterEol htail) fun hxs => ?_, hline, ?_⟩
  · rw [hxs] at hcr
    exact hcr rfl
  · rw [htailOf]
    exact afterEol_append htail hcr

/-- Nothing is behind a CR at the end. -/
theorem rest_eq_nil (htail : afterEol (tailOf xs) = some rest) (hcr : tailOf xs = [13]) :
    rest = [] := by
  rw [hcr] at htail
  exact (Option.some.inj htail).symm

/-- If a CR is all there is behind a line, the bytes are cut there. -/
theorem cutsLine_of_tailOf (htail : tailOf xs = [13]) (hne : lineOf xs ≠ [])
    (hys : ys.head? = some 10) : CutsLine xs ys := by
  refine ⟨(lineOf xs).dropLast, (lineOf xs).getLast hne, ?_,
    isText_of_mem_lineOf (List.getLast_mem hne), hys⟩
  conv_lhs => rw [← lineOf_append_tailOf xs, htail, ← List.dropLast_append_getLast hne]
  rw [List.append_assoc]
  rfl

end Append

/-! ### The lines of a request -/

/-- The lines at the start, and what is behind the blank line that ends them. -/
def splitHead (bs : List UInt8) : List (List UInt8) × Option (List UInt8) :=
  match afterBlank bs with
  | some rest => ([], some rest)
  | none =>
    match _h : afterEol (tailOf bs) with
    | none => ([lineOf bs], none)
    | some rest => (lineOf bs :: (splitHead rest).1, (splitHead rest).2)
termination_by bs.length
decreasing_by
  all_goals exact Nat.lt_of_lt_of_le (afterEol_length _h) (length_tailOf_le bs)

section Split

variable {bs rest : List UInt8}

theorem splitHead_blank (h : afterBlank bs = some rest) : splitHead bs = ([], some rest) := by
  rw [splitHead]
  split
  · next heq =>
    rw [h] at heq
    obtain rfl := Option.some.inj heq
    rfl
  · next heq =>
    rw [h] at heq
    cases heq

theorem splitHead_more (h : afterBlank bs = none) (ht : afterEol (tailOf bs) = none) :
    splitHead bs = ([lineOf bs], none) := by
  rw [splitHead]
  split
  · next heq =>
    rw [h] at heq
    cases heq
  · split
    · rfl
    · next heq =>
      rw [ht] at heq
      cases heq

theorem splitHead_line (h : afterBlank bs = none) (ht : afterEol (tailOf bs) = some rest) :
    splitHead bs = (lineOf bs :: (splitHead rest).1, (splitHead rest).2) := by
  rw [splitHead]
  split
  · next heq =>
    rw [h] at heq
    cases heq
  · split
    · next heq =>
      rw [ht] at heq
      cases heq
    · next heq =>
      rw [ht] at heq
      obtain rfl := Option.some.inj heq
      rfl

/-- The lines before the blank line fit the line buffer, with an LF and a terminator. -/
def LinesFit (bs : List UInt8) : Prop :=
  ∀ l ∈ (splitHead bs).1, l.length + 1 < LINE_BUF_SIZE

/-- The scanner stops at the blank line. -/
theorem scan_splitHead (room : ℕ → Bool) (rd : Reading) (bs : List UInt8) :
    (∀ rd' pending, scan room rd bs = .more rd' pending → (splitHead bs).2 = none) ∧
      ∀ rd' rest, scan room rd bs = .blank rd' rest → (splitHead bs).2 = some rest := by
  induction bs using line_induction generalizing rd with
  | blank bs rest hblank =>
    rw [scan_blank hblank, splitHead_blank hblank]
    refine ⟨fun _ _ heq => (by cases heq), fun rd' rest' heq => ?_⟩
    cases heq
    rfl
  | more bs hblank htail =>
    rw [scan_more hblank htail, splitHead_more hblank htail]
    exact ⟨fun _ _ _ => rfl, fun _ _ heq => (by cases heq)⟩
  | line bs rest hblank htail ih =>
    rw [scan_line hblank htail, splitHead_line hblank htail]
    cases line room (cstr (lineOf bs)) rd with
    | crash => exact ⟨fun _ _ heq => (by cases heq), fun _ _ heq => (by cases heq)⟩
    | refuse response => exact ⟨fun _ _ heq => (by cases heq), fun _ _ heq => (by cases heq)⟩
    | next rd₁ => exact ih rd₁

end Split

/-! ### The scan of a list and more -/

/-- Goes on with more bytes. -/
def Scan.extend (room : ℕ → Bool) (ys : List UInt8) : Scan → Scan
  | .more rd pending => scan room rd (pending ++ ys)
  | .blank rd rest => .blank rd (rest ++ ys)
  | .refuse response => .refuse response
  | .crash => .crash

/-- The line at the end of the bytes, which has no end yet, can be continued: there is no
NUL, and no line end is cut. -/
def Continues (xs ys : List UInt8) : Prop := (0 : UInt8) ∉ xs ∧ ¬ CutsLine xs ys

section Extend

variable {room : ℕ → Bool} {xs ys rest : List UInt8} {rd : Reading}

theorem Continues.of_suffix (h : Continues xs ys) (hs : rest <:+ xs) : Continues rest ys :=
  ⟨fun h0 => h.1 (hs.mem h0), fun hcut => h.2 (hcut.of_suffix hs)⟩

theorem behind_suffix (h : afterEol (tailOf xs) = some rest) : rest <:+ xs := by
  have htail : tailOf xs <:+ xs := ⟨lineOf xs, lineOf_append_tailOf xs⟩
  refine List.IsSuffix.trans ?_ htail
  unfold afterEol at h
  split at h
  · next heq =>
    cases h
    exact heq ▸ ⟨[13, 10], rfl⟩
  · next heq =>
    cases h
    exact heq ▸ ⟨[13], rfl⟩
  · next heq =>
    cases h
    exact heq ▸ ⟨[10], rfl⟩
  · cases h

theorem scan_nil (room : ℕ → Bool) (rd : Reading) : scan room rd [] = .more rd [] :=
  scan_more rfl rfl

/-- A scan that goes on behind a line. -/
theorem scan_line_more (hblank : afterBlank xs = none) (htail : afterEol (tailOf xs) = some rest)
    {rd' : Reading} {pending : List UInt8} (hscan : scan room rd xs = .more rd' pending) :
    ∃ rd₁, line room (cstr (lineOf xs)) rd = .next rd₁ ∧
      scan room rd₁ rest = .more rd' pending := by
  rw [scan_line hblank htail] at hscan
  cases hres : line room (cstr (lineOf xs)) rd with
  | crash =>
    rw [hres] at hscan
    cases hscan
  | refuse response =>
    rw [hres] at hscan
    cases hscan
  | next rd₁ =>
    rw [hres] at hscan
    exact ⟨rd₁, rfl, hscan⟩

/-- **Scanning in pieces.** The scan of bytes goes on with those that arrive later as if it
had had them from the start. An empty first line is left out. -/
theorem scan_append (hh : Headed rd) (hfirst : rd.part = .REQUEST → xs ≠ [13])
    (hmore : ∀ rd' pending, scan room rd xs = .more rd' pending → Continues xs ys) :
    scan room rd (xs ++ ys) = (scan room rd xs).extend room ys := by
  induction xs using line_induction generalizing rd with
  | blank xs rest hblank =>
    -- what is behind the blank line does not matter
    rw [scan_blank hblank, scan_blank (afterBlank_append hblank ys)]
    rfl
  | more xs hblank htail =>
    -- no line has its end here: the scan of more bytes starts again
    rw [scan_more hblank htail] at hmore ⊢
    obtain ⟨h0, -⟩ := hmore _ _ rfl
    -- without a NUL only the empty list starts with one
    by_cases hhead : xs.headD 0 = 0
    · obtain rfl : xs = [] := by
        cases xs with
        | nil => rfl
        | cons b xs =>
          obtain rfl : b = 0 := hhead
          exact absurd (List.mem_cons_self ..) h0
      rfl
    · rw [if_neg hhead]
      rfl
  | line xs rest hblank htail ih =>
    -- a line. Its end may be cut between CR and LF
    by_cases hcut : tailOf xs = [13] ∧ ys.head? = some 10
    · obtain ⟨hcr, hys⟩ := hcut
      obtain rfl := rest_eq_nil htail hcr
      obtain ⟨zs, rfl⟩ : ∃ zs, ys = 10 :: zs := by
        cases ys with
        | nil => cases hys
        | cons b zs => exact ⟨zs, by rw [Option.some.inj hys]⟩
      by_cases hnil : lineOf xs = []
      · -- a blank line that is cut is an empty line and a blank one
        obtain rfl : xs = [13] := by rw [← lineOf_append_tailOf xs, hnil, hcr, List.nil_append]
        have hpart : rd.part = .HEADER := by
          cases hp : rd.part with
          | REQUEST => exact absurd rfl (hfirst hp)
          | HEADER => rfl
          | BODY => exact absurd hp hh.part
        have hempty : scan room rd [13] = .more rd [] := by
          rw [scan_line hblank htail, hnil, hh.line_empty hpart]
          exact scan_nil room rd
        rw [hempty]
        have hleft : scan room rd ([13] ++ 10 :: zs) = .blank rd zs := scan_blank rfl
        have hright : scan room rd (10 :: zs) = .blank rd zs := scan_blank rfl
        exact hleft.trans hright.symm
      · -- the line is refused, or the bytes must not be cut here
        obtain ⟨hline, htailOf⟩ := lineOf_append htail (10 :: zs)
        have hnone : afterBlank (xs ++ 10 :: zs) = none :=
          afterBlank_append_none hblank (ne_nil_of_afterEol htail) fun hxs => by
            rw [hxs] at hnil
            exact absurd rfl hnil
        have hend : afterEol (tailOf (xs ++ 10 :: zs)) = some zs := by
          rw [htailOf, hcr]
          rfl
        rw [scan_line hblank htail] at hmore ⊢
        rw [scan_line hnone hend, hline]
        cases hres : line room (cstr (lineOf xs)) rd with
        | crash => rfl
        | refuse response => rfl
        | next rd₁ =>
          rw [hres] at hmore
          obtain ⟨-, hnot⟩ := hmore _ _ (scan_nil room rd₁)
          -- the LF behind the cut would be taken for the blank line
          exact absurd (cutsLine_of_tailOf hcr hnil hys) hnot
    · -- the end of the line is whole, and the line the same with more bytes behind it
      obtain ⟨hnone, hline, hend⟩ := line_append ys hblank htail
        fun h13 hys => hcut ⟨h13, hys⟩
      rw [scan_line hblank htail] at hmore ⊢
      rw [scan_line hnone hend, hline]
      cases hres : line room (cstr (lineOf xs)) rd with
      | crash => rfl
      | refuse response => rfl
      | next rd₁ =>
        rw [hres] at hmore
        obtain ⟨hheaded, hpart⟩ := hh.line hres
        refine ih hheaded (fun hreq => ?_) fun rd' pending hscan =>
          (hmore rd' pending hscan).of_suffix (behind_suffix htail)
        rw [hpart] at hreq
        cases hreq

/-- Without a NUL bytes without a line end are text. -/
theorem tailOf_eq_nil (h0 : (0 : UInt8) ∉ xs) (htail : afterEol (tailOf xs) = none) :
    tailOf xs = [] := by
  obtain ⟨hzero, -⟩ | ⟨-, rest, hsome⟩ := afterEol_tailOf xs
  · cases hb : tailOf xs with
    | nil => rfl
    | cons b r =>
      rw [hb] at hzero
      obtain rfl : b = 0 := hzero
      refine absurd ?_ h0
      rw [← lineOf_append_tailOf xs, hb]
      simp
  · rw [htail] at hsome
    cases hsome

/-- What is left of a line that has no end yet fits the line buffer if the line does. -/
theorem pending_fits (hmore : Continues xs ys) (hfit : LinesFit (xs ++ ys)) {rd' : Reading}
    {pending : List UInt8} (hscan : scan room rd xs = .more rd' pending) :
    pending.length + 1 < LINE_BUF_SIZE := by
  induction xs using line_induction generalizing rd with
  | blank xs rest hblank =>
    rw [scan_blank hblank] at hscan
    cases hscan
  | more xs hblank htail =>
    rw [scan_more hblank htail] at hscan
    cases hscan
    split
    · decide
    · next hhead =>
      -- the bytes are the start of a line
      have hnil : tailOf xs = [] := tailOf_eq_nil hmore.1 htail
      have hxs : lineOf xs = xs := by
        have hsplit := lineOf_append_tailOf xs
        rwa [hnil, List.append_nil] at hsplit
      have htext : ∀ b ∈ xs, isText b = true := fun b hb => isText_of_mem_lineOf (hxs ▸ hb)
      have hline : lineOf (xs ++ ys) = xs ++ lineOf ys := List.takeWhile_append_of_pos htext
      have hnone : afterBlank (xs ++ ys) = none := by
        refine afterBlank_append_none hblank (fun hxs => ?_) fun hxs => ?_
        · rw [hxs] at hhead
          exact absurd rfl hhead
        · rw [hxs] at htext
          exact absurd (htext 13 (List.mem_cons_self ..)) (by decide)
      have hmem : lineOf (xs ++ ys) ∈ (splitHead (xs ++ ys)).1 := by
        cases hend : afterEol (tailOf (xs ++ ys)) with
        | none =>
          rw [splitHead_more hnone hend]
          exact List.mem_cons_self ..
        | some rest =>
          rw [splitHead_line hnone hend]
          exact List.mem_cons_self ..
      have hlt := hfit _ hmem
      rw [hline, List.length_append] at hlt
      omega
  | line xs rest hblank htail ih =>
    obtain ⟨rd₁, -, hscan'⟩ := scan_line_more hblank htail hscan
    by_cases hcut : tailOf xs = [13] ∧ ys.head? = some 10
    · -- nothing is left behind the CR
      obtain rfl := rest_eq_nil htail hcut.1
      rw [scan_nil] at hscan'
      cases hscan'
      decide
    · obtain ⟨hnone, hline, hend⟩ := line_append ys hblank htail
        fun h13 hys => hcut ⟨h13, hys⟩
      refine ih (hmore.of_suffix (behind_suffix htail)) (fun l hl => hfit l ?_) hscan'
      rw [splitHead_line hnone hend]
      exact List.mem_cons_of_mem _ hl

end Extend

end Http
end Osrv
