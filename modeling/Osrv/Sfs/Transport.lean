import Osrv.Net.Socket
import Osrv.Sfs.Callback

/-!
# Loading from a descriptor

`fetch` of `fd_restore.c` and of `sock_restore.c` is one loop with two bounds on what
is requested at a time. It goes on with short reads and after `EAGAIN`, and closes the
descriptor at the end of the file.

Over a descriptor that delivers its bytes without an error, each of them is alike to
`fetch_buf` over these bytes (`fetchAlike_recvLoop`), whatever the pieces. Hence the
three ways to load agree on every stream, well-formed or not.
-/

namespace Osrv
namespace Sfs

open Bytes Lib Net

/-! ### Descriptors -/

/-- What calls of `read` or `recv` come to before the end of the file: bytes, `EAGAIN`,
or another error. -/
inductive Arrival
  | data (seg : Segment)
  | again
  | failed (strerror : String)

/-- A descriptor: what is still to arrive on it, and whether `fetch` has closed it. -/
structure Descriptor where
  arrivals : List Arrival
  closed : Bool

/-- The bytes of a piece of what arrives. -/
def Arrival.bytes : Arrival → List UInt8
  | .data seg => seg.1
  | .again => []
  | .failed _ => []

def Descriptor.bytes (d : Descriptor) : List UInt8 := d.arrivals.flatMap Arrival.bytes

/-- Nothing but bytes and `EAGAIN` arrives, up to the end of the file. -/
def Descriptor.Delivers (d : Descriptor) : Prop := ∀ e, Arrival.failed e ∉ d.arrivals

/-- Puts back what a read had no room for. -/
def putBack (bs : List UInt8) (arrivals : List Arrival) : List Arrival :=
  if h : bs = [] then arrivals else .data ⟨bs, h⟩ :: arrivals

theorem flatMap_putBack (bs : List UInt8) (arrivals : List Arrival) :
    (putBack bs arrivals).flatMap Arrival.bytes = bs ++ arrivals.flatMap Arrival.bytes := by
  unfold putBack
  split
  · next h => rw [h, List.nil_append]
  · rfl

/-- What is taken of a piece and what is put back of it are the piece. -/
theorem take_putBack (n : ℕ) (seg : Segment) (rest : List Arrival) :
    seg.1.take n ++ (putBack (seg.1.drop n) rest).flatMap Arrival.bytes
      = (Arrival.data seg :: rest).flatMap Arrival.bytes := by
  rw [flatMap_putBack, ← List.append_assoc, List.take_append_drop]
  rfl

theorem failed_mem_putBack {bs : List UInt8} {arrivals : List Arrival} {e : String} :
    .failed e ∈ putBack bs arrivals ↔ .failed e ∈ arrivals := by
  unfold putBack
  split
  · rfl
  · simp

/-- The bytes that arrive in front of an error. -/
def delivered : List Arrival → List UInt8
  | [] => []
  | .data seg :: rest => seg.1 ++ delivered rest
  | .again :: rest => delivered rest
  | .failed _ :: _ => []

theorem delivered_putBack (bs : List UInt8) (arrivals : List Arrival) :
    delivered (putBack bs arrivals) = bs ++ delivered arrivals := by
  unfold putBack
  split
  · next h => rw [h, List.nil_append]
  · rfl

/-- Without an error all bytes arrive. -/
theorem delivered_eq {arrivals : List Arrival} (hok : ∀ e, Arrival.failed e ∉ arrivals) :
    delivered arrivals = arrivals.flatMap Arrival.bytes := by
  induction arrivals with
  | nil => rfl
  | cons a rest ih =>
    have hrest := ih fun e h => hok e (List.mem_cons_of_mem _ h)
    cases a with
    | data seg => exact congrArg (seg.1 ++ ·) hrest
    | again => exact hrest
    | failed e => exact absurd (List.mem_cons_self ..) (hok e)

theorem length_putBack_le (bs : List UInt8) (arrivals : List Arrival) :
    (putBack bs arrivals).length ≤ arrivals.length + 1 := by
  unfold putBack
  split
  · exact Nat.le_succ _
  · exact Nat.le_refl _

/-! ### The two `fetch` functions -/

/-- How many bytes are requested when `left` are to get. -/
def need (max left : ℕ) : ℕ := if left > max then max else left

theorem need_spec {max : ℕ} (left : ℕ) (hmax : 0 < max) (hleft : 0 < left) :
    0 < need max left ∧ need max left ≤ left := by
  unfold need
  split <;> omega

/-- The loop of `fetch`, with `buf` for the bytes it has got and `len` for those it is
to get. At most `max` are requested at a time. The user does not interrupt it. -/
def recvLoop (max : ℕ) (buf : List UInt8) (len : ℕ) (arrivals : List Arrival) :
    Fetched Descriptor :=
  if _hlen : len ≤ buf.length then .got buf ⟨arrivals, false⟩
  else
    match arrivals with
    | [] => .failed buf .connectionClosed ⟨[], true⟩
    | .again :: rest => recvLoop max buf len rest
    | .failed strerror :: rest => .failed buf (.readFailed strerror) ⟨rest, true⟩
    | .data seg :: rest =>
      let got := seg.1.take (need max (len - buf.length))
      if _hgot : got = [] then
        -- n == 0
        .failed buf .connectionClosed ⟨.data seg :: rest, true⟩
      else
        recvLoop max (buf ++ got) len
          (putBack (seg.1.drop (need max (len - buf.length))) rest)
termination_by len - buf.length + arrivals.length
decreasing_by
  · simp
  · have hpos : 0 < (seg.1.take (need max (len - buf.length))).length :=
      List.length_pos_of_ne_nil _hgot
    have hback := length_putBack_le (seg.1.drop (need max (len - buf.length))) rest
    rw [List.length_append, List.length_cons]
    omega

namespace Fd

def MAX_RECV_SIZE : ℕ := 1024 * 1024 * 128

/-- `fetch` of `fd_restore.c`. -/
def fetch : FetchApi Descriptor where
  fetch d len := recvLoop MAX_RECV_SIZE [] len d.arrivals

end Fd

namespace Sock

def MAX_RECV_SIZE : ℕ := 1024 * 1024

/-- `fetch` of `sock_restore.c`. -/
def fetch : FetchApi Descriptor where
  fetch d len := recvLoop MAX_RECV_SIZE [] len d.arrivals

end Sock

/-- `fd_restore`, down to a nesting depth. -/
def fd_restore (R : Runtime) (depth : ℕ) (d : Descriptor) (dec_buf : List UInt8) :
    EStateM.Result Stop (Decoder Descriptor) SEXP :=
  sfs_load R Fd.fetch depth (Decoder.on d dec_buf)

/-- `sock_restore`, down to a nesting depth. The receive timeout it sets shows up as
`EAGAIN`. -/
def sock_restore (R : Runtime) (depth : ℕ) (d : Descriptor) (dec_buf : List UInt8) :
    EStateM.Result Stop (Decoder Descriptor) SEXP :=
  sfs_load R Sock.fetch depth (Decoder.on d dec_buf)

/-! ### The loop delivers what arrives -/

/-- The loop gets as many bytes as it is to get, from the front of what arrives before an
error, or it fails when there are fewer, and then it has closed the descriptor. -/
theorem recvLoop_delivered {max : ℕ} (hmax : 0 < max) (buf : List UInt8) (len : ℕ)
    (arrivals : List Arrival) (hbuf : buf.length ≤ len) :
    if (delivered arrivals).length < len - buf.length then
      ∃ part e d, recvLoop max buf len arrivals = .failed part e d ∧ e.ofFetch = true ∧
        d.closed = true
    else
      ∃ d : Descriptor, (∀ e, Arrival.failed e ∈ d.arrivals → Arrival.failed e ∈ arrivals) ∧
        d.closed = false ∧ delivered d.arrivals = (delivered arrivals).drop (len - buf.length) ∧
        recvLoop max buf len arrivals =
          .got (buf ++ (delivered arrivals).take (len - buf.length)) d := by
  induction hm : len - buf.length + arrivals.length using Nat.strong_induction_on
    generalizing buf arrivals with
  | _ m ih =>
  rw [recvLoop.eq_def]
  by_cases hlen : len ≤ buf.length
  · -- everything is there
    have h0 : len - buf.length = 0 := Nat.sub_eq_zero_of_le hlen
    rw [dif_pos hlen, h0, if_neg (Nat.not_lt_zero _)]
    exact ⟨⟨arrivals, false⟩, fun _ h => h, rfl, rfl, by rw [List.take_zero, List.append_nil]⟩
  rw [dif_neg hlen]
  cases arrivals with
  | nil =>
    -- the stream has ended before the bytes are there
    rw [if_pos (by simp only [delivered, List.length_nil]; omega)]
    exact ⟨_, _, _, rfl, rfl, rfl⟩
  | cons a rest =>
    cases a with
    | failed e =>
      -- an error ends what is delivered
      rw [if_pos (by simp only [delivered, List.length_nil]; omega)]
      exact ⟨_, _, _, rfl, rfl, rfl⟩
    | again =>
      -- a retry delivers nothing
      have hnext := ih _ (by rw [← hm, List.length_cons]; omega) buf rest hbuf rfl
      rw [show delivered (.again :: rest) = delivered rest from rfl]
      split at hnext
      · next hshort =>
        rw [if_pos hshort]
        exact hnext
      · next hlong =>
        rw [if_neg hlong]
        obtain ⟨d, hd, hnext⟩ := hnext
        exact ⟨d, fun e he => List.mem_cons_of_mem _ (hd e he), hnext⟩
    | data seg =>
      -- a piece: as much of it is taken as is needed and one call may return
      obtain ⟨hneed0, hneedLe⟩ := need_spec (len - buf.length) hmax (by omega)
      generalize need max (len - buf.length) = need at hneed0 hneedLe
      have hgot : seg.1.take need ≠ [] := take_ne_nil (Nat.ne_of_gt hneed0) seg
      have hpos : 0 < (seg.1.take need).length := List.length_pos_of_ne_nil hgot
      have hle : (seg.1.take need).length ≤ need := by
        rw [List.length_take]
        exact Nat.min_le_left _ _
      have hback := length_putBack_le (seg.1.drop need) rest
      simp only [dif_neg hgot]
      -- the rest of the bytes with what was put back
      have hbytes : seg.1.take need ++ delivered (putBack (seg.1.drop need) rest) =
          delivered (Arrival.data seg :: rest) := by
        rw [delivered_putBack, ← List.append_assoc, List.take_append_drop]
        rfl
      have hlength : len - (buf ++ seg.1.take need).length =
          len - buf.length - (seg.1.take need).length := by
        rw [List.length_append, Nat.sub_sub]
      have hnext := ih _ (by rw [← hm, List.length_append, List.length_cons]; omega)
        (buf ++ seg.1.take need) (putBack (seg.1.drop need) rest)
        (by rw [List.length_append]; omega) rfl
      have hfailed : ∀ e, Arrival.failed e ∈ putBack (seg.1.drop need) rest →
          Arrival.failed e ∈ Arrival.data seg :: rest := fun e he =>
        List.mem_cons_of_mem _ (failed_mem_putBack.mp he)
      rw [← hbytes]
      generalize delivered (putBack (seg.1.drop need) rest) = more at hnext
      rw [hlength] at hnext
      generalize seg.1.take need = got at *
      rw [List.length_append]
      split at hnext
      · next hshort =>
        -- the bytes do not suffice with the piece as without it
        rw [if_pos (by omega)]
        exact hnext
      · next hlong =>
        rw [if_neg (by omega)]
        -- the piece is a front of what was asked for
        obtain ⟨d, hd, hclosed, hdb, hrun⟩ := hnext
        have hdrop : got.drop (len - buf.length) = [] := List.drop_of_length_le (by omega)
        have htake : got.take (len - buf.length) = got := List.take_of_length_le (by omega)
        refine ⟨d, fun e he => hfailed e (hd e he), hclosed, ?_, ?_⟩
        · rw [hdb, List.drop_append, hdrop, List.nil_append]
        · rw [hrun, List.take_append, htake, List.append_assoc]

/-- The loop over a descriptor without an error. -/
theorem recvLoop_spec {max : ℕ} (hmax : 0 < max) (buf : List UInt8) (len : ℕ)
    (arrivals : List Arrival) (hbuf : buf.length ≤ len)
    (hok : ∀ e, Arrival.failed e ∉ arrivals) :
    if (arrivals.flatMap Arrival.bytes).length < len - buf.length then
      ∃ part e d, recvLoop max buf len arrivals = .failed part e d
    else
      ∃ d : Descriptor, d.Delivers ∧
        d.bytes = (arrivals.flatMap Arrival.bytes).drop (len - buf.length) ∧
        recvLoop max buf len arrivals =
          .got (buf ++ (arrivals.flatMap Arrival.bytes).take (len - buf.length)) d := by
  have hspec := recvLoop_delivered hmax buf len arrivals hbuf
  rw [delivered_eq hok] at hspec
  split at hspec
  · next hshort =>
    obtain ⟨part, e, d, hrun, -⟩ := hspec
    rw [if_pos hshort]
    exact ⟨part, e, d, hrun⟩
  · next hlong =>
    obtain ⟨d, hfailed, -, hbytes, hrun⟩ := hspec
    have hd : d.Delivers := fun e he => hok e (hfailed e he)
    rw [if_neg hlong]
    exact ⟨d, hd, (delivered_eq hd).symm.trans hbytes, hrun⟩

/-- A descriptor stands for the bytes it still delivers. -/
def Carries (d : Descriptor) (bs : List UInt8) : Prop := d.Delivers ∧ d.bytes = bs

theorem fetchAlike_recvLoop {max : ℕ} (hmax : 0 < max) :
    FetchAlike Carries ⟨fun d len => recvLoop max [] len d.arrivals⟩ fetch_buf := by
  rintro d bs len ⟨hd, rfl⟩
  have hspec := recvLoop_spec hmax [] len d.arrivals (Nat.zero_le _) hd
  rw [List.length_nil, Nat.sub_zero] at hspec
  show FetchedAlike Carries (recvLoop max [] len d.arrivals)
    (if d.bytes.length < len then _ else _)
  unfold Descriptor.bytes
  split at hspec
  · next hshort =>
    obtain ⟨part, e, d', hrun⟩ := hspec
    rw [hrun, if_pos hshort]
    trivial
  · next hlong =>
    obtain ⟨d', hd', hb, hrun⟩ := hspec
    rw [hrun, if_neg hlong]
    exact ⟨rfl, hd', hb⟩

/-! ### The depth bound -/

/-- Every load reads a header first, so over a raw vector the depth bound is not reached
when it exceeds the length. -/
theorem lockstep_length (R : Runtime) (depth n : ℕ) (h : n < depth) :
    Lockstep (Alike fun s t => s = t ∧ s.length ≤ n) (fun e _ => e ≠ .tooDeep)
      (sfs_load R fetch_buf depth) (sfs_load R fetch_buf depth)
      (Alike fun s t => s = t ∧ s.length ≤ n) := by
  have hE : ∀ e d : RError, (fun e _ => e ≠ .tooDeep : Stop → Stop → Prop) (.rerror e)
      (.rerror d) := fun e d => by simp
  -- a fetch leaves as many bytes as it does not take
  have hfetch : ∀ m k : ℕ, ∀ s t : List UInt8, ∀ len, s = t ∧ s.length ≤ m → m ≤ k + len →
      FetchedAlike (fun s t => s = t ∧ s.length ≤ k) (fetch_buf.fetch s len)
        (fetch_buf.fetch t len) := by
    rintro m k s _ len ⟨rfl, hs⟩ hk
    show FetchedAlike _ (if s.length < len then _ else _) (if s.length < len then _ else _)
    split
    · trivial
    · refine ⟨rfl, rfl, ?_⟩
      rw [List.length_drop]
      omega
  induction depth generalizing n with
  | zero => exact absurd h (Nat.not_lt_zero n)
  | succ depth ih =>
    unfold sfs_load loadBody
    -- the header takes eight bytes
    have hhdr : Lockstep (Alike fun s t => s = t ∧ s.length ≤ n) (fun e _ => e ≠ .tooDeep)
        (fetchHdr fetch_buf) (fetchHdr fetch_buf) (Alike fun s t => s = t ∧ s.length + 8 ≤ n) := by
      rintro ⟨s, db, m, w, sh⟩ ⟨t, db', m', w', sh'⟩ ⟨⟨rfl, hs⟩, rfl, rfl, rfl, rfl⟩
      unfold fetchHdr fetch fetch_buf
      by_cases hshort : s.length < 8
      · simp only [bind, EStateM.bind, hshort, if_true]
        exact fun hstop => nomatch hstop
      · simp only [bind, EStateM.bind, hshort, if_false]
        refine ⟨rfl, ⟨rfl, ?_⟩, rfl, rfl, rfl, rfl⟩
        have hle : s.length ≤ n := hs
        show (s.drop 8).length + 8 ≤ n
        rw [List.length_drop]
        omega
    by_cases hn : n < 8
    · -- there is no header
      intro st st' hst
      have hr := hhdr st st' hst
      revert hr
      simp only [bind, EStateM.bind]
      cases fetchHdr fetch_buf st with
      | ok a s =>
        cases fetchHdr fetch_buf st' with
        | ok b t =>
          rintro ⟨-, hs⟩
          exact absurd hs.api.2 (by omega)
        | error d t => exact False.elim
      | error e s =>
        cases fetchHdr fetch_buf st' with
        | ok b t => exact False.elim
        | error d t => exact id
    · have hin := ih (n - 8) (by omega)
      have hf : FetchAlike (fun s t => s = t ∧ s.length ≤ n - 8) fetch_buf fetch_buf :=
        fun s t len hst => hfetch _ _ s t len hst (Nat.le_add_right _ _)
      refine hhdr.bind fun hdr => (lockstep_afterHdr hE hf hin hdr).weaken ?_ ?_
      · exact fun s t hst => hst.mono fun a b hab => ⟨hab.1, Nat.le_sub_of_add_le hab.2⟩
      · exact fun s t hst => hst.mono fun a b hab => ⟨hab.1, hab.2.trans (Nat.sub_le n 8)⟩

/-! ### The three transports -/

/-- A load over a descriptor comes to what the load of its bytes from memory does. -/
theorem outcome_recvLoop {max : ℕ} (hmax : 0 < max) (R : Runtime) (depth : ℕ)
    (dec_buf : List UInt8) {d : Descriptor} (hd : d.Delivers) :
    outcome (sfs_load R ⟨fun d len => recvLoop max [] len d.arrivals⟩ depth
        (Decoder.on d dec_buf)) =
      outcome (sfs_load R fetch_buf depth (Decoder.start d.bytes dec_buf)) := by
  have hrun := lockstep_sfs_load (R := R) (E := SameStop) (fun _ _ => trivial)
    (fetchAlike_recvLoop hmax) trivial depth
  refine outcome_eq (hrun (Decoder.on d dec_buf) (Decoder.start d.bytes dec_buf) ?_)
  exact ⟨⟨hd, rfl⟩, rfl, rfl, rfl, rfl⟩

/-- A load of fewer bytes than the depth bound does not reach it. -/
theorem outcome_ne_tooDeep (R : Runtime) (dec_buf : List UInt8) {bytes : List UInt8} {depth : ℕ}
    (h : bytes.length < depth) :
    outcome (sfs_load R fetch_buf depth (Decoder.start bytes dec_buf)) ≠ .tooDeep := by
  have hrun := lockstep_length R depth bytes.length h (Decoder.start bytes dec_buf)
    (Decoder.start bytes dec_buf) ⟨⟨rfl, Nat.le_refl _⟩, rfl, rfl, rfl, rfl⟩
  intro hdeep
  revert hrun hdeep
  cases sfs_load R fetch_buf depth (Decoder.start bytes dec_buf) with
  | ok v st => exact fun _ hdeep => nomatch hdeep
  | error e st =>
    intro hne hdeep
    cases e with
    | rerror e => exact nomatch hdeep
    | tooDeep => exact hne rfl

/-- **The decoders agree on every transport.** A load over a descriptor that delivers
its bytes without an error, by `fd_restore` or by `sock_restore`, in any pieces and with
any number of `EAGAIN`s between them, returns the value that the load of these bytes
from memory returns, or fails when that fails. No nesting deeper than the stream is long
comes up, so the depth bound of the model is not a case. -/
theorem transports_agree (R : Runtime) (dec_buf : List UInt8) (d : Descriptor)
    (hd : d.Delivers) (depth : ℕ) :
    outcome (fd_restore R depth d dec_buf) =
        outcome (sfs_load R fetch_buf depth (Decoder.start d.bytes dec_buf)) ∧
      outcome (sock_restore R depth d dec_buf) =
        outcome (sfs_load R fetch_buf depth (Decoder.start d.bytes dec_buf)) ∧
      (d.bytes.length < depth →
        outcome (sfs_load R fetch_buf depth (Decoder.start d.bytes dec_buf)) ≠ .tooDeep) :=
  ⟨outcome_recvLoop (by decide) R depth dec_buf hd,
    outcome_recvLoop (by decide) R depth dec_buf hd, outcome_ne_tooDeep R dec_buf⟩

/-- A runtime with memory for everything, all of it zero. -/
def Runtime.ample : Runtime where
  allocVector _ _ := true
  malloc _ _ := some []

/-- A `NULL` whose header arrives in two pieces. -/
theorem transports_agree_null :
    outcome (fd_restore .ample 9
        ⟨[.data ⟨[0, 0, 0], by decide⟩, .again, .data ⟨[0, 0, 0, 0, 0], by decide⟩], false⟩ []) =
      .value .NULL [] := by
  rw [(transports_agree .ample []
    ⟨[.data ⟨[0, 0, 0], by decide⟩, .again, .data ⟨[0, 0, 0, 0, 0], by decide⟩], false⟩
    (by intro e h; simp at h) 9).1]
  rfl

end Sfs
end Osrv
