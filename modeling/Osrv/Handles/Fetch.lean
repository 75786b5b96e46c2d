import Osrv.Lib.Ends
import Osrv.Lib.Scan
import Osrv.Sfs.Transport

/-!
# Who closes a descriptor

A function that obtains a descriptor and loads from it is not the only one that closes it:
`fetch` closes it before it raises an error, and a jump out of the decoder never comes back
to the function. So a load leaves the descriptor open when it returns, and when the error
is one that `fetch` has not raised.

`Handle` counts the descriptors that have been obtained and the calls of `close`, and
`Settles` says that these are as many when a call ends. A load from a descriptor stops with
an error of the decoder exactly when the load of the bytes that arrive does, from memory
(`load_ends`). `C_file_restore` is the first function over it.
-/

namespace Osrv
namespace Handles

open Bytes Lib Net Sfs

/-! ### Calls -/

/-- What is still to arrive on a descriptor, how many descriptors have been obtained, and how
often `close` has been called. -/
structure Handle where
  arrivals : List Arrival
  opened : ℕ
  closes : ℕ

/-- Before a descriptor is obtained. -/
def Handle.start : Handle := ⟨[], 0, 0⟩

/-- Why a call does not return: `Rf_error` with a message, a loop that goes on for ever, a
write or a look behind the end of a buffer, and the depth bound of the decoder. -/
inductive Fault
  | rerror (message : List UInt8)
  | spins
  | overrun
  | tooDeep

abbrev Call := EStateM Fault Handle

def rf_error {α : Type} (message : List UInt8) : Call α := throw (.rerror message)

/-- A call of the system has returned a descriptor. -/
def obtained (arrivals : List Arrival) : Call Unit :=
  modify fun h => { h with arrivals := arrivals, opened := h.opened + 1 }

def close : Call Unit := modify fun h => { h with closes := h.closes + 1 }

/-- What is closed when a call stops. A loop that goes on for ever has no end. -/
def Fault.Settled : Fault → Handle → Prop
  | .rerror _, h => h.closes = h.opened
  | .spins, _ => True
  | _, _ => False

/-- **The call ends with every descriptor closed** that it has obtained, and each of them
once. -/
def Settles {α : Type} (x : Call α) (h : Handle) : Prop :=
  Ends x h (fun _ h' => h'.closes = h'.opened) Fault.Settled

theorem settles_bind {α β : Type} {x : Call α} {f : α → Call β} {h : Handle} :
    Settles (x >>= f) h ↔ Ends x h (fun a h' => Settles (f a) h') Fault.Settled :=
  ends_bind

/-! ### Loads -/

/-- `fetch` of `fd_restore.c` and of `sock_restore.c`, with the call of `close` in front of an
error. -/
def fetch (max : ℕ) : FetchApi Handle where
  fetch h len :=
    let after (d : Descriptor) : Handle :=
      { h with arrivals := d.arrivals, closes := h.closes + d.closed.toNat }
    match recvLoop max [] len h.arrivals with
    | .got bs d => .got bs (after d)
    | .failed part e d => .failed part e (after d)

variable (R : Runtime) (dec_buf : List UInt8)

/-- `fd_restore` and `sock_restore`. Every level of nesting takes a header of what arrives. -/
def load (max : ℕ) : Call SEXP := fun h =>
  match sfs_load R (fetch max) ((delivered h.arrivals).length + 1) (Decoder.on h dec_buf) with
  | .ok v st => .ok v st.api
  | .error (.rerror e) st => .error (.rerror (ascii e.text)) st.api
  | .error .tooDeep st => .error .tooDeep st.api

/-- The decoder comes to an error of its own in the bytes, one that is not about bytes that
are missing. -/
def refuses (bytes : List UInt8) : Bool :=
  match C_mem_restore R bytes dec_buf with
  | .error (.rerror e) _ => !e.ofFetch
  | _ => false

/-- The load from a descriptor beside the load from memory. -/
structure Beside (opened closes : ℕ) (h : Handle) (bytes : List UInt8) : Prop where
  delivered : delivered h.arrivals = bytes
  opened : h.opened = opened
  closes : h.closes = closes

/-- How the two loads stop: both for bytes that are missing, and then `fetch` has closed the
descriptor, or neither. -/
def StopsBeside (opened closes : ℕ) :
    Stop → Decoder Handle → Stop → Decoder (List UInt8) → Prop
  | .rerror e, st, .rerror d, _ => e.ofFetch = d.ofFetch ∧ st.api.opened = opened ∧
      st.api.closes = closes + e.ofFetch.toNat
  | .tooDeep, _, .tooDeep, _ => True
  | _, _, _, _ => False

variable {R dec_buf} {max opened closes : ℕ}

theorem matched_fetch (hmax : 0 < max) (opened closes : ℕ) :
    Matched (Beside opened closes) (StopsBeside opened closes) (fetch max) fetch_buf := by
  refine matched_of_fetch
    (G := fun e h d _ => e.ofFetch = d.ofFetch ∧ h.opened = opened ∧
      h.closes = closes + e.ofFetch.toNat)
    (fun e he st st' h => ⟨rfl, h.api.opened, ?_⟩) (fun h bytes len hb => ?_) fun _ _ _ _ h => h
  · rw [he]
    exact h.api.closes
  -- both look at how many bytes can be received
  have hspec := recvLoop_delivered hmax [] len h.arrivals (Nat.zero_le _)
  rw [List.length_nil, Nat.sub_zero, hb.delivered] at hspec
  show FetchedMatch _ _
    (match recvLoop max [] len h.arrivals with | .got bs d => _ | .failed .. => _)
    (if bytes.length < len then _ else _)
  split at hspec
  -- too few: `fetch` has closed the descriptor
  · next hshort =>
    obtain ⟨part, e, d, hrun, he, hclosed⟩ := hspec
    rw [hrun, if_pos hshort]
    refine ⟨he, hb.opened, ?_⟩
    show h.closes + d.closed.toNat = _
    rw [hclosed, he, hb.closes]
  -- enough of them
  · next hlong =>
    obtain ⟨d, -, hclosed, hrest, hrun⟩ := hspec
    rw [hrun, if_neg hlong]
    refine ⟨rfl, hrest, hb.opened, ?_⟩
    show h.closes + d.closed.toNat = _
    rw [hclosed, hb.closes]
    rfl

variable (R dec_buf) in
/-- **A load leaves the descriptor open** when it returns and when the decoder refuses the bytes
that arrive. Otherwise `fetch` has closed it. -/
theorem load_ends (hmax : 0 < max) (h : Handle) :
    Ends (load R dec_buf max) h
      (fun _ h' => refuses R dec_buf (delivered h.arrivals) = false ∧ h'.opened = h.opened ∧
        h'.closes = h.closes)
      fun f h' => (∃ message, f = .rerror message) ∧ h'.opened = h.opened ∧
        h'.closes = h.closes + (!refuses R dec_buf (delivered h.arrivals)).toNat := by
  have hrun := tandem_sfs_load (R := R) (matched_fetch hmax h.opened h.closes)
    (fun _ _ _ => trivial) ((delivered h.arrivals).length + 1) (Decoder.on h dec_buf)
    (Decoder.start (delivered h.arrivals) dec_buf) ⟨⟨rfl, rfl, rfl⟩, rfl, rfl, rfl, rfl⟩
  have hdeep := outcome_ne_tooDeep R dec_buf (Nat.lt_succ_self (delivered h.arrivals).length)
  unfold refuses C_mem_restore
  unfold Ends load
  revert hrun hdeep
  cases sfs_load R (fetch max) ((delivered h.arrivals).length + 1) (Decoder.on h dec_buf) with
  | ok v st =>
    cases sfs_load R fetch_buf ((delivered h.arrivals).length + 1)
        (Decoder.start (delivered h.arrivals) dec_buf) with
    | ok w st' => exact fun hrun _ => ⟨rfl, hrun.2.api.opened, hrun.2.api.closes⟩
    | error d st' => exact fun hrun _ => hrun.elim
  | error e st =>
    cases sfs_load R fetch_buf ((delivered h.arrivals).length + 1)
        (Decoder.start (delivered h.arrivals) dec_buf) with
    | ok w st' => exact fun hrun _ => hrun.elim
    | error d st' =>
      intro hrun hdeep
      cases d with
      | tooDeep => exact absurd rfl hdeep
      | rerror d =>
        cases e with
        | tooDeep => exact hrun.elim
        | rerror e =>
          obtain ⟨hsame, hopened, hcloses⟩ := hrun
          refine ⟨⟨_, rfl⟩, hopened, ?_⟩
          rw [Bool.not_not, ← hsame]
          exact hcloses

/-- A load that returns has the value of `fd_restore` and `sock_restore`. -/
theorem load_value (h : Handle) {d : Descriptor} (hd : h.arrivals = d.arrivals) :
    Ends (load R dec_buf max) h
      (fun v _ => ∃ st, sfs_load R ⟨fun d len => recvLoop max [] len d.arrivals⟩
        ((delivered d.arrivals).length + 1) (Decoder.on d dec_buf) = .ok v st)
      fun _ _ => True := by
  -- what is counted has no part in what is received
  have halike : FetchAlike (fun (h : Handle) (d : Descriptor) => h.arrivals = d.arrivals)
      (fetch max) ⟨fun d len => recvLoop max [] len d.arrivals⟩ := by
    intro h d len hd
    unfold fetch
    dsimp only
    rw [hd]
    cases recvLoop max [] len d.arrivals with
    | got bs d' => exact ⟨rfl, rfl⟩
    | failed part e d' => trivial
  have hrun := lockstep_sfs_load (R := R) (E := SameStop) (fun _ _ => trivial) halike trivial
    ((delivered d.arrivals).length + 1) (Decoder.on h dec_buf) (Decoder.on d dec_buf)
    ⟨hd, rfl, rfl, rfl, rfl⟩
  unfold Ends load
  rw [hd]
  revert hrun
  cases sfs_load R (fetch max) ((delivered d.arrivals).length + 1) (Decoder.on h dec_buf) with
  | error e st =>
    intro _
    cases e with
    | rerror e => trivial
    | tooDeep => trivial
  | ok v st =>
    cases sfs_load R ⟨fun d len => recvLoop max [] len d.arrivals⟩
        ((delivered d.arrivals).length + 1) (Decoder.on d dec_buf) with
    | error e st' => exact fun hrun => hrun.elim
    | ok w st' => exact fun hrun => ⟨st', by rw [hrun.1]⟩

/-! ### `C_file_restore` -/

variable (R dec_buf) in
/-- `C_file_restore`. `file` is what `open` comes to: an error, or a descriptor and what arrives
on it. -/
def C_file_restore (sFilename : Option CString) (file : Except String (List Arrival)) :
    Call SEXP :=
  match sFilename with
  | none => rf_error (ascii "filename must be a string")
  | some name =>
    match file with
    | .error e =>
      rf_error (ascii "Unable to open '" ++ name.bytes ++ ascii "': " ++ ascii e)
    | .ok arrivals => do
      obtained arrivals
      let res ← load R dec_buf Fd.MAX_RECV_SIZE
      close
      return res

variable (R dec_buf) in
/-- A load behind which the descriptor is closed. -/
theorem settles_load {α : Type} (hmax : 0 < max) {f : SEXP → α} {h : Handle}
    (h1 : h.opened = h.closes + 1) :
    Settles (do
      let res ← load R dec_buf max
      close
      return f res) h ↔ refuses R dec_buf (delivered h.arrivals) = false := by
  have hends := load_ends R dec_buf hmax h
  rw [settles_bind]
  unfold Ends at *
  revert hends
  cases load R dec_buf max h with
  -- the call of `close` is the only one
  | ok v h' =>
    rintro ⟨haccepts, hopened, hcloses⟩
    refine iff_of_true ?_ haccepts
    show h'.closes + 1 = h'.opened
    rw [hopened, hcloses, h1]
  -- `close` is not reached, and `fetch` has closed it or nobody has
  | error e h' =>
    rintro ⟨⟨message, rfl⟩, hopened, hcloses⟩
    show h'.closes = h'.opened ↔ _
    rw [hopened, hcloses, h1]
    cases refuses R dec_buf (delivered h.arrivals) with
    | false => simp
    | true => simp

/-- **`C_file_restore` closes its file**, and once, exactly when the decoder does not refuse what
can be read of it. -/
theorem settles_file_restore (sFilename : Option CString)
    (file : Except String (List Arrival)) :
    Settles (C_file_restore R dec_buf sFilename file) .start ↔
      ∀ name arrivals, sFilename = some name → file = .ok arrivals →
        refuses R dec_buf (delivered arrivals) = false := by
  cases sFilename with
  | none => exact iff_of_true rfl fun _ _ h => nomatch h
  | some name =>
    cases file with
    | error e => exact iff_of_true rfl fun _ _ _ h => nomatch h
    | ok arrivals =>
      have hload := settles_load R dec_buf (f := id)
        (show 0 < Fd.MAX_RECV_SIZE by decide) (h := ⟨arrivals, 1, 0⟩) rfl
      constructor
      · rintro hsettles _ _ - h
        cases h
        exact hload.mp hsettles
      · intro hall
        exact hload.mpr (hall name arrivals rfl rfl)

end Handles
end Osrv
