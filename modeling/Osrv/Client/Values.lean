import Osrv.Client.Whole
import Osrv.Sfs.Delimited
import Osrv.Tcp.Filled

/-!
# Values asked for remotely

A value that R has put into the store is serialised while a client waits for it:
`do_process` sends `OK ?` and then the records, `C_ask` leaves what follows the line to
`sock_restore`. Nothing announces how long that is, and a header that goes out in two
pieces ends the serialiser. Either all of the value arrives, or what arrives is cut off
(`fd_store_fills`), which the client always notices.
-/

namespace Osrv
namespace Client

open Bytes Net Obj Sfs Tcp

/-! ### The server serialises -/

section Server

variable {send : SendFn}

/-- The `GET` of an entry without bytes. -/
theorem get_value (hsend : send.Succeeds) {key : CString} {w : World} {a : Heap.Addr}
    {cell : Heap.Cell (Entry (Option (List UInt8)) SEXP)} {v : SEXP}
    (hget : obj_get key false w.store = some (some a, w.store))
    (hload : w.store.heap.load a = some cell) (hobj : cell.val.obj = none)
    (hwhat : cell.val.sWhat = some v) :
    ∃ flow conn bytes, Tcp.get send false key w = some (flow, { w with conn := conn }) ∧
      conn.out = w.conn.out ++ serialisedLine ++ bytes ∧ bytes <+: emit v ∧
      (bytes = emit v → flow = .leave) ∧ (bytes ≠ emit v → flow = .jumped) := by
  obtain ⟨calls, hline⟩ := sendAll_ok hsend (show 0 < MAX_SEND by decide) w.conn serialisedLine
  have hfills := fd_store_fills hsend ⟨calls, w.conn.out ++ serialisedLine⟩ v
  simp only [Tcp.get, hget, Option.bind_eq_bind, Option.bind_some, Bool.false_eq_true, if_false,
    hload, hobj, hwhat, send_buf, ← show serialisedLine = ascii "OK ?\n" from rfl, hline, ne_eq,
    not_true_eq_false]
  cases hfd : fd_store send ⟨calls, w.conn.out ++ serialisedLine⟩ v with
  | ok conn =>
    rw [hfd] at hfills
    exact ⟨_, conn, emit v, rfl, hfills, List.prefix_rfl, fun _ => rfl, fun h => absurd rfl h⟩
  | error conn =>
    rw [hfd] at hfills
    obtain ⟨front, hfront, hne, hout⟩ := hfills
    exact ⟨_, conn, front, rfl, hout, hfront, fun h => absurd h hne, fun _ => rfl⟩

end Server

/-! ### The client restores -/

section Restore

variable {R : Runtime} {payload : List UInt8} {d : Descriptor}

variable (R) in
/-- **What follows `OK ?`** is left to `sock_restore`, as it is. -/
theorem C_ask_value (cmd : List UInt8) (buf : Memory) (eagain : Bool)
    (hd : Carries d (serialisedLine ++ payload)) :
    ∃ d', Carries d' payload ∧
      C_ask R true cmd cmd.length buf eagain d = some (.sock_restore d') := by
  obtain ⟨hok, hbytes⟩ := hd
  have hhead : IsLine (ascii "OK ?") := ⟨by decide, by decide⟩
  obtain ⟨buf', c, p, arrivals, carried, hloop, hline⟩ := headerLoop_spec true eagain hhead
    (by decide) (Or.inl (by decide)) (at_nil buf 0) (show 0 < BUF_SIZE by decide) hbytes
    (fun _ => Or.inl (Nat.zero_le _)) hok
  have harriving := hline.arriving
  rw [hline.whole rfl, List.nil_append] at harriving
  refine ⟨⟨arrivals, false⟩, ⟨hline.delivers, harriving⟩, ?_⟩
  have hstring : stringAt BUF_SIZE buf' 0 = cstr (ascii "OK ?") :=
    stringAt_line (s := cstr (ascii "OK ?")) hline.held (by decide)
  have hnot : ¬ ((cstr (ascii "OK ?")).length = 2 ∨
      (cstr (ascii "OK ?")).bytes = ascii "UNSUPP") := by decide
  have hprefix : (ascii "OK ").isPrefixOf (cstr (ascii "OK ?")).bytes = true := by decide
  change headerLoop true buf 0 eagain d.arrivals = _ at hloop
  rw [C_ask, if_neg (Int.lt_irrefl _)]
  simp only [hloop, Option.bind_eq_bind, Option.bind_some, hstring, hnot, if_false, hprefix,
    if_true]
  rfl

end Restore

/-! ### From R to R -/

variable {R : Runtime} {send : SendFn}

/-- **A value that is asked for** of any server that R has put it into, for every schedule of
short sends and of what is received: the client gets a value that is identical to it exactly
if all of it was sent, it has no raw vector and no string with an encoding mark. If it was not
sent to its end, the call of `sock_restore` fails. -/
theorem asked_value_identical_iff {ops : List Fronts.Op} {s : Objects}
    (hrun : Fronts.run ops = some s) {key : CString} (hkey : Nameable key)
    (hfit : (lineOf Query.get.word key).length < MAX_BUF) {v : SEXP} (hv : Storable v)
    (hplain : ∀ x ∈ v.nodes, x.Plain) (hR : R.Allocates v) (hsend : send.Succeeds)
    (malloc : Malloc) (buf : Memory) (input : Input) (mallocs : ℕ) :
    ∃ buf' flow w' bytes, request send malloc buf (getLine key)
        ⟨input, ⟨0, []⟩, C_put key v true s, mallocs⟩ = some (buf', flow, w') ∧
      w'.conn.out = serialisedLine ++ bytes ∧ bytes <+: emit v ∧
      (bytes = emit v → flow = .leave) ∧ (bytes ≠ emit v → flow = .jumped) ∧
      Receives R (getLine key) w'.conn.out true fun answer =>
        ∃ d, answer = .sock_restore d ∧ ∀ depth dec_buf, bytes.length < depth →
          ((∃ w shared, outcome (sock_restore R depth d dec_buf) = .value w shared ∧
            Identical w v) ↔ bytes = emit v ∧ ∀ x ∈ v.nodes, x.isRaw = false ∧ x.NativeStrings) ∧
          (bytes ≠ emit v → outcome (sock_restore R depth d dec_buf) = .error) := by
  -- the entry is in front of the store
  obtain ⟨xs, ys, hrep, -⟩ := Fronts.run_sized hrun
  have hput : C_put key v true s = obj_add key (some v) none 0 s := if_pos rfl
  have hrep' := hrep.obj_add key (some v) none 0
  have hget := hrep'.obj_get_find key
  obtain ⟨next, hload⟩ := hrep'.root.cells_of_mem (List.mem_cons_self ..)
  rw [List.find?_cons_of_pos (by simp [hasKey])] at hget
  rw [← hput] at hget hload
  -- the server sends it
  obtain ⟨flow, conn, bytes, hanswer, hout, hfront, hwhole, hcut⟩ := get_value
    (w := ⟨input, ⟨0, []⟩, C_put key v true s, mallocs⟩) hsend hget hload
    rfl rfl
  obtain ⟨buf', hrequest⟩ := request_line send malloc (q := .get)
    (w := ⟨input, ⟨0, []⟩, C_put key v true s, mallocs⟩) hkey hfit buf
  change request send malloc buf (getLine key) _ = (Tcp.get send false key _).map _ at hrequest
  rw [hanswer] at hrequest
  have hsent : conn.out = serialisedLine ++ bytes := hout
  refine ⟨buf', flow, _, bytes, hrequest, hsent, hfront, hwhole, hcut, ?_⟩
  -- and the client restores what arrives
  intro cbuf eagain d hd
  obtain ⟨d', hd', hask⟩ := C_ask_value R (getLine key) cbuf eagain (hsent ▸ hd)
  refine ⟨_, hask, d', rfl, fun depth dec_buf hdepth => ?_⟩
  have hsock : outcome (sock_restore R depth d' dec_buf)
      = outcome (sfs_load R fetch_buf depth (Decoder.start bytes dec_buf)) :=
    hd'.2 ▸ outcome_recvLoop (by decide) R depth dec_buf hd'.1
  rw [hsock]
  exact ⟨stored_identical_iff hR hv hplain hfront hdepth,
    fun hne => stored_cut hR hv hfront hne hdepth⟩

theorem asked_value_identical_named :
    ∃ buf' flow w' bytes, request .whole .plenty (fun _ => 0) (getLine (cstr [107]))
        ⟨⟨[], .waiting⟩, ⟨0, []⟩, C_put (cstr [107]) namedInteger true .init, 0⟩
          = some (buf', flow, w') ∧
      w'.conn.out = serialisedLine ++ bytes ∧ bytes <+: emit namedInteger ∧
      (bytes = emit namedInteger → flow = .leave) ∧ (bytes ≠ emit namedInteger → flow = .jumped) ∧
      Receives .unlimited (getLine (cstr [107])) w'.conn.out true fun answer =>
        ∃ d, answer = .sock_restore d ∧ ∀ depth dec_buf, bytes.length < depth →
          ((∃ w shared, outcome (sock_restore .unlimited depth d dec_buf) = .value w shared ∧
            Identical w namedInteger) ↔ bytes = emit namedInteger ∧
              ∀ x ∈ namedInteger.nodes, x.isRaw = false ∧ x.NativeStrings) ∧
          (bytes ≠ emit namedInteger →
            outcome (sock_restore .unlimited depth d dec_buf) = .error) := by
  have hkey : Nameable (cstr [107]) := Plain.nameable (by decide)
  refine asked_value_identical_iff (show Fronts.run [] = some .init from rfl) hkey (by decide)
    storable_namedInteger plain_namedInteger (Runtime.unlimited_allocates _)
    SendFn.whole_succeeds _ _ _ _

end Client
end Osrv
