import Osrv.Client.Ask
import Osrv.Fronts.Servable
import Osrv.Tcp.Segments

/-!
# Client and server

A `GET` of `os.ask`, from the store to the value that R gets. What the server sends for an
entry with bytes is what `C_ask` reads: however `send` and `recv` cut it into pieces, the
payload comes out of it as it was stored. The two sides share nothing but the bytes on the
wire, which `Carries` gives to the client in any pieces and with any number of timeouts.
-/

namespace Osrv
namespace Client

open Bytes Net Obj Sfs Tcp

/-- The longest vector of R. -/
def R_XLEN_T_MAX : ℕ := 2 ^ 52

/-- The line of a `GET`. -/
def getLine (key : CString) : List UInt8 := lineOf Query.get.word key ++ [10]

/-- Whatever the pieces in which a reply is delivered, however often the client waits for them in
vain, and whatever is left in `errno`, what it makes of the reply satisfies `P`. -/
def Receives (R : Runtime) (cmd out : List UInt8) (use_sfs : Bool) (P : Answer → Prop) : Prop :=
  ∀ buf eagain d, Carries d out →
    ∃ answer, C_ask R use_sfs cmd cmd.length buf eagain d = some answer ∧ P answer

variable {R : Runtime} {send : SendFn}

/-- A reply without a payload is returned as a string. -/
theorem receives_string (cmd : List UInt8) (use_sfs : Bool) {r : List UInt8}
    (hr : r = OK ∨ r = NF ∨ r = UNSUPP) :
    Receives R cmd r use_sfs fun answer =>
      ∃ s : CString, s.bytes ++ [10] = r ∧ answer = .string s := by
  intro buf eagain d hd
  have hstring : ∃ s : CString, s.bytes ++ [10] = r ∧ (10 : UInt8) ∉ s.bytes ∧
      (s.length = 2 ∨ s.bytes = ascii "UNSUPP") := by
    obtain rfl | rfl | rfl := hr
    · exact ⟨cstr (ascii "OK"), rfl, by decide, Or.inl rfl⟩
    · exact ⟨cstr (ascii "NF"), rfl, by decide, Or.inl rfl⟩
    · exact ⟨cstr (ascii "UNSUPP"), rfl, by decide, Or.inr rfl⟩
  obtain ⟨s, rfl, hten, hs⟩ := hstring
  exact ⟨_, C_ask_string R use_sfs cmd buf hten hs hd, s, rfl, rfl⟩

/-- The reply to a `GET` of raw bytes. -/
def rawReply (payload : List UInt8) : List UInt8 :=
  ascii "OK " ++ decimal payload.length ++ [10] ++ payload

theorem rawReply_eq (payload : List UInt8) :
    rawReply payload = (lengthLine payload.length).bytes ++ 10 :: payload := by
  rw [rawReply, bytes_lengthLine, List.append_assoc, List.singleton_append]

/-- **Client and server agree** on a `GET` of stored bytes, after every history of the
store and for every schedule of short sends: the client returns exactly the payload, or
calls `sock_restore` when exactly the payload is still to arrive. The replies without a
payload are returned as strings. -/
theorem ask_agrees {ops : List Fronts.Op} {s : Objects} (hrun : Fronts.run ops = some s)
    {key : CString} (hkey : Nameable key) (hfit : (lineOf Query.get.word key).length < MAX_BUF)
    {a : Heap.Addr} {cell : Heap.Cell (Entry (Option (List UInt8)) SEXP)}
    {payload : List UInt8} (hget : obj_get key false s = some (some a, s))
    (hload : s.heap.load a = some cell) (hobj : cell.val.obj = some payload)
    (hlen : payload.length ≤ R_XLEN_T_MAX)
    (hroom : R.allocVector .RAWSXP payload.length = true) (hsend : send.Succeeds)
    (malloc : Malloc) (buf : Memory) (input : Input) (mallocs : ℕ) :
    (∃ buf' w', request send malloc buf (getLine key) ⟨input, ⟨0, []⟩, s, mallocs⟩
        = some (buf', .again, w') ∧
      Receives R (getLine key) w'.conn.out false (fun answer => answer = .raw payload) ∧
      Receives R (getLine key) w'.conn.out true (fun answer =>
        ∃ d, Carries d payload ∧ answer = .sock_restore d)) ∧
      ∀ cmd use_sfs r, r = OK ∨ r = NF ∨ r = UNSUPP → Receives R cmd r use_sfs fun answer =>
        ∃ s : CString, s.bytes ++ [10] = r ∧ answer = .string s := by
  refine ⟨?_, fun cmd use_sfs r hr => receives_string cmd use_sfs hr⟩
  -- the length of the entry is that of the payload
  obtain ⟨o, hfind, hsized⟩ := (Fronts.run_sized hrun).lookup key
  obtain rfl := (Prod.mk.inj (Option.some.inj (hfind.symm.trans hget))).1
  obtain ⟨cell', hload', hentry⟩ := hsized a rfl
  obtain rfl : cell = cell' := Option.some.inj (hload.symm.trans hload')
  -- the server sends the reply
  obtain ⟨calls, hanswer⟩ := get_raw (w := ⟨input, ⟨0, []⟩, s, mallocs⟩) hsend hget hload hobj
    (hentry payload hobj)
  obtain ⟨buf', hrequest⟩ := request_line send malloc (q := .get)
    (w := ⟨input, ⟨0, []⟩, s, mallocs⟩) hkey hfit buf
  change request send malloc buf (getLine key) _ = (Tcp.get send false key _).map _ at hrequest
  rw [hanswer] at hrequest
  refine ⟨buf', _, hrequest, ?_⟩
  -- and the client reads it
  have hout : ([] ++ (ascii "OK " ++ decimal payload.length ++ [10]) ++ payload)
      = (lengthLine payload.length).bytes ++ 10 :: payload := rawReply_eq payload
  have hmax : payload.length ≤ LONG_MAX := hlen.trans (by decide)
  constructor
  · intro cbuf eagain d hd
    exact ⟨_, C_ask_raw R (getLine key) cbuf hmax hroom (hout ▸ hd), rfl⟩
  · intro cbuf eagain d hd
    obtain ⟨d', hd', hask⟩ := C_ask_sfs R (getLine key) cbuf hmax (hout ▸ hd)
    exact ⟨_, hask, d', hd', rfl⟩

/-- A store in which R has put a raw vector of one byte. -/
def withSeven : Objects := C_put (cstr [107]) (rawVector [7]) false .init

theorem ask_agrees_seven :
    (∃ buf' w', request .whole .plenty (fun _ => 0) (getLine (cstr [107]))
        ⟨⟨[], .waiting⟩, ⟨0, []⟩, withSeven, 0⟩ = some (buf', .again, w') ∧
      Receives .ample (getLine (cstr [107])) w'.conn.out false (fun answer => answer = .raw [7]) ∧
      Receives .ample (getLine (cstr [107])) w'.conn.out true (fun answer =>
        ∃ d, Carries d [7] ∧ answer = .sock_restore d)) ∧
      ∀ cmd use_sfs r, r = OK ∨ r = NF ∨ r = UNSUPP → Receives .ample cmd r use_sfs fun answer =>
        ∃ s : CString, s.bytes ++ [10] = r ∧ answer = .string s :=
  have hrun : Fronts.run [.put (cstr [107]) (rawVector [7]) false] = some withSeven := rfl
  have hkey : Nameable (cstr [107]) := Plain.nameable (by decide)
  have hload : withSeven.heap.load 0
      = some ⟨⟨1, some [7], some (rawVector [7]), cstr [107]⟩, none⟩ := rfl
  ask_agrees hrun hkey (by decide) rfl hload rfl (by decide) rfl SendFn.whole_succeeds _ _ _ _

end Client
end Osrv
