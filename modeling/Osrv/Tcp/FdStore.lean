import Osrv.Net.Socket
import Osrv.Sfs.Store

/-!
# Serialising to a descriptor

The sink of `fd_store.c`. Each record of the serialiser is an eight-byte header
followed by its payload. An error closes the descriptor and jumps out of the
function, which is `Except.error` with what has been written so far.
-/

namespace Osrv
namespace Tcp

open Bytes Net Sfs

/-- The largest offer made to `write`. -/
def MAX_SEND_SIZE : ℕ := 1024 * 1024 * 128

variable (write : SendFn)

/-- The second half of `add`: the payload, in as many calls as it takes. -/
def addPayload (c : Conn) (r : Record) : Except Conn Conn :=
  let (res, c) := sendAll write MAX_SEND_SIZE c r.payload
  if res ≠ 0 then .error c else .ok c

/-- The callback for one record. -/
def add (c : Conn) (r : Record) : Except Conn Conn :=
  match write c.calls 8 with
  | .accepted n _ _ =>
    let c : Conn := ⟨c.calls + 1, c.out ++ (le 8 r.hdr).take n⟩
    if n < 8 then .error c else addPayload write c r
  | .closed => .error { c with calls := c.calls + 1 }
  -- `sizeof` is unsigned, so `-1` does not compare as less than the size of the header
  | .failed => addPayload write { c with calls := c.calls + 1 } r

/-- Serialises a value. -/
def fd_store (c : Conn) (sWhat : SEXP) : Except Conn Conn := (store sWhat).foldlM (add write) c

end Tcp
end Osrv
