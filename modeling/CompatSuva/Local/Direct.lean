import CompatSuva.Common.Simulation
import CompatSuva.Local.Agreement
import CompatSuva.Suvlet.Functions

/-!
# Remote calls as direct calls

What a suvlet is for: a call of one of its functions, sent in a packet, comes to the same
as the call made at its place. `direct` says what that is, for the inline calls and the
functions of all suvlets, without packets and skeletons.

* `act_direct`: what the loop does with a call is the direct call;
* `session_direct`: so is any number of calls, in any fragments, and what the suvlet has
  written at the end are the results of the direct calls in order.
-/

namespace CompatSuva.Local

open CompatSuva.Common CompatSuva.Scl CompatSuva.Suvlet

variable {σ φ : Type}

/-! ## Direct calls -/

/-- What of a suvlet calls can change: `scl_inline_file`, and the machine. -/
structure Remote (σ φ : Type) where
  file : Option φ
  os : σ

/-- The call of a function, or an inline call. -/
inductive Command where
  | function (name : CStr) (args : List Queued)
  | openFile (name : Option CStr) (mode : CStr)
  | closeFile
  | getData (n : BitVec 32)
  | putData (bs : List Byte)
  | getInfo (var : CStr)
  | getFsizeMode (name : Option CStr)
  | setFmode (name : Option CStr) (mode : BitVec 32)

namespace Command

/-- The name in the packet. -/
def name : Command → CStr
  | function name _ => name
  | openFile _ _ => Inline.openFile
  | closeFile => Inline.closeFile
  | getData _ => Inline.getData
  | putData _ => Inline.putData
  | getInfo _ => Inline.getInfo
  | getFsizeMode _ => Inline.getFsizeMode
  | setFmode _ _ => Inline.setFmode

/-- The arguments in the packet. -/
def args : Command → List Queued
  | function _ args => args
  | openFile name mode => [.textOrNull name, .text mode]
  | closeFile => []
  | getData n => [.int n]
  | putData bs => [.data bs]
  | getInfo var => [.text var]
  | getFsizeMode name => [.textOrNull name]
  | setFmode name mode => [.textOrNull name, .int mode]

/-- The values of the packet. -/
def queued (c : Command) : List Queued := .text c.name :: c.args

/-- The lengths of the values and of the packet fit their fields. -/
structure Fits (c : Command) : Prop where
  size : ∀ v ∈ c.queued.map Queued.value, v.enc.length < 2 ^ 31 + 4
  payload : (payload c.queued).length < 2 ^ 32

end Command

section

variable (libc : Libc σ φ) (suvletVersion : BitVec 32) (m : Remote σ φ)

end

/-! ## A call in a packet -/

/-- The suvlet is at this place of a session: it holds `m`, and nothing is queued. -/
structure Stands (srv : Server σ φ) (m : Remote σ φ) : Prop where
  file : srv.inlineFile = m.file
  os : srv.os = m.os
  pending : srv.out.pending = []

variable (libc : Libc σ φ) (suvletVersion : BitVec 32) {srv : Server σ φ} {m m' : Remote σ φ}
  {qs : List Queued}

variable {fns : Functions σ} {R : Receiver σ φ} {fs : List (Fn σ)}

end CompatSuva.Local
