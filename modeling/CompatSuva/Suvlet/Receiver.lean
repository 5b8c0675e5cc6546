import CompatSuva.Suvlet.Inlines

/-!
# Suvlets

Model of the six `suva_receiver.c` files: the skeletons that decode the arguments
of a function, call it and send its result, and `suva_get_request`, which acts on
the next packet. The functions themselves are a parameter, and need not return.

The files differ in their tables of functions only, but for `BWMeter`: it does not
serve the inline calls, and its `throw_error` returns.
-/

namespace CompatSuva.Suvlet

open CompatSuva.Common CompatSuva.Scl

variable {σ φ : Type}

/-! ## Functions -/

/-- The result type of a function. -/
inductive FnType where
  | int | doub | string | bool
  deriving DecidableEq, Repr

/-- The results of that type. -/
abbrev FnType.Val : FnType → Type
  | .int => BitVec 32
  | .doub => BitVec 64
  | .string => Option CStr
  | .bool => Byte

/-- The result, queued. -/
def FnType.queued : (ret : FnType) → ret.Val → Queued
  | .int, v => .int v
  | .doub, v => .doub v
  | .string, v => .textOrNull v
  | .bool, v => .bool v

/-- An argument of a function. -/
inductive Arg where
  | int (v : BitVec 32)
  | string (s : Option CStr)
  deriving DecidableEq

/-- The argument of this type behind a pointer of `scl_get_value`. -/
def argOf (conn : InConn) (type : SclType) (p : Ret) : Option Arg :=
  match type with
  | .int => (conn.word p).map .int
  | .string => (conn.str p).map .string
  | _ => none

/-- The functions of a suvlet, by their names; `xfer_chunk` of `BWMeter`; and `deconstructor` of
    `SecurityAudit`. `none`: the function does not return; it exits, aborts, crashes or
    runs on. -/
structure Functions (σ : Type) where
  call : String → (ret : FnType) → List Arg → σ → Option (ret.Val × σ)
  xferChunk : List Byte → ℤ → Option (BitVec 64)
  deconstructor : σ → Option σ

/-- Functions that do nothing. -/
def Functions.idle : Functions σ where
  call _ ret _ os :=
    some (match ret with
      | .int => (0 : BitVec 32)
      | .doub => (0 : BitVec 64)
      | .string => (none : Option CStr)
      | .bool => (0 : Byte), os)
  xferChunk _ _ := some 0
  deconstructor os := some os

/-- A skeleton: the name it is called by, and what it does. -/
structure Skel (σ φ : Type) where
  name : String
  run : Server σ φ → Option (Server σ φ)

/-- The skeleton of a function: decode the arguments, call the function, release the
    packet, send the result. -/
def skel (fns : Functions σ) (name : String) (args : List SclType) (ret : FnType) :
    Skel σ φ where
  name := name
  run srv := do
    let (rets, conn) ← getValues srv.conn (args.map fun type => (type, false))
    let vs ← (args.zip rets).mapM fun (type, p, _) => argOf conn type p
    let (retval, os) ← fns.call name ret vs srv.os
    some ({ (srv.free conn) with os := os }.freturn [ret.queued retval])

/-! ## The suvlets -/

/-- What tells one suvlet from another: whether it serves the inline calls, whether
    `throw_error` ends it, what its `deconstructor` does to the machine, and the skeletons of
    its functions. -/
structure Receiver (σ φ : Type) where
  inlines : Bool
  throwExits : Bool
  deconstructor : σ → Option σ
  skels : List (Skel σ φ)

/-! ### `Blank` and `Snort` -/

/-- `Blank`. -/
def blank : Receiver σ φ := ⟨true, true, some, []⟩

variable (fns : Functions σ)

/-! ### `DeviceInfo` -/

/-- How a step of a suvlet ends: it returns, or the process calls `exit`. What `exit` does,
    with its handlers and the streams that are open, is not part of the step. -/
inductive Outcome (σ φ : Type) where
  | returned (srv : Server σ φ)
  | exited (srv : Server σ φ)

/-- The suvlet after the step. -/
def Outcome.server : Outcome σ φ → Server σ φ
  | .returned srv => srv
  | .exited srv => srv

/-- `scl_throw_error` (`scl_inlines.c` lines 53–61), or the `throw_error` of
    `BWMeter`. -/
def sclThrowError (R : Receiver σ φ) (srv : Server σ φ) (errNo : BitVec 32) (errText : CStr) :
    Outcome σ φ :=
  let srv := { srv with out := srv.out.send sclFerror [.int errNo, .text errText] }
  if R.throwExits then .exited srv else .returned srv

/-- The `if … else if` chain of `suva_get_request`. A function that is not known is
    not answered. -/
def dispatch (R : Receiver σ φ) (libc : Libc σ φ) (suvletVersion : BitVec 32) (funcName : CStr)
    (srv : Server σ φ) : Option (Server σ φ) :=
  if R.inlines ∧ funcName.val.take 7 = chars "inline-" then
    sclCallInlines libc suvletVersion funcName srv
  else
    match R.skels.find? fun skel => funcName.val = chars skel.name with
    | some skel => skel.run srv
    | none => some { srv with out := srv.out.setOpcode sclFerror }

/-- `suva_get_request` behind `scl_read_packet`: it acts on `in_packet_opcode` and on
    what stands at `in_pcursor`, wherever these come from. `none`: it does not return, as a
    function it calls does not or it does something undefined. -/
def actOnRequest (R : Receiver σ φ) (libc : Libc σ φ) (suvletVersion : BitVec 32)
    (srv : Server σ φ) : Option (Outcome σ φ) :=
  if srv.conn.inPacketOpcode = sclFcall then do
    let (p, _, conn) ← sclGetValue srv.conn .string true true
    let funcName ← conn.strArg p
    let srv ← dispatch R libc suvletVersion funcName { srv with conn := conn }
    some (.returned srv)
  else if srv.conn.inPacketOpcode = sclDsuvlet then do
    let os ← R.deconstructor srv.os
    some (.exited { srv with os := os })
  else some (sclThrowError R srv 1 ⟨chars "Expected: SCL_FCALL", by decide⟩)

/-- `suva_get_request` (`DeviceInfo` lines 44–96), with the events it leaves. The result of
    `scl_read_packet` is not looked at; `alloc` and `junk` are what its `mem_alloc` gives. -/
def suvaGetRequest (R : Receiver σ φ) (libc : Libc σ φ) (suvletVersion : BitVec 32) (alloc : Bool)
    (junk : Memory) (srv : Server σ φ) (evs : List ReadEvent) :
    Option (Outcome σ φ × List ReadEvent) := do
  let (_, conn, evs) ← sclReadPacket srv.conn alloc junk evs
  let outcome ← actOnRequest R libc suvletVersion { srv with conn := conn }
  some (outcome, evs)

end CompatSuva.Suvlet
