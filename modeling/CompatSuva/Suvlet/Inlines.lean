import CompatSuva.Scl.Arguments

/-!
# The inline calls a suvlet serves

Model of the remote functions of `scl_inlines.c` (lines 31–231). A suvlet is the
connection it serves, the static `scl_inline_file` and the state of the machine it
runs on; the C library is a parameter. A step that dereferences a null pointer or
uses a stream that is not open is undefined (`none`).
-/

namespace CompatSuva.Suvlet

open CompatSuva.Common CompatSuva.Scl

/-! ## Op-codes -/

/-- `SCL_DSUVLET`: destroy the suvlet. -/
def sclDsuvlet : BitVec 32 := 4

/-- `SCL_FCALL`: a function call. -/
def sclFcall : BitVec 32 := 5

/-- `SCL_FRETURN`: the return of a function. -/
def sclFreturn : BitVec 32 := 6

/-- `SCL_FERROR`: an error in place of a return. -/
def sclFerror : BitVec 32 := 7

/-- `SUVA_API_VERSION` (`suva_api.h` line 7). -/
def suvaApiVersion : BitVec 32 := 3

/-- `SD_BASE` (`suva_conf.h` line 15). -/
def sdBase : CStr := ⟨chars "/var/lib/suvlets", by decide⟩

/-! ## The C library -/

/-- The calls of the C library, on a machine with states `σ` and streams `φ`.
    `fopen` returns no stream when it fails, `stat` and `chmod` nothing and
    `false`; they may be given a null pointer for a file name. `fread f n` reads up to
    `n` bytes, `fwrite` is `fwrite(data, len, 1, f)` with whether it returns 1, and
    `fclose` is `fflush` and `fclose`. `getcwd` is what stands in the buffer after the
    call. -/
structure Libc (σ φ : Type) where
  fopen : Option CStr → CStr → σ → Option φ × σ
  strerror : σ → CStr
  fread : φ → ℕ → σ → List Byte × φ × σ
  fwrite : φ → List Byte → σ → Bool × φ × σ
  fclose : φ → σ → Bool × σ
  stat : Option CStr → σ → Option (ℤ × BitVec 32)
  chmod : Option CStr → BitVec 32 → σ → Bool × σ
  getcwd : σ → CStr
  getpid : σ → BitVec 32
  fread_le : ∀ f n os, (fread f n os).1.length ≤ n
  fwrite_nil : ∀ f os, (fwrite f [] os).1 = false

/-- A suvlet: its connection, `scl_inline_file` if that is an open stream, and the
    machine. -/
structure Server (σ φ : Type) where
  conn : InConn
  out : Outgoing
  inlineFile : Option φ
  os : σ

variable {σ φ : Type}

/-- A suvlet after `suva_init_receiver`. -/
def Server.init (os : σ) : Server σ φ := ⟨.opened, .opened, none, os⟩

/-- Write an `SCL_FRETURN` packet. -/
def Server.freturn (srv : Server σ φ) (qs : List Queued) : Server σ φ :=
  { srv with out := srv.out.send sclFreturn qs }

/-- Release the packet. -/
def Server.free (srv : Server σ φ) (conn : InConn) : Server σ φ :=
  { srv with conn := conn.freePacketMem }

/-! ## The inline calls -/

variable (libc : Libc σ φ)

/-- `scl_il_r_open_file` (lines 63–88). -/
def sclIlROpenFile (srv : Server σ φ) : Option (Server σ φ) := do
  let (rets, conn) ← getValues srv.conn [(.string, false), (.string, false)]
  match rets with
  | [(p, _), (q, _)] =>
    let fileName ← conn.str p
    let mode ← conn.strArg q
    let (file, os) := libc.fopen fileName mode srv.os
    let srv := { (srv.free conn) with inlineFile := file, os := os }
    match file with
    | some _ => some (srv.freturn [.int 0, .noText])
    | none => some (srv.freturn [.int 1, .text (libc.strerror os)])
  | _ => none

/-- `scl_il_r_close_file` (lines 90–97). `scl_inline_file` is not a stream any
    more afterwards; the packet stays. -/
def sclIlRCloseFile (srv : Server σ φ) : Option (Server σ φ) := do
  let file ← srv.inlineFile
  let (_, os) := libc.fclose file srv.os
  some ({ srv with inlineFile := none, os := os }.freturn [])

/-- `scl_il_r_put_data` (lines 99–119). -/
def sclIlRPutData (srv : Server σ φ) : Option (Server σ φ) := do
  let (rets, conn) ← getValues srv.conn [(.data, true)]
  match rets with
  | [(p, some dataLen)] =>
    let data ← conn.block p dataLen
    let file ← srv.inlineFile
    let (writeSuccess, file, os) := libc.fwrite file data srv.os
    let retVal : Byte := if writeSuccess then 0 else 1
    some ({ (srv.free conn) with inlineFile := some file, os := os }.freturn [.bool retVal])
  | _ => none

/-- `scl_il_r_get_data` (lines 121–142). -/
def sclIlRGetData (srv : Server σ φ) : Option (Server σ φ) := do
  let (rets, conn) ← getValues srv.conn [(.int, false)]
  match rets with
  | [(p, _)] =>
    let dataLen ← conn.word p
    if dataLen.toInt < 0 then none
    else
      let file ← srv.inlineFile
      let (bytes, file, os) := libc.fread file dataLen.toNat srv.os
      some ({ (srv.free conn) with inlineFile := some file, os := os }.freturn
        [if bytes.length ≠ 0 then .data bytes else .noData])
  | _ => none

/-- `scl_il_r_get_fsize_mode` (lines 145–169). -/
def sclIlRGetFsizeMode (srv : Server σ φ) : Option (Server σ φ) := do
  let (rets, conn) ← getValues srv.conn [(.string, false)]
  match rets with
  | [(p, _)] =>
    let fileName ← conn.str p
    match libc.stat fileName srv.os with
    | none => some ((srv.free conn).freturn [.int (-1), .int (-1)])
    | some (size, mode) =>
      some ((srv.free conn).freturn [.int (BitVec.ofInt 32 size), .int (mode &&& 0xfff)])
  | _ => none

/-- `scl_il_r_set_fmode` (lines 171–186). -/
def sclIlRSetFmode (srv : Server σ φ) : Option (Server σ φ) := do
  let (rets, conn) ← getValues srv.conn [(.string, false), (.int, false)]
  match rets with
  | [(p, _), (q, _)] =>
    let fileMode ← conn.word q
    let fileName ← conn.str p
    let (ok, os) := libc.chmod fileName fileMode srv.os
    let retVal : BitVec 32 := if ok then 1 else 0
    some ({ (srv.free conn) with os := os }.freturn [.intAsBool retVal])
  | _ => none

/-- `scl_il_r_get_info` (lines 190–231). An unknown variable is not answered. -/
def sclIlRGetInfo (suvletVersion : BitVec 32) (srv : Server σ φ) : Option (Server σ φ) := do
  let (rets, conn) ← getValues srv.conn [(.string, false)]
  match rets with
  | [(p, _)] =>
    let var ← conn.strArg p
    let srv := srv.free conn
    if var.val = chars "suvlet_version" then some (srv.freturn [.int suvletVersion])
    else if var.val = chars "api_version" then some (srv.freturn [.int suvaApiVersion])
    else if var.val = chars "cwd" then some (srv.freturn [.text (libc.getcwd srv.os)])
    else if var.val = chars "suva_base" then some (srv.freturn [.text sdBase])
    else if var.val = chars "pid" then some (srv.freturn [.int (libc.getpid srv.os)])
    else some { srv with out := srv.out.setOpcode sclFreturn }
  | _ => none

/-- `scl_call_inlines` (lines 35–51). An unknown name is not answered. -/
def sclCallInlines (suvletVersion : BitVec 32) (funcName : CStr) (srv : Server σ φ) :
    Option (Server σ φ) :=
  if funcName.val = chars "inline-open_file" then sclIlROpenFile libc srv
  else if funcName.val = chars "inline-close_file" then sclIlRCloseFile libc srv
  else if funcName.val = chars "inline-get_data" then sclIlRGetData libc srv
  else if funcName.val = chars "inline-put_data" then sclIlRPutData libc srv
  else if funcName.val = chars "inline-get_info" then sclIlRGetInfo libc suvletVersion srv
  else if funcName.val = chars "inline-get_fsize_mode" then sclIlRGetFsizeMode libc srv
  else if funcName.val = chars "inline-set_fmode" then sclIlRSetFmode libc srv
  else some srv

end CompatSuva.Suvlet
