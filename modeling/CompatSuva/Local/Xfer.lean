import CompatSuva.Local.Session
import CompatSuva.Local.UnexpectedReturn

/-!
# File transfers

Model of the local functions of `scl_inlines.c` (lines 238–646). `scl_il_xfer_ex` is
cut into its calls: each is a definition of its own, and returns how the transfer
ends there, if it does. The loop has no bound in the source; here it stops when the
fuel does. The progress callback is NULL, as `scl_il_xfer` has it; `Steps.lean` has the transfer
with one, and `Adapters.lean` says that the two models agree.
-/

namespace CompatSuva.Local

open CompatSuva.Common CompatSuva.Scl CompatSuva.Suvlet

variable {σ φ τ ψ : Type} (P : Parties σ φ τ ψ)

/-! ## Names -/

namespace Inline

/-- The names of the inline calls. -/
def openFile : CStr := ⟨chars "inline-open_file", by decide⟩

@[inherit_doc openFile]
def closeFile : CStr := ⟨chars "inline-close_file", by decide⟩

@[inherit_doc openFile]
def getData : CStr := ⟨chars "inline-get_data", by decide⟩

@[inherit_doc openFile]
def putData : CStr := ⟨chars "inline-put_data", by decide⟩

@[inherit_doc openFile]
def getInfo : CStr := ⟨chars "inline-get_info", by decide⟩

@[inherit_doc openFile]
def getFsizeMode : CStr := ⟨chars "inline-get_fsize_mode", by decide⟩

@[inherit_doc openFile]
def setFmode : CStr := ⟨chars "inline-set_fmode", by decide⟩

end Inline

/-! ## `inline-get_info` -/

/-- A variable of `inline-get_info` that is an `int` (lines 242–251, 304–313,
    320–329). -/
def getInfoInt (var : CStr) (cl : Client σ φ τ) : Option (BitVec 32 × Client σ φ τ) := do
  let cl ← cl.call P [.text Inline.getInfo, .text var]
  let (p, _, cl) ← cl.getValue .int false
  let retval ← cl.conn.word p
  some (retval, cl.freePacketMem)

/-- A variable of `inline-get_info` that is a string (lines 260–266, 283–289), before it is
    copied for the caller. -/
def getInfoText (var : CStr) (cl : Client σ φ τ) : Option (Option CStr × Client σ φ τ) := do
  let cl ← cl.call P [.text Inline.getInfo, .text var]
  let (p, _, cl) ← cl.getValue .string false
  let dir ← cl.conn.str p
  some (dir, cl.freePacketMem)

/-- `scl_il_get_suvlet_version`. -/
def sclIlGetSuvletVersion : Client σ φ τ → Option (BitVec 32 × Client σ φ τ) :=
  getInfoInt P ⟨chars "suvlet_version", by decide⟩

/-- `scl_il_get_pid`. -/
def sclIlGetPid : Client σ φ τ → Option (BitVec 32 × Client σ φ τ) :=
  getInfoInt P ⟨chars "pid", by decide⟩

/-- `scl_il_get_api_version`. -/
def sclIlGetApiVersion : Client σ φ τ → Option (BitVec 32 × Client σ φ τ) :=
  getInfoInt P ⟨chars "api_version", by decide⟩

/-! ## `scl_il_xfer_ex`, call by call -/

/-- The arguments of `scl_il_xfer_exit`. -/
structure Exit where
  code : ℕ
  printErrno : Bool
  killLocalFile : Bool
  killRemoteFile : Bool
  deriving DecidableEq, Repr

/-- `scl_il_xfer_exit` behind `inline-close_file`, or in its place: the packet of the
    reply is released unread. -/
def closeRemote (cl : Client σ φ τ) : Option (Client σ φ τ) :=
  (cl.call P [.text Inline.closeFile]).map Client.freePacketMem

/-- `scl_il_xfer_exit` (lines 616–646). -/
def sclIlXferExit (e : Exit) (fileHandle : Option ψ) (cl : Client σ φ τ) :
    Option (ℕ × Client σ φ τ) := do
  let cl := cl.freePacketMem
  let cl ← if e.killRemoteFile then closeRemote P cl else some cl
  let os :=
    match e.killLocalFile, fileHandle with
    | true, some f => (P.here.fclose f cl.os).2
    | _, _ => cl.os
  some (e.code, { cl with os := os })

/-- Size and mode of the remote file (lines 400–411). -/
def getFsizeMode (remoteName : Option CStr) (cl : Client σ φ τ) :
    Option (BitVec 32 × BitVec 32 × Client σ φ τ) := do
  let cl ← cl.call P [.text Inline.getFsizeMode, .textOrNull remoteName]
  let (p, _, cl) ← cl.getValue .int false
  let bytesTotal ← cl.conn.word p
  let (q, _, cl) ← cl.getValue .int false
  let remoteMode ← cl.conn.word q
  some (if bytesTotal = -1 then 0 else bytesTotal, remoteMode, cl.freePacketMem)

/-- `suva_unexpected_return`, for a client. -/
def unexpectedReturn (cl : Client σ φ τ) : Option (Client σ φ τ) := do
  let (_, conn, inbox) ←
    suvaUnexpectedReturn cl.conn true (P.wire.junk (2 * cl.calls.length + 1)) cl.inbox
  some { cl with conn := conn, inbox := inbox }

/-- Open the remote file (lines 434–459). -/
def openRemote (remoteName : Option CStr) (mode : CStr) (cl : Client σ φ τ) :
    Option (Option Exit × Client σ φ τ) := do
  let cl ← cl.call P [.text Inline.openFile, .textOrNull remoteName, .text mode]
  if cl.conn.inPacketOpcode ≠ sclFreturn then do
    let cl ← unexpectedReturn P cl
    some (some ⟨3, true, true, false⟩, cl)
  else do
    let (p, _, cl) ← cl.getValue .int false
    let word ← cl.conn.word p
    -- `return_code` is a `char`
    let returnCode : Byte := UInt8.ofNat word.toNat
    if returnCode = 0 then some (none, cl.freePacketMem)
    else do
      let (q, _, cl) ← cl.getValue .string false
      let _ ← cl.conn.str q
      some (some ⟨4, false, true, false⟩, cl.freePacketMem)

/-- Send a block (lines 487–502). -/
def putBlock (data : List Byte) (cl : Client σ φ τ) : Option (Option Exit × Client σ φ τ) := do
  let cl ← cl.call P [.text Inline.putData, .data data]
  if cl.conn.inPacketOpcode ≠ sclFreturn then do
    let cl ← unexpectedReturn P cl
    some (some ⟨4, false, true, true⟩, cl)
  else do
    let (p, _, cl) ← cl.getValue .bool false
    let retVal ← cl.conn.char p
    let cl := cl.freePacketMem
    some (if retVal ≠ 0 then some ⟨6, false, true, true⟩ else none, cl)

/-- Ask for a block (lines 508–522): how the transfer ends, or the length and the bytes of
    the block, in the packet. -/
def fetchBlock (blockSize : BitVec 32) (cl : Client σ φ τ) :
    Option (Except Exit (ℤ × List Byte) × Client σ φ τ) := do
  let cl ← cl.call P [.text Inline.getData, .int blockSize]
  if cl.conn.inPacketOpcode ≠ sclFreturn then do
    let cl ← unexpectedReturn P cl
    some (.error ⟨4, false, true, true⟩, cl)
  else do
    let (p, len, cl) ← cl.getValue .data true
    if p = .null then some (.error ⟨5, false, true, true⟩, cl)
    else
      let dataLen ← len
      let data ← cl.conn.block p dataLen
      some (.ok (dataLen, data), cl)

/-- Ask for a block and write it to the local file (lines 508–529): how the transfer
    ends, or the length of the block. -/
def getBlock (blockSize : BitVec 32) (f : ψ) (cl : Client σ φ τ) :
    Option (Except Exit ℤ × ψ × Client σ φ τ) := do
  let (result, cl) ← fetchBlock P blockSize cl
  match result with
  | .error e => some (.error e, f, cl)
  | .ok (dataLen, data) =>
    let (ok, f, os) := P.here.fwrite f data cl.os
    let cl := { cl with os := os }
    if ok then some (.ok dataLen, f, cl.freePacketMem)
    else some (.error ⟨7, true, true, true⟩, f, cl)

/-- Set the mode of the remote file (lines 597–608). -/
def setRemoteMode (remoteName : Option CStr) (localMode : BitVec 32) (cl : Client σ φ τ) :
    Option (BitVec 32 × Client σ φ τ) := do
  let cl ← cl.call P [.text Inline.setFmode, .textOrNull remoteName, .int localMode]
  let (p, _, cl) ← cl.getValue .int false
  let retVal ← cl.conn.word p
  some (retVal, cl.freePacketMem)

/-! ## `scl_il_xfer_ex` -/

/-- The number of blocks of `n` bytes. -/
def blockCount (blockSize n : ℕ) : ℕ := (n + blockSize - 1) / blockSize

theorem blockCount_zero {blockSize : ℕ} (hpos : 0 < blockSize) : blockCount blockSize 0 = 0 := by
  rw [blockCount]
  exact Nat.div_eq_of_lt (by omega)

/-- One block more. -/
theorem blockCount_eq {blockSize n : ℕ} (hpos : 0 < blockSize) (hn : 0 < n) :
    blockCount blockSize n = blockCount blockSize (n - blockSize) + 1 := by
  rcases Nat.le_total n blockSize with hle | hge
  · rw [blockCount, blockCount, Nat.sub_eq_zero_of_le hle,
      show n + blockSize - 1 = n - 1 + blockSize by omega, Nat.add_div_right _ hpos,
      Nat.div_eq_of_lt (by omega), Nat.div_eq_of_lt (by omega)]
  · have hsplit : n + blockSize - 1 = n - blockSize + blockSize - 1 + blockSize := by omega
    rw [blockCount, blockCount, hsplit, Nat.add_div_right _ hpos]

/-- `SCL_IL_XFER_GET` and `SCL_IL_XFER_PUT`. -/
inductive Direction where
  | get | put
  deriving DecidableEq, Repr

/-- The loop (lines 468–585) of a PUT. -/
def putLoop (blockSize : BitVec 32) : ℕ → ψ → Client σ φ τ → Option (Option Exit × ψ × Client σ φ τ)
  | 0, _, _ => none
  | fuel + 1, f, cl =>
    if blockSize.toInt < 0 then none
    else
      let (data, f, os) := P.here.fread f blockSize.toNat cl.os
      let cl := { cl with os := os }
      if data.length = 0 then some (none, f, cl)
      else do
        let (exit, cl) ← putBlock P data cl
        match exit with
        | some e => some (some e, f, cl)
        | none => putLoop blockSize fuel f cl

/-- The loop (lines 468–585) of a GET. -/
def getLoop (blockSize : BitVec 32) : ℕ → ψ → Client σ φ τ → Option (Option Exit × ψ × Client σ φ τ)
  | 0, _, _ => none
  | fuel + 1, f, cl => do
    let (result, f, cl) ← getBlock P blockSize f cl
    match result with
    | .error e => some (some e, f, cl)
    | .ok dataLen =>
      if dataLen ≠ blockSize.toInt then some (none, f, cl)
      else getLoop blockSize fuel f cl

/-- Behind the loop of a GET (lines 587–592 and 613). -/
def getEnd (localName : Option CStr) (remoteMode : BitVec 32) (exit : Option Exit) (f : ψ)
    (cl : Client σ φ τ) : Option (ℕ × Client σ φ τ) :=
  match exit with
  | some e => sclIlXferExit P e (some f) cl
  | none =>
    let os := if remoteMode ≠ -1 then (P.here.chmod localName remoteMode cl.os).2 else cl.os
    sclIlXferExit P ⟨0, false, true, true⟩ (some f) { cl with os := os }

/-- A GET, from the open local file on. -/
def xferGet (fuel : ℕ) (localName remoteName : Option CStr) (blockSize : BitVec 32)
    (apiVers : BitVec 32) (f : ψ) (cl : Client σ φ τ) : Option (ℕ × Client σ φ τ) := do
  let (_, remoteMode, cl) ←
    if 3 ≤ apiVers.toInt then getFsizeMode P remoteName cl else some (0, -1, cl)
  let (exit, cl) ← openRemote P remoteName ⟨chars "r", by decide⟩ cl
  match exit with
  | some e => sclIlXferExit P e (some f) cl
  | none =>
    let (exit, f, cl) ← getLoop P blockSize fuel f cl
    getEnd P localName remoteMode exit f cl

/-- Behind the loop of a PUT (lines 593–613). -/
def putEnd (remoteName : Option CStr) (localMode apiVers : BitVec 32) (exit : Option Exit) (f : ψ)
    (cl : Client σ φ τ) : Option (ℕ × Client σ φ τ) :=
  match exit with
  | some e => sclIlXferExit P e (some f) cl
  | none => do
    let cl ← if 3 ≤ apiVers.toInt then (setRemoteMode P remoteName localMode cl).map Prod.snd
      else some cl
    sclIlXferExit P ⟨0, false, true, true⟩ (some f) cl

/-- A PUT, from the open local file on. -/
def xferPut (fuel : ℕ) (localName remoteName : Option CStr) (blockSize : BitVec 32)
    (apiVers : BitVec 32) (f : ψ) (cl : Client σ φ τ) : Option (ℕ × Client σ φ τ) :=
  match P.here.stat localName cl.os with
  | none => sclIlXferExit P ⟨2, false, true, false⟩ (some f) cl
  | some (_, localMode) => do
    let (exit, cl) ← openRemote P remoteName ⟨chars "w", by decide⟩ cl
    match exit with
    | some e => sclIlXferExit P e (some f) cl
    | none =>
      let (exit, f, cl) ← putLoop P blockSize fuel f cl
      putEnd P remoteName localMode apiVers exit f cl

/-- `scl_il_xfer_ex` (lines 341–614). -/
def sclIlXferEx (fuel : ℕ) (localName remoteName : Option CStr) (direction : Direction)
    (blockSize : BitVec 32) (cl : Client σ φ τ) : Option (ℕ × Client σ φ τ) := do
  let (apiVers, cl) ← sclIlGetApiVersion P cl
  let mode : CStr :=
    match direction with
    | .get => ⟨chars "w", by decide⟩
    | .put => ⟨chars "r", by decide⟩
  let (fileHandle, os) := P.here.fopen localName mode cl.os
  let cl := { cl with os := os }
  match fileHandle with
  | none => sclIlXferExit P ⟨1, false, false, false⟩ none cl
  | some f =>
    match direction with
    | .get => xferGet P fuel localName remoteName blockSize apiVers f cl
    | .put => xferPut P fuel localName remoteName blockSize apiVers f cl

end CompatSuva.Local
