import CompatSuva.Common.Triple
import CompatSuva.Local.Progress
import CompatSuva.Local.Xfer

/-!
# File transfers, by the outcomes of their steps

Model of `scl_il_xfer_ex` (`scl_inlines.c` lines 341–646) with its progress callback, for whatever
its steps meet: the outcome of every call it makes (of the C library, of the suvlet, of the
callback) is that of a parameter, which may depend on all that went before. What the transfer
acquires and releases, the inline calls it makes and the divisors of its callback code are
logged. An early return halts the transfer with the arguments of `scl_il_xfer_exit`.
-/

namespace CompatSuva.Local

open CompatSuva.Common

/-! ## The steps -/

/-- A call: its outcome and what it leaves behind, `none` where it is undefined. -/
abbrev Step (ω α : Type) := ω → Option (α × ω)

/-- The reply to `inline-open_file`: not an `SCL_FRETURN`, or the code it returns. -/
inductive OpenReply where
  | unexpected
  | freturn (code : BitVec 32)
  deriving DecidableEq, Repr

/-- The reply to `inline-put_data`. -/
inductive PutReply where
  | unexpected
  | freturn (retVal : Byte)
  deriving DecidableEq, Repr

/-- The reply to `inline-get_data`: what it returns is NULL, or a block of some length. -/
inductive GetReply where
  | unexpected
  | freturn (dataLen : Option ℤ)
  deriving DecidableEq, Repr

/-- The calls of `scl_il_xfer_ex`, in a world with states `ω`. `getFsizeMode` gives size and mode,
    `stat` nothing when it fails, `gettimeofday` seconds and microseconds, `fread` the number of
    bytes; the callback may be NULL, and its result is whether it returns something else than 0.
    `bps` is what the rate comes to, from bytes and milliseconds. -/
structure Steps (ω : Type) where
  malloc : Step ω Bool
  getApiVersion : Step ω ℤ
  fopen : Step ω Bool
  getFsizeMode : Step ω (ℤ × BitVec 32)
  stat : Step ω (Option (ℤ × BitVec 32))
  openFile : Step ω OpenReply
  gettimeofday : Step ω (Option (ℤ × ℤ))
  fread : Step ω ℕ
  putData : ℕ → Step ω PutReply
  getData : Step ω GetReply
  fwrite : ℤ → Step ω Bool
  freePacketMem : Step ω Unit
  bps : ℤ → ℤ → ℤ
  callback : Option (CopyProgress → Step ω Bool)
  chmod : BitVec 32 → Step ω Unit
  setFmode : BitVec 32 → Step ω Unit
  closeFile : Step ω Unit
  fclose : Step ω Unit

/-- The inline calls. -/
inductive InlineName where
  | getInfo | getFsizeMode | openFile | putData | getData | setFmode | closeFile
  deriving DecidableEq, Repr

/-- `data`: NULL, the buffer of a PUT, or a pointer into a packet. -/
inductive Data where
  | null | buffer | packet
  deriving DecidableEq, Repr

/-- What is logged of a transfer. `remoteOpened` is a reply to `inline-open_file` that reports
    success. -/
inductive Event where
  | malloc (ok : Bool)
  | free (data : Data)
  | fopen (ok : Bool)
  | fclose
  | inline (call : InlineName)
  | remoteOpened
  | divisor (d : Divisor) (value : ℤ)
  deriving DecidableEq, Repr

/-- A transfer: the world, the log, and the variables `data` and `file_handle`. -/
structure Xfer (ω : Type) where
  world : ω
  log : List Event
  data : Data
  fileHandle : Bool

/-- How a transfer halts before its end: it returns, or it is undefined. -/
inductive Halt where
  | exit (e : Exit)
  | fault (f : Fault)
  deriving DecidableEq, Repr

variable {ω α : Type}

/-- The transfer as it is called. -/
def Xfer.start (world : ω) : Xfer ω := ⟨world, [], .null, false⟩

/-- Log an event. -/
def note (e : Event) : Halting Halt (Xfer ω) Unit :=
  modify fun s => { s with log := s.log ++ [e] }

/-- Make a call. -/
def ask (step : Step ω α) : Halting Halt (Xfer ω) α := do
  let s ← get
  match step s.world with
  | none => throw (.fault .undefined)
  | some (a, world) =>
    set { s with world := world }
    return a

/-- `data = …`. -/
def setData (data : Data) : Halting Halt (Xfer ω) Unit := modify fun s => { s with data := data }

/-- `return scl_il_xfer_exitm(…)`. -/
def exitm (code : ℕ) (printErrno killLocalFile killRemoteFile : Bool) :
    Halting Halt (Xfer ω) α :=
  throw (.exit ⟨code, printErrno, killLocalFile, killRemoteFile⟩)

/-- A computation of the transfer. -/
def compute (r : Except Fault α) : Halting Halt (Xfer ω) α :=
  match r with
  | .ok a => return a
  | .error f => throw (.fault f)

/-! ## Running the steps -/

section

variable {β : Type} (s : Xfer ω)

@[simp] theorem runOn_pure (a : α) :
    (pure a : Halting Halt (Xfer ω) α).runOn s = (.ok a, s) := rfl

@[simp] theorem runOn_throw (h : Halt) :
    (throw h : Halting Halt (Xfer ω) α).runOn s = (.error h, s) := rfl

@[simp] theorem runOn_exitm (code : ℕ) (printErrno file remote : Bool) :
    (exitm code printErrno file remote : Halting Halt (Xfer ω) α).runOn s =
      (.error (.exit ⟨code, printErrno, file, remote⟩), s) := rfl

@[simp] theorem runOn_note (e : Event) :
    (note e : Halting Halt (Xfer ω) Unit).runOn s = (.ok (), { s with log := s.log ++ [e] }) := rfl

@[simp] theorem runOn_setData (data : Data) :
    (setData data : Halting Halt (Xfer ω) Unit).runOn s = (.ok (), { s with data := data }) := rfl

@[simp] theorem runOn_modify (f : Xfer ω → Xfer ω) :
    (modify f : Halting Halt (Xfer ω) Unit).runOn s = (.ok (), f s) := rfl

@[simp] theorem runOn_get : (get : Halting Halt (Xfer ω) (Xfer ω)).runOn s = (.ok s, s) := rfl

@[simp] theorem runOn_compute_ok (a : α) :
    (compute (.ok a) : Halting Halt (Xfer ω) α).runOn s = (.ok a, s) := rfl

@[simp] theorem runOn_compute_error (f : Fault) :
    (compute (.error f) : Halting Halt (Xfer ω) α).runOn s = (.error (.fault f), s) := rfl

theorem runOn_ask {step : Step ω α} {a : α} {world : ω} (h : step s.world = some (a, world)) :
    (ask step).runOn s = (.ok a, { s with world := world }) := by
  simp only [ask, Halting.runOn_bind, runOn_get, h]
  rfl

theorem runOn_ask_none {step : Step ω α} (h : step s.world = none) :
    (ask step).runOn s = (.error (.fault .undefined), s) := by
  simp only [ask, Halting.runOn_bind, runOn_get, h]
  rfl

end

namespace Steps

variable (S : Steps ω)

/-! ## Up to the loop -/

/-- The buffer, the version and the local file (lines 374–394). -/
def openLocal (direction : Direction) : Halting Halt (Xfer ω) ℤ := do
  onlyIf (direction = .put) do
    let ok ← ask S.malloc
    note (.malloc ok)
    setData (if ok then .buffer else .null)
  note (.inline .getInfo)
  let apiVers ← ask S.getApiVersion
  let ok ← ask S.fopen
  note (.fopen ok)
  modify fun s => { s with fileHandle := ok }
  if ok then return apiVers else exitm 1 false false false

/-- `bytes_total`, and `remote_mode` or `local_mode` (lines 397–432). -/
def getSizes (direction : Direction) (apiVers : ℤ) : Halting Halt (Xfer ω) (ℤ × BitVec 32) :=
  match direction with
  | .get =>
    if 3 ≤ apiVers then do
      note (.inline .getFsizeMode)
      let (bytesTotal, remoteMode) ← ask S.getFsizeMode
      return (if bytesTotal = -1 then 0 else bytesTotal, remoteMode)
    else return (0, -1)
  | .put => do
    match ← ask S.stat with
    | none => exitm 2 false true false
    | some (size, localMode) => return (wrap32 size, localMode)

/-- Open the remote file (lines 434–460). -/
def openRemote : Halting Halt (Xfer ω) Unit := do
  note (.inline .openFile)
  match ← ask S.openFile with
  | .unexpected => exitm 3 true true false
  | .freturn code =>
    -- `return_code` is a `char`
    if code.setWidth 8 = 0 then note .remoteOpened
    else exitm 4 false true false

/-- The timing offsets (lines 462–466), `int`s. -/
def startClock : Halting Halt (Xfer ω) (ℤ × ℤ) := do
  match ← ask S.gettimeofday with
  | none => exitm 10 true true true
  | some (sec, usec) => return (wrap32 sec, wrap32 usec)

/-! ## The loop -/

/-- The variables of the loop: `bytes_transfered`, `interval_count`, and those of the callback
    code. -/
structure Loop where
  bytesTransfered : ℤ
  intervalCount : ℤ
  progress : Progress

/-- Send what `fread` has read (lines 485–505): `bytes_transfered` and the length of the block. -/
def sendBlock (bytesTransfered : ℤ) (dataLen : ℕ) :
    Halting Halt (Xfer ω) (Option (ℤ × ℤ)) := do
  note (.inline .putData)
  match ← ask (S.putData dataLen) with
  | .unexpected => exitm 4 false true true
  | .freturn retVal =>
    if retVal ≠ 0 then exitm 6 false true true
    else return some (wrap32 (bytesTransfered + dataLen), (dataLen : ℤ))

/-- The PUT of a block (lines 475–505), or nothing at the end of the local file. Into a NULL
    pointer, nothing can be read. -/
def putBlock (blockSize bytesTransfered : ℤ) : Halting Halt (Xfer ω) (Option (ℤ × ℤ)) := do
  let s ← get
  onlyIf (s.data = .null ∧ blockSize ≠ 0) (throw (.fault .undefined))
  let dataLen ← ask S.fread
  if dataLen = 0 then return none
  else S.sendBlock bytesTransfered dataLen

/-- The GET of a block (lines 508–529). -/
def getBlock (bytesTransfered : ℤ) : Halting Halt (Xfer ω) (Option (ℤ × ℤ)) := do
  note (.inline .getData)
  match ← ask S.getData with
  | .unexpected => exitm 4 false true true
  | .freturn none =>
    setData .null
    exitm 5 false true true
  | .freturn (some dataLen) =>
    setData .packet
    if ← ask (S.fwrite dataLen) then
      ask S.freePacketMem
      return some (wrap32 (bytesTransfered + dataLen), dataLen)
    else exitm 7 true true true

/-- A division, which is logged. -/
def noteDivide (x y : ℤ) (d : Divisor) : Halting Halt (Xfer ω) ℤ := do
  note (.divisor d y)
  compute (divide x y d)

/-- The computations for a callback, and the callback itself (lines 548–574). -/
def report (callback : CopyProgress → Step ω Bool) (bytesTotal : ℤ) (s : Sample) (p : Progress) :
    Halting Halt (Xfer ω) Progress := do
  note (.divisor .msec (wrap32 (s.msec - p.last.msec)))
  let p := p.push (rate S.bps p.last s) s
  let t := runningTotal p.bpsAvgs
  let avgBps ← noteDivide t.1 t.2 .avgs
  let eta ← noteDivide (wrap32 (bytesTotal - s.bytes)) avgBps .avgBps
  if ← ask (callback ⟨bytesTotal, s.bytes, s.msec, avgBps, eta⟩) then exitm 8 true true true
  else return p

/-- One callback (lines 541–576). -/
def makeCallback (callback : CopyProgress → Step ω Bool) (start : ℤ × ℤ) (bytesTotal bytes : ℤ)
    (p : Progress) : Halting Halt (Xfer ω) Progress := do
  match ← ask S.gettimeofday with
  | none => exitm 10 true true true
  | some now => S.report callback bytesTotal ⟨bytes, curMsec start now⟩ p

/-- The callback code (lines 532–579). -/
def countInterval (callbackInterval : ℤ) (start : ℤ × ℤ) (bytesTotal : ℤ) (v : Loop) :
    Halting Halt (Xfer ω) Loop := do
  let count := wrap32 (v.intervalCount - 1)
  if count = 0 then
    match S.callback with
    | none => return { v with intervalCount := callbackInterval }
    | some callback =>
      let p ← S.makeCallback callback start bytesTotal v.bytesTransfered v.progress
      return ⟨v.bytesTransfered, callbackInterval, p⟩
  else return { v with intervalCount := count }

/-- The block of a round. -/
def block (direction : Direction) (blockSize bytesTransfered : ℤ) :
    Halting Halt (Xfer ω) (Option (ℤ × ℤ)) :=
  match direction with
  | .put => S.putBlock blockSize bytesTransfered
  | .get => S.getBlock bytesTransfered

/-- The loop (lines 469–585). -/
def loop (direction : Direction) (blockSize callbackInterval : ℤ) (start : ℤ × ℤ)
    (bytesTotal : ℤ) : ℕ → Loop → Halting Halt (Xfer ω) Unit
  | 0, _ => throw (.fault .running)
  | fuel + 1, v => do
    match ← S.block direction blockSize v.bytesTransfered with
    | none => return
    | some (bytes, dataLen) =>
      let v ← S.countInterval callbackInterval start bytesTotal { v with bytesTransfered := bytes }
      if direction = .get ∧ dataLen ≠ blockSize then return
      else loop direction blockSize callbackInterval start bytesTotal fuel v

/-! ## The whole -/

/-- The mode of the target file (lines 588–610). -/
def setMode (direction : Direction) (apiVers : ℤ) (mode : BitVec 32) :
    Halting Halt (Xfer ω) Unit :=
  match direction with
  | .get => if mode ≠ -1 then ask (S.chmod mode) else return
  | .put =>
    if 3 ≤ apiVers then do
      note (.inline .setFmode)
      ask (S.setFmode mode)
    else return

/-- `scl_il_xfer_ex` up to its last line. -/
def body (fuel : ℕ) (direction : Direction) (blockSize callbackInterval : ℤ) :
    Halting Halt (Xfer ω) Unit := do
  let apiVers ← S.openLocal direction
  let (bytesTotal, mode) ← S.getSizes direction apiVers
  S.openRemote
  let start ← S.startClock
  S.loop direction blockSize callbackInterval start bytesTotal fuel ⟨0, callbackInterval, .start⟩
  S.setMode direction apiVers mode

/-- `scl_il_xfer_exit` (lines 616–646). -/
def sclIlXferExit (direction : Direction) (e : Exit) : Halting Halt (Xfer ω) ℕ := do
  let s ← get
  onlyIf (s.data ≠ .null ∧ direction = .put) (note (.free s.data))
  ask S.freePacketMem
  onlyIf e.killRemoteFile do
    note (.inline .closeFile)
    ask S.closeFile
  onlyIf (e.killLocalFile ∧ s.fileHandle) do
    note .fclose
    ask S.fclose
  return e.code

/-- `scl_il_xfer_ex`. -/
def sclIlXferEx (fuel : ℕ) (direction : Direction) (blockSize callbackInterval : ℤ) :
    Halting Halt (Xfer ω) ℕ := fun s =>
  match (S.body fuel direction blockSize callbackInterval).runOn s with
  | (.ok (), s') => (S.sclIlXferExit direction ⟨0, false, true, true⟩).runOn s'
  | (.error (.exit e), s') => (S.sclIlXferExit direction e).runOn s'
  | (.error (.fault f), s') => (.error (.fault f), s')

/-- A transfer ends as its exit does, whichever way its body comes to it. -/
theorem sclIlXferEx_triple {fuel : ℕ} {direction : Direction} {blockSize callbackInterval : ℤ}
    {P G : Xfer ω → Prop} {Q : ℕ → Xfer ω → Prop} {B E : Halt → Xfer ω → Prop}
    (hbody : Triple P (S.body fuel direction blockSize callbackInterval) (fun _ => G) B)
    (hdone : Triple G (S.sclIlXferExit direction ⟨0, false, true, true⟩) Q E)
    (hexit : ∀ e, Triple (B (.exit e)) (S.sclIlXferExit direction e) Q E)
    (hfault : ∀ f s, B (.fault f) s → E (.fault f) s) :
    Triple P (S.sclIlXferEx fuel direction blockSize callbackInterval) Q E := by
  intro s hs
  have hends := hbody s hs
  unfold Halting.runOn Steps.sclIlXferEx
  cases hrun : (S.body fuel direction blockSize callbackInterval).runOn s with
  | mk r s' =>
    rw [hrun] at hends
    cases r with
    | ok u => exact hdone s' hends
    | error halt =>
      cases halt with
      | exit e => exact hexit e s' hends
      | fault f => exact hfault f s' hends

end Steps

/-! ## A world in which nothing fails -/

/-- The bytes left in the file that is copied, and the readings of the clock to come. -/
structure Copying where
  left : ℕ
  clock : List (ℤ × ℤ)

/-- Blocks of `blockSize` bytes are copied, and no call fails while the clock can be read. -/
def copying (bps : ℤ → ℤ → ℤ) (blockSize : ℕ) : Steps Copying where
  malloc w := some (true, w)
  getApiVersion w := some (3, w)
  fopen w := some (true, w)
  getFsizeMode w := some ((wrap32 w.left, 420), w)
  stat w := some (some (w.left, 420), w)
  openFile w := some (.freturn 0, w)
  gettimeofday w := some (w.clock.head?, { w with clock := w.clock.tail })
  fread w := some (min blockSize w.left, { w with left := w.left - blockSize })
  putData _ w := some (.freturn 0, w)
  getData w :=
    some (.freturn (some (min blockSize w.left : ℕ)), { w with left := w.left - blockSize })
  fwrite n w := some (n ≠ 0, w)
  freePacketMem w := some ((), w)
  bps := bps
  callback := some fun _ w => some (false, w)
  chmod _ w := some ((), w)
  setFmode _ w := some ((), w)
  closeFile w := some ((), w)
  fclose w := some ((), w)

end CompatSuva.Local
