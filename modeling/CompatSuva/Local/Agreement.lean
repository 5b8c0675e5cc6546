import CompatSuva.Local.Calls

/-!
# Replies and what the client makes of them

The layout of every inline call is written twice, in its handler and in its caller.
They agree for all calls but `inline-set_fmode`, whose `SCL_BOOL` is read as an
`SCL_INT`.

* `inlineCall_agrees`: on any machines, with any outcome of the remote operation, the
  types the client decodes are types of the reply in order, it stays in the reply, and
  it takes a failure for one;
* `inlineCall_disagrees`: `inline-set_fmode` and `inline-close_file`.
-/

namespace CompatSuva.Local

open CompatSuva.Common CompatSuva.Scl CompatSuva.Suvlet

variable {σ φ τ ψ : Type} (P : Parties σ φ τ ψ)

/-- The variables of `inline-get_info` a client asks for. -/
inductive InfoVar where
  | suvletVersion | apiVersion | cwd | suvaBase | pid
  deriving DecidableEq, Repr

/-- The inline calls of a client. -/
inductive InlineCall where
  | openFile (name : Option CStr) (direction : Direction)
  | closeFile
  | getData (blockSize : BitVec 32)
  | putData (data : List Byte)
  | getInfo (var : InfoVar)
  | getFsizeMode (name : Option CStr)
  | setFmode (name : Option CStr) (mode : BitVec 32)

theorem chars_r : (0 : Byte) ∉ chars "r" := by decide

theorem chars_w : (0 : Byte) ∉ chars "w" := by decide

/-- The mode the remote file is opened with. -/
def remoteMode : Direction → CStr
  | .get => ⟨chars "r", chars_r⟩
  | .put => ⟨chars "w", chars_w⟩

theorem chars_cwd : (0 : Byte) ∉ chars "cwd" := by decide

theorem chars_suvaBase : (0 : Byte) ∉ chars "suva_base" := by decide

namespace InlineCall

/-- The call, as the client makes it, and whether the client takes it for failed. A
    block is written to the local file `f`. -/
def run (f : ψ) (cl : Client σ φ τ) : InlineCall → Option (Bool × Client σ φ τ)
  | openFile name direction =>
    (openRemote P name (remoteMode direction) cl).map fun r => (r.1.isSome, r.2)
  | closeFile => (closeRemote P cl).map fun cl => (false, cl)
  | getData blockSize =>
    (getBlock P blockSize f cl).map fun r =>
      (match r.1 with
        | .error _ => true
        | .ok _ => false, r.2.2)
  | putData data => (putBlock P data cl).map fun r => (r.1.isSome, r.2)
  | getInfo .suvletVersion => (sclIlGetSuvletVersion P cl).map fun r => (false, r.2)
  | getInfo .apiVersion => (sclIlGetApiVersion P cl).map fun r => (false, r.2)
  | getInfo .cwd => (getInfoText P ⟨chars "cwd", chars_cwd⟩ cl).map fun r => (false, r.2)
  | getInfo .suvaBase =>
    (getInfoText P ⟨chars "suva_base", chars_suvaBase⟩ cl).map fun r => (false, r.2)
  | getInfo .pid => (sclIlGetPid P cl).map fun r => (false, r.2)
  | getFsizeMode name =>
    (Local.getFsizeMode P name cl).map fun r => (decide (r.2.1 = -1), r.2.2)
  | setFmode name mode =>
    (setRemoteMode P name mode cl).map fun r => (decide (r.1 = -1), r.2)

/-- The remote operation fails. A read fails when it delivers nothing. -/
def RemoteFails (srv : Server σ φ) : InlineCall → Prop
  | openFile name direction =>
    (P.remote.fopen (normStr name) (remoteMode direction) srv.os).1 = none
  | closeFile => ∃ file, srv.inlineFile = some file ∧ (P.remote.fclose file srv.os).1 = false
  | getData blockSize =>
    ∃ file, srv.inlineFile = some file ∧ (P.remote.fread file blockSize.toNat srv.os).1 = []
  | putData data => ∃ file, srv.inlineFile = some file ∧
    (P.remote.fwrite file data srv.os).1 = false
  | getInfo _ => False
  | getFsizeMode name => P.remote.stat (normStr name) srv.os = none
  | setFmode name mode => (P.remote.chmod (normStr name) mode srv.os).1 = false

/-- Names and blocks have lengths that fit an `int`, and a file is open for the calls
    that work on one. -/
def Valid (srv : Server σ φ) : InlineCall → Prop
  | openFile name _ | getFsizeMode name | setFmode name _ => (strBytes name).length < 2 ^ 31 - 1
  | closeFile => srv.inlineFile.isSome
  | getData blockSize => 0 ≤ blockSize.toInt ∧ srv.inlineFile.isSome
  | putData data => data.length < 2 ^ 31 ∧ srv.inlineFile.isSome
  | getInfo _ => True

/-- The call is `inline-set_fmode`. -/
def IsSetFmode : InlineCall → Prop
  | setFmode _ _ => True
  | _ => False

end InlineCall

variable {cl : Client σ φ τ} {srv : Server σ φ}

/-- The call returns, in step with the suvlet; its types agree; and a remote operation
    that failed is taken for failed, but for `fclose`. -/
def InlineCall.Agrees (c : InlineCall) (f : ψ) (cl : Client σ φ τ) (srv : Server σ φ) : Prop :=
  ∃ failed cl' srv' x, c.run P f cl = some (failed, cl') ∧ cl'.InStep srv' ∧
    cl'.calls = x :: cl.calls ∧ x.Agrees ∧
    (c ≠ .closeFile → c.RemoteFails P srv → failed = true)

theorem agrees_of_exchanged {c : InlineCall} {f : ψ} {failed : Bool} {cl' : Client σ φ τ}
    {srv' : Server σ φ} {qs rs : List Queued} (hexch : Exchanged cl cl' srv' qs rs)
    (hrun : c.run P f cl = some (failed, cl'))
    (hfail : c ≠ .closeFile → c.RemoteFails P srv → failed = true) : c.Agrees P f cl srv := by
  obtain ⟨x, hcalls, -, -, hagrees⟩ := hexch.calls
  exact ⟨failed, cl', srv', x, hrun, hexch.inStep, hcalls, hagrees, hfail⟩

/-- A variable that is an `int`. -/
theorem getInfoInt_agrees (h : cl.InStep srv) (f : ψ) {info : InfoVar} {var : CStr}
    (hrun : ∀ cl : Client σ φ τ,
      (InlineCall.getInfo info).run P f cl = (getInfoInt P var cl).map fun r => (false, r.2))
    (hne : var.val ≠ []) (hlen : var.val.length < 2 ^ 31 - 1) {v : BitVec 32}
    (hvar : infoValue P.remote P.suvletVersion srv.os var = some (.int v)) :
    (InlineCall.getInfo info).Agrees P f cl srv := by
  obtain ⟨cl', srv', hget, hexch, -⟩ := getInfoInt_spec P h hne hlen hvar
  exact agrees_of_exchanged P hexch (by rw [hrun, hget]; rfl) fun _ hfails => hfails.elim

/-- A variable that is a string. -/
theorem getInfoText_agrees (h : cl.InStep srv) (f : ψ) {info : InfoVar} {var : CStr}
    (hrun : ∀ cl : Client σ φ τ,
      (InlineCall.getInfo info).run P f cl = (getInfoText P var cl).map fun r => (false, r.2))
    (hne : var.val ≠ []) (hlen : var.val.length < 2 ^ 31 - 1) {s : CStr}
    (hs : s.val.length < 2 ^ 31 - 1)
    (hvar : infoValue P.remote P.suvletVersion srv.os var = some (.text s)) :
    (InlineCall.getInfo info).Agrees P f cl srv := by
  obtain ⟨cl', srv', hget, hexch, -⟩ := getInfoText_spec P h hne hlen hs hvar
  exact agrees_of_exchanged P hexch (by rw [hrun, hget]; rfl) fun _ hfails => hfails.elim

theorem getInfo_agrees (h : cl.InStep srv) (f : ψ) (info : InfoVar) :
    (InlineCall.getInfo info).Agrees P f cl srv := by
  cases info with
  | suvletVersion => exact getInfoInt_agrees P h f (fun _ => rfl) (by decide) (by decide) rfl
  | apiVersion => exact getInfoInt_agrees P h f (fun _ => rfl) (by decide) (by decide) rfl
  | pid => exact getInfoInt_agrees P h f (fun _ => rfl) (by decide) (by decide) rfl
  | cwd =>
    exact getInfoText_agrees P h f (fun _ => rfl) (by decide) (by decide) (P.getcwd_lt srv.os) rfl
  | suvaBase =>
    exact getInfoText_agrees P h f (fun _ => rfl) (by decide) (by decide)
      (show sdBase.val.length < _ by decide) rfl

/-- A mode has bits in the lower twelve places only, so it is not -1. -/
theorem modeOf_eq_neg_one_iff (stat : Option (ℤ × BitVec 32)) : modeOf stat = -1 ↔ stat = none := by
  cases stat with
  | none => simp [modeOf]
  | some r =>
    refine iff_of_false (fun h => ?_) (by simp)
    have hbit := congrArg (fun v : BitVec 32 => v.getLsbD 31) h
    simp [modeOf] at hbit

/-- Every inline call but `inline-set_fmode`, on any machines: the client decodes types
    of the reply in order and stays in the reply; and it takes a remote operation that
    failed for failed, `fclose` apart. -/
theorem inlineCall_agrees (h : cl.InStep srv) (f : ψ) {c : InlineCall} (hc : c.Valid srv)
    (hset : ¬ c.IsSetFmode) :
    ∃ failed cl' srv' x, c.run P f cl = some (failed, cl') ∧ cl'.InStep srv' ∧
      cl'.calls = x :: cl.calls ∧ x.Agrees ∧
      (c ≠ .closeFile → c.RemoteFails P srv → failed = true) := by
  show c.Agrees P f cl srv
  cases c with
  | openFile name direction =>
    obtain ⟨cl', srv', rs, hrun, hexch, -⟩ := @openRemote_spec _ _ _ _ P cl srv h name hc
      (remoteMode direction) (by cases direction <;> decide)
    refine agrees_of_exchanged P hexch (by simp only [InlineCall.run, hrun]; rfl) fun _ hfails => ?_
    simp [show (P.remote.fopen _ _ _).1 = none from hfails]
  | closeFile =>
    obtain ⟨file, hfile⟩ := Option.isSome_iff_exists.mp hc
    obtain ⟨cl', srv', hclose, hexch, -⟩ := closeRemote_spec P h hfile
    exact agrees_of_exchanged P hexch (by simp only [InlineCall.run, hclose]; rfl)
      fun hne => absurd rfl hne
  | getData blockSize =>
    obtain ⟨hsize, hopen⟩ := hc
    obtain ⟨file, hfile⟩ := Option.isSome_iff_exists.mp hopen
    obtain ⟨cl', srv', rs, hrun, hstep, -, -, -, x, hcalls, -, -, hagrees⟩ :=
      getBlock_spec P h hsize hfile f
    refine ⟨_, cl', srv', x, by simp only [InlineCall.run, hrun]; rfl, hstep, hcalls, hagrees, ?_⟩
    rintro - ⟨file', hfile', hread⟩
    obtain rfl : file = file' := Option.some.inj (hfile.symm.trans hfile')
    simp [hread, P.here.fwrite_nil]
  | putData data =>
    obtain ⟨hlen, hopen⟩ := hc
    obtain ⟨file, hfile⟩ := Option.isSome_iff_exists.mp hopen
    obtain ⟨cl', srv', hrun, hexch, -⟩ := putBlock_spec P h hlen hfile
    refine agrees_of_exchanged P hexch (by simp only [InlineCall.run, hrun]; rfl) ?_
    rintro - ⟨file', hfile', hwrite⟩
    obtain rfl : file = file' := Option.some.inj (hfile.symm.trans hfile')
    simp [hwrite]
  | getInfo info => exact getInfo_agrees P h f info
  | getFsizeMode name =>
    obtain ⟨size, cl', srv', rs, hrun, hexch, -⟩ := @getFsizeMode_spec _ _ _ _ P cl srv h name hc
    refine agrees_of_exchanged P hexch (by simp only [InlineCall.run, hrun]; rfl) fun _ hfails => ?_
    have hnone : modeOf (P.remote.stat (normStr name) srv.os) = -1 :=
      (modeOf_eq_neg_one_iff _).mpr hfails
    simp [hnone]
  | setFmode name mode => exact absurd trivial hset

/-- A file name. -/
def someFile : FileName := ⟨⟨chars "f", by decide⟩, by decide, by decide⟩

/-- Two machines without files. -/
def noFiles : Parties FileSys Stream FileSys Stream :=
  faultFree blank_inlines 1 .whole

/-- Opening a file that is not there fails, and the client knows. -/
theorem inlineCall_agrees_open : ∃ cl' srv' x,
    (InlineCall.openFile (some someFile.path) .get).run noFiles ⟨someFile, 0⟩
        (.opened .empty (.init .empty)) = some (true, cl') ∧
      cl'.InStep srv' ∧ cl'.calls = [x] ∧ x.Agrees := by
  obtain ⟨failed, cl', srv', x, hrun, hstep, hcalls, hagrees, hfails⟩ := inlineCall_agrees noFiles
    (Client.inStep_opened FileSys.empty
      (show (Server.init FileSys.empty).out.pending = [] from rfl))
    ⟨someFile, 0⟩ (show (InlineCall.openFile (some someFile.path) .get).Valid _ by
      show someFile.path.val.length < _
      decide) (show ¬ (InlineCall.openFile (some someFile.path) .get).IsSetFmode from id)
  rw [hfails (by simp) rfl] at hrun
  exact ⟨cl', srv', x, hrun, hstep, hcalls, hagrees⟩

/-- The same machines, but `fclose` fails at the other end. -/
def noClose : Parties FileSys Stream FileSys Stream :=
  { noFiles with remote := { FileSys.libc with fclose := fun _ fs => (false, fs) } }

/-- A suvlet with an open file. -/
def openServer : Server FileSys Stream := ⟨.opened, .opened, some ⟨someFile, 0⟩, .empty⟩

/-- What `inline-set_fmode` replies is an `SCL_BOOL`, and the client decodes an
    `SCL_INT`, past the end of the packet. An `inline-close_file` that fails is not
    taken for failed. -/
theorem inlineCall_disagrees :
    (∃ failed cl' x, (InlineCall.setFmode (some someFile.path) 0x1a4).run noFiles ⟨someFile, 0⟩
        (.opened .empty (.init .empty)) = some (failed, cl') ∧
      cl'.calls = [x] ∧ x.replies.map (fun r => r.2.map fun q => q.value.type) = [[.bool]] ∧
      x.decoded = [.int] ∧ ¬ x.Agrees) ∧
    InlineCall.closeFile.RemoteFails noClose openServer ∧
    ∃ cl', InlineCall.closeFile.run noClose ⟨someFile, 0⟩ (.opened .empty openServer) =
      some (false, cl') := by
  refine ⟨?_, ⟨_, rfl, rfl⟩, _, rfl⟩
  obtain ⟨v, cl', srv', hrun, -, -, -, -, x, hcalls, -, hreplies, hdecoded⟩ :=
    setRemoteMode_spec noFiles
    (Client.inStep_opened FileSys.empty
      (show (Server.init FileSys.empty).out.pending = [] from rfl))
    (show (strBytes (some someFile.path)).length < _ by
      show someFile.path.val.length < _
      decide) 0x1a4
  refine ⟨_, cl', x, by simp only [InlineCall.run, hrun]; rfl, hcalls, by rw [hreplies]; rfl,
    hdecoded, ?_⟩
  rintro ⟨opcode, qs, hqs, hprefix, -⟩
  rw [hreplies] at hqs
  obtain ⟨-, rfl⟩ := Prod.mk.injEq .. ▸ (List.singleton_inj.mp hqs)
  rw [hdecoded] at hprefix
  revert hprefix
  simp [Queued.intAsBool, Value.type]

end CompatSuva.Local
