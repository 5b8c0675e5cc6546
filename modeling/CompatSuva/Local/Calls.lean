import CompatSuva.Local.Xfer

/-!
# The calls of a transfer

What each of the calls that `scl_il_xfer_ex` and the `scl_il_get_…` functions make
does, on any machines: the handler's effect at the other end, the reply, and what the
client makes of it.

* `getInfoInt_spec`, `getInfoText_spec`, `closeRemote_spec`, `getFsizeMode_spec`,
  `openRemote_spec`, `putBlock_spec`, `getBlock_spec`, `setRemoteMode_spec`.
-/

namespace CompatSuva.Local

open CompatSuva.Common CompatSuva.Scl CompatSuva.Suvlet

variable {σ φ τ ψ : Type} (P : Parties σ φ τ ψ) {cl : Client σ φ τ} {srv : Server σ φ}

/-! ## Sizes -/

@[simp] theorem value_text (s : CStr) : (Queued.text s).value = .string (some s) := rfl

@[simp] theorem value_textOrNull (s : Option CStr) : (Queued.textOrNull s).value = .string s := by
  cases s <;> rfl

@[simp] theorem value_int (v : BitVec 32) : (Queued.int v).value = .int v := rfl

@[simp] theorem value_data (bs : List Byte) : (Queued.data bs).value = .data bs := rfl

@[simp] theorem length_enc_string (s : Option CStr) :
    (Value.string s).enc.length = (strBytes s).length + 5 := by
  simp [Value.enc]
  omega

@[simp] theorem length_enc_int (v : BitVec 32) : (Value.int v).enc.length = 4 := by
  simp [Value.enc, Value.type, SclType.isComplex, Value.elems]

@[simp] theorem length_enc_bool (v : Byte) : (Value.bool v).enc.length = 1 := by
  simp [Value.enc, Value.type, SclType.isComplex, Value.elems]

@[simp] theorem length_enc_data (bs : List Byte) : (Value.data bs).enc.length = bs.length + 4 := by
  simp [Value.enc, Value.type, SclType.isComplex, Value.elems]
  omega

theorem payload_cons (q : Queued) (qs : List Queued) :
    payload (q :: qs) = q.value.enc ++ payload qs :=
  rfl

theorem length_payload_cons (q : Queued) (qs : List Queued) :
    (payload (q :: qs)).length = q.value.enc.length + (payload qs).length := by
  simp [payload_cons]

@[simp] theorem payload_nil : payload [] = [] := rfl

/-! ## Dispatch -/

section

variable (libc : Libc σ φ) (suvletVersion : BitVec 32) (srv : Server σ φ)

theorem call_openFile :
    sclCallInlines libc suvletVersion Inline.openFile srv = sclIlROpenFile libc srv := rfl

theorem call_getFsizeMode :
    sclCallInlines libc suvletVersion Inline.getFsizeMode srv = sclIlRGetFsizeMode libc srv := rfl

end

/-! ## `inline-get_info` -/

/-- The suvlet answers a variable it knows. -/
theorem getInfo_received (h : cl.InStep srv) {var : CStr} (hne : var.val ≠ [])
    (hlen : var.val.length < 2 ^ 31 - 1) {q : Queued}
    (hvar : infoValue P.remote P.suvletVersion srv.os var = some q)
    (hq : (payload [q]).length < 2 ^ 32) :
    ∃ cl₁ srv', cl.call P [.text Inline.getInfo, .text var] = some cl₁ ∧
      Client.Received cl cl₁ srv' [.text Inline.getInfo, .text var] [q] ∧
      srv'.inlineFile = srv.inlineFile ∧ srv'.os = srv.os := by
  have hname : Inline.getInfo.val.length = 15 := by decide
  obtain ⟨conn', hargs, hcall⟩ := Client.call_spec P h (show IsInline Inline.getInfo by decide)
    (show ∀ v ∈ ([Queued.text Inline.getInfo, .text var]).map Queued.value, _ by
      simp [hname]; omega)
    (by simp [length_payload_cons, hname]; omega)
  obtain ⟨conn'', hrun⟩ := @sclIlRGetInfo_spec _ _ P.remote { srv with conn := conn' }
    P.suvletVersion var hargs hne
  have hvar' : infoValue P.remote P.suvletVersion { srv with conn := conn' }.os var = some q := hvar
  rw [hvar'] at hrun
  obtain ⟨cl₁, hsome, hrec⟩ := hcall _ [q] hrun rfl hq
  exact ⟨cl₁, _, hsome, hrec, rfl, rfl⟩

/-- Reading the first value of a reply. -/
theorem Client.Received.read {cl' : Client σ φ τ} {srv' : Server σ φ} {qs rs : List Queued}
    {q : Queued} (h : Client.Received cl cl' srv' qs (q :: rs))
    (r : Request) (hlen : (payload (q :: rs)).length < 2 ^ 32)
    (hsize : q.value.enc.length < 2 ^ 31 + 4) (hr : Asks q.value r) :
    ∃ p len conn', cl'.getValue r.1 r.2 = some (p, len, cl'.note [r.1] conn') ∧
      Reading (payload (q :: rs)).length conn' (payload rs) ∧
      q.value.norm.Reads conn'.mem conn'.tables 0 conn'.cursor p len := by
  obtain ⟨junk, hconn⟩ := h.conn
  have hread := reading_delivered sclFreturn junk hlen
  rw [← hconn] at hread
  exact getValue_spec r hread hsize hr

theorem getInfoInt_spec (h : cl.InStep srv) {var : CStr} (hne : var.val ≠ [])
    (hlen : var.val.length < 2 ^ 31 - 1) {v : BitVec 32}
    (hvar : infoValue P.remote P.suvletVersion srv.os var = some (.int v)) :
    ∃ cl' srv', getInfoInt P var cl = some (v, cl') ∧
      Exchanged cl cl' srv' [.text Inline.getInfo, .text var] [.int v] ∧
      srv'.inlineFile = srv.inlineFile ∧ srv'.os = srv.os := by
  have hpayload : (payload [Queued.int v]).length < 2 ^ 32 := by simp [length_payload_cons]
  obtain ⟨cl₁, srv', hcall, hrec, hfile, hos⟩ := getInfo_received P h hne hlen hvar hpayload
  obtain ⟨p, len, conn', hget, hread, hreads⟩ :=
    hrec.read (.int, false) hpayload (by simp) (asks_scalar rfl)
  refine ⟨_, srv', ?_, hrec.exchanged hread (show [SclType.int] <+: _ from List.prefix_refl _),
    hfile, hos⟩
  simp only [getInfoInt, hcall, hget, Client.note_conn, word_of_reads hread.left hreads,
    Option.bind_eq_bind, Option.bind_some]

theorem sclIlGetApiVersion_spec (h : cl.InStep srv) :
    ∃ cl' srv', sclIlGetApiVersion P cl = some (suvaApiVersion, cl') ∧
      Exchanged cl cl' srv' [.text Inline.getInfo, .text ⟨chars "api_version", by decide⟩]
        [.int suvaApiVersion] ∧
      srv'.inlineFile = srv.inlineFile ∧ srv'.os = srv.os :=
  getInfoInt_spec P h (show (⟨chars "api_version", by decide⟩ : CStr).val ≠ [] by decide)
    (by decide) (show infoValue _ _ srv.os _ = some (.int suvaApiVersion) from rfl)

theorem getInfoText_spec (h : cl.InStep srv) {var : CStr} (hne : var.val ≠ [])
    (hlen : var.val.length < 2 ^ 31 - 1) {s : CStr} (hs : s.val.length < 2 ^ 31 - 1)
    (hvar : infoValue P.remote P.suvletVersion srv.os var = some (.text s)) :
    ∃ cl' srv', getInfoText P var cl = some (normStr (some s), cl') ∧
      Exchanged cl cl' srv' [.text Inline.getInfo, .text var] [.text s] ∧
      srv'.inlineFile = srv.inlineFile ∧ srv'.os = srv.os := by
  have hpayload : (payload [Queued.text s]).length < 2 ^ 32 := by
    simp [length_payload_cons]
    omega
  obtain ⟨cl₁, srv', hcall, hrec, hfile, hos⟩ := getInfo_received P h hne hlen hvar hpayload
  obtain ⟨p, len, conn', hget, hread, hreads⟩ :=
    hrec.read (.string, false) hpayload (by simp; omega) (asks_scalar rfl)
  refine ⟨_, srv', ?_, hrec.exchanged hread (show [SclType.string] <+: _ from List.prefix_refl _),
    hfile, hos⟩
  simp only [getInfoText, hcall, hget, Client.note_conn, str_of_reads hread.left hreads,
    Option.bind_eq_bind, Option.bind_some]

/-! ## The calls of `scl_il_xfer_ex` -/

/-- The remote file is closed, whatever `fclose` says. -/
theorem closeRemote_spec (h : cl.InStep srv) {file : φ} (hfile : srv.inlineFile = some file) :
    ∃ cl' srv', closeRemote P cl = some cl' ∧
      Exchanged cl cl' srv' [.text Inline.closeFile] [] ∧ srv'.inlineFile = none ∧
      srv'.os = (P.remote.fclose file srv.os).2 := by
  have hname : Inline.closeFile.val.length = 17 := by decide
  obtain ⟨conn', -, hcall⟩ := Client.call_spec P h (show IsInline Inline.closeFile by decide)
    (show ∀ v ∈ ([Queued.text Inline.closeFile]).map Queued.value, _ by simp [hname])
    (by simp [length_payload_cons, hname])
  have hrun := @sclIlRCloseFile_spec _ _ P.remote { srv with conn := conn' } file hfile
  obtain ⟨cl₁, hsome, hrec⟩ := hcall _ [] hrun rfl (by simp)
  exact ⟨_, _, by simp only [closeRemote, hsome, Option.map_some], hrec.exchanged_unread (by simp),
    rfl, rfl⟩

/-- Reading a reply of two `int`s. -/
theorem getFsizeMode_received {cl₁ : Client σ φ τ} {srv' : Server σ φ} {name : Option CStr}
    {size mode : BitVec 32}
    (hcall : cl.call P [.text Inline.getFsizeMode, .textOrNull name] = some cl₁)
    (hrec : Client.Received cl cl₁ srv'
      [.text Inline.getFsizeMode, .textOrNull name] [.int size, .int mode]) :
    ∃ cl', getFsizeMode P name cl = some (if size = -1 then 0 else size, mode, cl') ∧
      Exchanged cl cl' srv' [.text Inline.getFsizeMode, .textOrNull name]
        [.int size, .int mode] := by
  have hpayload : (payload [Queued.int size, .int mode]).length < 2 ^ 32 := by
    simp [length_payload_cons]
  obtain ⟨p, len, conn₁, hget, hread, hreads⟩ :=
    hrec.read (.int, false) hpayload (by simp) (asks_scalar rfl)
  obtain ⟨q, len', conn₂, hget', hread', hreads'⟩ := @getValue_spec _ _ _
    (cl₁.note [.int] conn₁) _ (.int mode) []
    (.int, false) hread (by simp) (asks_scalar rfl)
  rw [Client.note_note] at hget'
  refine ⟨_, ?_, hrec.exchanged hread' (show [SclType.int, .int] <+: _ from List.prefix_refl _)⟩
  simp only [getFsizeMode, hcall, hget, hget', Client.note_conn, word_of_reads hread.left hreads,
    word_of_reads hread'.left hreads', Option.bind_eq_bind, Option.bind_some]
  rfl

/-- The mode the client gets: -1 when `stat` fails. -/
def modeOf (stat : Option (ℤ × BitVec 32)) : BitVec 32 :=
  match stat with
  | none => -1
  | some (_, mode) => mode &&& 0xfff

theorem getFsizeMode_spec (h : cl.InStep srv) {name : Option CStr}
    (hname : (strBytes name).length < 2 ^ 31 - 1) :
    ∃ size cl' srv' rs, getFsizeMode P name cl =
        some (size, modeOf (P.remote.stat (normStr name) srv.os), cl') ∧
      Exchanged cl cl' srv' [.text Inline.getFsizeMode, .textOrNull name] rs ∧
      srv'.inlineFile = srv.inlineFile ∧ srv'.os = srv.os := by
  have hinline : Inline.getFsizeMode.val.length = 21 := by decide
  obtain ⟨conn', hargs, hcall⟩ := Client.call_spec P h (show IsInline Inline.getFsizeMode by decide)
    (show ∀ v ∈ ([Queued.text Inline.getFsizeMode, .textOrNull name]).map Queued.value, _ by
      simp [hinline]; omega)
    (by simp [length_payload_cons, hinline]; omega)
  obtain ⟨conn'', hrun⟩ := @sclIlRGetFsizeMode_spec _ _ P.remote { srv with conn := conn' } name
    (by simpa using hargs)
  rw [← call_getFsizeMode P.remote P.suvletVersion] at hrun
  cases hstat : P.remote.stat (normStr name) srv.os with
  | none =>
    simp only [hstat] at hrun
    obtain ⟨cl₁, hsome, hrec⟩ := hcall _ _ hrun rfl (by simp [length_payload_cons])
    obtain ⟨cl', hget, hexch⟩ := getFsizeMode_received P hsome hrec
    exact ⟨_, cl', _, _, hget, hexch, rfl, rfl⟩
  | some r =>
    simp only [hstat] at hrun
    obtain ⟨cl₁, hsome, hrec⟩ := hcall _ _ hrun rfl (by simp [length_payload_cons])
    obtain ⟨cl', hget, hexch⟩ := getFsizeMode_received P hsome hrec
    exact ⟨_, cl', _, _, hget, hexch, rfl, rfl⟩

/-- Reading the reply to an open that succeeded. -/
theorem openRemote_opened {cl₁ : Client σ φ τ} {srv' : Server σ φ} {name : Option CStr}
    {mode : CStr}
    (hcall : cl.call P [.text Inline.openFile, .textOrNull name, .text mode] = some cl₁)
    (hrec : Client.Received cl cl₁ srv'
      [.text Inline.openFile, .textOrNull name, .text mode] [.int 0, .noText]) :
    ∃ cl', openRemote P name mode cl = some (none, cl') ∧
      Exchanged cl cl' srv' [.text Inline.openFile, .textOrNull name, .text mode]
        [.int 0, .noText] := by
  obtain ⟨junk, hconn⟩ := hrec.conn
  obtain ⟨p, len, conn₁, hget, hread, hreads⟩ :=
    hrec.read (.int, false) (by decide) (by simp) (asks_scalar rfl)
  refine ⟨_, ?_, hrec.exchanged hread
    (show [SclType.int] <+: _ from List.prefix_append _ [SclType.string])⟩
  simp only [openRemote, hcall, hget, hconn, delivered_opcode, Client.note_conn,
    word_of_reads hread.left hreads, Option.bind_eq_bind, Option.bind_some]
  rfl

/-- Reading the reply to an open that failed. -/
theorem openRemote_failed {cl₁ : Client σ φ τ} {srv' : Server σ φ} {name : Option CStr}
    {mode s : CStr} (hs : s.val.length < 2 ^ 31 - 1)
    (hcall : cl.call P [.text Inline.openFile, .textOrNull name, .text mode] = some cl₁)
    (hrec : Client.Received cl cl₁ srv'
      [.text Inline.openFile, .textOrNull name, .text mode] [.int 1, .text s]) :
    ∃ cl', openRemote P name mode cl = some (some ⟨4, false, true, false⟩, cl') ∧
      Exchanged cl cl' srv' [.text Inline.openFile, .textOrNull name, .text mode]
        [.int 1, .text s] := by
  have hpayload : (payload [Queued.int 1, .text s]).length < 2 ^ 32 := by
    simp [length_payload_cons]
    omega
  obtain ⟨junk, hconn⟩ := hrec.conn
  obtain ⟨p, len, conn₁, hget, hread, hreads⟩ :=
    hrec.read (.int, false) hpayload (by simp) (asks_scalar rfl)
  obtain ⟨q, len', conn₂, hget', hread', hreads'⟩ := @getValue_spec _ _ _
    (cl₁.note [.int] conn₁) _
    (.string (some s)) [] (.string, false) hread (by simp; omega) (asks_scalar rfl)
  rw [Client.note_note] at hget'
  refine ⟨_, ?_, hrec.exchanged hread'
    (show [SclType.int, .string] <+: _ from List.prefix_refl _)⟩
  simp only [openRemote, hcall, hget, hconn, delivered_opcode, Client.note_conn,
    word_of_reads hread.left hreads, Option.bind_eq_bind, Option.bind_some]
  rw [if_neg (by simp), if_neg (by decide), hget']
  simp only [Option.bind_some, Client.note_conn, str_of_reads hread'.left hreads']
  rfl

/-- The transfer ends when the remote `fopen` fails. -/
theorem openRemote_spec (h : cl.InStep srv) {name : Option CStr}
    (hname : (strBytes name).length < 2 ^ 31 - 1) {mode : CStr} (hmode : mode.val.length = 1) :
    ∃ cl' srv' rs, openRemote P name mode cl =
        some (if (P.remote.fopen (normStr name) mode srv.os).1.isSome then none
          else some ⟨4, false, true, false⟩, cl') ∧
      Exchanged cl cl' srv' [.text Inline.openFile, .textOrNull name, .text mode] rs ∧
      srv'.inlineFile = (P.remote.fopen (normStr name) mode srv.os).1 ∧
      srv'.os = (P.remote.fopen (normStr name) mode srv.os).2 := by
  have hinline : Inline.openFile.val.length = 16 := by decide
  have hne : mode.val ≠ [] := by
    intro hnil
    simp [hnil] at hmode
  obtain ⟨conn', hargs, hcall⟩ := Client.call_spec P h (show IsInline Inline.openFile by decide)
    (show ∀ v ∈ ([Queued.text Inline.openFile, .textOrNull name, .text mode]).map Queued.value, _ by
      simp [hinline, hmode]; omega)
    (by simp [length_payload_cons, hinline, hmode]; omega)
  obtain ⟨conn'', hrun⟩ := @sclIlROpenFile_spec _ _ P.remote { srv with conn := conn' } name mode
    (by simpa using hargs) hne
  rw [← call_openFile P.remote P.suvletVersion] at hrun
  cases hopen : (P.remote.fopen (normStr name) mode srv.os).1 with
  | some file =>
    simp only [hopen, Option.isSome_some, if_true] at hrun ⊢
    obtain ⟨cl₁, hsome, hrec⟩ := hcall _ _ hrun rfl (by decide)
    obtain ⟨cl', hget, hexch⟩ := openRemote_opened P hsome hrec
    exact ⟨cl', _, _, hget, hexch, rfl, rfl⟩
  | none =>
    simp only [hopen, Option.isSome_none, Bool.false_eq_true, if_false] at hrun ⊢
    have hlt := P.strerror_lt (P.remote.fopen (normStr name) mode srv.os).2
    obtain ⟨cl₁, hsome, hrec⟩ := hcall _ _ hrun rfl (by simp [length_payload_cons]; omega)
    obtain ⟨cl', hget, hexch⟩ := openRemote_failed P hlt hsome hrec
    exact ⟨cl', _, _, hget, hexch, rfl, rfl⟩

/-- The transfer ends when the remote `fwrite` fails. -/
theorem putBlock_spec (h : cl.InStep srv) {data : List Byte} (hdata : data.length < 2 ^ 31)
    {file : φ} (hfile : srv.inlineFile = some file) :
    ∃ cl' srv', putBlock P data cl =
        some (if (P.remote.fwrite file data srv.os).1 then none
          else some ⟨6, false, true, true⟩, cl') ∧
      Exchanged cl cl' srv' [.text Inline.putData, .data data]
        [.bool (if (P.remote.fwrite file data srv.os).1 then 0 else 1)] ∧
      srv'.inlineFile = some (P.remote.fwrite file data srv.os).2.1 ∧
      srv'.os = (P.remote.fwrite file data srv.os).2.2 := by
  have hinline : Inline.putData.val.length = 15 := by decide
  obtain ⟨conn', hargs, hcall⟩ := Client.call_spec P h (show IsInline Inline.putData by decide)
    (show ∀ v ∈ ([Queued.text Inline.putData, .data data]).map Queued.value, _ by
      simp [hinline]; omega)
    (by simp [length_payload_cons, hinline]; omega)
  obtain ⟨conn'', hrun⟩ := @sclIlRPutData_spec _ _ P.remote { srv with conn := conn' } data
    (by simpa using hargs) file hfile
  have hpayload : ∀ b : Byte, (payload [Queued.bool b]).length < 2 ^ 32 := fun b =>
    show 1 < 2 ^ 32 by decide
  obtain ⟨cl₁, hsome, hrec⟩ := hcall _ _ hrun rfl (hpayload _)
  obtain ⟨junk, hconn⟩ := hrec.conn
  obtain ⟨p, len, conn₁, hget, hread, hreads⟩ := hrec.read (.bool, false) (hpayload _)
    (show 1 < 2 ^ 31 + 4 by decide) (asks_scalar rfl)
  refine ⟨_, _, ?_, hrec.exchanged hread (show [SclType.bool] <+: _ from List.prefix_refl _), rfl,
    rfl⟩
  simp only [putBlock, hsome, hget, hconn, delivered_opcode, Client.note_conn,
    char_of_reads hread.left hreads, Option.bind_eq_bind, Option.bind_some]
  cases hwrite : (P.remote.fwrite file data srv.os).1 <;> rfl

/-- The suvlet answers with what it has read. -/
theorem getBlock_received (h : cl.InStep srv) {blockSize : BitVec 32} (hsize : 0 ≤ blockSize.toInt)
    {file : φ} (hfile : srv.inlineFile = some file) :
    ∃ cl₁ srv' q, cl.call P [.text Inline.getData, .int blockSize] = some cl₁ ∧
      Client.Received cl cl₁ srv' [.text Inline.getData, .int blockSize] [q] ∧
      q.value = .data (P.remote.fread file blockSize.toNat srv.os).1 ∧
      srv'.inlineFile = some (P.remote.fread file blockSize.toNat srv.os).2.1 ∧
      srv'.os = (P.remote.fread file blockSize.toNat srv.os).2.2 := by
  have hinline : Inline.getData.val.length = 15 := by decide
  obtain ⟨conn', hargs, hcall⟩ := Client.call_spec P h (show IsInline Inline.getData by decide)
    (show ∀ v ∈ ([Queued.text Inline.getData, .int blockSize]).map Queued.value, _ by
      simp [hinline])
    (by simp [length_payload_cons, hinline])
  obtain ⟨conn'', hrun⟩ := @sclIlRGetData_spec _ _ P.remote { srv with conn := conn' } blockSize
    (by simpa using hargs) hsize file hfile
  have hle := P.remote.fread_le file blockSize.toNat srv.os
  have hlt := blockSize.isLt
  have hvalue : (if (P.remote.fread file blockSize.toNat srv.os).1.length ≠ 0
      then Queued.data (P.remote.fread file blockSize.toNat srv.os).1 else .noData).value =
      .data (P.remote.fread file blockSize.toNat srv.os).1 := by
    split_ifs with h0
    · rfl
    · rw [List.eq_nil_of_length_eq_zero (not_not.mp h0)]
      rfl
  have hnat : blockSize.toNat < 2 ^ 31 := by
    have := BitVec.toInt_eq_toNat_cond blockSize
    split_ifs at this <;> omega
  obtain ⟨cl₁, hsome, hrec⟩ := hcall _ _ hrun rfl (by
    simp only [length_payload_cons, hvalue, length_enc_data, payload_nil, List.length_nil]
    omega)
  exact ⟨cl₁, _, _, hsome, hrec, hvalue, rfl, rfl⟩

/-- The transfer ends when the local `fwrite` of the block fails, as it does of an
    empty one. -/
theorem getBlock_spec (h : cl.InStep srv) {blockSize : BitVec 32} (hsize : 0 ≤ blockSize.toInt)
    {file : φ} (hfile : srv.inlineFile = some file) (f : ψ) :
    let r := P.remote.fread file blockSize.toNat srv.os
    let w := P.here.fwrite f r.1 cl.os
    ∃ cl' srv' rs, getBlock P blockSize f cl =
        some (if w.1 then .ok (r.1.length : ℤ) else .error ⟨7, true, true, true⟩, w.2.1, cl') ∧
      cl'.InStep srv' ∧ cl'.os = w.2.2 ∧ srv'.inlineFile = some r.2.1 ∧ srv'.os = r.2.2 ∧
      ∃ x, cl'.calls = x :: cl.calls ∧ x.request = [.text Inline.getData, .int blockSize] ∧
        x.replies = [(sclFreturn, rs)] ∧ x.Agrees := by
  intro r w
  obtain ⟨cl₁, srv', q, hcall, hrec, hvalue, hfile', hos'⟩ := getBlock_received P h hsize hfile
  have hle := P.remote.fread_le file blockSize.toNat srv.os
  have hnat : blockSize.toNat < 2 ^ 31 := by
    have := BitVec.toInt_eq_toNat_cond blockSize
    split_ifs at this <;> omega
  obtain ⟨junk, hconn⟩ := hrec.conn
  obtain ⟨p, len, conn₁, hget, hread, hreads⟩ := hrec.read (.data, true)
    (by simp [length_payload_cons, hvalue]; omega) (by simp [hvalue]; omega)
    (by rw [hvalue]; exact asks_data)
  rw [hvalue] at hreads
  obtain ⟨hlen, hblock⟩ := block_of_reads hread.left hreads
  have hp : p ≠ .null := by
    rintro rfl
    simp [InConn.block] at hblock
  have hexch := hrec.exchanged hread
    (show [SclType.data] <+: _ by simp [hvalue, Value.type])
  have hfetch : fetchBlock P blockSize cl =
      some (.ok ((r.1.length : ℤ), r.1), cl₁.note [.data] conn₁) := by
    simp only [fetchBlock, hcall, hget, hconn, delivered_opcode, Client.note_conn, hlen, hblock,
      Option.bind_eq_bind, Option.bind_some]
    rw [if_neg (by simp), if_neg hp]
  have hos : cl₁.os = cl.os := hrec.os
  have hrun : getBlock P blockSize f cl =
      some (if w.1 then .ok (r.1.length : ℤ) else .error ⟨7, true, true, true⟩, w.2.1,
        let cl₂ := { cl₁.note [.data] conn₁ with os := w.2.2 }
        if w.1 then cl₂.freePacketMem else cl₂) := by
    simp only [getBlock, hfetch, Client.note_os, hos, Option.bind_eq_bind, Option.bind_some]
    show (if w.1 then _ else _) = _
    cases w.1 <;> rfl
  refine ⟨_, srv', [q], hrun, ?_, ?_, hfile', hos', ?_⟩
  · cases w.1
    · exact (hrec.inStep.note _ _).withOs _
    · exact ((hrec.inStep.note _ _).withOs _).freePacketMem
  · cases w.1 <;> rfl
  · cases w.1 <;> exact hexch.calls

/-- The mode of the remote file is set; what the client makes of the reply is not the
    reply. -/
theorem setRemoteMode_spec (h : cl.InStep srv) {name : Option CStr}
    (hname : (strBytes name).length < 2 ^ 31 - 1) (mode : BitVec 32) :
    ∃ v cl' srv', setRemoteMode P name mode cl = some (v, cl') ∧ cl'.InStep srv' ∧
      cl'.os = cl.os ∧ srv'.inlineFile = srv.inlineFile ∧
      srv'.os = (P.remote.chmod (normStr name) mode srv.os).2 ∧
      ∃ x, cl'.calls = x :: cl.calls ∧
        x.request = [.text Inline.setFmode, .textOrNull name, .int mode] ∧
        x.replies = [(sclFreturn,
          [.intAsBool (if (P.remote.chmod (normStr name) mode srv.os).1 then 1 else 0)])] ∧
        x.decoded = [.int] := by
  have hinline : Inline.setFmode.val.length = 16 := by decide
  obtain ⟨conn', hargs, hcall⟩ := Client.call_spec P h (show IsInline Inline.setFmode by decide)
    (show ∀ v ∈ ([Queued.text Inline.setFmode, .textOrNull name, .int mode]).map Queued.value, _ by
      simp [hinline]; omega)
    (by simp [length_payload_cons, hinline]; omega)
  obtain ⟨conn'', hrun⟩ := @sclIlRSetFmode_spec _ _ P.remote { srv with conn := conn' } name mode
    (by simpa using hargs)
  obtain ⟨cl₁, hsome, hrec⟩ := hcall _ _ hrun rfl (show 1 < 2 ^ 32 by decide)
  obtain ⟨junk, hconn⟩ := hrec.conn
  have hleft := left_delivered sclFreturn junk
    (show (payload [Queued.intAsBool
      (if (P.remote.chmod (normStr name) mode srv.os).1 then 1 else 0)]).length < 2 ^ 32 from
        (show 1 < 2 ^ 32 by decide))
  have hpdata := hleft.pdata
  rw [← hconn] at hpdata
  have hget : cl₁.getValue .int false =
      some (.ptr cl₁.conn.cursor, none, cl₁.note [.int] (cl₁.conn.advance 4)) := rfl
  have hword : (cl₁.conn.advance 4).word (.ptr cl₁.conn.cursor) =
      some (wordOf 32 (load cl₁.conn.mem cl₁.conn.cursor 4)) := by
    simp [InConn.word, InConn.advance, hpdata]
  have hrun : setRemoteMode P name mode cl = some (wordOf 32 (load cl₁.conn.mem cl₁.conn.cursor 4),
      (cl₁.note [.int] (cl₁.conn.advance 4)).freePacketMem) := by
    simp only [setRemoteMode, hsome, hget, Client.note_conn, hword, Option.bind_eq_bind,
      Option.bind_some]
  refine ⟨_, _, _, hrun, (hrec.inStep.note _ _).freePacketMem, hrec.os, rfl, rfl,
    ⟨⟨_, _, [.int], cl₁.conn.advance 4⟩, ?_, rfl, rfl, rfl⟩⟩
  simp [Client.freePacketMem, Client.note, hrec.calls]

end CompatSuva.Local
