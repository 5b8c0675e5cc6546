import CompatSuva.Common.Simulation
import CompatSuva.Local.Agreement
import CompatSuva.Local.Transfer

/-!
# Transfers as copies

What transfers are for, without blocks and packets: a GET copies a file of the remote
machine to the local one, a PUT the other way, bytes and permissions. `copy` says which
exit code belongs to it and what is left when it goes wrong.

* `transfer_simulates`: `scl_il_xfer_ex` between machines without faults is `copy`;
* `transfers_refine`: so it is for any number of transfers in any order, with any block
  sizes, and there is no other way they can end;
* `put_get`: what has been sent can be fetched back.
-/

namespace CompatSuva.Local

open CompatSuva.Common CompatSuva.Scl CompatSuva.Suvlet

/-! ## Copies -/

/-- What others see of a file: its bytes and its permissions. -/
structure Doc where
  content : List Byte
  perm : BitVec 32
  deriving DecidableEq

/-- The files of a machine. -/
abbrev Docs := FileName → Option Doc

/-- The permissions a file has after it has been opened for writing. -/
def Docs.permOf (ds : Docs) (name : FileName) : BitVec 32 :=
  ((ds name).map Doc.perm).getD 0x1a4

/-- The file gets these bytes. -/
def Docs.write (ds : Docs) (name : FileName) (bs : List Byte) : Docs :=
  Function.update ds name (some ⟨bs, ds.permOf name⟩)

/-- The local and the remote machine. -/
structure Mirror where
  here : Docs
  there : Docs

/-- The arguments of a transfer. The block size is positive, and the name of the remote
    file fits a packet. -/
structure Transfer where
  localName : CStr
  remoteName : CStr
  direction : Direction
  blockSize : BitVec 32
  blockSize_pos : 0 < blockSize.toInt
  remoteName_lt : remoteName.val.length < 2 ^ 31 - 1

/-- What a transfer comes to. A GET empties the local file first, so that file is lost
    when there is no remote one; and a GET of a number of full blocks copies the bytes,
    but not the permissions, and fails. -/
def copy (m : Mirror) (x : Transfer) : ℕ × Mirror :=
  let l := FileName.of (some x.localName)
  let r := FileName.of (some x.remoteName)
  match x.direction with
  | .get =>
    match l with
    | none => (1, m)
    | some l =>
      match r.bind m.there with
      | none => (4, { m with here := m.here.write l [] })
      | some doc =>
        if x.blockSize.toNat ∣ doc.content.length then
          (7, { m with here := m.here.write l doc.content })
        else (0, { m with here := Function.update m.here l (some doc) })
  | .put =>
    match l.bind m.here with
    | none => (1, m)
    | some doc =>
      match r with
      | none => (4, m)
      | some r => (0, { m with there := Function.update m.there r (some doc) })

/-! ## The files of a machine -/

/-- The permissions are the lower twelve bits of the mode. -/
def doc (file : File) : Doc := ⟨file.content, file.mode &&& 0xfff⟩

/-- The files of a machine, as others see them. -/
def docs (fs : FileSys) : Docs := fun name => (fs.files name).map doc

variable {fs fs' fs'' : FileSys} {name : FileName}

theorem docs_eq {file : File} (h : fs.files name = some file) : docs fs name = some (doc file) := by
  simp [docs, h]

theorem docs_content {d : Doc} (h : docs fs name = some d) : fs.content name = d.content := by
  obtain ⟨file, hfile, rfl⟩ := Option.map_eq_some_iff.mp h
  exact FileSys.content_eq hfile

theorem permOf_docs (fs : FileSys) (name : FileName) :
    (docs fs).permOf name = (((fs.files name).map File.mode).getD 0x1a4) &&& 0xfff := by
  unfold Docs.permOf docs
  cases fs.files name with
  | none => decide
  | some file => rfl

theorem docs_setContent (fs : FileSys) (name : FileName) (bs : List Byte) :
    docs (fs.setContent name bs) = (docs fs).write name bs := by
  funext n
  by_cases hn : n = name
  · subst hn
    rw [docs, FileSys.files_setContent, Docs.write, Function.update_self, permOf_docs]
    rfl
  · simp [docs, FileSys.setContent, Docs.write, Function.update_of_ne hn]

theorem docs_chmod {file : File} (h : fs.files name = some file) (mode : BitVec 32) :
    docs (FileSys.libc.chmod (some name.path) mode fs).2 =
      Function.update (docs fs) name (some ⟨file.content, mode &&& 0xfff⟩) := by
  funext n
  by_cases hn : n = name
  · subst hn
    simp [docs, FileSys.libc, h, doc]
  · simp [docs, FileSys.libc, h, Function.update_of_ne hn]

/-- Nothing but the bytes of this file has changed, and it is there. -/
def Rewritten (name : FileName) (fs fs' : FileSys) : Prop :=
  docs fs' = (docs fs).write name (fs'.content name)

theorem rewritten_refl (h : (fs.files name).isSome) : Rewritten name fs fs := by
  obtain ⟨file, hfile⟩ := Option.isSome_iff_exists.mp h
  funext n
  by_cases hn : n = name
  · subst hn
    rw [Docs.write, Function.update_self, FileSys.content_eq hfile, permOf_docs, hfile,
      docs_eq hfile]
    rfl
  · rw [Docs.write, Function.update_of_ne hn]

theorem rewritten_setContent (fs : FileSys) (name : FileName) (bs : List Byte) :
    Rewritten name fs (fs.setContent name bs) := by
  rw [Rewritten, docs_setContent, FileSys.content_setContent]

@[simp] theorem permOf_write (ds : Docs) (name : FileName) (bs : List Byte) :
    (ds.write name bs).permOf name = ds.permOf name := by
  simp [Docs.write, Docs.permOf]

theorem write_write (ds : Docs) (name : FileName) (bs bs' : List Byte) :
    (ds.write name bs).write name bs' = ds.write name bs' := by
  rw [Docs.write, permOf_write, Docs.write, Function.update_idem]
  rfl

theorem Rewritten.trans (h : Rewritten name fs fs') (h' : Rewritten name fs' fs'') :
    Rewritten name fs fs'' := by
  unfold Rewritten at *
  rw [h', h, write_write]

theorem Rewritten.isSome (h : Rewritten name fs fs') : (fs'.files name).isSome := by
  have hdoc : docs fs' name = some ⟨fs'.content name, (docs fs).permOf name⟩ := by
    rw [h]
    exact Function.update_self ..
  obtain ⟨file, hfile, -⟩ := Option.map_eq_some_iff.mp hdoc
  simp [hfile]

/-- `fwrite` leaves the other files alone. -/
theorem fwrite_rewritten {f : Stream} (h : (fs.files f.file).isSome) (data : List Byte) :
    Rewritten f.file fs (FileSys.libc.fwrite f data fs).2.2 ∧
      (FileSys.libc.fwrite f data fs).2.1.file = f.file := by
  by_cases hdata : data.length = 0
  · have hrun : FileSys.libc.fwrite f data fs = (false, f, fs) := if_pos hdata
    rw [hrun]
    exact ⟨rewritten_refl h, rfl⟩
  · have hrun : FileSys.libc.fwrite f data fs = (true, { f with pos := f.pos + data.length },
        { fs.setContent f.file (fs.overwrite f data) with written := fs.written ++ [data] }) :=
      if_neg hdata
    rw [hrun]
    exact ⟨rewritten_setContent fs f.file _, rfl⟩

/-! ## What the loops leave alone -/

variable {R : Receiver FileSys Stream} (hR : R.inlines = true) (suvletVersion : BitVec 32)
  (wire : Wire) {cl cl' : Client FileSys Stream FileSys} {srv : Server FileSys Stream}
  {blockSize : BitVec 32}

/-- One block of a GET. -/
theorem getBlock_frame (h : cl.InStep srv) {f g f' : Stream} (hopen : srv.inlineFile = some g)
    (hsize : 0 < blockSize.toInt) (hfile : (cl.os.files f.file).isSome) {result : Except Exit ℤ}
    (hrun : getBlock (faultFree hR suvletVersion wire) blockSize f cl = some (result, f', cl')) :
    f'.file = f.file ∧ Rewritten f.file cl.os cl'.os ∧
      ∃ srv' g', cl'.InStep srv' ∧ srv'.inlineFile = some g' ∧ srv'.os = srv.os := by
  obtain ⟨cl₁, srv₁, rs, hget, hstep, hos, hopen₁, hos₁, -⟩ :=
    getBlock_spec (faultFree hR suvletVersion wire) h (le_of_lt hsize) hopen f
  obtain ⟨-, hf, rfl⟩ : _ ∧ _ = f' ∧ cl₁ = cl' := by simpa using hget.symm.trans hrun
  obtain ⟨hrewritten, hsame⟩ := fwrite_rewritten hfile
    ((faultFree hR suvletVersion wire).remote.fread g blockSize.toNat srv.os).1
  refine ⟨?_, ?_, srv₁, _, hstep, hopen₁, hos₁⟩
  · rw [← hf]
    exact hsame
  · rw [hos]
    exact hrewritten

/-- The loop of a GET writes the local file only. -/
theorem getLoop_frame (h : cl.InStep srv) {f g f' : Stream} (hopen : srv.inlineFile = some g)
    (hsize : 0 < blockSize.toInt) (hfile : (cl.os.files f.file).isSome) {fuel : ℕ}
    {exit : Option Exit}
    (hrun : getLoop (faultFree hR suvletVersion wire) blockSize fuel f cl = some (exit, f', cl')) :
    Rewritten f.file cl.os cl'.os ∧
      ∃ srv', cl'.InStep srv' ∧ srv'.inlineFile.isSome = true ∧ srv'.os = srv.os := by
  induction fuel generalizing cl srv f g with
  | zero => simp [getLoop] at hrun
  | succ fuel ih =>
    obtain ⟨⟨result, f₁, cl₁⟩, hblock, hrun⟩ := Option.bind_eq_some_iff.mp hrun
    obtain ⟨hf₁, hrewritten, srv₁, g₁, hstep₁, hopen₁, hos₁⟩ :=
      getBlock_frame hR suvletVersion wire h hopen hsize hfile hblock
    have hdone : cl₁ = cl' → Rewritten f.file cl.os cl'.os ∧
        ∃ srv', cl'.InStep srv' ∧ srv'.inlineFile.isSome = true ∧ srv'.os = srv.os := by
      rintro rfl
      exact ⟨hrewritten, srv₁, hstep₁, by simp [hopen₁], hos₁⟩
    cases result with
    | error e =>
      obtain ⟨-, -, hcl⟩ : _ ∧ _ ∧ cl₁ = cl' := by simpa using hrun
      exact hdone hcl
    | ok dataLen =>
      by_cases hlast : dataLen ≠ blockSize.toInt
      · obtain ⟨-, -, hcl⟩ : _ ∧ _ ∧ cl₁ = cl' := by simpa [hlast] using hrun
        exact hdone hcl
      · have hrest : getLoop (faultFree hR suvletVersion wire) blockSize fuel f₁ cl₁ =
            some (exit, f', cl') := by simpa [hlast] using hrun
        obtain ⟨hrewritten', srv', hstep', hopen', hos'⟩ :=
          ih hstep₁ hopen₁ (by rw [hf₁]; exact hrewritten.isSome) hrest
        rw [hf₁] at hrewritten'
        exact ⟨hrewritten.trans hrewritten', srv', hstep', hopen', hos'.trans hos₁⟩

/-- One block of a PUT. -/
theorem putBlock_frame (h : cl.InStep srv) {g : Stream} (hopen : srv.inlineFile = some g)
    (hfile : (srv.os.files g.file).isSome) {data : List Byte} (hdata : data.length < 2 ^ 31)
    {exit : Option Exit}
    (hrun : putBlock (faultFree hR suvletVersion wire) data cl = some (exit, cl')) :
    ∃ srv' g', cl'.InStep srv' ∧ srv'.inlineFile = some g' ∧ g'.file = g.file ∧
      Rewritten g.file srv.os srv'.os := by
  obtain ⟨cl₁, srv₁, hput, hexch, hopen₁, hos₁⟩ :=
    putBlock_spec (faultFree hR suvletVersion wire) h hdata hopen
  obtain ⟨-, rfl⟩ : _ ∧ cl₁ = cl' := by simpa using hput.symm.trans hrun
  obtain ⟨hrewritten, hsame⟩ := fwrite_rewritten hfile data
  refine ⟨srv₁, _, hexch.inStep, hopen₁, hsame, ?_⟩
  rw [hos₁]
  exact hrewritten

/-- The loop of a PUT writes the remote file only. -/
theorem putLoop_frame (h : cl.InStep srv) {f g f' : Stream} (hopen : srv.inlineFile = some g)
    (hsize : 0 < blockSize.toInt) (hfile : (srv.os.files g.file).isSome) {fuel : ℕ}
    {exit : Option Exit}
    (hrun : putLoop (faultFree hR suvletVersion wire) blockSize fuel f cl = some (exit, f', cl')) :
    ∃ srv', cl'.InStep srv' ∧ Rewritten g.file srv.os srv'.os := by
  induction fuel generalizing cl srv f g with
  | zero => simp [putLoop] at hrun
  | succ fuel ih =>
    obtain ⟨-, -, hlt⟩ := toInt_of_pos hsize
    rw [putLoop, if_neg (by omega)] at hrun
    generalize hread : (faultFree hR suvletVersion wire).here.fread f blockSize.toNat cl.os = r
      at hrun
    obtain ⟨data, f₁, os₁⟩ := r
    have hdata : data.length < 2 ^ 31 := by
      have hle := (faultFree hR suvletVersion wire).here.fread_le f blockSize.toNat cl.os
      rw [hread] at hle
      exact lt_of_le_of_lt hle hlt
    have hos₁ : os₁ = cl.os := by
      have hos : ((faultFree hR suvletVersion wire).here.fread f blockSize.toNat cl.os).2.2 =
        cl.os := rfl
      rw [hread] at hos
      exact hos
    subst hos₁
    by_cases hend : data.length = 0
    · obtain ⟨-, -, hcl⟩ : _ ∧ _ ∧ cl = cl' := by simpa [hend] using hrun
      exact ⟨srv, hcl ▸ h, rewritten_refl hfile⟩
    · simp only [if_neg hend] at hrun
      obtain ⟨⟨exit₁, cl₁⟩, hblock, hrest⟩ := Option.bind_eq_some_iff.mp hrun
      obtain ⟨srv₁, g₁, hstep₁, hopen₁, hg₁, hrewritten⟩ :=
        putBlock_frame hR suvletVersion wire h hopen hfile hdata hblock
      cases exit₁ with
      | some e =>
        obtain ⟨-, -, hcl⟩ : _ ∧ _ ∧ cl₁ = cl' := by simpa using hrest
        exact ⟨srv₁, hcl ▸ hstep₁, hrewritten⟩
      | none =>
        obtain ⟨srv', hstep', hrewritten'⟩ :=
          ih hstep₁ hopen₁ (by rw [hg₁]; exact hrewritten.isSome) hrest
        rw [hg₁] at hrewritten'
        exact ⟨srv', hstep', hrewritten.trans hrewritten'⟩

/-! ## A transfer -/

/-- The client and its suvlet hold these files, and no remote file is open. -/
def Reflects (cl : Client FileSys Stream FileSys) (m : Mirror) : Prop :=
  ∃ srv : Server FileSys Stream, cl.InStep srv ∧ srv.inlineFile = none ∧ docs cl.os = m.here ∧
    docs srv.os = m.there

/-- `scl_il_xfer_exit`, without a remote file that is open. -/
theorem xferExit_closed (h : cl.InStep srv) (hopen : srv.inlineFile = none) (code : ℕ)
    (printErrno killLocalFile : Bool) (f : Option Stream) :
    ∃ cl', sclIlXferExit (faultFree hR suvletVersion wire)
        ⟨code, printErrno, killLocalFile, false⟩ f cl = some (code, cl') ∧
      Reflects cl' ⟨docs cl.os, docs srv.os⟩ := by
  refine ⟨_, rfl, srv, (h.freePacketMem).withOs _, hopen, ?_, rfl⟩
  cases killLocalFile <;> cases f <;> rfl

/-- `scl_il_xfer_exit` closes the remote file. -/
theorem xferExit_open (h : cl.InStep srv) (hopen : srv.inlineFile.isSome = true) (code : ℕ)
    (printErrno killLocalFile : Bool) (f : Option Stream) :
    ∃ cl', sclIlXferExit (faultFree hR suvletVersion wire) ⟨code, printErrno, killLocalFile, true⟩ f
        cl = some (code, cl') ∧ Reflects cl' ⟨docs cl.os, docs srv.os⟩ := by
  obtain ⟨cl', srv', hexit, hstep, hclosed, hos, hsos⟩ :=
    sclIlXferExit_open hR suvletVersion wire h hopen code printErrno killLocalFile f
  exact ⟨cl', hexit, srv', hstep, hclosed, by rw [hos], by rw [hsos]⟩

theorem fileName_of_eq {s : CStr} {name : FileName} (h : FileName.of (some s) = some name) :
    s = name.path := by
  simp only [FileName.of, Option.bind_some] at h
  split_ifs at h
  rw [← Option.some.inj h]

/-- An empty name is no name, before and behind the packet. -/
theorem fileName_of_norm (s : CStr) : FileName.of (normStr (some s)) = FileName.of (some s) := by
  simp only [normStr]
  split_ifs with h
  · simp [FileName.of, h]
  · rfl

/-- The mode the local file is opened with. -/
def localMode : Direction → CStr
  | .get => ⟨chars "w", chars_w⟩
  | .put => ⟨chars "r", chars_r⟩

/-- Opening a remote file for reading. -/
theorem fopen_remote (s : CStr) (fs : FileSys) :
    FileSys.libc.fopen (normStr (some s)) ⟨chars "r", chars_r⟩ fs =
      ((FileName.of (some s)).bind fun name => (fs.files name).map fun _ => ⟨name, 0⟩, fs) := by
  simp only [FileSys.libc, fileName_of_norm]
  cases FileName.of (some s) with
  | none => rfl
  | some name => exact if_neg (by decide)

/-- The version and the local file come first. -/
theorem xferEx_start (h : cl.InStep srv) (hclosed : srv.inlineFile = none) :
    ∃ cl₁ srv₁, cl₁.InStep srv₁ ∧ srv₁.inlineFile = none ∧ cl₁.os = cl.os ∧ srv₁.os = srv.os ∧
      sclIlGetApiVersion (faultFree hR suvletVersion wire) cl = some (suvaApiVersion, cl₁) := by
  obtain ⟨cl₁, srv₁, hinfo, hexch, hopen, hos⟩ :=
    sclIlGetApiVersion_spec (faultFree hR suvletVersion wire) h
  exact ⟨cl₁, srv₁, hexch.inStep, hopen.trans hclosed, hexch.os, hos, hinfo⟩

/-- Without a local file the transfer ends with exit code 1. -/
theorem xferEx_failed {m : Mirror} (h : Reflects cl m) {s : CStr} (r : Option CStr)
    {direction : Direction}
    (hopen : FileSys.libc.fopen (some s) (localMode direction) cl.os = (none, cl.os))
    (blockSize : BitVec 32) (fuel : ℕ) :
    ∃ cl', sclIlXferEx (faultFree hR suvletVersion wire) fuel (some s) r direction blockSize cl =
      some (1, cl') ∧ Reflects cl' m := by
  obtain ⟨srv, hstep, hclosed, hhere, hthere⟩ := h
  obtain ⟨cl₁, srv₁, hstep₁, hclosed₁, hos₁, hsos₁, hinfo⟩ :=
    xferEx_start hR suvletVersion wire hstep hclosed
  obtain ⟨cl', hexit, hhold⟩ :=
    xferExit_closed hR suvletVersion wire hstep₁ hclosed₁ 1 false false none
  rw [hos₁, hsos₁, hhere, hthere] at hhold
  have hlocal : (faultFree hR suvletVersion wire).here.fopen (some s) (localMode direction) cl₁.os =
      (none, cl₁.os) := by
    rw [hos₁]
    exact hopen
  refine ⟨cl', ?_, hhold⟩
  simp only [sclIlXferEx, hinfo, Option.bind_eq_bind, Option.bind_some]
  cases direction with
  | get =>
    have hget : (faultFree hR suvletVersion wire).here.fopen (some s) ⟨chars "w", chars_w⟩ cl₁.os =
      (none, cl₁.os) := hlocal
    simp only [hget]
    exact hexit
  | put =>
    have hput : (faultFree hR suvletVersion wire).here.fopen (some s) ⟨chars "r", chars_r⟩ cl₁.os =
      (none, cl₁.os) := hlocal
    simp only [hput]
    exact hexit

/-! ### GET -/

/-- A GET up to its loop. -/
theorem xferGet_start (h : cl.InStep srv) (hclosed : srv.inlineFile = none) (l : FileName)
    {r : CStr} (hr : r.val.length < 2 ^ 31 - 1) (blockSize : BitVec 32) :
    ∃ (cl' : Client FileSys Stream FileSys) (srv' : Server FileSys Stream), cl'.InStep srv' ∧
      cl'.os = cl.os.setContent l [] ∧ srv'.os = srv.os ∧
      srv'.inlineFile =
        (FileName.of (some r)).bind (fun name => (srv.os.files name).map fun _ => ⟨name, 0⟩) ∧
      ∀ fuel, sclIlXferEx (faultFree hR suvletVersion wire) fuel (some l.path) (some r) .get
          blockSize cl =
        if srv'.inlineFile.isSome then
          (getLoop (faultFree hR suvletVersion wire) blockSize fuel ⟨l, 0⟩ cl').bind fun x =>
            getEnd (faultFree hR suvletVersion wire) (some l.path)
              (modeOf (FileSys.libc.stat (normStr (some r)) srv.os)) x.1 x.2.1 x.2.2
        else sclIlXferExit (faultFree hR suvletVersion wire) ⟨4, false, true, false⟩
          (some ⟨l, 0⟩) cl' := by
  have hrlen : (strBytes (some r)).length < 2 ^ 31 - 1 := hr
  obtain ⟨cl₁, srv₁, hstep₁, -, hos₁, hsos₁, hinfo⟩ :=
    xferEx_start hR suvletVersion wire h hclosed
  have hcreate : (faultFree hR suvletVersion wire).here.fopen (some l.path) ⟨chars "w", chars_w⟩
      cl₁.os = (some ⟨l, 0⟩, cl₁.os.setContent l []) := FileSys.fopen_write rfl
  obtain ⟨size, cl₂, srv₂, rs, hmode, hexch₂, -, hos₂⟩ :=
    getFsizeMode_spec (faultFree hR suvletVersion wire)
      (hstep₁.withOs (cl₁.os.setContent l [])) hrlen
  obtain ⟨cl₃, srv₃, rs', hopen, hexch₃, hfile₃, hos₃⟩ :=
    openRemote_spec (faultFree hR suvletVersion wire) hexch₂.inStep hrlen
      (show (⟨chars "r", chars_r⟩ : CStr).val.length = 1 by decide)
  have hread : (faultFree hR suvletVersion wire).remote.fopen (normStr (some r))
      ⟨chars "r", chars_r⟩ srv₂.os = _ := fopen_remote r srv₂.os
  rw [hread, hos₂, hsos₁] at hopen hfile₃ hos₃
  have hstat : (faultFree hR suvletVersion wire).remote.stat (normStr (some r)) srv₁.os =
      FileSys.libc.stat (normStr (some r)) srv.os := by
    rw [hsos₁]
    rfl
  rw [hstat] at hmode
  refine ⟨cl₃, srv₃, hexch₃.inStep, ?_, hos₃, hfile₃, fun fuel => ?_⟩
  · rw [hexch₃.os, hexch₂.os, hos₁]
  · have hvers : (3 : ℤ) ≤ suvaApiVersion.toInt := by decide
    simp only [sclIlXferEx, hinfo, hcreate, xferGet, if_pos hvers, hmode, hopen, hfile₃,
      Option.bind_eq_bind, Option.bind_some]
    split_ifs with hsome <;> rfl

/-- Behind the loop of a GET that has gone well. -/
theorem getEnd_done (h : cl.InStep srv) (hopen : srv.inlineFile.isSome = true) {l : FileName}
    {file : File} (hfile : cl.os.files l = some file) (size : ℤ) (mode : BitVec 32) (f : Stream) :
    ∃ cl', getEnd (faultFree hR suvletVersion wire) (some l.path)
      (modeOf (some (size, mode))) none f
        cl = some (0, cl') ∧
      Reflects cl' ⟨Function.update (docs cl.os) l (some ⟨file.content, mode &&& 0xfff⟩),
        docs srv.os⟩ := by
  have hmode : modeOf (some (size, mode)) ≠ -1 := by
    intro hneg
    simpa using (modeOf_eq_neg_one_iff _).mp hneg
  have hperm : modeOf (some (size, mode)) &&& 0xfff = mode &&& 0xfff := by
    rw [modeOf, BitVec.and_assoc, BitVec.and_self]
  obtain ⟨cl', hrun, hhold⟩ := xferExit_open hR suvletVersion wire
    (h.withOs (FileSys.libc.chmod (some l.path) (modeOf (some (size, mode))) cl.os).2) hopen 0 false
    true (some f)
  refine ⟨cl', ?_, ?_⟩
  · rw [← hrun]
    simp only [getEnd, if_pos hmode]
    rfl
  · rw [← hperm, ← docs_chmod hfile]
    exact hhold

/-- The stream of a remote file that is there. -/
theorem openStream_eq (of : Option FileName) (fs : FileSys) :
    (of.bind fun name => (fs.files name).map fun _ => (⟨name, 0⟩ : Stream)) =
      (of.bind fun name => (docs fs name).map fun _ => ⟨name, 0⟩) := by
  cases of with
  | none => rfl
  | some name =>
    simp only [docs, Option.bind_some, Option.map_map]
    rfl

/-- A GET of a file that is there, from its loop on. -/
theorem xferGet_end (h : cl.InStep srv) {l r : FileName} {d : Doc}
    (hopen : srv.inlineFile = some ⟨r, 0⟩) (hl : docs cl.os l = some ⟨[], (docs cl.os).permOf l⟩)
    (hr : docs srv.os r = some d) (hsize : 0 < blockSize.toInt) :
    ∃ fuel cl₁ exit f cl', getLoop (faultFree hR suvletVersion wire) blockSize fuel ⟨l, 0⟩ cl =
        some (exit, f, cl₁) ∧
      getEnd (faultFree hR suvletVersion wire) (some l.path)
          (modeOf (FileSys.libc.stat (some r.path) srv.os)) exit f cl₁ =
        some (if blockSize.toNat ∣ d.content.length then 7 else 0, cl') ∧
      Reflects cl' ⟨if blockSize.toNat ∣ d.content.length then (docs cl.os).write l d.content
        else Function.update (docs cl.os) l (some d), docs srv.os⟩ := by
  obtain ⟨lfile, hlfile, hldoc⟩ := Option.map_eq_some_iff.mp hl
  obtain ⟨rfile, hrfile, rfl⟩ := Option.map_eq_some_iff.mp hr
  have hfetching : Fetching cl srv ⟨l, 0⟩ ⟨r, 0⟩ [] rfile.content :=
    ⟨h, hopen, FileSys.content_eq hrfile, rfl, docs_content hl, rfl⟩
  obtain ⟨-, hloop⟩ := getLoop_spec hR suvletVersion wire hfetching hsize
    (rfile.content.length / blockSize.toNat + 1)
  obtain ⟨f, cl₁, hrun, srv₁, hstep₁, -, hcontent⟩ := hloop (Nat.lt_succ_self _)
  obtain ⟨hrewritten, srv₂, hstep₂, hopen₂, hsos₂⟩ :=
    getLoop_frame hR suvletVersion wire h hopen hsize (by simp [hlfile]) hrun
  have hcontent : cl₁.os.content l = rfile.content := hcontent
  have hdocs : docs cl₁.os = (docs cl.os).write l rfile.content := by rw [hrewritten, hcontent]
  have hstat : FileSys.libc.stat (some r.path) srv.os =
      some ((rfile.content.length : ℤ), rfile.mode) := by simp [FileSys.libc, hrfile]
  rw [hstat]
  by_cases hdvd : blockSize.toNat ∣ rfile.content.length
  · have hdvd' : blockSize.toNat ∣ (doc rfile).content.length := hdvd
    rw [if_pos hdvd] at hrun
    obtain ⟨cl', hexit, hhold⟩ :=
      xferExit_open hR suvletVersion wire hstep₂ hopen₂ 7 true true (some f)
    rw [hdocs, hsos₂] at hhold
    refine ⟨_, cl₁, _, f, cl', hrun, ?_, ?_⟩
    · rw [if_pos hdvd']
      exact hexit
    · rw [if_pos hdvd']
      exact hhold
  · have hdvd' : ¬ blockSize.toNat ∣ (doc rfile).content.length := hdvd
    rw [if_neg hdvd] at hrun
    obtain ⟨lfile', hlfile'⟩ := Option.isSome_iff_exists.mp hrewritten.isSome
    obtain ⟨cl', hexit, hhold⟩ := getEnd_done hR suvletVersion wire hstep₂ hopen₂ hlfile'
      rfile.content.length rfile.mode f
    have hbytes : lfile'.content = rfile.content := by
      rw [← hcontent]
      exact (FileSys.content_eq hlfile').symm
    rw [hdocs, hsos₂, hbytes, Docs.write, Function.update_idem] at hhold
    refine ⟨_, cl₁, _, f, cl', hrun, ?_, ?_⟩
    · rw [if_neg hdvd']
      exact hexit
    · rw [if_neg hdvd']
      exact hhold

/-- A GET: the remote file is copied, and the permissions too unless the last block was
    full. -/
theorem get_copy {m : Mirror} (h : Reflects cl m) {x : Transfer} (hget : x.direction = .get) :
    ∃ fuel cl', sclIlXferEx (faultFree hR suvletVersion wire) fuel (some x.localName)
        (some x.remoteName) x.direction x.blockSize cl = some ((copy m x).1, cl') ∧
      Reflects cl' (copy m x).2 := by
  obtain ⟨srv, hstep, hclosed, hhere, hthere⟩ := id h
  rw [hget]
  cases hl : FileName.of (some x.localName) with
  | none =>
    have hfail : FileSys.libc.fopen (some x.localName) (localMode .get) cl.os = (none, cl.os) := by
      simp only [FileSys.libc, hl]
    obtain ⟨cl', hrun, hhold⟩ :=
      xferEx_failed hR suvletVersion wire h (some x.remoteName) hfail x.blockSize 0
    have hcopy : copy m x = (1, m) := by simp [copy, hget, hl]
    rw [hcopy]
    exact ⟨0, cl', hrun, hhold⟩
  | some l =>
    rw [fileName_of_eq hl]
    obtain ⟨cl₁, srv₁, hstep₁, hos₁, hsos₁, hopen₁, hstart⟩ :=
      xferGet_start hR suvletVersion wire hstep hclosed l x.remoteName_lt x.blockSize
    have hhere₁ : docs cl₁.os = m.here.write l [] := by rw [hos₁, docs_setContent, hhere]
    have hthere₁ : docs srv₁.os = m.there := by rw [hsos₁, hthere]
    rw [openStream_eq, hthere] at hopen₁
    cases hr : (FileName.of (some x.remoteName)).bind m.there with
    | none =>
      have hclosed₁ : srv₁.inlineFile = none := by
        rw [hopen₁]
        cases hname : FileName.of (some x.remoteName) with
        | none => rfl
        | some r =>
          rw [hname, Option.bind_some] at hr
          simp [hr]
      obtain ⟨cl', hexit, hhold⟩ :=
        xferExit_closed hR suvletVersion wire hstep₁ hclosed₁ 4 false true (some ⟨l, 0⟩)
      have hcopy : copy m x = (4, { m with here := m.here.write l [] }) := by
        simp [copy, hget, hl, hr]
      rw [hcopy]
      refine ⟨0, cl', ?_, ?_⟩
      · rw [hstart, hclosed₁]
        exact hexit
      · rw [hhere₁, hthere₁] at hhold
        exact hhold
    | some d =>
      obtain ⟨r, hname, hdoc⟩ := Option.bind_eq_some_iff.mp hr
      have hstream : srv₁.inlineFile = some ⟨r, 0⟩ := by
        rw [hopen₁, hname]
        simp [hdoc]
      have hempty : docs cl₁.os l = some ⟨[], (docs cl₁.os).permOf l⟩ := by
        rw [hhere₁, permOf_write]
        exact Function.update_self ..
      obtain ⟨fuel, cl₂, exit, f, cl', hloop, hend, hhold⟩ :=
        xferGet_end hR suvletVersion wire hstep₁ hstream hempty (by rw [hthere₁, hdoc])
          x.blockSize_pos
      have hcode : (copy m x).1 = if x.blockSize.toNat ∣ d.content.length then 7 else 0 := by
        simp only [copy, hget, hl, hr]
        split_ifs <;> rfl
      have hleft : (copy m x).2 = ⟨if x.blockSize.toNat ∣ d.content.length then
          m.here.write l d.content else Function.update m.here l (some d), m.there⟩ := by
        simp only [copy, hget, hl, hr]
        split_ifs <;> rfl
      have hupdate : Function.update (m.here.write l []) l (some d) =
          Function.update m.here l (some d) := by rw [Docs.write, Function.update_idem]
      refine ⟨fuel, cl', ?_, ?_⟩
      · rw [hcode, hstart, if_pos (by simp [hstream]), hloop, fileName_of_eq hname,
          FileName.normStr_path, ← hsos₁]
        exact hend
      · rw [hhere₁, hthere₁, write_write, hupdate] at hhold
        rw [hleft]
        exact hhold

/-! ### PUT -/

/-- Behind the loop of a PUT. -/
theorem putEnd_done (h : cl.InStep srv) (hopen : srv.inlineFile.isSome = true) {r : FileName}
    {file : File} (hfile : srv.os.files r = some file) (mode : BitVec 32) (f : Stream) :
    ∃ cl', putEnd (faultFree hR suvletVersion wire) (some r.path) mode suvaApiVersion none f cl =
        some (0, cl') ∧
      Reflects cl' ⟨docs cl.os,
        Function.update (docs srv.os) r (some ⟨file.content, mode &&& 0xfff⟩)⟩ := by
  have hrlen : (strBytes (some r.path)).length < 2 ^ 31 - 1 := lt_trans r.length_lt (by decide)
  obtain ⟨v, cl₁, srv₁, hset, hstep₁, hos₁, hopen₁, hsos₁, -⟩ :=
    setRemoteMode_spec (faultFree hR suvletVersion wire) h hrlen mode
  have hchmod : srv₁.os = (FileSys.libc.chmod (some r.path) mode srv.os).2 := by
    rw [hsos₁, FileName.normStr_path]
    rfl
  obtain ⟨cl', hexit, hhold⟩ := xferExit_open hR suvletVersion wire hstep₁
    (by rw [hopen₁]; exact hopen) 0 false true (some f)
  rw [hos₁, hchmod, docs_chmod hfile] at hhold
  have hvers : (3 : ℤ) ≤ suvaApiVersion.toInt := by decide
  refine ⟨cl', ?_, hhold⟩
  simp only [putEnd, if_pos hvers, hset]
  exact hexit

/-- A PUT of a file that is there, up to the open remote file. -/
theorem xferPut_start (h : cl.InStep srv) (hclosed : srv.inlineFile = none) {l : FileName}
    {file : File} (hfile : cl.os.files l = some file) {r : CStr} (hr : r.val.length < 2 ^ 31 - 1)
    (blockSize : BitVec 32) :
    ∃ (cl' : Client FileSys Stream FileSys) (srv' : Server FileSys Stream), cl'.InStep srv' ∧
      cl'.os = cl.os ∧
      (srv'.inlineFile, srv'.os) = FileSys.libc.fopen (some r) ⟨chars "w", chars_w⟩ srv.os ∧
      ∀ fuel, sclIlXferEx (faultFree hR suvletVersion wire) fuel (some l.path) (some r) .put
          blockSize cl =
        if srv'.inlineFile.isSome then
          (putLoop (faultFree hR suvletVersion wire) blockSize fuel ⟨l, 0⟩ cl').bind fun x =>
            putEnd (faultFree hR suvletVersion wire)
              (some r) file.mode suvaApiVersion x.1 x.2.1 x.2.2
        else sclIlXferExit (faultFree hR suvletVersion wire) ⟨4, false, true, false⟩
          (some ⟨l, 0⟩) cl' := by
  have hrlen : (strBytes (some r)).length < 2 ^ 31 - 1 := hr
  obtain ⟨cl₁, srv₁, hstep₁, -, hos₁, hsos₁, hinfo⟩ :=
    xferEx_start hR suvletVersion wire h hclosed
  rw [← hos₁] at hfile
  have hread : (faultFree hR suvletVersion wire).here.fopen (some l.path) ⟨chars "r", chars_r⟩
      cl₁.os = (some ⟨l, 0⟩, cl₁.os) := FileSys.fopen_read hfile (by decide)
  have hstat : (faultFree hR suvletVersion wire).here.stat (some l.path) cl₁.os =
      some ((file.content.length : ℤ), file.mode) := by
    simp [faultFree, FileSys.libc, hfile]
  obtain ⟨cl₂, srv₂, rs, hopen, hexch₂, hfile₂, hos₂⟩ :=
    openRemote_spec (faultFree hR suvletVersion wire) hstep₁ hrlen
      (show (⟨chars "w", chars_w⟩ : CStr).val.length = 1 by decide)
  have hcreate : (faultFree hR suvletVersion wire).remote.fopen (normStr (some r))
      ⟨chars "w", chars_w⟩ srv₁.os = FileSys.libc.fopen (some r) ⟨chars "w", chars_w⟩ srv.os := by
    rw [hsos₁]
    simp only [faultFree, FileSys.libc, fileName_of_norm]
  rw [hcreate] at hopen hfile₂ hos₂
  refine ⟨cl₂, srv₂, hexch₂.inStep, hexch₂.os.trans hos₁, by rw [hfile₂, hos₂], fun fuel => ?_⟩
  simp only [sclIlXferEx, hinfo, hread, xferPut, hstat, hopen, hfile₂, Option.bind_eq_bind,
    Option.bind_some]
  split_ifs with hsome <;> rfl

/-- A PUT between files that are open, from its loop on. -/
theorem xferPut_end (h : cl.InStep srv) {l r : FileName} {file : File} {there : Docs}
    (hfile : cl.os.files l = some file) (hopen : srv.inlineFile = some ⟨r, 0⟩)
    (hthere : docs srv.os = there.write r []) (hsize : 0 < blockSize.toInt) :
    ∃ fuel cl₁ f cl', putLoop (faultFree hR suvletVersion wire) blockSize fuel ⟨l, 0⟩ cl =
        some (none, f, cl₁) ∧
      putEnd (faultFree hR suvletVersion wire) (some r.path) file.mode suvaApiVersion none f cl₁ =
        some (0, cl') ∧
      Reflects cl' ⟨docs cl.os, Function.update there r (some (doc file))⟩ := by
  have hrdoc : docs srv.os r = some ⟨[], there.permOf r⟩ := by
    rw [hthere]
    exact Function.update_self ..
  obtain ⟨rfile, hrfile, -⟩ := Option.map_eq_some_iff.mp hrdoc
  have hsending : Sending cl srv ⟨l, 0⟩ ⟨r, 0⟩ [] file.content :=
    ⟨h, hopen, FileSys.content_eq hfile, rfl, docs_content hrdoc, rfl⟩
  obtain ⟨f, cl₁, srv₁, blocks, xs, hrun, hsent⟩ :=
    putLoop_spec hR suvletVersion wire hsending hsize
      (Nat.lt_succ_self (blockCount blockSize.toNat file.content.length))
  obtain ⟨srv₂, hstep₂, hrewritten⟩ :=
    putLoop_frame hR suvletVersion wire h hopen hsize (by simp [hrfile]) hrun
  have hsame : srv₁ = srv₂ := Option.some.inj (hsent.inStep.server.symm.trans hstep₂.server)
  subst hsame
  have hcontent : srv₁.os.content r = file.content := hsent.remote
  obtain ⟨rfile', hrfile'⟩ := Option.isSome_iff_exists.mp hrewritten.isSome
  have hdocs : docs srv₁.os = there.write r file.content := by
    rw [hrewritten, hcontent, hthere, write_write]
  obtain ⟨cl', hend, hhold⟩ :=
    putEnd_done hR suvletVersion wire hsent.inStep hsent.isOpen hrfile' file.mode f
  have hbytes : rfile'.content = file.content := by
    rw [← hcontent]
    exact (FileSys.content_eq hrfile').symm
  rw [hsent.here, hdocs, hbytes, Docs.write, Function.update_idem] at hhold
  exact ⟨_, cl₁, f, cl', hrun, hend, hhold⟩

/-- A PUT: the local file is copied. -/
theorem put_copy {m : Mirror} (h : Reflects cl m) {x : Transfer} (hput : x.direction = .put) :
    ∃ fuel cl', sclIlXferEx (faultFree hR suvletVersion wire) fuel (some x.localName)
        (some x.remoteName) x.direction x.blockSize cl = some ((copy m x).1, cl') ∧
      Reflects cl' (copy m x).2 := by
  obtain ⟨srv, hstep, hclosed, hhere, hthere⟩ := id h
  rw [hput]
  cases hl : (FileName.of (some x.localName)).bind m.here with
  | none =>
    have hfail : FileSys.libc.fopen (some x.localName) (localMode .put) cl.os = (none, cl.os) := by
      cases hname : FileName.of (some x.localName) with
      | none => simp only [FileSys.libc, hname]
      | some l =>
        rw [hname, Option.bind_some, ← hhere] at hl
        have hnone : cl.os.files l = none := Option.map_eq_none_iff.mp hl
        simp only [FileSys.libc, hname, hnone]
        exact if_neg (by decide)
    obtain ⟨cl', hrun, hhold⟩ :=
      xferEx_failed hR suvletVersion wire h (some x.remoteName) hfail x.blockSize 0
    have hcopy : copy m x = (1, m) := by simp [copy, hput, hl]
    rw [hcopy]
    exact ⟨0, cl', hrun, hhold⟩
  | some d =>
    obtain ⟨l, hname, hdoc⟩ := Option.bind_eq_some_iff.mp hl
    rw [← hhere] at hdoc
    obtain ⟨file, hfile, rfl⟩ := Option.map_eq_some_iff.mp hdoc
    rw [fileName_of_eq hname]
    obtain ⟨cl₁, srv₁, hstep₁, hos₁, hopen₁, hstart⟩ :=
      xferPut_start hR suvletVersion wire hstep hclosed hfile x.remoteName_lt x.blockSize
    cases hr : FileName.of (some x.remoteName) with
    | none =>
      have hfail : FileSys.libc.fopen (some x.remoteName) ⟨chars "w", chars_w⟩ srv.os =
          (none, srv.os) := by simp only [FileSys.libc, hr]
      obtain ⟨hclosed₁, hsos₁⟩ := Prod.mk.inj (hopen₁.trans hfail)
      obtain ⟨cl', hexit, hhold⟩ :=
        xferExit_closed hR suvletVersion wire hstep₁ hclosed₁ 4 false true (some ⟨l, 0⟩)
      have hcopy : copy m x = (4, m) := by simp only [copy, hput, hl, hr]
      rw [hcopy]
      refine ⟨0, cl', ?_, ?_⟩
      · rw [hstart, hclosed₁]
        exact hexit
      · rw [hos₁, hsos₁, hhere, hthere] at hhold
        exact hhold
    | some r =>
      have hcreate : FileSys.libc.fopen (some x.remoteName) ⟨chars "w", chars_w⟩ srv.os =
          (some ⟨r, 0⟩, srv.os.setContent r []) := by
        rw [fileName_of_eq hr]
        exact FileSys.fopen_write rfl
      obtain ⟨hstream, hsos₁⟩ := Prod.mk.inj (hopen₁.trans hcreate)
      have hthere₁ : docs srv₁.os = m.there.write r [] := by rw [hsos₁, docs_setContent, hthere]
      obtain ⟨fuel, cl₂, f, cl', hloop, hend, hhold⟩ := xferPut_end hR suvletVersion wire hstep₁
        (by rw [hos₁]; exact hfile) hstream hthere₁ x.blockSize_pos
      have hcopy : copy m x =
          (0, { m with there := Function.update m.there r (some (doc file)) }) := by
        simp only [copy, hput, hl, hr]
      rw [hcopy]
      refine ⟨fuel, cl', ?_, ?_⟩
      · rw [hstart, if_pos (by simp [hstream]), hloop, fileName_of_eq hr]
        exact hend
      · rw [hos₁, hhere] at hhold
        exact hhold

/-! ## Any number of transfers -/

variable (P : Parties FileSys Stream FileSys Stream)

/-- `scl_il_xfer_ex` returns. -/
def transferReturns (cl : Client FileSys Stream FileSys) (x : Transfer) (code : ℕ)
    (cl' : Client FileSys Stream FileSys) : Prop :=
  ∃ fuel, sclIlXferEx P fuel (some x.localName) (some x.remoteName) x.direction x.blockSize cl =
    some (code, cl')

/-- A transfer is a copy. -/
theorem transfer_simulates :
    Simulates (transferReturns (faultFree hR suvletVersion wire)) (fun m x => some (copy m x))
      Reflects := by
  rintro cl m x code m' hhold hcopy
  obtain ⟨rfl, rfl⟩ := Prod.mk.inj (Option.some.inj hcopy)
  have hrun : ∃ fuel cl', sclIlXferEx (faultFree hR suvletVersion wire) fuel (some x.localName)
      (some x.remoteName) x.direction x.blockSize cl = some ((copy m x).1, cl') ∧
      Reflects cl' (copy m x).2 := by
    cases hdir : x.direction with
    | get => exact hdir ▸ get_copy hR suvletVersion wire hhold hdir
    | put => exact hdir ▸ put_copy hR suvletVersion wire hhold hdir
  obtain ⟨fuel, cl', hrun, hhold'⟩ := hrun
  exact ⟨cl', ⟨fuel, hrun⟩, hhold'⟩

/-- The exit codes of copies made one after another, and the files then. -/
def copies : Mirror → List Transfer → List ℕ × Mirror
  | m, [] => ([], m)
  | m, x :: xs => ((copy m x).1 :: (copies (copy m x).2 xs).1, (copies (copy m x).2 xs).2)

theorem specRun_copy (m : Mirror) (xs : List Transfer) :
    specRun (fun m x => some (copy m x)) m xs = some (copies m xs) := by
  induction xs generalizing m with
  | nil => rfl
  | cons x xs ih =>
    rw [specRun, Option.bind_some, ih]
    rfl

section

variable {σ φ τ ψ : Type} {P : Parties σ φ τ ψ} {cl : Client σ φ τ} {blockSize : BitVec 32} {f : ψ}
  {fuel fuel' : ℕ}

theorem getLoop_mono {r : Option Exit × ψ × Client σ φ τ} (hle : fuel ≤ fuel')
    (h : getLoop P blockSize fuel f cl = some r) : getLoop P blockSize fuel' f cl = some r := by
  induction fuel generalizing fuel' f cl with
  | zero => simp [getLoop] at h
  | succ fuel ih =>
    obtain ⟨fuel', rfl⟩ : ∃ k, fuel' = k + 1 := ⟨fuel' - 1, by omega⟩
    obtain ⟨⟨result, f₁, cl₁⟩, hblock, hrest⟩ := Option.bind_eq_some_iff.mp h
    refine Option.bind_eq_some_iff.mpr ⟨_, hblock, ?_⟩
    cases result with
    | error e => exact hrest
    | ok dataLen =>
      simp only at hrest ⊢
      split_ifs at hrest ⊢
      · exact hrest
      · exact ih (by omega) hrest

theorem putLoop_mono {r : Option Exit × ψ × Client σ φ τ} (hle : fuel ≤ fuel')
    (h : putLoop P blockSize fuel f cl = some r) : putLoop P blockSize fuel' f cl = some r := by
  induction fuel generalizing fuel' f cl with
  | zero => simp [putLoop] at h
  | succ fuel ih =>
    obtain ⟨fuel', rfl⟩ : ∃ k, fuel' = k + 1 := ⟨fuel' - 1, by omega⟩
    rw [putLoop] at h ⊢
    split_ifs at h ⊢
    simp only at h ⊢
    split_ifs at h ⊢
    · exact h
    · obtain ⟨⟨exit, cl₁⟩, hblock, hrest⟩ := Option.bind_eq_some_iff.mp h
      refine Option.bind_eq_some_iff.mpr ⟨_, hblock, ?_⟩
      cases exit with
      | some e => exact hrest
      | none => exact ih (by omega) hrest

theorem xferGet_mono {l r : Option CStr} {vers : BitVec 32} {res : ℕ × Client σ φ τ}
    (hle : fuel ≤ fuel') (h : xferGet P fuel l r blockSize vers f cl = some res) :
    xferGet P fuel' l r blockSize vers f cl = some res := by
  simp only [xferGet, Option.bind_eq_bind] at h ⊢
  split_ifs at h ⊢
  all_goals
    simp only [Option.bind_eq_some_iff] at h ⊢
    obtain ⟨⟨size, mode, cl₂⟩, hmode, ⟨exit, cl₃⟩, hopen, h⟩ := h
    refine ⟨_, hmode, _, hopen, ?_⟩
    cases exit with
    | some e => exact h
    | none =>
      simp only [Option.bind_eq_some_iff] at h ⊢
      obtain ⟨r, hloop, h⟩ := h
      exact ⟨r, getLoop_mono hle hloop, h⟩

theorem xferPut_mono {l r : Option CStr} {vers : BitVec 32} {res : ℕ × Client σ φ τ}
    (hle : fuel ≤ fuel') (h : xferPut P fuel l r blockSize vers f cl = some res) :
    xferPut P fuel' l r blockSize vers f cl = some res := by
  simp only [xferPut] at h ⊢
  cases hstat : P.here.stat l cl.os with
  | none =>
    rw [hstat] at h
    exact h
  | some st =>
    simp only [hstat, Option.bind_eq_bind, Option.bind_eq_some_iff] at h ⊢
    obtain ⟨⟨exit, cl₃⟩, hopen, h⟩ := h
    refine ⟨_, hopen, ?_⟩
    cases exit with
    | some e => exact h
    | none =>
      simp only [Option.bind_eq_some_iff] at h ⊢
      obtain ⟨r, hloop, h⟩ := h
      exact ⟨r, putLoop_mono hle hloop, h⟩

/-- More fuel does not change a transfer that has ended. -/
theorem sclIlXferEx_mono {l r : Option CStr} {direction : Direction} {res : ℕ × Client σ φ τ}
    (hle : fuel ≤ fuel') (h : sclIlXferEx P fuel l r direction blockSize cl = some res) :
    sclIlXferEx P fuel' l r direction blockSize cl = some res := by
  simp only [sclIlXferEx, Option.bind_eq_bind, Option.bind_eq_some_iff] at h ⊢
  obtain ⟨⟨vers, cl₁⟩, hvers, h⟩ := h
  refine ⟨_, hvers, ?_⟩
  cases direction with
  | get =>
    cases hopen : (P.here.fopen l ⟨chars "w", chars_w⟩ cl₁.os).1 with
    | none =>
      simp only [hopen] at h ⊢
      exact h
    | some f =>
      simp only [hopen] at h ⊢
      exact xferGet_mono hle h
  | put =>
    cases hopen : (P.here.fopen l ⟨chars "r", chars_r⟩ cl₁.os).1 with
    | none =>
      simp only [hopen] at h ⊢
      exact h
    | some f =>
      simp only [hopen] at h ⊢
      exact xferPut_mono hle h

end

theorem transfer_deterministic : Deterministic (transferReturns P) := by
  rintro cl x code code' cl₁ cl₂ ⟨fuel, hrun⟩ ⟨fuel', hrun'⟩
  have h := sclIlXferEx_mono (Nat.le_max_left fuel fuel') hrun
  have h' := sclIlXferEx_mono (Nat.le_max_right fuel fuel') hrun'
  exact Prod.mk.inj (Option.some.inj (h.symm.trans h'))

/-- Every run of transfers is a run of copies. -/
theorem reflects_of_runs {m : Mirror} (h : Reflects cl m) {xs : List Transfer} {codes : List ℕ}
    (hrun : Runs (transferReturns (faultFree hR suvletVersion wire)) cl xs codes cl') :
    codes = (copies m xs).1 ∧ Reflects cl' (copies m xs).2 :=
  (transfer_simulates hR suvletVersion wire).of_runs (transfer_deterministic _) h
    (specRun_copy m xs) hrun

/-- Any number of transfers in any order: all of them return, with the exit codes of the
    copies, and leave the files of both machines as the copies do. -/
theorem transfers_refine {m : Mirror} (h : Reflects cl m) (xs : List Transfer) :
    (∃ codes cl', Runs (transferReturns (faultFree hR suvletVersion wire)) cl xs codes cl') ∧
      ∀ codes cl', Runs (transferReturns (faultFree hR suvletVersion wire)) cl xs codes cl' →
        codes = (copies m xs).1 ∧ Reflects cl' (copies m xs).2 := by
  obtain ⟨cl', hrun, -⟩ :=
    (transfer_simulates hR suvletVersion wire).runs h (specRun_copy m xs)
  exact ⟨⟨_, cl', hrun⟩, fun codes cl' => reflects_of_runs hR suvletVersion wire h⟩

/-- A client and a suvlet, before their first call. -/
theorem reflects_opened (here there : FileSys) :
    Reflects (.opened here (.init there)) ⟨docs here, docs there⟩ :=
  ⟨.init there, Client.inStep_opened here rfl, rfl, rfl, rfl⟩

/-- The names of the examples. -/
def nameB : CStr := ⟨chars "b", by decide⟩

theorem nameB_lt : nameB.val.length < 2 ^ 31 - 1 := by decide

/-- A GET of the file `b`, in blocks of two. -/
def getB : Transfer := ⟨nameB, nameB, .get, 2, by decide, nameB_lt⟩

/-- A PUT of the local file `a` to it. -/
def putAB : Transfer := ⟨fileA.path, nameB, .put, 2, by decide, nameB_lt⟩

/-- Three bytes are sent and fetched back, behind a GET that fails as there is no file yet. -/
theorem transfers_refine_three : ∃ codes cl', Runs (transferReturns plainParties)
      (.opened (oneFile [104, 105, 33]) (.init .empty)) [getB, putAB, getB] codes cl' ∧
    codes = [4, 0, 0] ∧ ∃ m', Reflects cl' m' ∧
      m'.here ⟨nameB, by decide, by decide⟩ = some ⟨[104, 105, 33], 0x1a4⟩ ∧
      m'.there ⟨nameB, by decide, by decide⟩ = some ⟨[104, 105, 33], 0x1a4⟩ := by
  obtain ⟨⟨codes, cl', hrun⟩, hall⟩ := transfers_refine blank_inlines 1 .whole
    (reflects_opened (oneFile [104, 105, 33]) .empty) [getB, putAB, getB]
  obtain ⟨hcodes, hreflects⟩ := hall codes cl' hrun
  refine ⟨codes, cl', hrun, hcodes.trans ?_, _, hreflects, ?_, ?_⟩
  · decide
  · decide
  · decide

/-! ## There and back -/

/-- Transfers that do not send to a file leave it alone. -/
theorem copies_there {m : Mirror} {xs : List Transfer} {r : FileName}
    (hxs : ∀ x ∈ xs, x.direction = .put → x.remoteName ≠ r.path) :
    (copies m xs).2.there r = m.there r := by
  induction xs generalizing m with
  | nil => rfl
  | cons x xs ih =>
    have hfirst : (copy m x).2.there r = m.there r := by
      cases hdir : x.direction with
      | get =>
        simp only [copy, hdir]
        split
        · rfl
        · split
          · rfl
          · split_ifs <;> rfl
      | put =>
        simp only [copy, hdir]
        split
        · rfl
        · split
          · rfl
          · rename_i r' hname
            have hne : r ≠ r' := by
              rintro rfl
              exact hxs x (by simp) hdir (fileName_of_eq hname)
            exact Function.update_of_ne hne ..
    rw [copies, ih fun y hy => hxs y (List.mem_cons_of_mem _ hy), hfirst]

theorem copies_append (m : Mirror) (xs ys : List Transfer) :
    copies m (xs ++ ys) =
      ((copies m xs).1 ++ (copies (copies m xs).2 ys).1, (copies (copies m xs).2 ys).2) := by
  induction xs generalizing m with
  | nil => rfl
  | cons x xs ih => simp [copies, ih]

/-- What has been sent comes back: a PUT, any transfers that do not send to the same remote
    file, and a GET from there, into any local file. The block size of the GET must not
    divide the length. -/
theorem put_get {m : Mirror} (h : Reflects cl m) {put get : Transfer} (xs : List Transfer)
    (hput : put.direction = .put) (hget : get.direction = .get) {l l' r : FileName} {d : Doc}
    (hl : put.localName = l.path) (hr : put.remoteName = r.path) (hr' : get.remoteName = r.path)
    (hl' : get.localName = l'.path) (hd : m.here l = some d)
    (hblock : ¬ get.blockSize.toNat ∣ d.content.length)
    (hxs : ∀ x ∈ xs, x.direction = .put → x.remoteName ≠ r.path) :
    ∃ codes cl', Runs (transferReturns (faultFree hR suvletVersion wire)) cl
        (put :: xs ++ [get]) (0 :: codes ++ [0]) cl' ∧
      ∃ m', Reflects cl' m' ∧ m'.here l' = some d ∧ m'.there r = some d := by
  have hfirst : copy m put = (0, { m with there := Function.update m.there r (some d) }) := by
    simp [copy, hput, hl, hr, hd]
  generalize hm₁ : ({ m with there := Function.update m.there r (some d) } : Mirror) = m₁ at hfirst
  have hthere : (copies m₁ xs).2.there r = some d := by
    rw [copies_there hxs, ← hm₁]
    exact Function.update_self ..
  have hlast : copy (copies m₁ xs).2 get = (0, { (copies m₁ xs).2 with
      here := Function.update (copies m₁ xs).2.here l' (some d) }) := by
    simp [copy, hget, hl', hr', hthere, hblock]
  have hcopies : copies m (put :: xs ++ [get]) = (0 :: (copies m₁ xs).1 ++ [0],
      { (copies m₁ xs).2 with here := Function.update (copies m₁ xs).2.here l' (some d) }) := by
    rw [List.cons_append, copies, hfirst, copies_append]
    simp [copies, hlast]
  have hspec := specRun_copy m (put :: xs ++ [get])
  rw [hcopies] at hspec
  obtain ⟨cl', hrun, hhold⟩ := (transfer_simulates hR suvletVersion wire).runs h hspec
  exact ⟨_, cl', hrun, _, hhold, Function.update_self .., hthere⟩

/-- A name for the file that comes back. -/
def nameC : FileName := ⟨⟨chars "c", by decide⟩, by decide, by decide⟩

/-- Three bytes go out in blocks of two, something else is fetched meanwhile, and they come
    back under another name. -/
theorem put_get_three :
    ∃ codes cl', Runs (transferReturns plainParties)
        (.opened (oneFile [104, 105, 33]) (.init .empty))
        [putAB, getB,
          ⟨nameC.path, nameB, .get, 2, by decide, nameB_lt⟩] (0 :: codes ++ [0]) cl' ∧
      ∃ m', Reflects cl' m' ∧ m'.here nameC = some ⟨[104, 105, 33], 0x1a4⟩ ∧
        m'.there ⟨nameB, by decide, by decide⟩ = some ⟨[104, 105, 33], 0x1a4⟩ := by
  refine put_get blank_inlines 1 .whole (reflects_opened (oneFile [104, 105, 33]) .empty) [getB]
    rfl rfl (l := fileA) rfl rfl rfl rfl (by decide) ?_ ?_
  · show ¬ 2 ∣ 3
    decide
  · intro x hx hdir
    rw [List.mem_singleton.mp hx] at hdir
    cases hdir

end CompatSuva.Local
