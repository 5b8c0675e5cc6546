import CompatSuva.Local.Calls

/-!
# Transfers without faults

`scl_il_xfer_ex` between two machines on which nothing fails, over a connection
without faults: any contents, any block size. The callback is NULL, as `scl_il_xfer` passes it.

* `xferGet_iff`: a GET returns 0 with the file copied iff the block size does not
  divide the length of the file;
* `xferPut_spec`: a PUT sends the file block by block, and the blocks given to the
  remote `fwrite` are the file.
-/

namespace CompatSuva.Local

open CompatSuva.Common CompatSuva.Scl CompatSuva.Suvlet

variable {R : Receiver FileSys Stream} (hR : R.inlines = true) (suvletVersion : BitVec 32)
  (wire : Wire) {cl : Client FileSys Stream FileSys} {srv : Server FileSys Stream}
  {blockSize : BitVec 32}

/-- The block size as a number. -/
theorem toInt_of_pos (hsize : 0 < blockSize.toInt) :
    blockSize.toInt = blockSize.toNat ∧ 0 < blockSize.toNat ∧ blockSize.toNat < 2 ^ 31 := by
  have hcond := BitVec.toInt_eq_toNat_cond blockSize
  have hlt := blockSize.isLt
  split_ifs at hcond <;> omega

/-! ## GET -/

/-- In the loop of a GET: `done` has been copied, `rest` has not. -/
structure Fetching (cl : Client FileSys Stream FileSys) (srv : Server FileSys Stream) (f g : Stream)
    (done rest : List Byte) : Prop where
  inStep : cl.InStep srv
  isOpen : srv.inlineFile = some g
  remote : srv.os.content g.file = done ++ rest
  remotePos : g.pos = done.length
  here : cl.os.content f.file = done
  herePos : f.pos = done.length

/-- The end of the loop of a GET: the file is copied. -/
def Fetched (cl : Client FileSys Stream FileSys) (name : FileName) (bs : List Byte) : Prop :=
  ∃ srv : Server FileSys Stream, cl.InStep srv ∧ srv.inlineFile.isSome = true ∧
    cl.os.content name = bs

/-- One block. -/
theorem getBlock_fetching {f g : Stream} {done rest : List Byte}
    (h : Fetching cl srv f g done rest) (hsize : 0 < blockSize.toInt) :
    let block := rest.take blockSize.toNat
    ∃ f' cl', getBlock (faultFree hR suvletVersion wire) blockSize f cl =
        some (if block = [] then .error ⟨7, true, true, true⟩
          else .ok (block.length : ℤ), f', cl') ∧
      f'.file = f.file ∧
      ∃ srv' g', Fetching cl' srv' f' g' (done ++ block) (rest.drop blockSize.toNat) := by
  intro block
  obtain ⟨hint, hpos, hlt⟩ := toInt_of_pos hsize
  obtain ⟨cl', srv', rs, hrun, hstep, hos, hfile, hsos, -⟩ :=
    getBlock_spec (faultFree hR suvletVersion wire) h.inStep (le_of_lt hsize) h.isOpen f
  have hread : (faultFree hR suvletVersion wire).remote.fread g blockSize.toNat srv.os =
      (block, ⟨g.file, done.length + block.length⟩, srv.os) :=
    FileSys.fread_append h.remote h.remotePos _
  rw [hread] at hrun hos hfile hsos
  have hremote : srv.os.content g.file = done ++ block ++ rest.drop blockSize.toNat := by
    rw [h.remote, List.append_assoc, List.take_append_drop]
  by_cases hempty : block = []
  · have hwrite : (faultFree hR suvletVersion wire).here.fwrite f block cl.os =
        (false, f, cl.os) := by
      rw [hempty]
      rfl
    simp only [hwrite] at hrun hos
    refine ⟨f, cl', by rw [hrun, if_pos hempty]; rfl, rfl, srv', _, hstep, hfile, ?_, ?_, ?_, ?_⟩
    · rw [hsos]
      exact hremote
    · simp
    · rw [hos, hempty, List.append_nil]
      exact h.here
    · rw [hempty, List.append_nil]
      exact h.herePos
  · have hwrite : (faultFree hR suvletVersion wire).here.fwrite f block cl.os = _ :=
      FileSys.fwrite_append h.here h.herePos hempty
    simp only [hwrite] at hrun hos
    refine ⟨⟨f.file, (done ++ block).length⟩, cl', by rw [hrun, if_neg hempty]; simp, rfl, srv', _,
      hstep, hfile, ?_, ?_, ?_, ?_⟩
    · rw [hsos]
      exact hremote
    · simp
    · rw [hos]
      exact FileSys.content_setContent _ _ _
    · simp

/-- The loop of a GET: it takes one more round than there are full blocks, and it ends
    with exit code 7 if there is nothing else. -/
theorem getLoop_spec {f g : Stream} {done rest : List Byte} (h : Fetching cl srv f g done rest)
    (hsize : 0 < blockSize.toInt) (fuel : ℕ) :
    (fuel ≤ rest.length / blockSize.toNat →
      getLoop (faultFree hR suvletVersion wire) blockSize fuel f cl = none) ∧
    (rest.length / blockSize.toNat < fuel → ∃ f' cl',
      getLoop (faultFree hR suvletVersion wire) blockSize fuel f cl =
        some (if blockSize.toNat ∣ rest.length then some ⟨7, true, true, true⟩ else none, f', cl') ∧
      Fetched cl' f.file (done ++ rest)) := by
  obtain ⟨hint, hpos, hlt⟩ := toInt_of_pos hsize
  induction fuel generalizing cl srv f g done rest with
  | zero => exact ⟨fun _ => rfl, fun hlt => absurd hlt (Nat.not_lt_zero _)⟩
  | succ fuel ih =>
    obtain ⟨f', cl', hblock, hf', srv', g', hnext⟩ :=
      getBlock_fetching hR suvletVersion wire h hsize
    rcases Nat.lt_or_ge rest.length blockSize.toNat with hshort | hlong
    · -- the last block, full or empty
      have htake : rest.take blockSize.toNat = rest := List.take_of_length_le (by omega)
      have hdrop : rest.drop blockSize.toNat = [] := List.drop_eq_nil_of_le (by omega)
      rw [htake, hdrop] at hnext
      rw [htake] at hblock
      have hdvd : blockSize.toNat ∣ rest.length ↔ rest = [] := by
        constructor
        · intro hdvd
          exact List.eq_nil_of_length_eq_zero (Nat.eq_zero_of_dvd_of_lt hdvd hshort)
        · rintro rfl
          exact dvd_zero _
      rw [Nat.div_eq_of_lt hshort]
      refine ⟨fun hle => absurd hle (by omega), fun _ => ⟨f', cl', ?_, srv', hnext.inStep, ?_, ?_⟩⟩
      · rw [getLoop, hblock]
        by_cases hempty : rest = []
        · simp [hempty]
        · have hne : (rest.length : ℤ) ≠ blockSize.toInt := by omega
          simp [hempty, hne, hdvd]
      · simp [hnext.isOpen]
      · rw [← hf']
        exact hnext.here
    · -- a full block
      have hlen : (rest.take blockSize.toNat).length = blockSize.toNat := by simp [hlong]
      have hne : rest.take blockSize.toNat ≠ [] := by
        intro hnil
        rw [hnil] at hlen
        simp at hlen
        omega
      rw [if_neg hne, hlen] at hblock
      have hstep : getLoop (faultFree hR suvletVersion wire) blockSize (fuel + 1) f cl =
          getLoop (faultFree hR suvletVersion wire) blockSize fuel f' cl' := by
        rw [getLoop, hblock]
        simp [hint]
      have hdiv : rest.length / blockSize.toNat =
          (rest.length - blockSize.toNat) / blockSize.toNat + 1 :=
        Nat.div_eq_sub_div hpos hlong
      have hdvd : blockSize.toNat ∣ rest.length - blockSize.toNat ↔ blockSize.toNat ∣ rest.length :=
        Nat.dvd_sub_iff_left hlong dvd_rfl
      obtain ⟨hnone, hsome⟩ := ih hnext
      rw [List.length_drop] at hnone hsome
      rw [hstep, hdiv]
      refine ⟨fun hle => hnone (by omega), fun hlt' => ?_⟩
      obtain ⟨f'', cl'', hrun, hfetched⟩ := hsome (by omega)
      refine ⟨f'', cl'', by rw [hrun]; simp only [hdvd], ?_⟩
      rw [hf', List.append_assoc, List.take_append_drop] at hfetched
      exact hfetched

/-- `scl_il_xfer_exit` closes the remote file, and leaves the files as they are. -/
theorem sclIlXferExit_open (h : cl.InStep srv) (hopen : srv.inlineFile.isSome = true) (code : ℕ)
    (printErrno killLocalFile : Bool) (f : Option Stream) :
    ∃ cl' srv', sclIlXferExit (faultFree hR suvletVersion wire)
        ⟨code, printErrno, killLocalFile, true⟩ f cl = some (code, cl') ∧
      cl'.InStep srv' ∧ srv'.inlineFile = none ∧ cl'.os = cl.os ∧ srv'.os = srv.os := by
  obtain ⟨file, hfile⟩ := Option.isSome_iff_exists.mp hopen
  obtain ⟨cl₁, srv', hclose, hexch, hclosed, hos⟩ :=
    closeRemote_spec (faultFree hR suvletVersion wire) h.freePacketMem hfile
  refine ⟨_, srv', by simp only [sclIlXferExit, if_true, hclose, Option.bind_eq_bind,
    Option.bind_some]; rfl, hexch.inStep.withOs _, hclosed, ?_, hos⟩
  have hlocal : cl₁.os = cl.os := hexch.os
  cases killLocalFile <;> cases f <;> exact hlocal

/-- Behind the loop of a GET the file is as the loop left it. -/
theorem getEnd_spec (h : cl.InStep srv) (hopen : srv.inlineFile.isSome = true)
    (path : Option CStr) (mode : BitVec 32) (f : Stream) (name : FileName) :
    ∃ cl', getEnd (faultFree hR suvletVersion wire) path mode none f cl = some (0, cl') ∧
      cl'.os.content name = cl.os.content name := by
  obtain ⟨cl', srv', hexit, -, -, hos, -⟩ := sclIlXferExit_open hR suvletVersion wire
    (h.withOs (if mode ≠ -1 then (FileSys.libc.chmod path mode cl.os).2 else cl.os)) hopen 0 false
    true (some f)
  refine ⟨cl', hexit, ?_⟩
  rw [hos]
  show FileSys.content (if mode ≠ -1 then _ else _) name = _
  split_ifs
  · exact FileSys.content_chmod _ _ _ _
  · rfl

/-- A GET up to its loop. -/
theorem xferGet_setup (h : cl.InStep srv) (lname : FileName) {rname : FileName} {file : File}
    (hfile : srv.os.files rname = some file) (blockSize : BitVec 32) :
    ∃ cl' srv' mode, Fetching cl' srv' ⟨lname, 0⟩ ⟨rname, 0⟩ [] file.content ∧ ∀ fuel,
      sclIlXferEx (faultFree hR suvletVersion wire) fuel (some lname.path) (some rname.path) .get
          blockSize cl =
        (getLoop (faultFree hR suvletVersion wire) blockSize fuel ⟨lname, 0⟩ cl').bind fun r =>
          getEnd (faultFree hR suvletVersion wire) (some lname.path) mode r.1 r.2.1 r.2.2 := by
  have hrlen : (strBytes (some rname.path)).length < 2 ^ 31 - 1 :=
    lt_trans rname.length_lt (by decide)
  obtain ⟨cl₁, srv₁, hinfo, hexch₁, -, hos₁⟩ :=
    sclIlGetApiVersion_spec (faultFree hR suvletVersion wire) h
  have hcreate : (faultFree hR suvletVersion wire).here.fopen (some lname.path)
      ⟨chars "w", by decide⟩ cl₁.os = (some ⟨lname, 0⟩, cl₁.os.setContent lname []) :=
    FileSys.fopen_write rfl
  have hstep₁ := hexch₁.inStep.withOs (cl₁.os.setContent lname [])
  obtain ⟨size, cl₂, srv₂, rs, hmode, hexch₂, -, hos₂⟩ :=
    getFsizeMode_spec (faultFree hR suvletVersion wire) hstep₁ hrlen
  obtain ⟨cl₃, srv₃, rs', hopen, hexch₃, hfile₃, hos₃⟩ :=
    openRemote_spec (faultFree hR suvletVersion wire) hexch₂.inStep hrlen
      (show (⟨chars "r", by decide⟩ : CStr).val.length = 1 by decide)
  have hread : (faultFree hR suvletVersion wire).remote.fopen (normStr (some rname.path))
      ⟨chars "r", by decide⟩ srv₂.os = (some ⟨rname, 0⟩, srv.os) := by
    rw [hos₂, hos₁, FileName.normStr_path]
    exact FileSys.fopen_read hfile (by decide)
  rw [hread] at hopen hfile₃ hos₃
  refine ⟨cl₃, srv₃, modeOf ((faultFree hR suvletVersion wire).remote.stat
    (normStr (some rname.path)) srv₁.os), ⟨hexch₃.inStep, hfile₃, ?_, rfl, ?_, rfl⟩, fun fuel => ?_⟩
  · rw [hos₃]
    exact FileSys.content_eq hfile
  · rw [hexch₃.os, hexch₂.os]
    exact FileSys.content_setContent _ _ _
  · have hvers : (3 : ℤ) ≤ suvaApiVersion.toInt := by decide
    simp only [sclIlXferEx, hinfo, hcreate, xferGet, if_pos hvers, hmode, hopen,
      Option.bind_eq_bind, Option.bind_some, Option.isSome_some, if_true]

/-- A GET of a number of full blocks ends with exit code 7. -/
theorem xferGet_of_dvd (h : cl.InStep srv) (lname : FileName) {rname : FileName} {file : File}
    (hfile : srv.os.files rname = some file) (hsize : 0 < blockSize.toInt)
    (hdvd : blockSize.toNat ∣ file.content.length) (fuel : ℕ) :
    (sclIlXferEx (faultFree hR suvletVersion wire) fuel (some lname.path) (some rname.path) .get
        blockSize cl).map Prod.fst =
      if fuel ≤ file.content.length / blockSize.toNat then none else some 7 := by
  obtain ⟨cl₁, srv₁, mode, hfetching, hrun⟩ :=
    xferGet_setup hR suvletVersion wire h lname hfile blockSize
  obtain ⟨hnone, hsome⟩ := getLoop_spec hR suvletVersion wire hfetching hsize fuel
  split_ifs with hfuel
  · rw [hrun, hnone hfuel]
    rfl
  · obtain ⟨f', cl', hloop, srv', hstep, hopen, -⟩ := hsome (by omega)
    obtain ⟨cl'', srv'', hexit, -⟩ :=
      sclIlXferExit_open hR suvletVersion wire hstep hopen 7 true true (some f')
    rw [hrun, hloop, if_pos hdvd]
    exact congrArg (Option.map Prod.fst) hexit

/-- Between machines without faults and without a callback, a GET returns 0 and the local file
    has the bytes of the remote one, iff the block size does not divide their number. -/
theorem xferGet_iff (h : cl.InStep srv) (lname : FileName) {rname : FileName} {file : File}
    (hfile : srv.os.files rname = some file) (hsize : 0 < blockSize.toInt) :
    (∃ fuel cl', sclIlXferEx (faultFree hR suvletVersion wire) fuel (some lname.path)
        (some rname.path) .get blockSize cl = some (0, cl') ∧
      cl'.os.content lname = file.content) ↔
      ¬ blockSize.toNat ∣ file.content.length := by
  constructor
  · rintro ⟨fuel, cl', hres, -⟩ hdvd
    have hcode := xferGet_of_dvd hR suvletVersion wire h lname hfile hsize hdvd fuel
    rw [hres] at hcode
    split_ifs at hcode <;> simp at hcode
  · intro hdvd
    obtain ⟨cl₁, srv₁, mode, hfetching, hrun⟩ :=
      xferGet_setup hR suvletVersion wire h lname hfile blockSize
    obtain ⟨-, hsome⟩ := getLoop_spec hR suvletVersion wire hfetching hsize
      (file.content.length / blockSize.toNat + 1)
    obtain ⟨f', cl', hloop, srv', hstep, hopen, hcontent⟩ := hsome (Nat.lt_succ_self _)
    rw [if_neg hdvd] at hloop
    obtain ⟨cl'', hend, hsame⟩ :=
      getEnd_spec hR suvletVersion wire hstep hopen (some lname.path) mode f' lname
    refine ⟨file.content.length / blockSize.toNat + 1, cl'', by rw [hrun, hloop]; exact hend, ?_⟩
    rw [hsame]
    exact hcontent

/-- A file name. -/
def fileA : FileName := ⟨⟨chars "a", by decide⟩, by decide, by decide⟩

/-- A machine with one file. -/
def oneFile (bs : List Byte) : FileSys := FileSys.empty.setContent fileA bs

/-- Two machines without faults, and a suvlet without functions. -/
def plainParties : Parties FileSys Stream FileSys Stream :=
  faultFree blank_inlines 1 .whole

/-- Three bytes in blocks of two are copied. -/
theorem xferGet_three : ∃ fuel cl', sclIlXferEx plainParties fuel (some fileA.path)
      (some fileA.path) .get 2 (.opened .empty (.init (oneFile [104, 105, 33]))) = some (0, cl') ∧
    cl'.os.content fileA = [104, 105, 33] := by
  refine (xferGet_iff rfl 1 .whole (Client.inStep_opened FileSys.empty
    (show (Server.init (oneFile [104, 105, 33])).out.pending = [] from rfl)) fileA
    (FileSys.files_setContent _ _ _) (by decide)).mpr ?_
  show ¬ 2 ∣ 3
  decide

/-- Two bytes in blocks of two are copied too, but the transfer returns 7; and so does
    that of an empty file. -/
theorem xferGet_two :
    (sclIlXferEx plainParties 2 (some fileA.path) (some fileA.path) .get 2
      (.opened .empty (.init (oneFile [104, 105])))).map Prod.fst = some 7 ∧
    (sclIlXferEx plainParties 1 (some fileA.path) (some fileA.path) .get 2
      (.opened .empty (.init (oneFile [])))).map Prod.fst = some 7 ∧
    ¬ ∃ fuel cl', sclIlXferEx plainParties fuel (some fileA.path) (some fileA.path) .get 2
      (.opened .empty (.init (oneFile [104, 105]))) = some (0, cl') ∧
        cl'.os.content fileA = [104, 105] := by
  have hcode := fun bs => xferGet_of_dvd blank_inlines 1 .whole (Client.inStep_opened FileSys.empty
    (show (Server.init (oneFile bs)).out.pending = [] from rfl)) fileA
    (FileSys.files_setContent _ _ _) (show 0 < (2 : BitVec 32).toInt by decide)
  refine ⟨hcode [104, 105] (by decide) 2, hcode [] (by decide) 1, ?_⟩
  rintro ⟨fuel, cl', hres, -⟩
  have hfuel := hcode [104, 105] (by decide) fuel
  rw [show faultFree _ 1 Wire.whole = plainParties from rfl, hres] at hfuel
  split_ifs at hfuel <;> simp at hfuel

/-! ## PUT -/

/-- In the loop of a PUT: `done` has been sent, `rest` has not. -/
structure Sending (cl : Client FileSys Stream FileSys) (srv : Server FileSys Stream) (f g : Stream)
    (done rest : List Byte) : Prop where
  inStep : cl.InStep srv
  isOpen : srv.inlineFile = some g
  here : cl.os.content f.file = done ++ rest
  herePos : f.pos = done.length
  remote : srv.os.content g.file = done
  remotePos : g.pos = done.length

/-- The call for a block. -/
def putRequest (block : List Byte) : List Queued := [.text Inline.putData, .data block]

/-- One block. -/
theorem putBlock_sending {f g : Stream} {done rest : List Byte}
    (h : Sending cl srv f g done rest) {block : List Byte} (hne : block ≠ [])
    (hlen : block.length < 2 ^ 31) {rest' : List Byte} (hrest : rest = block ++ rest') :
    ∃ cl' srv', putBlock (faultFree hR suvletVersion wire) block cl = some (none, cl') ∧
      Sending cl' srv' ⟨f.file, (done ++ block).length⟩ ⟨g.file, (done ++ block).length⟩
        (done ++ block) rest' ∧
      srv'.os.written = srv.os.written ++ [block] ∧ cl'.os = cl.os ∧
      ∃ x, cl'.calls = x :: cl.calls ∧ x.request = putRequest block ∧
        x.replies = [(sclFreturn, [.bool 0])] := by
  obtain ⟨cl', srv', hrun, hexch, hfile, hos⟩ :=
    putBlock_spec (faultFree hR suvletVersion wire) h.inStep hlen h.isOpen
  have hwrite : (faultFree hR suvletVersion wire).remote.fwrite g block srv.os = _ :=
    FileSys.fwrite_append h.remote h.remotePos hne
  rw [hwrite] at hrun hfile hos hexch
  obtain ⟨x, hcalls, hrequest, hreplies, -⟩ := hexch.calls
  refine ⟨cl', srv', hrun, ⟨hexch.inStep, hfile, ?_, rfl, ?_, rfl⟩, by rw [hos], hexch.os, x,
    hcalls, hrequest, hreplies⟩
  · rw [hexch.os, h.here, hrest, List.append_assoc]
  · rw [hos]
    exact FileSys.content_setContent _ _ _

/-- The calls `xs` sent these blocks, the last call first, and all were answered with
    success. -/
def PutCalls (blocks : List (List Byte)) (xs : List Rpc) : Prop :=
  xs.map Rpc.request = (blocks.map putRequest).reverse ∧
    ∀ x ∈ xs, x.replies = [(sclFreturn, [.bool 0])]

/-- All of `rest` has been sent in `blocks`, behind `done`, by the calls `xs`. -/
structure SentAll (blockSize : ℕ) (cl cl' : Client FileSys Stream FileSys)
    (srv srv' : Server FileSys Stream) (name : FileName) (done rest : List Byte)
    (blocks : List (List Byte)) (xs : List Rpc) : Prop where
  inStep : cl'.InStep srv'
  isOpen : srv'.inlineFile.isSome = true
  remote : srv'.os.content name = done ++ rest
  written : srv'.os.written = srv.os.written ++ blocks
  here : cl'.os = cl.os
  flatten : blocks.flatten = rest
  length : blocks.length = blockCount blockSize rest.length
  calls : cl'.calls = xs ++ cl.calls
  puts : PutCalls blocks xs

/-- The loop of a PUT, with fuel for its blocks and one round more. -/
theorem putLoop_spec {f g : Stream} {done rest : List Byte} (h : Sending cl srv f g done rest)
    (hsize : 0 < blockSize.toInt) {fuel : ℕ}
    (hfuel : blockCount blockSize.toNat rest.length < fuel) :
    ∃ f' cl' srv' blocks xs,
      putLoop (faultFree hR suvletVersion wire) blockSize fuel f cl = some (none, f', cl') ∧
      SentAll blockSize.toNat cl cl' srv srv' g.file done rest blocks xs := by
  obtain ⟨hint, hpos, hlt⟩ := toInt_of_pos hsize
  induction fuel generalizing cl srv f g done rest with
  | zero => exact absurd hfuel (Nat.not_lt_zero _)
  | succ fuel ih =>
    have hread : (faultFree hR suvletVersion wire).here.fread f blockSize.toNat cl.os = _ :=
      FileSys.fread_append h.here h.herePos _
    by_cases hempty : rest = []
    · subst hempty
      have hround : putLoop (faultFree hR suvletVersion wire) blockSize (fuel + 1) f cl =
          some (none, ⟨f.file, done.length⟩, cl) := by
        rw [putLoop, if_neg (by omega), hread, List.take_nil]
        rfl
      refine ⟨⟨f.file, done.length⟩, cl, srv, [], [], hround, ?_⟩
      exact {
        inStep := h.inStep
        isOpen := by simp [h.isOpen]
        remote := by rw [h.remote, List.append_nil]
        written := by simp
        here := rfl
        flatten := rfl
        length := (blockCount_zero hpos).symm
        calls := rfl
        puts := ⟨rfl, by simp⟩ }
    · have hrest : 0 < rest.length := List.length_pos_of_ne_nil hempty
      have hlen : (rest.take blockSize.toNat).length ≠ 0 := by
        rw [List.length_take]
        omega
      have hne : rest.take blockSize.toNat ≠ [] := fun hnil => hlen (by rw [hnil]; rfl)
      have hcount := blockCount_eq hpos hrest
      obtain ⟨cl₁, srv₁, hput, hsending, hwritten, hos, x, hcalls, hrequest, hreplies⟩ :=
        putBlock_sending hR suvletVersion wire h hne
          (lt_of_le_of_lt (List.length_take_le _ _) hlt) (List.take_append_drop _ rest).symm
      obtain ⟨f', cl', srv', blocks, xs, hrun, hsent⟩ :=
        ih hsending (by rw [List.length_drop]; omega)
      refine ⟨f', cl', srv', rest.take blockSize.toNat :: blocks, xs ++ [x], ?_, ?_⟩
      · rw [putLoop, if_neg (by omega), hread]
        show (if (rest.take blockSize.toNat).length = 0 then _
          else (putBlock _ (rest.take blockSize.toNat) cl).bind _) = _
        rw [if_neg hlen, hput, ← List.length_append]
        exact hrun
      · exact {
          inStep := hsent.inStep
          isOpen := hsent.isOpen
          remote := by rw [hsent.remote, List.append_assoc, List.take_append_drop]
          written := by rw [hsent.written, hwritten, List.append_assoc]; rfl
          here := hsent.here.trans hos
          flatten := by rw [List.flatten_cons, hsent.flatten, List.take_append_drop]
          length := by rw [List.length_cons, hsent.length, List.length_drop, hcount]
          calls := by rw [hsent.calls, hcalls, List.append_assoc]; rfl
          puts := by
            obtain ⟨hrequests, hall⟩ := hsent.puts
            refine ⟨?_, fun y hy => ?_⟩
            · simp [hrequests, hrequest]
            · rcases List.mem_append.mp hy with hy | hy
              · exact hall y hy
              · rw [List.mem_singleton.mp hy, hreplies] }

/-- A PUT up to its loop. -/
theorem xferPut_setup (h : cl.InStep srv) {lname : FileName} (rname : FileName) {file : File}
    (hfile : cl.os.files lname = some file) (blockSize : BitVec 32) :
    ∃ cl' srv' before, Sending cl' srv' ⟨lname, 0⟩ ⟨rname, 0⟩ [] file.content ∧
      srv'.os.written = srv.os.written ∧ cl'.os = cl.os ∧ cl'.calls = before ++ cl.calls ∧
      before.map Rpc.request =
        [[.text Inline.openFile, .textOrNull (some rname.path), .text ⟨chars "w", by decide⟩],
          [.text Inline.getInfo, .text ⟨chars "api_version", by decide⟩]] ∧
      ∀ fuel, sclIlXferEx (faultFree hR suvletVersion wire) fuel (some lname.path)
          (some rname.path) .put blockSize cl =
        (putLoop (faultFree hR suvletVersion wire) blockSize fuel ⟨lname, 0⟩ cl').bind fun r =>
          putEnd (faultFree hR suvletVersion wire) (some rname.path) file.mode suvaApiVersion
            r.1 r.2.1 r.2.2 := by
  have hrlen : (strBytes (some rname.path)).length < 2 ^ 31 - 1 :=
    lt_trans rname.length_lt (by decide)
  obtain ⟨cl₁, srv₁, hinfo, hexch₁, -, hos₁⟩ :=
    sclIlGetApiVersion_spec (faultFree hR suvletVersion wire) h
  have hfile₁ : cl₁.os.files lname = some file := by
    rw [hexch₁.os]
    exact hfile
  have hread : (faultFree hR suvletVersion wire).here.fopen (some lname.path)
      ⟨chars "r", by decide⟩ cl₁.os = (some ⟨lname, 0⟩, cl₁.os) :=
    FileSys.fopen_read hfile₁ (by decide)
  have hstat : (faultFree hR suvletVersion wire).here.stat (some lname.path) cl₁.os =
      some ((file.content.length : ℤ), file.mode) := by
    simp [faultFree, FileSys.libc, hfile₁]
  obtain ⟨cl₂, srv₂, rs, hopen, hexch₂, hfile₂, hos₂⟩ :=
    openRemote_spec (faultFree hR suvletVersion wire) hexch₁.inStep hrlen
      (show (⟨chars "w", by decide⟩ : CStr).val.length = 1 by decide)
  have hcreate : (faultFree hR suvletVersion wire).remote.fopen (normStr (some rname.path))
      ⟨chars "w", by decide⟩ srv₁.os = (some ⟨rname, 0⟩, srv.os.setContent rname []) := by
    rw [hos₁, FileName.normStr_path]
    exact FileSys.fopen_write rfl
  rw [hcreate] at hopen hfile₂ hos₂
  obtain ⟨x₁, hcalls₁, hrequest₁, -⟩ := hexch₁.calls
  obtain ⟨x₂, hcalls₂, hrequest₂, -⟩ := hexch₂.calls
  refine ⟨cl₂, srv₂, [x₂, x₁], ⟨hexch₂.inStep, hfile₂, ?_, rfl, ?_, rfl⟩, by rw [hos₂]; rfl,
    hexch₂.os.trans hexch₁.os, by rw [hcalls₂, hcalls₁]; rfl, by simp [hrequest₁, hrequest₂],
    fun fuel => ?_⟩
  · rw [hexch₂.os]
    exact FileSys.content_eq hfile₁
  · rw [hos₂]
    exact FileSys.content_setContent _ _ _
  · simp only [sclIlXferEx, hinfo, hread, xferPut, hstat, hopen,
      Option.bind_eq_bind, Option.bind_some, Option.isSome_some, if_true]

/-- Behind the loop of a PUT: the mode is set and the file closed. -/
theorem putEnd_spec (h : cl.InStep srv) (hopen : srv.inlineFile.isSome = true) (rname : FileName)
    (mode : BitVec 32) (f : Stream) :
    ∃ cl' srv' after, putEnd (faultFree hR suvletVersion wire) (some rname.path) mode suvaApiVersion
        none f cl = some (0, cl') ∧ cl'.srv = some srv' ∧
      srv'.os.content rname = srv.os.content rname ∧ srv'.os.written = srv.os.written ∧
      cl'.calls = after ++ cl.calls ∧
      after.map Rpc.request = [[.text Inline.closeFile],
        [.text Inline.setFmode, .textOrNull (some rname.path), .int mode]] := by
  have hrlen : (strBytes (some rname.path)).length < 2 ^ 31 - 1 :=
    lt_trans rname.length_lt (by decide)
  obtain ⟨v, cl₁, srv₁, hset, hstep₁, -, hfile₁, hos₁, x₁, hcalls₁, hrequest₁, -⟩ :=
    setRemoteMode_spec (faultFree hR suvletVersion wire) h hrlen mode
  obtain ⟨file, hfile⟩ := Option.isSome_iff_exists.mp hopen
  obtain ⟨cl₂, srv₂, hclose, hexch₂, -, hos₂⟩ := closeRemote_spec
    (faultFree hR suvletVersion wire) hstep₁.freePacketMem (hfile₁.trans hfile)
  obtain ⟨x₂, hcalls₂, hrequest₂, -⟩ := hexch₂.calls
  have hvers : (3 : ℤ) ≤ suvaApiVersion.toInt := by decide
  have hos : srv₂.os = ((faultFree hR suvletVersion wire).remote.chmod (normStr (some rname.path))
      mode srv.os).2 := hos₂.trans hos₁
  have hend : putEnd (faultFree hR suvletVersion wire) (some rname.path) mode suvaApiVersion none f
      cl = sclIlXferExit (faultFree hR suvletVersion wire) ⟨0, false, true, true⟩ (some f) cl₁ := by
    simp only [putEnd, if_pos hvers, hset]
    rfl
  refine ⟨_, srv₂, [x₂, x₁], by simp only [hend, sclIlXferExit, if_true, hclose,
    Option.bind_eq_bind, Option.bind_some]; rfl, hexch₂.inStep.server, ?_, ?_, ?_,
    by simp [hrequest₁, hrequest₂]⟩
  · rw [hos]
    exact FileSys.content_chmod _ _ _ _
  · rw [hos]
    exact FileSys.written_chmod _ _ _
  · show cl₂.calls = _
    rw [hcalls₂]
    show x₂ :: cl₁.calls = _
    rw [hcalls₁]
    rfl

/-- Between machines without faults and without a callback, a PUT returns 0 after one
    `inline-put_data` for each block, all answered with success, and the blocks that the remote
    `fwrite` has been given are the bytes of the local file. -/
theorem xferPut_spec (h : cl.InStep srv) {lname : FileName} (rname : FileName) {file : File}
    (hfile : cl.os.files lname = some file) (hsize : 0 < blockSize.toInt) {fuel : ℕ}
    (hfuel : blockCount blockSize.toNat file.content.length < fuel) :
    ∃ cl' srv' blocks before puts after,
      sclIlXferEx (faultFree hR suvletVersion wire) fuel (some lname.path) (some rname.path) .put
          blockSize cl = some (0, cl') ∧
      cl'.srv = some srv' ∧
      blocks.length = blockCount blockSize.toNat file.content.length ∧
      blocks.flatten = file.content ∧
      srv'.os.written = srv.os.written ++ blocks ∧
      srv'.os.content rname = file.content ∧
      PutCalls blocks puts ∧
      cl'.calls = after ++ puts ++ before ++ cl.calls ∧
      before.map Rpc.request =
        [[.text Inline.openFile, .textOrNull (some rname.path), .text ⟨chars "w", by decide⟩],
          [.text Inline.getInfo, .text ⟨chars "api_version", by decide⟩]] ∧
      after.map Rpc.request = [[.text Inline.closeFile],
        [.text Inline.setFmode, .textOrNull (some rname.path), .int file.mode]] := by
  obtain ⟨cl₁, srv₁, before, hsending, hwritten₁, -, hcalls₁, hbefore, hrun⟩ :=
    xferPut_setup hR suvletVersion wire h rname hfile blockSize
  obtain ⟨f', cl₂, srv₂, blocks, puts, hloop, hsent⟩ :=
    putLoop_spec hR suvletVersion wire hsending hsize hfuel
  obtain ⟨cl₃, srv₃, after, hend, hsrv, hcontent, hwritten₃, hcalls₃, hafter⟩ :=
    putEnd_spec hR suvletVersion wire hsent.inStep hsent.isOpen rname file.mode f'
  refine ⟨cl₃, srv₃, blocks, before, puts, after, by rw [hrun, hloop]; exact hend, hsrv,
    hsent.length, hsent.flatten, ?_, hcontent.trans hsent.remote, hsent.puts, ?_, hbefore, hafter⟩
  · rw [hwritten₃, hsent.written, hwritten₁]
  · rw [hcalls₃, hsent.calls, hcalls₁]
    simp only [List.append_assoc]

/-- Four bytes, in two blocks of two. -/
theorem xferPut_four : ∃ cl' srv' blocks,
    sclIlXferEx plainParties 3 (some fileA.path) (some fileA.path) .put 2
      (.opened (oneFile [1, 2, 3, 4]) (.init .empty)) = some (0, cl') ∧
    cl'.srv = some srv' ∧ blocks.length = 2 ∧ blocks.flatten = [1, 2, 3, 4] ∧
    srv'.os.written = blocks := by
  obtain ⟨cl', srv', blocks, before, puts, after, hrun, hsrv, hlen, hflat, hwritten, -⟩ :=
    xferPut_spec blank_inlines 1 .whole
      (Client.inStep_opened (oneFile [1, 2, 3, 4])
        (show (Server.init FileSys.empty).out.pending = [] from rfl)) fileA
      (FileSys.files_setContent _ _ _) (show 0 < (2 : BitVec 32).toInt by decide)
      (show blockCount 2 4 < 3 by decide)
  exact ⟨cl', srv', blocks, hrun, hsrv, hlen, hflat, hwritten⟩

end CompatSuva.Local
