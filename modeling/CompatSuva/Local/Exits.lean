import CompatSuva.Local.Steps

/-!
# The exits of a transfer

Each of the returns of `scl_il_xfer_ex` tells `scl_il_xfer_exit` by flags what there is to
release. `Holding` is what a transfer has acquired at a point, by its log; every step keeps it or
moves it on, and every return is made with the flags that go with it.

* `sclIlXferEx_paired`: when `scl_il_xfer_ex` returns, what was acquired has been released,
  once, and nothing else has.
-/

namespace CompatSuva.Local

open CompatSuva.Common

variable {ω α : Type}

/-! ## What is asked of a transfer that returns -/

/-- The remote file is closed once if its open was reported successful, and not at all if not; the
    local file once if it was opened; the buffer of a PUT is freed once, if there is one, and no
    packet is; and no data call follows the close. -/
structure Paired (log : List Event) : Prop where
  remote : log.count (.inline .closeFile) = if .remoteOpened ∈ log then 1 else 0
  file : log.count .fclose = if .fopen true ∈ log then 1 else 0
  buffer : log.count (.free .buffer) = if .malloc true ∈ log then 1 else 0
  packet : .free .packet ∉ log
  dataCalls : ∀ pre post, log = pre ++ .inline .closeFile :: post →
    .inline .putData ∉ post ∧ .inline .getData ∉ post

/-! ## What a transfer holds -/

/-- The event releases something. -/
def Event.IsRelease : Event → Prop
  | .free _ => True
  | .fclose => True
  | .inline call => call = .closeFile
  | _ => False

/-- The event neither acquires nor releases anything. -/
def Event.Neutral : Event → Prop
  | .inline call => call ≠ .closeFile
  | .divisor _ _ => True
  | .fopen ok => ok = false
  | .malloc ok => ok = false
  | _ => False

/-- The transfer holds the local file, the remote file and, if `data` is not NULL in a PUT, the
    buffer, and nothing has been released. -/
structure Holding (direction : Direction) (file remote : Bool) (s : Xfer ω) : Prop where
  held : ∀ e ∈ s.log, ¬ e.IsRelease
  handle : s.fileHandle = file
  file_iff : .fopen true ∈ s.log ↔ file = true
  remote_iff : .remoteOpened ∈ s.log ↔ remote = true
  buffer_iff : .malloc true ∈ s.log ↔ direction = .put ∧ s.data ≠ .null
  owned : direction = .put → s.data ≠ .packet

/-- A return is made with the flags for what is held. -/
def Leaves (direction : Direction) : Halt → Xfer ω → Prop
  | .exit e, s => Holding direction e.killLocalFile e.killRemoteFile s
  | .fault _, _ => True

variable {direction : Direction} {file remote : Bool} {s : Xfer ω} {E : Halt → Xfer ω → Prop}

/-- Logging what is neither acquired nor released. -/
theorem Holding.note (h : Holding direction file remote s) {e : Event} (he : e.Neutral) :
    Holding direction file remote { s with log := s.log ++ [e] } := by
  have hne : e ≠ .fopen true ∧ e ≠ .remoteOpened ∧ e ≠ .malloc true ∧ ¬ e.IsRelease := by
    cases e <;> simp_all [Event.Neutral, Event.IsRelease]
  obtain ⟨hfile, hremote, hbuffer, hrelease⟩ := hne
  have hmem : ∀ {e' : Event}, e ≠ e' → (e' ∈ s.log ++ [e] ↔ e' ∈ s.log) := by
    intro e' hne
    simp [hne.symm]
  refine ⟨fun e' he' => ?_, h.handle, (hmem hfile).trans h.file_iff,
    (hmem hremote).trans h.remote_iff, (hmem hbuffer).trans h.buffer_iff, h.owned⟩
  obtain he' | he' := List.mem_append.mp he'
  · exact h.held e' he'
  · rw [List.mem_singleton.mp he']
    exact hrelease

theorem note_post {P : Xfer ω → Prop} (e : Event) :
    Triple P (note e : Halting Halt (Xfer ω) Unit)
      (fun _ s' => ∃ s, P s ∧ s' = { s with log := s.log ++ [e] }) E :=
  Triple.modify _ fun s h => ⟨s, h, rfl⟩

theorem note_holding {e : Event} (he : e.Neutral) :
    Triple (Holding direction file remote) (note e : Halting Halt (Xfer ω) Unit)
      (fun _ => Holding direction file remote) E :=
  Triple.modify _ fun _ h => h.note he

/-- A call leaves all but the world. -/
theorem ask_post {P : Xfer ω → Prop} (hP : ∀ s world, P s → P { s with world := world })
    (step : Step ω α) : Triple P (ask step) (fun _ => P) (Leaves direction) := by
  refine Triple.bind_get fun s hs => ?_
  cases hstep : step s.world with
  | none => exact trivial
  | some r => exact hP s r.2 hs

theorem ask_holding (step : Step ω α) :
    Triple (Holding direction file remote) (ask step) (fun _ => Holding direction file remote)
      (Leaves direction) :=
  ask_post (fun _ _ h => ⟨h.held, h.handle, h.file_iff, h.remote_iff, h.buffer_iff, h.owned⟩) step

theorem pure_holding (a : α) :
    Triple (Holding direction file remote) (pure a : Halting Halt (Xfer ω) α)
      (fun _ => Holding direction file remote) E := fun _ h => h

theorem exitm_leaves {Q : α → Xfer ω → Prop} (code : ℕ) (printErrno : Bool) :
    Triple (Holding direction file remote) (exitm code printErrno file remote) Q
      (Leaves direction) :=
  fun _ h => h

theorem fault_leaves {P : Xfer ω → Prop} {Q : α → Xfer ω → Prop} (f : Fault) :
    Triple P (throw (.fault f)) Q (Leaves direction) :=
  fun _ _ => trivial

theorem compute_holding (r : Except Fault α) :
    Triple (Holding direction file remote) (compute r : Halting Halt (Xfer ω) α)
      (fun _ => Holding direction file remote) (Leaves direction) := by
  cases r with
  | ok a => exact fun _ h => h
  | error f => exact fault_leaves f

/-- The pointer to a packet is not the transfer's. -/
theorem setData_holding (data : Data) :
    Triple (Holding .get file remote) (setData data : Halting Halt (Xfer ω) Unit)
      (fun _ => Holding .get file remote) E := by
  refine Triple.modify _ fun s h => ?_
  have hbuffer : .malloc true ∉ s.log := fun hmem => nomatch (h.buffer_iff.mp hmem).1
  exact ⟨h.held, h.handle, h.file_iff, h.remote_iff, by simp [hbuffer], nofun⟩

/-! ## Up to the loop -/

variable (S : Steps ω)

/-- Nothing has been done yet. -/
def Untouched (s : Xfer ω) : Prop := s.log = [] ∧ s.data = .null ∧ s.fileHandle = false

theorem Untouched.holding (h : Untouched s) : Holding direction false false s := by
  obtain ⟨hlog, hdata, hhandle⟩ := h
  constructor <;> simp [hlog, hdata, hhandle]

/-- The buffer of a PUT, where there is one. -/
theorem Untouched.malloc (h : Untouched s) (ok : Bool) :
    Holding .put false false
      { s with log := s.log ++ [.malloc ok], data := if ok then .buffer else .null } := by
  obtain ⟨hlog, hdata, hhandle⟩ := h
  cases ok <;> constructor <;> simp [hlog, hhandle, Event.IsRelease]

/-- The local file, where it is opened. -/
theorem Holding.fopen (h : Holding direction false false s) (ok : Bool) :
    Holding direction ok false { s with log := s.log ++ [.fopen ok], fileHandle := ok } := by
  refine ⟨fun e he => ?_, rfl, ?_, ?_, ?_, h.owned⟩
  · obtain he | he := List.mem_append.mp he
    · exact h.held e he
    · rw [List.mem_singleton.mp he]
      exact id
  · simp [h.file_iff]
  · simp [h.remote_iff]
  · simp [h.buffer_iff]

/-- The remote file, where its open is reported successful. -/
theorem Holding.remoteOpened (h : Holding direction true false s) :
    Holding direction true true { s with log := s.log ++ [.remoteOpened] } := by
  refine ⟨fun e he => ?_, h.handle, ?_, ?_, ?_, h.owned⟩
  · obtain he | he := List.mem_append.mp he
    · exact h.held e he
    · rw [List.mem_singleton.mp he]
      exact id
  · simp [h.file_iff]
  · simp
  · simp [h.buffer_iff]

theorem openLocal_holding (direction : Direction) :
    Triple Untouched (S.openLocal direction) (fun _ => Holding direction true false)
      (Leaves direction) := by
  have halloc : Triple Untouched (onlyIf (direction = .put) do
      let ok ← ask S.malloc
      note (.malloc ok)
      setData (if ok then .buffer else .null)) (fun _ => Holding direction false false)
      (Leaves direction) := by
    refine Triple.onlyIf (fun hput => ?_) fun _ s hs => hs.holding
    subst hput
    refine Triple.bind (ask_post (fun s world h => h) _) fun ok => ?_
    refine Triple.bind (note_post _) fun _ => ?_
    refine Triple.modify _ fun s hs => ?_
    obtain ⟨s, h, rfl⟩ := hs
    exact h.malloc ok
  unfold Steps.openLocal
  refine Triple.bind halloc fun _ => ?_
  refine Triple.bind (note_holding (by simp [Event.Neutral])) fun _ => ?_
  refine Triple.bind (ask_holding _) fun apiVers => ?_
  refine Triple.bind (ask_holding _) fun ok => ?_
  refine Triple.bind (note_post _) fun _ => ?_
  refine Triple.bind (Q := fun _ => Holding direction ok false) (Triple.modify _ fun s hs => ?_)
    fun _ => ?_
  · obtain ⟨s, h, rfl⟩ := hs
    exact h.fopen ok
  · cases ok with
    | false => exact exitm_leaves 1 false
    | true => exact pure_holding apiVers

theorem getSizes_holding (apiVers : ℤ) :
    Triple (Holding direction true false) (S.getSizes direction apiVers)
      (fun _ => Holding direction true false) (Leaves direction) := by
  cases direction with
  | get =>
    unfold Steps.getSizes
    refine Triple.ite (fun _ => ?_) fun _ => pure_holding _
    refine Triple.bind (note_holding (by simp [Event.Neutral])) fun _ => ?_
    exact Triple.bind (ask_holding _) fun r => pure_holding _
  | put =>
    unfold Steps.getSizes
    refine Triple.bind (ask_holding _) fun r => ?_
    cases r with
    | none => exact exitm_leaves 2 false
    | some r => exact pure_holding _

theorem openRemote_holding :
    Triple (Holding direction true false) S.openRemote (fun _ => Holding direction true true)
      (Leaves direction) := by
  unfold Steps.openRemote
  refine Triple.bind (note_holding (by simp [Event.Neutral])) fun _ => ?_
  refine Triple.bind (ask_holding _) fun reply => ?_
  cases reply with
  | unexpected => exact exitm_leaves 3 true
  | freturn code =>
    refine Triple.ite (fun _ => Triple.modify _ fun s h => ?_) fun _ => exitm_leaves 4 false
    exact h.remoteOpened

theorem startClock_holding :
    Triple (Holding direction true true) S.startClock (fun _ => Holding direction true true)
      (Leaves direction) := by
  unfold Steps.startClock
  refine Triple.bind (ask_holding _) fun now => ?_
  cases now with
  | none => exact exitm_leaves 10 true
  | some now => exact pure_holding _

/-! ## The loop -/

theorem putBlock_holding (blockSize bytes : ℤ) :
    Triple (Holding .put true true) (S.putBlock blockSize bytes)
      (fun _ => Holding .put true true) (Leaves .put) := by
  have hsend : ∀ dataLen, Triple (Holding .put true true) (S.sendBlock bytes dataLen)
      (fun _ => Holding .put true true) (Leaves .put) := by
    intro dataLen
    refine Triple.bind (note_holding (by simp [Event.Neutral])) fun _ => ?_
    refine Triple.bind (ask_holding _) fun reply => ?_
    cases reply with
    | unexpected => exact exitm_leaves 4 false
    | freturn retVal => exact Triple.ite (fun _ => exitm_leaves 6 false) fun _ => pure_holding _
  refine Triple.bind_get fun s hs => ?_
  refine Triple.bind (Q := fun _ => Holding .put true true)
    (Triple.onlyIf (fun _ => fault_leaves _) fun _ _ h => h) (fun _ => ?_) s hs
  refine Triple.bind (ask_holding _) fun dataLen => ?_
  exact Triple.ite (fun _ => pure_holding _) fun _ => hsend dataLen

theorem getBlock_holding (bytes : ℤ) :
    Triple (Holding .get true true) (S.getBlock bytes) (fun _ => Holding .get true true)
      (Leaves .get) := by
  unfold Steps.getBlock
  refine Triple.bind (note_holding (by simp [Event.Neutral])) fun _ => ?_
  refine Triple.bind (ask_holding _) fun reply => ?_
  match reply with
  | .unexpected => exact exitm_leaves 4 false
  | .freturn none => exact Triple.bind (setData_holding _) fun _ => exitm_leaves 5 false
  | .freturn (some dataLen) =>
    refine Triple.bind (setData_holding _) fun _ => ?_
    refine Triple.bind (ask_holding _) fun ok => ?_
    refine Triple.ite (fun _ => ?_) fun _ => exitm_leaves 7 true
    exact Triple.bind (ask_holding _) fun _ => pure_holding _

theorem noteDivide_holding (x y : ℤ) (d : Divisor) :
    Triple (Holding direction file remote) (Steps.noteDivide x y d : Halting Halt (Xfer ω) ℤ)
      (fun _ => Holding direction file remote) (Leaves direction) :=
  Triple.bind (note_holding trivial) fun _ => compute_holding _

theorem makeCallback_holding (callback : CopyProgress → Step ω Bool) (start : ℤ × ℤ)
    (bytesTotal bytes : ℤ) (p : Progress) :
    Triple (Holding direction true true) (S.makeCallback callback start bytesTotal bytes p)
      (fun _ => Holding direction true true) (Leaves direction) := by
  unfold Steps.makeCallback
  refine Triple.bind (ask_holding _) fun now => ?_
  cases now with
  | none => exact exitm_leaves 10 true
  | some now =>
    refine Triple.bind (note_holding trivial) fun _ => ?_
    refine Triple.bind (noteDivide_holding _ _ _) fun avgBps => ?_
    refine Triple.bind (noteDivide_holding _ _ _) fun eta => ?_
    refine Triple.bind (ask_holding _) fun stop => ?_
    exact Triple.ite (fun _ => exitm_leaves 8 true) fun _ => pure_holding _

theorem countInterval_holding (callbackInterval : ℤ) (start : ℤ × ℤ) (bytesTotal : ℤ)
    (v : Steps.Loop) :
    Triple (Holding direction true true) (S.countInterval callbackInterval start bytesTotal v)
      (fun _ => Holding direction true true) (Leaves direction) := by
  unfold Steps.countInterval
  refine Triple.ite (fun _ => ?_) fun _ => pure_holding _
  cases S.callback with
  | none => exact pure_holding _
  | some callback =>
    exact Triple.bind (makeCallback_holding S callback start bytesTotal _ _) fun _ => pure_holding _

theorem loop_holding (direction : Direction) (blockSize callbackInterval : ℤ) (start : ℤ × ℤ)
    (bytesTotal : ℤ) (fuel : ℕ) (v : Steps.Loop) :
    Triple (Holding direction true true)
      (S.loop direction blockSize callbackInterval start bytesTotal fuel v)
      (fun _ => Holding direction true true) (Leaves direction) := by
  induction fuel generalizing v with
  | zero => exact fun _ _ => trivial
  | succ fuel ih =>
    have hblock : Triple (Holding direction true true)
      (S.block direction blockSize v.bytesTransfered)
        (fun _ => Holding direction true true) (Leaves direction) := by
      cases direction with
      | put => exact putBlock_holding S _ _
      | get => exact getBlock_holding S _
    unfold Steps.loop
    refine Triple.bind hblock fun r => ?_
    match r with
    | none => exact pure_holding _
    | some (bytes, dataLen) =>
      refine Triple.bind (countInterval_holding S _ _ _ _) fun v => ?_
      exact Triple.ite (fun _ => pure_holding _) fun _ => ih v

theorem setMode_holding (apiVers : ℤ) (mode : BitVec 32) :
    Triple (Holding direction true true) (S.setMode direction apiVers mode)
      (fun _ => Holding direction true true) (Leaves direction) := by
  cases direction with
  | get => exact Triple.ite (fun _ => ask_holding _) fun _ => pure_holding _
  | put =>
    refine Triple.ite (fun _ => ?_) fun _ => pure_holding _
    exact Triple.bind (note_holding (by simp [Event.Neutral])) fun _ => ask_holding _

/-- Whichever way the transfer comes to its exit, the flags are for what it holds there. -/
theorem body_holding (fuel : ℕ) (direction : Direction) (blockSize callbackInterval : ℤ) :
    Triple Untouched (S.body fuel direction blockSize callbackInterval)
      (fun _ => Holding direction true true) (Leaves direction) := by
  unfold Steps.body
  refine Triple.bind (openLocal_holding S direction) fun apiVers => ?_
  refine Triple.bind (getSizes_holding S apiVers) fun sizes => ?_
  refine Triple.bind (openRemote_holding S) fun _ => ?_
  refine Triple.bind (startClock_holding S) fun start => ?_
  exact Triple.bind (loop_holding S _ _ _ _ _ _ _) fun _ => setMode_holding S _ _

/-! ## The exit -/

/-- What `scl_il_xfer_exit` logs. -/
def exitLog (direction : Direction) (e : Exit) (s : Xfer ω) : List Event :=
  (if s.data ≠ .null ∧ direction = .put then [.free s.data] else []) ++
    (if e.killRemoteFile then [.inline .closeFile] else []) ++
    (if e.killLocalFile ∧ s.fileHandle then [.fclose] else [])

theorem note_log (l : List Event) (e : Event) :
    Triple (fun s => s.log = l) (note e : Halting Halt (Xfer ω) Unit)
      (fun _ s => s.log = l ++ [e]) E :=
  Triple.modify _ fun _ h => congrArg (· ++ [e]) h

theorem ask_log (l : List Event) (step : Step ω α) :
    Triple (fun s => s.log = l) (ask step) (fun _ s => s.log = l) (Leaves direction) :=
  ask_post (fun _ _ h => h) step

theorem onlyIf_log {l : List Event} {c : Prop} [Decidable c] {e : Event}
    {m : Halting Halt (Xfer ω) Unit}
    (h : Triple (fun s => s.log = l) m (fun _ s => s.log = l ++ [e]) E) :
    Triple (fun s => s.log = l) (onlyIf c m) (fun _ s => s.log = l ++ if c then [e] else []) E := by
  refine Triple.onlyIf (fun hc => ?_) fun hc s hs => ?_
  · rw [if_pos hc]
    exact h
  · rw [if_neg hc, List.append_nil]
    exact hs

theorem sclIlXferExit_log (direction : Direction) (e : Exit) (s : Xfer ω) :
    Ends (fun _ s' => s'.log = s.log ++ exitLog direction e s) (Leaves direction)
      ((S.sclIlXferExit direction e).runOn s) := by
  unfold exitLog
  rw [← List.append_assoc, ← List.append_assoc]
  have hexit : Triple (fun s' => s'.log = s.log) (do
      onlyIf (s.data ≠ .null ∧ direction = .put) (note (.free s.data))
      ask S.freePacketMem
      onlyIf e.killRemoteFile do
        note (.inline .closeFile)
        ask S.closeFile
      onlyIf (e.killLocalFile ∧ s.fileHandle) do
        note .fclose
        ask S.fclose
      return e.code)
      (fun _ s' => s'.log = s.log ++
        (if s.data ≠ .null ∧ direction = .put then [.free s.data] else []) ++
        (if e.killRemoteFile then [.inline .closeFile] else []) ++
        (if e.killLocalFile ∧ s.fileHandle then [.fclose] else [])) (Leaves direction) := by
    refine Triple.bind (onlyIf_log (note_log _ _)) fun _ => ?_
    refine Triple.bind (ask_log _ _) fun _ => ?_
    refine Triple.bind (onlyIf_log (Triple.bind (note_log _ _) fun _ => ask_log _ _)) fun _ => ?_
    refine Triple.bind (onlyIf_log (Triple.bind (note_log _ _) fun _ => ask_log _ _)) fun _ => ?_
    exact fun _ h => h
  exact hexit s rfl

/-- What is released is what was acquired. -/
def releases (log : List Event) : List Event :=
  (if .malloc true ∈ log then [.free .buffer] else []) ++
    (if .remoteOpened ∈ log then [.inline .closeFile] else []) ++
    (if .fopen true ∈ log then [.fclose] else [])

theorem Holding.exitLog_eq {e : Exit}
    (h : Holding direction e.killLocalFile e.killRemoteFile s) :
    exitLog direction e s = releases s.log := by
  have hbuffer : (if s.data ≠ .null ∧ direction = .put then [Event.free s.data] else []) =
      if .malloc true ∈ s.log then [.free .buffer] else [] := by
    rw [if_congr (h.buffer_iff.trans and_comm) rfl rfl]
    split_ifs with hdata
    · have howned := h.owned hdata.2
      cases hd : s.data with
      | null => exact absurd hd hdata.1
      | buffer => rfl
      | packet => exact absurd hd howned
    · rfl
  have hfile : (e.killLocalFile = true ∧ s.fileHandle = true) ↔ .fopen true ∈ s.log := by
    rw [h.file_iff, h.handle, and_self]
  unfold exitLog releases
  rw [hbuffer, if_congr h.remote_iff.symm rfl rfl, if_congr hfile rfl rfl]

theorem mem_releases {log : List Event} {e : Event} (h : e ∈ releases log) : e.IsRelease := by
  simp only [releases, List.mem_append, List.mem_ite_nil_right, List.mem_singleton] at h
  obtain (⟨-, rfl⟩ | ⟨-, rfl⟩) | ⟨-, rfl⟩ := h
  · trivial
  · rfl
  · trivial

/-- A log without releases, then the releases for it. -/
theorem paired_releases {log : List Event} (h : ∀ e ∈ log, ¬ e.IsRelease) :
    Paired (log ++ releases log) := by
  have hnone : ∀ {e : Event}, e.IsRelease → log.count e = 0 := fun he =>
    List.count_eq_zero.mpr fun hmem => h _ hmem he
  have hmem : ∀ {e : Event}, ¬ e.IsRelease → (e ∈ log ++ releases log ↔ e ∈ log) := by
    intro e he
    rw [List.mem_append]
    exact or_iff_left fun hr => he (mem_releases hr)
  have hdata : ∀ call : InlineName, call ≠ .closeFile → .inline call ∉ releases log :=
    fun call hcall hr => hcall (mem_releases hr)
  constructor
  · rw [List.count_append, hnone (e := .inline .closeFile) rfl, if_congr (hmem id) rfl rfl]
    unfold releases
    split_ifs <;> rfl
  · rw [List.count_append, hnone (e := .fclose) trivial, if_congr (hmem id) rfl rfl]
    unfold releases
    split_ifs <;> rfl
  · rw [List.count_append, hnone (e := .free .buffer) trivial, if_congr (hmem id) rfl rfl]
    unfold releases
    split_ifs <;> rfl
  · rw [List.mem_append]
    rintro (hlog | hr)
    · exact h _ hlog trivial
    · simp [releases] at hr
  · intro pre post hsplit
    -- the close is not in front of the releases, so that all behind it are releases
    have hpost : ∀ e ∈ post, e ∈ releases log := by
      obtain ⟨a, hlog, hrest⟩ | ⟨c, -, hrest⟩ := List.append_eq_append_iff.mp hsplit.symm
      · cases a with
        | nil =>
          intro e he
          rw [List.nil_append] at hrest
          rw [← hrest]
          exact List.mem_cons_of_mem _ he
        | cons e a =>
          obtain ⟨rfl, -⟩ := List.cons.inj hrest
          exact absurd rfl (h (.inline .closeFile) (by simp [hlog]))
      · intro e he
        rw [hrest]
        exact List.mem_append_right _ (List.mem_cons_of_mem _ he)
    exact ⟨fun hput => hdata .putData nofun (hpost _ hput),
      fun hget => hdata .getData nofun (hpost _ hget)⟩

/-- When `scl_il_xfer_ex` returns, with whatever code, everything is paired. -/
theorem sclIlXferEx_paired (fuel : ℕ) (direction : Direction) (blockSize callbackInterval : ℤ)
    (world : ω) {code : ℕ} {s : Xfer ω}
    (h : (S.sclIlXferEx fuel direction blockSize callbackInterval).runOn (.start world) =
      (.ok code, s)) : Paired s.log := by
  have hexit : ∀ e : Exit, Triple (Holding direction e.killLocalFile e.killRemoteFile)
      (S.sclIlXferExit direction e) (fun _ s => Paired s.log) (fun _ _ => True) := by
    intro e s' hs'
    refine (sclIlXferExit_log S direction e s').mono (fun _ s hlog => ?_) fun _ _ _ => trivial
    rw [hlog, hs'.exitLog_eq]
    exact paired_releases hs'.held
  have hends := S.sclIlXferEx_triple (body_holding S fuel direction blockSize callbackInterval)
    (hexit ⟨0, false, true, true⟩) hexit (fun _ _ _ => trivial) (.start world) ⟨rfl, rfl, rfl⟩
  rw [h] at hends
  exact hends

/-- Three bytes put in two blocks, with a callback for each, in the same millisecond. -/
theorem sclIlXferEx_paired_three : ∃ s,
    ((copying floatBps 2).sclIlXferEx 3 .put 2 1).runOn
      (.start ⟨3, [(7, 0), (7, 5000), (7, 5000)]⟩) = (.ok 0, s) ∧ Paired s.log := by
  obtain ⟨s, hrun⟩ := leaves_of_outcome (show
    (((copying floatBps 2).sclIlXferEx 3 .put 2 1).runOn
      (.start ⟨3, [(7, 0), (7, 5000), (7, 5000)]⟩)).1 = .ok 0 by decide +kernel)
  exact ⟨s, hrun, sclIlXferEx_paired (copying floatBps 2) 3 .put 2 1 _ hrun⟩

end CompatSuva.Local
