import CompatSuva.Audit.Requests

/-!
# The working directory of `SecurityAudit`

What the requests do to the directory that `tmpDir` names. `Quiet s s'` says that
nothing has happened to it; `Kept s` that every directory made so far has been removed
once before the next was made, but for the one that is held.

* `step_kept`: the requests keep that, as long as they are `Tidy`;
* `finish_removed`: an ending that is `Tidy` removes the one that is held;
* `workingDir_removed`: so a tidy run removes every directory it has made exactly once,
  nothing else, and never reads `tmpDir` after it has been freed.
-/

namespace CompatSuva.Audit

open CompatSuva.Common CompatSuva.Scl

/-! ## Tidy requests -/

/-- The program runs in the child. -/
def Fork.Runs : Fork → Prop
  | .child _ (.ran _ _) => True
  | _ => False

/-- The `rm` of `exit_clean_up` runs. -/
def CleanUp.Runs : CleanUp → Prop
  | .ran _ => True
  | _ => False

/-- No child fails to execute its program and removes the working directory on its way
    out. -/
def Fork.Spares (s : Process) : Fork → Prop
  | .child _ (.failed c _) => s.tmpDir = .null ∨ ¬ c.Runs
  | _ => True

/-- The request does not lose the working directory: none is made while one is held,
    and its name can be copied; while one is held, no child that fails cleans up, the `rm`
    of `rmdir` runs, and the current directory stays the same unless the name is absolute. -/
def Request.Tidy (s : Process) : Request → Prop
  | .mkWorkingDir dirName mkdir strdup =>
    dirName = none ∨ mkdir = false ∨ s.tmpDir = .null ∧ strdup = true
  | .rmdir _ f _ => s.tmpDir = .null ∨ f.Runs
  | .getMd5 _ r _ => r.fork.Spares s
  | .runAide _ chdir _ _ r _ init _ _ =>
    (∀ cwd dir, chdir = some cwd → s.tmpDir = .held dir →
      cwd = s.cwd ∨ dir.head? = some 47) ∧ r.fork.Spares s ∧ init.Spares s
  | .getNewXuids _ r _ _ => r.fork.Spares s
  | .getNewDotFiles _ r _ _ => r.fork.Spares s
  | .getPasswordless _ r => r.fork.Spares s
  | .other _ => True

/-- The suvlet is destroyed without a working directory, or it exits and the `rm` of
    `exit_clean_up` runs. -/
def Ending.Tidy (s : Process) : Ending → Prop
  | .destroy _ _ _ _ _ => s.tmpDir = .null
  | .exit f _ => s.tmpDir = .null ∨ f.Runs

/-- Every request is tidy in the state it is served in, and so is the end. -/
def TidyRun : Process → List Request → Ending → Prop
  | s, [], e => e.Tidy s
  | s, r :: rs, e => r.Tidy s ∧ TidyRun (s.step r) rs e

theorem Fork.Spares.congr {s s' : Process} {f : Fork} (h : f.Spares s)
    (htmpDir : s'.tmpDir = s.tmpDir) : f.Spares s' := by
  cases f with
  | failed => trivial
  | child pid e =>
    cases e with
    | ran stuck status => trivial
    | failed c taken => exact h.imp_left htmpDir.trans

/-! ## Working directories in the log -/

/-- The event is about a working directory. -/
def Event.isDir : Event → Bool
  | .created _ | .removed _ => true
  | _ => false

/-- What has happened to working directories. -/
def dirEvents (log : List Event) : List Event := log.filter Event.isDir

/-- The directories in turn, each made and removed. -/
def pairs (dirs : List Path) : List Event := dirs.flatMap fun dir => [.created dir, .removed dir]

theorem dirEvents_append (es es' : List Event) :
    dirEvents (es ++ es') = dirEvents es ++ dirEvents es' := List.filter_append es es'

namespace Process

/-! ## Steps that leave the working directory alone -/

/-- From `s` to `s'`, nothing has happened to the working directory. -/
structure Quiet (s s' : Process) : Prop where
  tmpDir : s'.tmpDir = s.tmpDir
  cwd : s'.cwd = s.cwd
  cleanUp : s'.cleanUp = s.cleanUp
  log : ∃ es, s'.log = s.log ++ es ∧ ∀ e ∈ es, ∃ own got, e = .waited own got

variable {s s' s'' : Process}

/-- Only the files and the children have changed. -/
theorem Quiet.of_log (htmpDir : s'.tmpDir = s.tmpDir) (hcwd : s'.cwd = s.cwd)
    (hcleanUp : s'.cleanUp = s.cleanUp) (hlog : s'.log = s.log) : Quiet s s' :=
  ⟨htmpDir, hcwd, hcleanUp, [], by simp [hlog], by simp⟩

theorem Quiet.refl (s : Process) : Quiet s s := .of_log rfl rfl rfl rfl

theorem Quiet.trans (h : Quiet s s') (h' : Quiet s' s'') : Quiet s s'' := by
  obtain ⟨es, hlog, hes⟩ := h.log
  obtain ⟨es', hlog', hes'⟩ := h'.log
  refine ⟨h'.tmpDir.trans h.tmpDir, h'.cwd.trans h.cwd, h'.cleanUp.trans h.cleanUp, es ++ es',
    by rw [hlog', hlog, List.append_assoc], fun e he => ?_⟩
  rcases List.mem_append.mp he with he | he
  · exact hes e he
  · exact hes' e he

theorem quiet_wait (s : Process) (own : Child) (k : ℕ) : Quiet s (s.wait own k).2 :=
  ⟨rfl, rfl, rfl, [.waited own s.unreaped[k % s.unreaped.length]?], rfl, fun _ he =>
    ⟨own, _, List.mem_singleton.mp he⟩⟩

/-- `tmpDir` has not been freed and kept. -/
def Valid (s : Process) : Prop := ∀ junk, s.tmpDir ≠ .freed junk

theorem Valid.read (hv : s.Valid) : s.readTmpDir = s := by
  unfold readTmpDir
  cases h : s.tmpDir with
  | freed junk => exact absurd h (hv junk)
  | _ => rfl

theorem Valid.congr (hv : s.Valid) (h : s'.tmpDir = s.tmpDir) : s'.Valid := by
  intro junk
  rw [h]
  exact hv junk

/-- The clean-up of a child that has failed, if its `rm` does not run. -/
theorem quiet_childCleanUp (hv : s.Valid) {c : CleanUp} (h : s.tmpDir = .null ∨ ¬ c.Runs) :
    Quiet s (s.childCleanUp c) := by
  unfold childCleanUp
  cases hname : s.tmpDir.name with
  | none => exact .refl s
  | some dir =>
    simp only [hv.read]
    cases c with
    | forkFailed => exact .refl s
    | execFailed taken => exact .of_log rfl rfl rfl rfl
    | ran stuck =>
      obtain hnull | hruns := h
      · simp [hnull, TmpDir.name] at hname
      · exact absurd trivial hruns

theorem quiet_start (hv : s.Valid) (files : Files → Files) (pid : ℕ) {e : Exec}
    (hspares : Fork.Spares s (.child pid e)) : Quiet s (s.start (.other files) pid e) := by
  cases e with
  | ran stuck status => exact .of_log rfl rfl rfl rfl
  | failed c taken =>
    have hhandlers : Quiet s (s.childHandlers c) := by
      unfold childHandlers
      split_ifs
      · exact quiet_childCleanUp hv hspares
      · exact .refl s
    exact hhandlers.trans (.of_log rfl rfl rfl rfl)

/-- `wait` behind a start, whatever is then done with the status. -/
theorem quiet_safeExec (hv : s.Valid) (files : Files → Files) {f : Fork}
    (hspares : f.Spares s) (k : ℕ) : Quiet s (s.safeExec (.other files) f k).2 := by
  cases f with
  | failed => exact .refl s
  | child pid e =>
    have h := (quiet_start hv files pid hspares).trans (quiet_wait _ ⟨pid, childStatus e⟩ k)
    unfold safeExec
    simp only
    split <;> exact h

theorem quiet_safeExecPipe (hv : s.Valid) (files : Files → Files) {f : Fork}
    (hspares : f.Spares s) : Quiet s (s.safeExecPipe (.other files) f).2 := by
  cases f with
  | failed => exact .refl s
  | child pid e => exact quiet_start hv files pid hspares

theorem quiet_getMd5 (hv : s.Valid) (files : Files → Files) {r : Reading}
    (hspares : r.fork.Spares s) (line : Bool) : Quiet s (s.getMd5 files r line).2 := by
  have h := quiet_safeExecPipe hv files hspares
  unfold getMd5
  generalize s.safeExecPipe (.other files) r.fork = x at h
  obtain ⟨pid, s₁⟩ := x
  cases pid with
  | none => exact h
  | some own =>
    simp only
    split_ifs
    · exact h
    · exact h.trans (quiet_wait _ _ _)
    · exact h

theorem quiet_readProgram (hv : s.Valid) (files : Files → Files) {r : Reading}
    (hspares : r.fork.Spares s) : Quiet s (s.readProgram files r).2 := by
  have h := quiet_safeExecPipe hv files hspares
  unfold readProgram
  generalize s.safeExecPipe (.other files) r.fork = x at h
  obtain ⟨pid, s₁⟩ := x
  cases pid with
  | none => exact h
  | some own =>
    have hwait := h.trans (quiet_wait s₁ own r.k)
    simp only
    split_ifs
    · exact h
    · split
      · exact hwait
      · split_ifs <;> exact hwait

theorem quiet_dbDiff (hv : s.Valid) (files : Files → Files) {r : Reading}
    (hspares : r.fork.Spares s) (read write : Bool) :
    Quiet s (s.dbDiff files r read write).2 := by
  have h := quiet_readProgram hv files hspares
  unfold dbDiff
  generalize s.readProgram files r = x at h
  obtain ⟨failed, s₁⟩ := x
  cases failed with
  | some reply => exact h
  | none =>
    simp only
    split_ifs <;> exact h

/-! ## The invariant -/

/-- The working directory that is held, in full. -/
def heldDir (s : Process) : Option Path :=
  match s.tmpDir with
  | .held dir => some (s.resolve dir)
  | _ => none

/-- Every directory made has been removed before the next was made, but for the one that
    is held; `tmpDir` has not been freed and kept, and `exit` will clean up. -/
structure Kept (s : Process) : Prop where
  valid : s.Valid
  cleanUp : s.cleanUp = true
  unread : .readFreed ∉ s.log
  paired : ∃ dirs, dirEvents s.log = pairs dirs ++ (s.heldDir.map Event.created).toList

theorem kept_started (cwd : Path) (disk : Files) : Kept (started cwd disk) where
  valid _ := by simp [started]
  cleanUp := rfl
  unread := by simp [started]
  paired := ⟨[], rfl⟩

/-- Waiting has nothing to do with directories. -/
theorem dirEvents_waited {es : List Event} (h : ∀ e ∈ es, ∃ own got, e = .waited own got) :
    dirEvents es = [] ∧ .readFreed ∉ es := by
  refine ⟨List.filter_eq_nil_iff.mpr fun e he => ?_, fun hmem => ?_⟩
  · obtain ⟨own, got, rfl⟩ := h e he
    simp [Event.isDir]
  · obtain ⟨own, got, heq⟩ := h _ hmem
    simp at heq

theorem Kept.quiet (h : Kept s) (hq : Quiet s s') : Kept s' := by
  obtain ⟨es, hlog, hes⟩ := hq.log
  obtain ⟨hdirs, hunread⟩ := dirEvents_waited hes
  have hheld : s'.heldDir = s.heldDir := by simp [heldDir, resolve, hq.tmpDir, hq.cwd]
  refine ⟨h.valid.congr hq.tmpDir, hq.cleanUp.trans h.cleanUp, ?_, ?_⟩
  · rw [hlog, List.mem_append, not_or]
    exact ⟨h.unread, hunread⟩
  · rw [hlog, dirEvents_append, hdirs, List.append_nil, hheld]
    exact h.paired

/-- The current directory stays what it was, or the name that is held is absolute. -/
theorem Kept.chdir (h : Kept s) {cwd : Path}
    (hsame : ∀ dir, s.tmpDir = .held dir → cwd = s.cwd ∨ dir.head? = some 47) :
    Kept { s with cwd := cwd } := by
  have hheld : heldDir { s with cwd := cwd } = s.heldDir := by
    unfold heldDir
    cases htmp : s.tmpDir with
    | held dir =>
      obtain rfl | habs := hsame dir htmp
      · rfl
      · simp [resolve, habs]
    | _ => rfl
  exact ⟨h.valid, h.cleanUp, h.unread, by rw [hheld]; exact h.paired⟩

/-! ## Removing the working directory -/

/-- The `rm` of a `safe_exec` runs. -/
theorem safeExec_rm (s : Process) (dir : Path) {f : Fork} (hf : f.Runs) (k : ℕ) :
    (s.safeExec (.rm dir) f k).2.cleanUp = s.cleanUp ∧
      ∃ es, (s.safeExec (.rm dir) f k).2.log = s.log ++ .removed (s.resolve dir) :: es ∧
        ∀ e ∈ es, ∃ own got, e = .waited own got := by
  cases f with
  | failed => exact hf.elim
  | child pid e =>
    cases e with
    | failed c taken => exact hf.elim
    | ran stuck status =>
      have hwait := quiet_wait (s.start (.rm dir) pid (.ran stuck status)) ⟨pid, status⟩ k
      obtain ⟨es, hlog, hes⟩ := hwait.log
      have hcleanUp := hwait.cleanUp
      have hstart : (s.start (.rm dir) pid (.ran stuck status)).log =
          s.log ++ [.removed (s.resolve dir)] := rfl
      rw [hstart, List.append_assoc] at hlog
      unfold safeExec
      simp only [childStatus]
      split
      all_goals exact ⟨hcleanUp, es, hlog, hes⟩

/-- Once the directory that was held has been removed, all have been. -/
theorem Kept.removed (h : Kept s) {dir : Path} (hheld : s.tmpDir = .held dir) {es : List Event}
    {log : List Event} (hlog : log = s.log ++ .removed (s.resolve dir) :: es)
    (hes : ∀ e ∈ es, ∃ own got, e = .waited own got) :
    .readFreed ∉ log ∧ ∃ dirs, dirEvents log = pairs dirs := by
  obtain ⟨hdirs, hunread⟩ := dirEvents_waited hes
  obtain ⟨dirs, hpaired⟩ := h.paired
  subst hlog
  refine ⟨?_, dirs ++ [s.resolve dir], ?_⟩
  · rw [List.mem_append, List.mem_cons, not_or, not_or]
    exact ⟨h.unread, by simp, hunread⟩
  · have hremoved : dirEvents (.removed (s.resolve dir) :: es) = [.removed (s.resolve dir)] := by
      rw [dirEvents, List.filter_cons_of_pos rfl, ← dirEvents, hdirs]
    rw [dirEvents_append, hpaired, hremoved, heldDir, hheld]
    simp [pairs]

/-! ## Requests -/

theorem mkWorkingDir_kept (h : Kept s) {dirName : Option Path} {mkdir strdup : Bool}
    (ht : (Request.mkWorkingDir dirName mkdir strdup).Tidy s) :
    Kept (s.mkWorkingDir dirName mkdir strdup).2 := by
  unfold mkWorkingDir
  split
  · next dir =>
    obtain ⟨hnull, rfl⟩ : s.tmpDir = .null ∧ strdup = true := by simpa [Request.Tidy] using ht
    obtain ⟨dirs, hpaired⟩ := h.paired
    rw [heldDir, hnull] at hpaired
    refine ⟨fun junk => by simp [note], h.cleanUp, by simpa [note] using h.unread, dirs, ?_⟩
    show dirEvents (s.log ++ [.created (s.resolve dir)]) =
      pairs dirs ++ [.created (s.resolve dir)]
    rw [dirEvents_append, hpaired]
    simp [dirEvents, Event.isDir]
  · exact h

theorem rmdir_kept (h : Kept s) (dirName : Option Path) {f : Fork} {k : ℕ}
    (ht : (Request.rmdir dirName f k).Tidy s) : Kept (s.rmdir dirName f k).2 := by
  unfold rmdir
  cases hheld : s.tmpDir with
  | null => exact h
  | freed junk => exact absurd hheld (h.valid junk)
  | held dir =>
    have hf : f.Runs := by simpa [Request.Tidy, hheld] using ht
    obtain ⟨hcleanUp, es, hlog, hes⟩ := safeExec_rm s dir hf k
    obtain ⟨hunread, dirs, hpaired⟩ := h.removed hheld hlog hes
    simp only [TmpDir.name, h.valid.read]
    exact ⟨fun junk => by simp, hcleanUp.trans h.cleanUp, hunread, dirs, by
      simpa [heldDir] using hpaired⟩

theorem runAide_kept (h : Kept s) {workingDir : Path} {chdir : Option Path} {symlink : Bool}
    {files initFiles : Files → Files} {r : Reading} {init : Fork} {k : ℕ} {copy : Bool}
    (ht : (Request.runAide workingDir chdir symlink files r initFiles init k copy).Tidy s) :
    Kept (s.runAide workingDir chdir symlink files r initFiles init k copy).2 := by
  obtain ⟨hsame, hr, hinit⟩ := ht
  unfold runAide
  cases chdir with
  | none => exact h
  | some cwd =>
    have h₁ := h.chdir (hsame cwd · rfl)
    cases symlink with
    | false => exact h₁
    | true =>
      refine h₁.quiet ?_
      set s₁ : Process := { s with cwd := cwd }
      set s₂ : Process := { s₁ with
        disk.names := s₁.resolve (chars "./aide.db") :: s₁.disk.names }
      have hq₂ : Quiet s₁ s₂ := .of_log rfl rfl rfl rfl
      have hpipe := quiet_safeExecPipe (h₁.valid.congr hq₂.tmpDir) files (hr.congr hq₂.tmpDir)
      simp only [Bool.not_true, Bool.false_eq_true, if_false]
      generalize s₂.safeExecPipe (.other files) r.fork = x at hpipe
      obtain ⟨pid, s₃⟩ := x
      have hq₃ := hq₂.trans hpipe
      cases pid with
      | none => exact hq₃
      | some own =>
        have hq₄ := hq₃.trans (quiet_wait s₃ own r.k)
        have hexec := hq₄.trans (quiet_safeExec (h₁.valid.congr hq₄.tmpDir) initFiles
          (hinit.congr hq₄.tmpDir) k)
        simp only
        split_ifs
        · exact hq₃
        all_goals exact hexec

theorem step_kept (h : Kept s) {r : Request} (ht : r.Tidy s) : Kept (s.step r) := by
  cases r with
  | mkWorkingDir dirName mkdir strdup => exact mkWorkingDir_kept h ht
  | rmdir dirName f k => exact rmdir_kept h dirName ht
  | getMd5 files r line => exact h.quiet (quiet_getMd5 h.valid files ht line)
  | runAide workingDir chdir symlink files r initFiles init k copy => exact runAide_kept h ht
  | getNewXuids files r read write => exact h.quiet (quiet_dbDiff h.valid files ht read write)
  | getNewDotFiles files r read write => exact h.quiet (quiet_dbDiff h.valid files ht read write)
  | getPasswordless files r => exact h.quiet (quiet_readProgram h.valid files ht)
  | other files => exact h.quiet (.of_log rfl rfl rfl rfl)

/-! ## Whole runs -/

/-- The end of the process removes the directory that is held. -/
theorem finish_removed (h : Kept s) {e : Ending} (ht : e.Tidy s) :
    .readFreed ∉ (s.finish e).log ∧ ∃ dirs, dirEvents (s.finish e).log = pairs dirs := by
  have hnone : s.tmpDir = .null → .readFreed ∉ s.log ∧ ∃ dirs, dirEvents s.log = pairs dirs := by
    intro hnull
    obtain ⟨dirs, hpaired⟩ := h.paired
    exact ⟨h.unread, dirs, by simpa [heldDir, hnull] using hpaired⟩
  cases e with
  | destroy f k junk f' k' =>
    have hnull : s.tmpDir = .null := ht
    have hfinish : (s.finish (.destroy f k junk f' k')).log = s.log := by
      simp [finish, deconstructor, exit, exitCleanUp, hnull, TmpDir.name, h.cleanUp]
    rw [hfinish]
    exact hnone hnull
  | exit f k =>
    cases hheld : s.tmpDir with
    | null =>
      have hfinish : (s.finish (.exit f k)).log = s.log := by
        simp [finish, exit, exitCleanUp, hheld, TmpDir.name, h.cleanUp]
      rw [hfinish]
      exact hnone hheld
    | freed junk => exact absurd hheld (h.valid junk)
    | held dir =>
      have hf : f.Runs := by simpa [Ending.Tidy, hheld] using ht
      have hfinish : s.finish (.exit f k) =
          (safeExec { s with cleanUp := false } (.rm dir) f k).2 := by
        simp [finish, exit, exitCleanUp, hheld, TmpDir.name, h.cleanUp, readTmpDir]
      obtain ⟨-, es, hlog, hes⟩ := safeExec_rm { s with cleanUp := false } dir hf k
      rw [hfinish]
      exact h.removed hheld hlog hes

/-- A suvlet that is destroyed while it holds a working directory reads `tmpDir` after it
    has been freed. -/
theorem destroy_readFreed {dir : Path} (hcleanUp : s.cleanUp = true) (hheld : s.tmpDir = .held dir)
    {f f' : Fork} (hf : f.Runs) (hf' : f'.Runs) (k k' : ℕ) (junk : Path) :
    .readFreed ∈ (s.finish (.destroy f k junk f' k')).log := by
  obtain ⟨hkept, -⟩ := safeExec_rm s dir hf k
  obtain ⟨-, es, hlog, -⟩ := safeExec_rm (note { (s.safeExec (.rm dir) f k).2 with
    tmpDir := .freed junk, cleanUp := false } .readFreed) junk hf' k'
  have hfinish : s.finish (.destroy f k junk f' k') =
      ((note { (s.safeExec (.rm dir) f k).2 with tmpDir := .freed junk, cleanUp := false }
        .readFreed).safeExec (.rm junk) f' k').2 := by
    simp [finish, deconstructor, exit, exitCleanUp, hheld, TmpDir.name, readTmpDir, hkept, hcleanUp]
  rw [hfinish, hlog]
  simp [note]

/-- As long as the requests are tidy, nothing is lost. -/
theorem run_removed (h : Kept s) {rs : List Request} {e : Ending} (ht : TidyRun s rs e) :
    .readFreed ∉ ((s.serve rs).finish e).log ∧
      ∃ dirs, dirEvents ((s.serve rs).finish e).log = pairs dirs := by
  induction rs generalizing s with
  | nil => exact finish_removed h ht
  | cons r rs ih => exact ih (step_kept h ht.1) ht.2

end Process

open Process

/-- In a tidy run, every directory that `mk_working_dir` makes is passed to `rm -r` once
    and before the next is made, no other name is, and `tmpDir` is not read after it has
    been freed. -/
theorem workingDir_removed (cwd : Path) (disk : Files) {rs : List Request} {e : Ending}
    (ht : TidyRun (started cwd disk) rs e) :
    .readFreed ∉ (((started cwd disk).serve rs).finish e).log ∧
      ∃ dirs : List Path, dirEvents (((started cwd disk).serve rs).finish e).log =
        dirs.flatMap fun dir => [.created dir, .removed dir] :=
  run_removed (kept_started cwd disk) ht

/-- `/tmp/a` is made and removed by `rmdir`, then `/tmp/b` is made and left to `exit`. -/
theorem workingDir_removed_two :
    let run := ((started (chars "/") (.closed [])).serve
      [.mkWorkingDir (chars "/tmp/a") true true, .rmdir none (.child 7 (.ran [] 0)) 0,
        .mkWorkingDir (chars "/tmp/b") true true]).finish (.exit (.child 8 (.ran [] 0)) 0)
    .readFreed ∉ run.log ∧
      ∃ dirs : List Path, dirEvents run.log =
        dirs.flatMap fun dir => [.created dir, .removed dir] :=
  workingDir_removed (chars "/") (.closed [])
    ⟨Or.inr (Or.inr ⟨rfl, rfl⟩), Or.inr trivial, Or.inr (Or.inr ⟨rfl, rfl⟩), Or.inr trivial⟩

/-- A working directory is made and the suvlet destroyed: `exit_clean_up` reads the name
    that `deconstructor` has freed, and runs `rm -r` on what then stands there. -/
theorem workingDir_destroyed :
    let run := ((started (chars "/") (.closed [])).serve
      [.mkWorkingDir (chars "/tmp/a") true true]).finish
      (.destroy (.child 7 (.ran [] 0)) 0 (chars "/home") (.child 8 (.ran [] 0)) 0)
    .readFreed ∈ run.log ∧ dirEvents run.log =
      [.created (chars "/tmp/a"), .removed (chars "/tmp/a"), .removed (chars "/home")] := by
  decide

end CompatSuva.Audit
