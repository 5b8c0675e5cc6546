import CompatSuva.Audit.Process

/-!
# A child whose `execv` fails

Such a child leaves through `exit(1)`. So it runs the `exit_clean_up` that it has inherited, and
removes the working directory of its parent; and it leaves the streams of its parent: what waits
in their buffers is written twice, and what was read ahead is read again.

* `names_childHandlers_iff`: when the clean-up removes nothing;
* `streams_child_iff`: when the streams stay as they were;
* `failedExec_iff`: a failed `execv` has no effect on the suvlet just when both hold.
-/

namespace CompatSuva.Audit

open CompatSuva.Common CompatSuva.Scl

namespace Process

/-- The same files are there and hold the same, no stream has moved, and the suvlet has the working
    directory and the current directory it had. -/
def Unaffected (s s' : Process) : Prop :=
  (∀ file, file ∈ s'.disk.names ↔ file ∈ s.disk.names) ∧
    s'.disk.toSharedStreams = s.disk.toSharedStreams ∧ s'.tmpDir = s.tmpDir ∧ s'.cwd = s.cwd

/-- If the `rm` of the clean-up runs, it can remove nothing. -/
def RemovesNothing (s : Process) (c : CleanUp) : Prop :=
  ∀ dir stuck, s.cleanUp = true → s.tmpDir.name = some dir → c = .ran stuck →
    ∀ file ∈ s.disk.names, below (s.resolve dir) file → file ∈ stuck

/-- The streams are settled for the child, and for the child of its clean-up if that has to leave
    them too. -/
def LeavesSettled (s : Process) (c : CleanUp) (taken : ℕ → ℕ) : Prop :=
  s.disk.toSharedStreams.Settled taken ∧
    ∀ dir taken', s.cleanUp = true → s.tmpDir.name = some dir → c = .execFailed taken' →
      s.disk.toSharedStreams.Settled taken'

variable (s : Process) (c : CleanUp)

@[simp] theorem readTmpDir_disk : s.readTmpDir.disk = s.disk := by
  unfold readTmpDir
  split <;> rfl

@[simp] theorem readTmpDir_tmpDir : s.readTmpDir.tmpDir = s.tmpDir := by
  unfold readTmpDir
  split <;> rfl

@[simp] theorem readTmpDir_cwd : s.readTmpDir.cwd = s.cwd := by
  unfold readTmpDir
  split <;> rfl

/-- The handler of a child changes nothing but the files. -/
theorem childHandlers_frame :
    (s.childHandlers c).tmpDir = s.tmpDir ∧ (s.childHandlers c).cwd = s.cwd := by
  unfold childHandlers childCleanUp
  split_ifs
  · cases s.tmpDir.name with
    | none => exact ⟨rfl, rfl⟩
    | some dir => cases c <;> simp [execute, note, leaveStreams]
  · exact ⟨rfl, rfl⟩

/-- What the handler of a child does to the files. -/
theorem childHandlers_disk :
    (s.cleanUp = false ∨ s.tmpDir.name = none ∨ c = .forkFailed) ∧
      (s.childHandlers c).disk = s.disk ∨
    (∃ dir taken, s.cleanUp = true ∧ s.tmpDir.name = some dir ∧ c = .execFailed taken ∧
      (s.childHandlers c).disk = { s.disk with
        toSharedStreams := s.disk.toSharedStreams.exit taken }) ∨
    ∃ dir stuck, s.cleanUp = true ∧ s.tmpDir.name = some dir ∧ c = .ran stuck ∧
      (s.childHandlers c).disk = { s.disk with
        names := s.disk.names.filter fun file => !below (s.resolve dir) file || file ∈ stuck } := by
  unfold childHandlers childCleanUp
  cases hcleanUp : s.cleanUp with
  | false => exact .inl ⟨.inl rfl, rfl⟩
  | true =>
    cases hname : s.tmpDir.name with
    | none => exact .inl ⟨.inr (.inl rfl), rfl⟩
    | some dir =>
      cases c with
      | forkFailed => exact .inl ⟨.inr (.inr rfl), by simp⟩
      | execFailed taken => exact .inr (.inl ⟨dir, taken, rfl, rfl, rfl, by simp [leaveStreams]⟩)
      | ran stuck => exact .inr (.inr ⟨dir, stuck, rfl, rfl, rfl, by simp [execute, note, resolve]⟩)

/-- The clean-up leaves the files that were there. -/
theorem names_childHandlers_iff :
    (∀ file, file ∈ (s.childHandlers c).disk.names ↔ file ∈ s.disk.names) ↔
      s.RemovesNothing c := by
  unfold RemovesNothing
  obtain ⟨hnot, hdisk⟩ | ⟨dir, taken, hcleanUp, hname, rfl, hdisk⟩ |
    ⟨dir, stuck, hcleanUp, hname, rfl, hdisk⟩ := childHandlers_disk s c
  · rw [hdisk]
    refine iff_of_true (fun _ => Iff.rfl) fun dir stuck hcleanUp hname hc => ?_
    obtain h | h | h := hnot <;> simp_all
  · rw [hdisk]
    exact iff_of_true (fun _ => Iff.rfl) (by simp)
  · simp only [hdisk, List.mem_filter, hcleanUp, hname, Option.some.injEq, CleanUp.ran.injEq]
    constructor
    · rintro h _ _ - rfl rfl file hfile hbelow
      simpa [hbelow] using ((h file).mpr hfile).2
    · intro h file
      refine and_iff_left_of_imp fun hfile => ?_
      by_cases hbelow : below (s.resolve dir) file
      · simpa [hbelow] using h dir stuck trivial rfl rfl file hfile hbelow
      · simp [hbelow]

/-- The streams are what they were when the child has left them. -/
theorem streams_child_iff (taken : ℕ → ℕ) :
    (s.childHandlers c).disk.toSharedStreams.exit taken = s.disk.toSharedStreams ↔
      s.LeavesSettled c taken := by
  unfold LeavesSettled
  obtain ⟨hnot, hdisk⟩ | ⟨dir, taken', hcleanUp, hname, rfl, hdisk⟩ |
    ⟨dir, stuck, hcleanUp, hname, rfl, hdisk⟩ := childHandlers_disk s c
  · rw [hdisk, SharedStreams.exit_eq_iff]
    refine (and_iff_left fun dir taken' hcleanUp hname hc => ?_).symm
    obtain h | h | h := hnot <;> simp_all
  · rw [hdisk, SharedStreams.exit_exit_eq_iff]
    constructor
    · rintro ⟨hchild, hself⟩
      refine ⟨hself, fun _ taken₂ _ _ hc => ?_⟩
      rwa [← CleanUp.execFailed.inj hc]
    · rintro ⟨hself, hchild⟩
      exact ⟨hchild dir taken' hcleanUp hname rfl, hself⟩
  · rw [hdisk, SharedStreams.exit_eq_iff]
    exact (and_iff_left fun _ _ _ _ hc => nomatch hc).symm

/-- What a child that has failed does to the suvlet. -/
theorem unaffected_runChild (prog : Program) (taken : ℕ → ℕ) :
    Unaffected s (s.runChild prog (.failed c taken)) ↔
      s.RemovesNothing c ∧ s.LeavesSettled c taken := by
  obtain ⟨htmpDir, hcwd⟩ := childHandlers_frame s c
  rw [← names_childHandlers_iff, ← streams_child_iff]
  refine and_congr_right fun _ => ?_
  show _ ∧ (s.childHandlers c).tmpDir = s.tmpDir ∧ (s.childHandlers c).cwd = s.cwd ↔ _
  rw [htmpDir, hcwd]
  exact and_iff_left ⟨rfl, rfl⟩

theorem Unaffected.congr {s s₁ s₂ : Process} (hdisk : s₂.disk = s₁.disk)
    (htmpDir : s₂.tmpDir = s₁.tmpDir) (hcwd : s₂.cwd = s₁.cwd) :
    Unaffected s s₂ ↔ Unaffected s s₁ := by
  simp only [Unaffected, hdisk, htmpDir, hcwd]

end Process

open Process

/-- In any state and for any program: a child of `safe_exec` or `safe_exec_pipe` whose
    `execv` fails has no effect on the suvlet but its status just when its clean-up can
    remove nothing and all streams are settled. -/
theorem failedExec_iff (s : Process) (prog : Program) (pid : ℕ) (c : CleanUp)
    (taken : ℕ → ℕ) (k : ℕ) :
    (Unaffected s (s.safeExec prog (.child pid (.failed c taken)) k).2 ↔
        s.RemovesNothing c ∧ s.LeavesSettled c taken) ∧
      (Unaffected s (s.safeExecPipe prog (.child pid (.failed c taken))).2 ↔
        s.RemovesNothing c ∧ s.LeavesSettled c taken) := by
  have hchild := unaffected_runChild s c prog taken
  refine ⟨?_, (Unaffected.congr rfl rfl rfl).trans hchild⟩
  have hstate : (s.safeExec prog (.child pid (.failed c taken)) k).2 =
      ((s.start prog pid (.failed c taken)).wait ⟨pid, exitedOne⟩ k).2 := by
    unfold safeExec
    simp only [childStatus]
    split <;> rfl
  rw [hstate]
  exact (Unaffected.congr rfl rfl rfl).trans hchild

/-- A suvlet that holds `/tmp/a` and cannot execute the program of a report. -/
theorem failedExec_removes :
    let s : Process := { started (chars "/") (.closed [chars "/tmp/a"]) with
      tmpDir := .held (chars "/tmp/a") }
    (s.safeExecPipe (.other id) (.child 7 (.failed (.ran []) fun _ => 0))).2.disk.names = [] := by
  decide

/-- No working directory is held, but a file is being received, and ten bytes of it wait in the
    buffer: the child writes them first. -/
example :
    let waiting := List.replicate 10 120
    let s := started (chars "/")
      ⟨⟨fun _ => [], [⟨1, 0, false, .pending waiting⟩]⟩, [chars "/file"]⟩
    (s.safeExecPipe (.other id) (.child 7 (.failed .forkFailed fun _ => 10))).2.disk.data 1 =
      waiting := by
  decide

end CompatSuva.Audit
