import CompatSuva.Audit.FileCopy
import CompatSuva.Audit.Requests
import CompatSuva.Audit.UidZeros
import CompatSuva.Common.Descriptors

/-!
# The descriptors of the SecurityAudit suvlet

A report reads the output of a program through a pipe, and nothing in `SecurityAudit.c` closes the
stream on it (lines 122–141, 164–198, 225–250, 487–548). `file_copy` closes its files when it
succeeds (lines 559–582). A descriptor that is not closed is missing at all later requests.

* `serves_keeps`: what a request keeps;
* `reports_bounded`: the suvlet can only start so many programs, and when the table has no room for
  a pipe it refuses every report, for ever.
-/

namespace CompatSuva.Audit.Descriptors

open CompatSuva.Common CompatSuva.Scl

/-! ## Model -/

/-- A request that is not an inline call, with the outcomes of the calls that its function makes. In
    `runAide`, `copy` is how `file_copy` goes, on `source`. -/
inductive Call where
  | mkWorkingDir (dirName : Option Path) (mkdir strdup : Bool)
  | rmdir (dirName : Option Path) (f : Fork) (k : ℕ)
  | getMd5 (files : Files → Files) (r : Reading) (line : Bool)
  | runAide (workingDir : Path) (chdir : Option Path) (symlink : Bool) (files : Files → Files)
      (r : Reading) (initFiles : Files → Files) (init : Fork) (k : ℕ) (copy : Schedule)
      (source : List Byte)
  | getNewXuids (files : Files → Files) (r : Reading) (read write : Bool)
  | getNewDotFiles (files : Files → Files) (r : Reading) (read write : Bool)
  | getPasswordless (files : Files → Files) (r : Reading)
  | getUidZeros (passwd : Option (List Byte))

/-- What is returned. -/
inductive Answer where
  | reply (r : Reply)
  | count (n : ℤ)
  deriving DecidableEq, Repr

/-- `pipe` and `fork`; the parent closes its end for writing. -/
def pipeUses : Fork → List Use
  | .failed => []
  | .child _ _ => [.take, .take, .give]

/-- `fopen` and `fclose`. -/
def fileUses (opened : Bool) : List Use := if opened then [.take, .give] else []

/-- `file_copy`: what is open when it fails stays open. -/
def copyUses (s : Schedule) (source : List Byte) : List Use :=
  if !s.openIn then []
  else if !s.openOut then [.take]
  else if (copyLoop s.rounds source []).1 = 0 then [.take, .take, .give, .give]
  else [.take, .take]

/-- The program of a report has run and been waited for, and has exited with 0. -/
def programDone (s : Process) (files : Files → Files) (r : Reading) : Bool :=
  (s.readProgram files r).1 = none

/-- `db_diff` (lines 487–548). -/
def dbDiffUses (s : Process) (files : Files → Files) (r : Reading) (read write : Bool) :
    List Use :=
  pipeUses r.fork ++
    if programDone s files r then
      if read then fileUses true ++ fileUses write else []
    else []

/-- The process when `SecurityAudit_run_aide` has changed the directory and made the link. -/
def entered (s : Process) (cwd : Path) : Process :=
  let s := { s with cwd := cwd }
  { s with disk.names := s.resolve (chars "./aide.db") :: s.disk.names }

/-- `SecurityAudit_run_aide`, behind `symlink` (lines 164–198). -/
def aideUses (s : Process) (files : Files → Files) (r : Reading)
    (initFiles : Files → Files) (init : Fork) (k : ℕ) (copy : Schedule)
    (source : List Byte) : List Use :=
  pipeUses r.fork ++
    match s.safeExecPipe (.other files) r.fork with
    | (none, _) => []
    | (some own, s) =>
      if r.fdopen then
        if ((s.wait own r.k).2.safeExec (.other initFiles) init k).1 = 0 then copyUses copy source
        else []
      else []

/-- What is answered, what is done with descriptors, and the process afterwards. -/
def answer (s : Process) : Call → Except Halt (Answer × List Use × Process)
  | .mkWorkingDir dirName mkdir strdup =>
    let (r, s) := s.mkWorkingDir dirName mkdir strdup
    .ok (.reply r, [], s)
  | .rmdir dirName f k =>
    let (r, s) := s.rmdir dirName f k
    .ok (.reply r, [], s)
  | .getMd5 files r line =>
    let (reply, s') := s.getMd5 files r line
    .ok (.reply reply, pipeUses r.fork, s')
  | .runAide workingDir chdir symlink files r initFiles init k copy source =>
    let (reply, s') := s.runAide workingDir chdir symlink files r initFiles init k
      ((fileCopy copy source []).ret = 0)
    let us := chdir.elim [] fun cwd =>
      if symlink then aideUses (entered s cwd) files r initFiles init k copy source else []
    .ok (.reply reply, us, s')
  | .getNewXuids files r read write =>
    let (reply, s') := s.dbDiff files r read write
    .ok (.reply reply, dbDiffUses s files r read write, s')
  | .getNewDotFiles files r read write =>
    let (reply, s') := s.dbDiff files r read write
    .ok (.reply reply, dbDiffUses s files r read write, s')
  | .getPasswordless files r =>
    let (reply, s') := s.getPasswordless files r
    .ok (.reply reply, pipeUses r.fork, s')
  | .getUidZeros passwd => do
    let n ← getUidZeros passwd
    return (.count n, fileUses passwd.isSome, s)

/-- A request is answered. -/
def ServesWith (s : Process) (c : Call) (a : Answer) (us : List Use) (s' : Process) : Prop :=
  answer s c = .ok (a, us, s')

/-! ## What is kept -/

/-- The stream on the output of a program. -/
def pipeKept : Fork → ℕ
  | .failed => 0
  | .child _ _ => 1

/-- The files that `file_copy` leaves open. -/
def copyKept (s : Schedule) (source : List Byte) : ℕ :=
  if !s.openIn then 0 else if !s.openOut then 1 else if (copyLoop s.rounds source []).1 = 0 then 0
  else 2

/-- The reply when `file_copy` has failed. -/
def copyFailed : Reply := .output "\n\n<error>9\nFailed to move new db to proper location"

/-- The descriptors that a request takes and does not give back. -/
def keeps : Call → Answer → ℕ
  | .mkWorkingDir _ _ _, _ => 0
  | .rmdir _ _ _, _ => 0
  | .getMd5 _ r _, _ => pipeKept r.fork
  | .runAide _ chdir symlink _ r _ _ _ copy source, a =>
    if chdir.isSome && symlink then
      pipeKept r.fork + if a = .reply copyFailed then copyKept copy source else 0
    else 0
  | .getNewXuids _ r _ _, _ => pipeKept r.fork
  | .getNewDotFiles _ r _ _, _ => pipeKept r.fork
  | .getPasswordless _ r, _ => pipeKept r.fork
  | .getUidZeros _, _ => 0

variable {s s' : Process} {c : Call} {a : Answer} {us : List Use}

theorem kept_pipeUses (f : Fork) : Kept (pipeUses f) (pipeKept f) := by
  cases f with
  | failed => rfl
  | child pid exec => rfl

theorem kept_fileUses (opened : Bool) : Kept (fileUses opened) 0 := by
  cases opened with
  | false => rfl
  | true => rfl

theorem kept_copyUses (s : Schedule) (source : List Byte) :
    Kept (copyUses s source) (copyKept s source) := by
  unfold copyUses copyKept
  split_ifs
  · rfl
  · rfl
  · rfl
  · rfl

theorem kept_dbDiffUses (s : Process) (files : Files → Files) (r : Reading)
    (read write : Bool) : Kept (dbDiffUses s files r read write) (pipeKept r.fork) := by
  unfold dbDiffUses
  refine (kept_pipeUses r.fork).append (show Kept _ 0 from ?_)
  split_ifs
  · exact (kept_fileUses true).append (kept_fileUses write)
  · rfl
  · rfl

/-- `file_copy` returns 0 when it leaves nothing open that it has opened. -/
theorem copyKept_eq_zero {s : Schedule} {source : List Byte} (h : (fileCopy s source []).ret = 0) :
    copyKept s source = 0 := by
  unfold fileCopy at h
  unfold copyKept
  split_ifs at h ⊢
  · rfl
  · cases h
  · rfl
  next hne => exact absurd h hne

/-- How `SecurityAudit_run_aide` goes on from there. -/
theorem runAide_entered (s : Process) (workingDir cwd : Path) (files : Files → Files)
    (r : Reading) (initFiles : Files → Files) (init : Fork) (k : ℕ) (copied : Bool) :
    (s.runAide workingDir (some cwd) true files r initFiles init k copied).1 =
      ((entered s cwd).safeExecPipe (.other files) r.fork).1.elim
        (.text "<error>1\nFailed to execute aide") fun own =>
          if r.fdopen then
            if ((((entered s cwd).safeExecPipe (.other files) r.fork).2.wait own r.k).2.safeExec
              (.other initFiles) init k).1 = 0 then
              if copied then .output "" else copyFailed
            else .output "\n\n<error>8\nFailed while creating new db"
          else .text "<error>2\nFailed to open pipe as stream" := by
  rw [Process.runAide]
  simp only [Bool.not_true, Bool.false_eq_true, if_false]
  unfold entered
  generalize Process.safeExecPipe _ (.other files) r.fork = started
  obtain ⟨pid, s₁⟩ := started
  cases pid with
  | none => rfl
  | some own =>
    cases r.fdopen with
    | false => rfl
    | true =>
      simp only [Bool.not_true, Bool.false_eq_true, if_false, if_true, Option.elim_some]
      generalize Process.safeExec _ (.other initFiles) init k = ran
      obtain ⟨ret, s₂⟩ := ran
      by_cases hret : ret = 0
      · cases copied with
        | false => simp [hret, copyFailed]
        | true => simp [hret]
      · simp [hret]

theorem copyFailed_ne : Reply.output "" ≠ copyFailed ∧
    Reply.output "\n\n<error>8\nFailed while creating new db" ≠ copyFailed ∧
    Reply.text "<error>2\nFailed to open pipe as stream" ≠ copyFailed ∧
    Reply.text "<error>1\nFailed to execute aide" ≠ copyFailed := by decide

theorem kept_aideUses (s : Process) (workingDir cwd : Path) (files : Files → Files)
    (r : Reading) (initFiles : Files → Files) (init : Fork) (k : ℕ) (copy : Schedule)
    (source : List Byte) :
    Kept (aideUses (entered s cwd) files r initFiles init k copy source)
      (pipeKept r.fork + if (s.runAide workingDir (some cwd) true files r initFiles init k
        ((fileCopy copy source []).ret = 0)).1 = copyFailed then copyKept copy source else 0) := by
  obtain ⟨hdone, hinit, hstream, hpipe⟩ := copyFailed_ne
  rw [runAide_entered]
  unfold aideUses
  apply (kept_pipeUses r.fork).append
  obtain ⟨pid, s₁⟩ := (entered s cwd).safeExecPipe (.other files) r.fork
  cases pid with
  | none =>
    rw [Option.elim_none, if_neg hpipe]
    rfl
  | some own =>
    cases r.fdopen with
    | false =>
      simp only [Option.elim_some, Bool.false_eq_true, if_false, hstream]
      rfl
    | true =>
      simp only [Option.elim_some, if_true]
      by_cases hret : ((s₁.wait own r.k).2.safeExec (.other initFiles) init k).1 = 0
      swap
      · simp only [hret, if_false, hinit]
        rfl
      simp only [hret, if_true]
      have hcopy := kept_copyUses copy source
      by_cases hzero : (fileCopy copy source []).ret = 0
      · rw [copyKept_eq_zero hzero] at hcopy
        simpa only [hzero, decide_true, if_true, hdone, if_false] using hcopy
      · simpa only [hzero, decide_false, Bool.false_eq_true, if_false, if_true] using hcopy

/-- What a request keeps: a descriptor for each program whose output it reads, and what `file_copy`
    leaves open when it fails. -/
theorem serves_keeps : Costs ServesWith keeps := by
  intro s c a us s' h
  unfold ServesWith at h
  cases c with
  | mkWorkingDir dirName mkdir strdup =>
    cases h
    rfl
  | rmdir dirName f k =>
    cases h
    rfl
  | getMd5 files r line =>
    cases h
    exact kept_pipeUses r.fork
  | runAide workingDir chdir symlink files r initFiles init k copy source =>
    cases h
    unfold keeps
    cases chdir with
    | none => rfl
    | some cwd =>
      cases symlink with
      | false => rfl
      | true =>
        simp only [Option.isSome_some, Bool.and_self, if_true, Answer.reply.injEq]
        exact kept_aideUses s workingDir cwd files r initFiles init k copy source
  | getNewXuids files r read write =>
    cases h
    exact kept_dbDiffUses s files r read write
  | getNewDotFiles files r read write =>
    cases h
    exact kept_dbDiffUses s files r read write
  | getPasswordless files r =>
    cases h
    exact kept_pipeUses r.fork
  | getUidZeros passwd =>
    obtain ⟨n, -, h⟩ := bind_eq_ok.mp h
    cases h
    exact kept_fileUses _

/-! ## When the table is full -/

/-- A program is started whose output is read. -/
def starts : Call → Bool
  | .getMd5 _ r _ => pipeKept r.fork = 1
  | .runAide _ chdir symlink _ r _ _ _ _ _ => chdir.isSome && symlink && pipeKept r.fork = 1
  | .getNewXuids _ r _ _ => pipeKept r.fork = 1
  | .getNewDotFiles _ r _ _ => pipeKept r.fork = 1
  | .getPasswordless _ r => pipeKept r.fork = 1
  | _ => false

/-- A report is refused; requests that are no reports may be answered. -/
def Refused (c : Call) (a : Answer) : Prop :=
  match c with
  | .getMd5 _ _ _ => a = .reply (.text "<error>1\nFailed to execute md5sum")
  | .runAide _ _ _ _ _ _ _ _ _ _ =>
    a = .reply (.text "<error>6\nFailed to change to requested directory") ∨
    a = .reply (.text "<error>7\nFailed to create symlink to aide db") ∨
    a = .reply (.text "<error>1\nFailed to execute aide")
  | .getNewXuids _ _ _ _ => a = .reply (.text "<error>1\nFailed to execute command")
  | .getNewDotFiles _ _ _ _ => a = .reply (.text "<error>1\nFailed to execute command")
  | .getPasswordless _ _ => a = .reply (.text "<error>1\nFailed to execute command")
  | _ => True

theorem starts_keeps (c : Call) (a : Answer) (h : starts c) : 0 < keeps c a := by
  have hpipe {f : Fork} (h : decide (pipeKept f = 1) = true) : 0 < pipeKept f := by
    rw [of_decide_eq_true h]
    exact Nat.one_pos
  cases c with
  | mkWorkingDir dirName mkdir strdup => cases h
  | rmdir dirName f k => cases h
  | getUidZeros passwd => cases h
  | getMd5 files r line => exact hpipe h
  | getNewXuids files r read write => exact hpipe h
  | getNewDotFiles files r read write => exact hpipe h
  | getPasswordless files r => exact hpipe h
  | runAide workingDir chdir symlink files r initFiles init k copy source =>
    obtain ⟨hentered, hone⟩ : (chdir.isSome && symlink) = true ∧ pipeKept r.fork = 1 := by
      simpa [starts] using h
    rw [keeps, if_pos hentered]
    omega

/-- A pipe needs two descriptors. -/
theorem no_pipe {f : Fork} {us : List Use} {free n : ℕ} (hfree : free ≤ 1)
    (h : afterUses free (pipeUses f ++ us) = some n) : f = .failed := by
  cases f with
  | failed => rfl
  | child pid exec =>
    obtain ⟨k, hk, h⟩ := afterUses_take h
    obtain ⟨k', hk', -⟩ := afterUses_take h
    omega

theorem no_pipe_only {f : Fork} {free n : ℕ} (hfree : free ≤ 1)
    (h : afterUses free (pipeUses f) = some n) : f = .failed :=
  no_pipe hfree ((List.append_nil (pipeUses f)).symm ▸ h)

theorem dbDiff_failed {r : Reading} (h : r.fork = .failed) (s : Process)
    (files : Files → Files) (read write : Bool) :
    (s.dbDiff files r read write).1 = .text "<error>1\nFailed to execute command" := by
  unfold Process.dbDiff Process.readProgram
  rw [h]
  rfl

/-- With no more than one free, no program can be started whose output is read. -/
theorem serves_refused : Refuses ServesWith 1 Refused := by
  rintro ⟨free, s⟩ c a ⟨free', s'⟩ hfree ⟨us, h, hafter⟩
  unfold ServesWith at h
  cases c with
  | mkWorkingDir dirName mkdir strdup => exact trivial
  | rmdir dirName f k => exact trivial
  | getUidZeros passwd => exact trivial
  | getMd5 files r line =>
    cases h
    have hfork := no_pipe_only hfree hafter
    show Answer.reply (s.getMd5 files r line).1 = _
    unfold Process.getMd5
    rw [hfork]
    rfl
  | getPasswordless files r =>
    cases h
    have hfork := no_pipe_only hfree hafter
    show Answer.reply (s.getPasswordless files r).1 = _
    unfold Process.getPasswordless Process.readProgram
    rw [hfork]
    rfl
  | getNewXuids files r read write =>
    cases h
    exact congrArg Answer.reply (dbDiff_failed (no_pipe hfree hafter) s files read write)
  | getNewDotFiles files r read write =>
    cases h
    exact congrArg Answer.reply (dbDiff_failed (no_pipe hfree hafter) s files read write)
  | runAide workingDir chdir symlink files r initFiles init k copy source =>
    cases h
    cases chdir with
    | none => exact .inl rfl
    | some cwd =>
      cases symlink with
      | false => exact .inr (.inl rfl)
      | true =>
        refine .inr (.inr (congrArg Answer.reply ?_))
        refine (runAide_entered s workingDir cwd files r initFiles init k _).trans ?_
        rw [no_pipe hfree hafter]
        rfl

variable {free free' : ℕ} {before after : List Call} {answers : List Answer}

/-- What requests keep is missing in the table, so that there are no more programs whose output is
    read than descriptors. When only one is left, every later report is refused. -/
theorem reports_bounded
    (hrun : Runs (WithTable ServesWith) (free, s) (before ++ after) answers (free', s')) :
    free' + (List.zipWith keeps (before ++ after) answers).sum = free ∧
      (before ++ after).countP starts ≤ free ∧
      (free ≤ (List.zipWith keeps before answers).sum + 1 →
        List.Forall₂ Refused after (answers.drop before.length)) := by
  have hbounded := serves_keeps.bounded starts_keeps hrun
  refine ⟨serves_keeps.runs hrun, Nat.le_of_add_left_le hbounded, fun hfew => ?_⟩
  obtain ⟨t, as, as', rfl, hlength, hbefore, hrest⟩ := hrun.split
  have hkept := serves_keeps.runs hbefore
  have hzip : List.zipWith keeps before (as ++ as') = List.zipWith keeps before as := by
    conv_lhs => rw [← List.append_nil before, List.zipWith_append hlength.symm]
    rw [List.zipWith_nil_left, List.append_nil]
  rw [hzip] at hfew
  rw [← hlength, List.drop_left]
  exact serves_keeps.refused serves_refused (by omega) hrest

/-- A program that runs and exits with 0. -/
def running : Reading := ⟨.child 2 (.ran [] 0), true, 0⟩

/-- The first report takes the table down to one descriptor. -/
theorem reports_bounded_two : ∃ s', Runs (WithTable ServesWith) (2, .started [] (.closed []))
    [.getMd5 id running true, .getMd5 id ⟨.failed, true, 0⟩ true]
    [.reply (.output ""), .reply (.text "<error>1\nFailed to execute md5sum")] (1, s') ∧
      List.Forall₂ Refused [.getMd5 id ⟨.failed, true, 0⟩ true]
        [.reply (.text "<error>1\nFailed to execute md5sum")] := by
  let s₁ := ((Process.started [] (.closed [])).getMd5 id running true).2
  have hfirst : WithTable ServesWith (2, .started [] (.closed [])) (.getMd5 id running true)
      (.reply (.output "")) (1, s₁) := ⟨[.take, .take, .give], rfl, rfl⟩
  have hsecond : WithTable ServesWith (1, s₁) (.getMd5 id ⟨.failed, true, 0⟩ true)
      (.reply (.text "<error>1\nFailed to execute md5sum")) (1, s₁) := ⟨[], rfl, rfl⟩
  have hrun := Runs.cons hfirst (.cons hsecond .nil)
  exact ⟨_, hrun, (@reports_bounded _ _ 2 1 [.getMd5 id running true]
    [.getMd5 id ⟨.failed, true, 0⟩ true] _ hrun).2.2 (by decide)⟩

end CompatSuva.Audit.Descriptors
