import CompatSuva.Common.SharedStreams
import CompatSuva.Scl.Types

/-!
# The process of `SecurityAudit`

Model of the functions of `SecurityAudit.c` that start programs or deal with the
working directory, and of how the process ends: the pointer `tmpDir`, the current
directory, the files of the machine with the streams that are open on them, and the
children that have not been waited for.

A child runs to its end before its parent goes on: `safe_exec` waits for it, and the
callers of `safe_exec_pipe` read the pipe up to its end. What the system calls return
is an argument. A child whose `execv` fails leaves through `exit(1)`: it runs the
`atexit` handlers of its parent, each taken off the list before it is called, and then
leaves the streams that it has inherited, as of a file that `inline-open_file` has
opened. The buffers that collect the output of programs, the pipes they are read from
and what is written to `stderr` are not part of this model.
-/

namespace CompatSuva.Audit

open CompatSuva.Common CompatSuva.Scl

/-! ## Data -/

/-- A file name. -/
abbrev Path := List Byte

/-- The pointer `tmpDir` (line 48): NULL, a name, or a name that has been freed; what
    then stands there is unknown. -/
inductive TmpDir where
  | null
  | held (dir : Path)
  | freed (junk : Path)
  deriving DecidableEq, Repr

/-- The name at `tmpDir`, if that is not NULL. -/
def TmpDir.name : TmpDir → Option Path
  | .null => none
  | .held dir => some dir
  | .freed junk => some junk

/-- A child: its process id, and its status as `wait` reports it. -/
structure Child where
  pid : ℕ
  status : ℕ
  deriving DecidableEq, Repr

/-- `WEXITSTATUS`. -/
def wexitstatus (status : ℕ) : ℕ := status / 256 % 256

/-- The status of a process that has called `exit(1)`. -/
def exitedOne : ℕ := 256

/-- What the process and its children do. Directories are named in full. -/
inductive Event where
  /-- `mkdir` has made a working directory. -/
  | created (dir : Path)
  /-- `/bin/rm -r` runs on a name. -/
  | removed (dir : Path)
  /-- `tmpDir` is read after `free(tmpDir)`. -/
  | readFreed
  /-- `wait` is called for the child `own`, and gives `got`, or -1. -/
  | waited (own : Child) (got : Option Child)
  deriving DecidableEq, Repr

/-- The files: their names in full, what they hold, and the streams of the process. -/
structure Files extends SharedStreams where
  names : List Path

/-- Empty files, and no stream. -/
def Files.closed (names : List Path) : Files := ⟨⟨fun _ => [], []⟩, names⟩

/-- The process. `cleanUp` says whether `exit_clean_up` is still to be called at
    `exit`. -/
structure Process where
  tmpDir : TmpDir
  cwd : Path
  disk : Files
  cleanUp : Bool
  unreaped : List Child
  log : List Event

/-- A program that is executed, with what it does to the files. -/
inductive Program where
  /-- `/bin/rm -r path`. -/
  | rm (path : Path)
  /-- Any other. -/
  | other (files : Files → Files)

/-- How the `/bin/rm` of `exit_clean_up` goes in a child that has failed: `fork` fails;
    `execv` fails, and its child calls `exit(1)` in turn, with no handler left; or it runs,
    and cannot remove the files in `stuck`. `taken` is what is written of each stream. -/
inductive CleanUp where
  | forkFailed
  | execFailed (taken : ℕ → ℕ)
  | ran (stuck : List Path)

/-- How `execv` goes in a child: it fails, and the child cleans up and leaves its streams;
    or the program runs, cannot remove the files in `stuck` if it is an `rm`, and ends with
    a status. -/
inductive Exec where
  | failed (cleanUp : CleanUp) (taken : ℕ → ℕ)
  | ran (stuck : List Path) (status : ℕ)

/-- How `fork` goes; for `safe_exec_pipe`, `pipe` and `fork`. -/
inductive Fork where
  | failed
  | child (pid : ℕ) (exec : Exec)

namespace Process

/-- The process at the end of `main`'s first lines (73–78). -/
def started (cwd : Path) (disk : Files) : Process := ⟨.null, cwd, disk, true, [], []⟩

/-! ## Programs -/

/-- The name of a file in full. -/
def resolve (s : Process) (path : Path) : Path :=
  if path.head? = some 47 then path else s.cwd ++ 47 :: path

/-- The file is `dir`, or stands below it. -/
def below (dir file : Path) : Bool := file = dir ∨ (dir ++ [47]) <+: file

/-- Note an event. -/
def note (s : Process) (e : Event) : Process := { s with log := s.log ++ [e] }

/-- A program runs. -/
def execute (s : Process) (prog : Program) (stuck : List Path) : Process :=
  match prog with
  | .rm path =>
    { s with
      disk.names := s.disk.names.filter fun file =>
        !below (s.resolve path) file || file ∈ stuck }.note (.removed (s.resolve path))
  | .other files => { s with disk := files s.disk }

/-- `tmpDir` is read: after `free` that is noted. -/
def readTmpDir (s : Process) : Process :=
  match s.tmpDir with
  | .freed _ => s.note .readFreed
  | _ => s

/-- A child leaves the streams at `exit`. -/
def leaveStreams (s : Process) (taken : ℕ → ℕ) : Process :=
  { s with disk.toSharedStreams := s.disk.toSharedStreams.exit taken }

/-- `exit_clean_up` (lines 85–89), as a child runs it that has called `exit(1)`. The
    memory of the child is a copy; the files are not. -/
def childCleanUp (s : Process) (c : CleanUp) : Process :=
  match s.tmpDir.name with
  | none => s
  | some dir =>
    match c with
    | .forkFailed => s.readTmpDir
    | .execFailed taken => s.readTmpDir.leaveStreams taken
    | .ran stuck => s.readTmpDir.execute (.rm dir) stuck

/-- The child runs the handler that it has inherited, if it is still to be called. -/
def childHandlers (s : Process) (c : CleanUp) : Process :=
  if s.cleanUp then s.childCleanUp c else s

/-- A child that runs a program. -/
def runChild (s : Process) (prog : Program) : Exec → Process
  | .failed c taken => (s.childHandlers c).leaveStreams taken
  | .ran stuck _ => s.execute prog stuck

/-- The status a child ends with. -/
def childStatus : Exec → ℕ
  | .failed _ _ => exitedOne
  | .ran _ status => status

/-- A child is started and runs to its end. -/
def start (s : Process) (prog : Program) (pid : ℕ) (e : Exec) : Process :=
  { (s.runChild prog e) with unreaped := s.unreaped ++ [⟨pid, childStatus e⟩] }

/-- `wait`, called for the child `own`: any child may be given, `k` says which. -/
def wait (s : Process) (own : Child) (k : ℕ) : Option Child × Process :=
  let got := s.unreaped[k % s.unreaped.length]?
  (got, { s with unreaped := s.unreaped.eraseIdx (k % s.unreaped.length) }.note (.waited own got))

/-- `safe_exec` (lines 283–320). -/
def safeExec (s : Process) (prog : Program) (f : Fork) (k : ℕ) : ℤ × Process :=
  match f with
  | .failed => (-1, s)
  | .child pid e =>
    let (got, s) := (s.start prog pid e).wait ⟨pid, childStatus e⟩ k
    match got with
    | none => (-1, s)
    | some c => (wexitstatus c.status, s)

/-- `safe_exec_pipe` (lines 327–380): the child, if one is started. -/
def safeExecPipe (s : Process) (prog : Program) (f : Fork) : Option Child × Process :=
  match f with
  | .failed => (none, s)
  | .child pid e => (some ⟨pid, childStatus e⟩, s.start prog pid e)

end Process

end CompatSuva.Audit
