import CompatSuva.Audit.Process

/-!
# The requests `SecurityAudit` serves

The functions of `SecurityAudit.c` that the requests call, `deconstructor` and
`exit_clean_up`, with what each returns, and runs of the process: requests in any order,
and its end.
-/

namespace CompatSuva.Audit

open CompatSuva.Common CompatSuva.Scl

/-- What a function returns: a `char`, a text of its own, or what it has collected and a
    text behind it. -/
inductive Reply where
  | char (b : Byte)
  | text (s : String)
  | output (s : String)
  deriving DecidableEq, Repr

/-- How the reading of a program goes: `pipe` and `fork`, and whether `fdopen` gives a
    stream; `k` picks the child that `wait` gives. -/
structure Reading where
  fork : Fork
  fdopen : Bool
  k : ℕ

namespace Process

/-! ## The working directory -/

/-- `SecurityAudit_mk_working_dir` (lines 92–100). `mkdir` and `strdup` may fail;
    `mkdir(NULL)` does. -/
def mkWorkingDir (s : Process) (dirName : Option Path) (mkdir strdup : Bool) : Reply × Process :=
  match dirName, mkdir with
  | some dir, true =>
    (.char 1, { s with
      disk.names := s.resolve dir :: s.disk.names
      tmpDir := if strdup then .held dir else .null }.note (.created (s.resolve dir)))
  | _, _ => (.char 0, s)

/-- `SecurityAudit_rmdir` (lines 103–113). Its argument is not looked at. -/
def rmdir (s : Process) (_dirName : Option Path) (f : Fork) (k : ℕ) : Reply × Process :=
  match s.tmpDir.name with
  | none => (.char 1, s)
  | some dir =>
    let (ret, s) := s.readTmpDir.safeExec (.rm dir) f k
    (.char (if ret = 0 then 1 else 0), { s with tmpDir := .null })

/-- `deconstructor` (lines 60–69). The pointer keeps its value; `junk` is what stands
    there once the memory is free. -/
def deconstructor (s : Process) (f : Fork) (k : ℕ) (junk : Path) : Process :=
  match s.tmpDir.name with
  | none => s
  | some dir => { (s.readTmpDir.safeExec (.rm dir) f k).2 with tmpDir := .freed junk }

/-- `exit_clean_up` (lines 85–89). -/
def exitCleanUp (s : Process) (f : Fork) (k : ℕ) : Process :=
  match s.tmpDir.name with
  | none => s
  | some dir => (s.readTmpDir.safeExec (.rm dir) f k).2

/-- `exit`: the handler is taken off the list, and called. -/
def exit (s : Process) (f : Fork) (k : ℕ) : Process :=
  if s.cleanUp then { s with cleanUp := false }.exitCleanUp f k else s

/-! ## Reports

`files` is what the program that is run does to the files. -/

/-- `SecurityAudit_get_md5` (lines 116–142). `line` says whether `fgets` gets one. -/
def getMd5 (s : Process) (files : Files → Files) (r : Reading) (line : Bool) :
    Reply × Process :=
  let (pid, s) := s.safeExecPipe (.other files) r.fork
  match pid with
  | none => (.text "<error>1\nFailed to execute md5sum", s)
  | some own =>
    if !r.fdopen then (.text "<error>2\nFailed to open pipe as stream", s)
    else if line then (.output "", (s.wait own r.k).2)
    else (.text "<error>3\nFailed to get md5sum", s)

/-- `SecurityAudit_run_aide` (lines 145–203). `chdir` is the directory that
    `chdir(working_dir)` goes to, and `copy` says whether `file_copy` succeeds. -/
def runAide (s : Process) (_workingDir : Path) (chdir : Option Path) (symlink : Bool)
    (files : Files → Files) (r : Reading) (initFiles : Files → Files)
    (init : Fork) (k : ℕ) (copy : Bool) : Reply × Process :=
  match chdir with
  | none => (.text "<error>6\nFailed to change to requested directory", s)
  | some cwd =>
    let s := { s with cwd := cwd }
    if !symlink then (.text "<error>7\nFailed to create symlink to aide db", s)
    else
      let s := { s with disk.names := s.resolve (chars "./aide.db") :: s.disk.names }
      let (pid, s) := s.safeExecPipe (.other files) r.fork
      match pid with
      | none => (.text "<error>1\nFailed to execute aide", s)
      | some own =>
        if !r.fdopen then (.text "<error>2\nFailed to open pipe as stream", s)
        else
          let (ret, s) := (s.wait own r.k).2.safeExec (.other initFiles) init k
          if ret ≠ 0 then (.output "\n\n<error>8\nFailed while creating new db", s)
          else if !copy then
            (.output "\n\n<error>9\nFailed to move new db to proper location", s)
          else (.output "", s)

/-- The common front of `SecurityAudit_get_passwordless` and `db_diff` (lines 227–248
    and 489–513): the reply if the program fails. -/
def readProgram (s : Process) (files : Files → Files) (r : Reading) :
    Option Reply × Process :=
  let (pid, s) := s.safeExecPipe (.other files) r.fork
  match pid with
  | none => (some (.text "<error>1\nFailed to execute command"), s)
  | some own =>
    if !r.fdopen then (some (.text "<error>2\nFailed to open pipe as stream"), s)
    else
      let (got, s) := s.wait own r.k
      match got with
      | none => (some (.text "<error>1\nFailed to execute command"), s)
      | some c =>
        if wexitstatus c.status ≠ 0 then
          (some (.text "<error>1\nFailed to execute command"), s)
        else (none, s)

/-- `SecurityAudit_get_passwordless` (lines 218–251). -/
def getPasswordless (s : Process) (files : Files → Files) (r : Reading) :
    Reply × Process :=
  let (failed, s) := s.readProgram files r
  (failed.getD (.output ""), s)

/-- `db_diff` (lines 476–549). `read` and `write` say whether the two `fopen`s
    succeed. -/
def dbDiff (s : Process) (files : Files → Files) (r : Reading) (read write : Bool) :
    Reply × Process :=
  let (failed, s) := s.readProgram files r
  match failed with
  | some reply => (reply, s)
  | none =>
    if !read then (.text "<error>4\nFailed opening db file for reading", s)
    else if !write then (.text "<error>5\nFailed opening db file for writing", s)
    else (.output "", s)

end Process

/-! ## Runs -/

/-- A request, with the outcomes of the calls its function makes. `other` is a request
    that starts no program: an inline call, `get_uid_zeros`, a name that is not known. -/
inductive Request where
  | mkWorkingDir (dirName : Option Path) (mkdir strdup : Bool)
  | rmdir (dirName : Option Path) (f : Fork) (k : ℕ)
  | getMd5 (files : Files → Files) (r : Reading) (line : Bool)
  | runAide (workingDir : Path) (chdir : Option Path) (symlink : Bool) (files : Files → Files)
      (r : Reading) (initFiles : Files → Files) (init : Fork) (k : ℕ) (copy : Bool)
  | getNewXuids (files : Files → Files) (r : Reading) (read write : Bool)
  | getNewDotFiles (files : Files → Files) (r : Reading) (read write : Bool)
  | getPasswordless (files : Files → Files) (r : Reading)
  | other (files : Files → Files)

/-- A request is served. -/
def Process.step (s : Process) : Request → Process
  | .mkWorkingDir dirName mkdir strdup => (s.mkWorkingDir dirName mkdir strdup).2
  | .rmdir dirName f k => (s.rmdir dirName f k).2
  | .getMd5 files r line => (s.getMd5 files r line).2
  | .runAide workingDir chdir symlink files r initFiles init k copy =>
    (s.runAide workingDir chdir symlink files r initFiles init k copy).2
  | .getNewXuids files r read write => (s.dbDiff files r read write).2
  | .getNewDotFiles files r read write => (s.dbDiff files r read write).2
  | .getPasswordless files r => (s.getPasswordless files r).2
  | .other files => { s with disk := files s.disk }

/-- How the process ends: an `SCL_DSUVLET` packet (`suva_get_request` lines 57–60), or
    `exit`, as `throw_error` calls it. -/
inductive Ending where
  | destroy (f : Fork) (k : ℕ) (junk : Path) (f' : Fork) (k' : ℕ)
  | exit (f : Fork) (k : ℕ)

/-- The process ends. -/
def Process.finish (s : Process) : Ending → Process
  | .destroy f k junk f' k' => (s.deconstructor f k junk).exit f' k'
  | .exit f k => s.exit f k

/-- Requests are served in turn. -/
def Process.serve (s : Process) (rs : List Request) : Process := rs.foldl Process.step s

end CompatSuva.Audit
