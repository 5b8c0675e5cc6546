import CompatSuva.Suvlet.Inlines

/-!
# A file system without faults

Files by their names, and the C library on them when nothing fails but the opening
of a file that is not there. A stream is a name and a position; it is opened for
reading (`"r"`) or emptied for writing (`"w"`).
-/

namespace CompatSuva.Suvlet

open CompatSuva.Common CompatSuva.Scl

/-! ## File names -/

/-- `PATH_MAX`. -/
def pathMax : ℕ := 4096

/-- A path a machine takes for the name of a file. -/
structure FileName where
  path : CStr
  ne_nil : path.val ≠ []
  length_lt : path.val.length < pathMax
  deriving DecidableEq

namespace FileName

/-- The file name behind a `char *`, if it is one. -/
def of (s : Option CStr) : Option FileName :=
  s.bind fun s => if h : s.val ≠ [] ∧ s.val.length < pathMax then some ⟨s, h.1, h.2⟩ else none

@[simp] theorem of_path (name : FileName) : of (some name.path) = some name := by
  simp [of, name.ne_nil, name.length_lt]

/-- A file name is not changed on its way through a packet. -/
@[simp] theorem normStr_path (name : FileName) : normStr (some name.path) = some name.path := by
  simp [normStr, name.ne_nil]

end FileName

/-! ## Files -/

/-- A file: its bytes and its mode. -/
structure File where
  content : List Byte
  mode : BitVec 32

/-- The files of a machine, what else the inline calls ask it for, and the blocks
    `fwrite` has been given so far. -/
structure FileSys where
  files : FileName → Option File
  cwd : FileName
  pid : BitVec 32
  written : List (List Byte)

/-- An open stream. -/
structure Stream where
  file : FileName
  pos : ℕ

namespace FileSys

/-- The bytes of a file. -/
def content (fs : FileSys) (name : FileName) : List Byte :=
  ((fs.files name).map File.content).getD []

/-- The file gets these bytes. A new file has mode 0644. -/
def setContent (fs : FileSys) (name : FileName) (bs : List Byte) : FileSys :=
  let mode := ((fs.files name).map File.mode).getD 0x1a4
  { fs with files := Function.update fs.files name (some ⟨bs, mode⟩) }

/-- The bytes of a stream's file with `data` written at its position. -/
def overwrite (fs : FileSys) (f : Stream) (data : List Byte) : List Byte :=
  (fs.content f.file).take f.pos ++ data ++ (fs.content f.file).drop (f.pos + data.length)

/-- The C library on the file system. -/
def libc : Libc FileSys Stream where
  fopen path mode fs :=
    match FileName.of path with
    | none => (none, fs)
    | some name =>
      if mode.val = chars "w" then (some ⟨name, 0⟩, fs.setContent name [])
      else ((fs.files name).map fun _ => ⟨name, 0⟩, fs)
  strerror _ := ⟨chars "No such file or directory", by decide⟩
  fread f n fs :=
    let bs := ((fs.content f.file).drop f.pos).take n
    (bs, { f with pos := f.pos + bs.length }, fs)
  fwrite f data fs :=
    if data.length = 0 then (false, f, fs)
    else (true, { f with pos := f.pos + data.length },
      { fs.setContent f.file (fs.overwrite f data) with written := fs.written ++ [data] })
  fclose _ fs := (true, fs)
  stat path fs :=
    ((FileName.of path).bind fs.files).map fun file => (file.content.length, file.mode)
  chmod path mode fs :=
    match FileName.of path with
    | none => (false, fs)
    | some name =>
      match fs.files name with
      | none => (false, fs)
      | some file =>
        (true, { fs with files := Function.update fs.files name (some { file with mode := mode }) })
  getcwd fs := fs.cwd.path
  getpid fs := fs.pid
  fread_le f n fs := by simp
  fwrite_nil f fs := rfl

/-- A machine without files. -/
def empty : FileSys := ⟨fun _ => none, ⟨⟨chars "/", by decide⟩, by decide, by decide⟩, 1, []⟩

@[simp] theorem content_setContent (fs : FileSys) (name : FileName) (bs : List Byte) :
    (fs.setContent name bs).content name = bs := by
  simp [content, setContent]

theorem files_setContent (fs : FileSys) (name : FileName) (bs : List Byte) :
    (fs.setContent name bs).files name =
      some ⟨bs, ((fs.files name).map File.mode).getD 0x1a4⟩ := by
  simp [setContent]

@[simp] theorem written_setContent (fs : FileSys) (name : FileName) (bs : List Byte) :
    (fs.setContent name bs).written = fs.written := rfl

variable {fs : FileSys} {f : Stream} {name : FileName}

/-- Reading on from the position of a stream. -/
theorem fread_append {done rest : List Byte} (hcontent : fs.content f.file = done ++ rest)
    (hpos : f.pos = done.length) (n : ℕ) :
    libc.fread f n fs = (rest.take n, ⟨f.file, done.length + (rest.take n).length⟩, fs) := by
  have hdrop : (fs.content f.file).drop f.pos = rest := by
    rw [hcontent, hpos, List.drop_left]
  simp only [libc, hdrop]
  rw [hpos]

/-- Writing at the end of a file. -/
theorem fwrite_append {done data : List Byte} (hcontent : fs.content f.file = done)
    (hpos : f.pos = done.length) (hdata : data ≠ []) :
    libc.fwrite f data fs = (true, ⟨f.file, (done ++ data).length⟩,
      { fs.setContent f.file (done ++ data) with written := fs.written ++ [data] }) := by
  have hover : fs.overwrite f data = done ++ data := by
    simp [overwrite, hcontent, hpos]
  simp [libc, hdata, hover, hpos]

theorem fopen_read {file : File} {mode : CStr} (hfile : fs.files name = some file)
    (hmode : mode.val ≠ chars "w") :
    libc.fopen (some name.path) mode fs = (some ⟨name, 0⟩, fs) := by
  simp [libc, hfile, hmode]

theorem fopen_write {mode : CStr} (hmode : mode.val = chars "w") :
    libc.fopen (some name.path) mode fs = (some ⟨name, 0⟩, fs.setContent name []) := by
  simp [libc, hmode]

/-- `chmod` leaves the bytes of every file alone. -/
theorem content_chmod (path : Option CStr) (mode : BitVec 32) (fs : FileSys) (name : FileName) :
    (libc.chmod path mode fs).2.content name = fs.content name := by
  cases hof : FileName.of path with
  | none => simp [libc, hof]
  | some name' =>
    cases hfile : fs.files name' with
    | none => simp [libc, hof, hfile]
    | some file =>
      by_cases h : name = name'
      · subst h
        simp [libc, hof, hfile, content]
      · simp [libc, hof, hfile, content, Function.update_of_ne h]

@[simp] theorem written_chmod (path : Option CStr) (mode : BitVec 32) (fs : FileSys) :
    (libc.chmod path mode fs).2.written = fs.written := by
  cases hof : FileName.of path with
  | none => simp [libc, hof]
  | some name => cases hfile : fs.files name <;> simp [libc, hof, hfile]

theorem content_eq {file : File} (hfile : fs.files name = some file) :
    fs.content name = file.content := by
  simp [content, hfile]

end FileSys

end CompatSuva.Suvlet
