import CompatSuva.Software.Payload

/-!
# The commands of the Software suvlet

`Software_InstallPKG` and `Software_UnInstallPKG` (`Software.c` lines 190–231) put the file name of
a request behind a fixed command and give it to `popen`, that is, to a shell. The command is
`software-wrapper` (`software-wrapper.c`), which runs as root: it takes only arguments that match a
pattern, but the shell has read them before. Both programs have a buffer of 200 bytes.

* `Command.call_eq`: the string given to `popen` is all that a request has to do with its name;
* `buildCommand_iff`: when it is confined to the pattern;
* `wrapper_iff`: when the command that runs as root is;
* `command_confined_iff`: both;
* `confined_overflows`: names that pass the first program and not the second.
-/

namespace CompatSuva.Software

open CompatSuva.Common CompatSuva.Scl

/-! ## Model -/

/-- `[-A-Za-z0-9._]`. -/
def patternChar (b : Byte) : Bool :=
  b = 45 || (65 ≤ b && b ≤ 90) || (97 ≤ b && b ≤ 122) || (48 ≤ b && b ≤ 57) || b = 46 || b = 95

/-- `regexec` with the pattern `^([-A-Za-z0-9._]+)$`. -/
def accepts (s : List Byte) : Bool := s ≠ [] && s.all patternChar

/-- The string that a request gives to `popen`. -/
def Command.popen : Command → Except Halt (List Byte)
  | .install filename => buildCommand (chars "./software-wrapper -i ") filename
  | .unInstall filename => buildCommand (chars "./software-wrapper -e ") filename
  | .reset => .ok (chars "./software-wrapper -r none")

/-- How the wrapper ends: what `main` returns, and what `system` has run before. -/
structure Exit where
  status : ℤ
  system : Option (List Byte)
  deriving DecidableEq, Repr

/-- `sprintf(cmd, …)`, into `cmd[200]`. -/
def sprintf (text : List Byte) : Except Halt (List Byte) :=
  if text.length < 200 then .ok text else .error .undefined

/-- The command for a package that is removed. -/
def uninstaller : List Byte := chars "/var/lib/cobalt/uninstallers/"

/-- The command for one that is installed. -/
def upgrade : List Byte := chars "/usr/local/sbin/cobalt_upgrade /home/packages/"

/-- The command for the directory of packages. -/
def chown : List Byte :=
  chars "/bin/chown admin.suvlet /home/packages;/bin/chmod 775 /home/packages"

/-- The end of `main`, as root. -/
def runAsRoot (text : List Byte) : Except Halt Exit := do
  let cmd ← sprintf text
  return ⟨0, some cmd⟩

/-- `main`; `strncmp(argv[1], …, 2)` compares the first two characters. -/
def wrapper : List CStr → Except Halt Exit
  | [_, flag, arg] =>
    if !accepts flag.val then .ok ⟨-1, none⟩
    else if !accepts arg.val then .ok ⟨-1, none⟩
    else if flag.val.take 2 = chars "-e" then runAsRoot (uninstaller ++ arg.val)
    else if flag.val.take 2 = chars "-i" then runAsRoot (upgrade ++ arg.val)
    else if flag.val.take 2 = chars "-r" then runAsRoot chown
    else .ok ⟨1, none⟩
  | _ => .ok ⟨-1, none⟩

/-- A request runs what it gives to `popen`, and nothing else depends on its name. -/
theorem Command.call_eq (c : Command) (output : Option (List Byte)) (payload : List Byte) :
    c.call output payload = c.popen >>= fun _ => runWrapper c.lineSize output payload := by
  cases c with
  | install filename => rfl
  | unInstall filename => rfl
  | reset => rfl

/-! ## What is asked of the commands -/

/-- The command fits its buffer, and is the start and a name that the wrapper accepts. -/
def Confined (start : List Byte) (popen : Except Halt (List Byte)) : Prop :=
  ∃ command, popen = .ok command ∧ command.length < 200 ∧
    ∃ name, accepts name ∧ command = start ++ name

/-- One of the commands of the wrapper, with an argument that it accepts where it has one. -/
def RootCommand (cmd : List Byte) : Prop :=
  (∃ arg, accepts arg ∧ (cmd = uninstaller ++ arg ∨ cmd = upgrade ++ arg)) ∨ cmd = chown

/-- What the wrapper runs is such a command, and fits its buffer. -/
def WrapperConfined (argv : List CStr) : Prop :=
  ∃ e, wrapper argv = .ok e ∧ ∀ cmd, e.system = some cmd → cmd.length < 200 ∧ RootCommand cmd

/-- Arguments that are accepted, of which the second does not fit behind its command. -/
def Overflows (argv : List CStr) : Prop :=
  ∃ self flag arg, argv = [self, flag, arg] ∧ accepts flag.val ∧ accepts arg.val ∧
    (flag.val.take 2 = chars "-e" ∧ 171 ≤ arg.val.length ∨
      flag.val.take 2 = chars "-i" ∧ 154 ≤ arg.val.length)

/-! ## When they are -/

theorem buildCommand_iff {start : List Byte} (hstart : start.length = 22) (name : CStr) :
    Confined start (buildCommand start (some name)) ↔
      accepts name.val ∧ name.val.length < 178 := by
  rw [buildCommand]
  split
  next hlt =>
    constructor
    · rintro ⟨command, hcommand, -, n, hn, heq⟩
      rw [← Except.ok.inj hcommand] at heq
      rw [List.append_cancel_left heq]
      rw [List.append_cancel_left heq] at hlt
      exact ⟨hn, by omega⟩
    · rintro ⟨hname, -⟩
      exact ⟨_, rfl, by rw [List.length_append]; omega, name.val, hname, rfl⟩
  next hlt =>
    refine iff_of_false ?_ fun h => hlt (by omega)
    rintro ⟨command, hcommand, -⟩
    cases hcommand

/-- A command that is one of the three. -/
theorem runAsRoot_iff {text : List Byte} (h : RootCommand text) :
    (∃ e, runAsRoot text = .ok e ∧ ∀ cmd, e.system = some cmd → cmd.length < 200 ∧
      RootCommand cmd) ↔
      text.length < 200 := by
  rw [runAsRoot, sprintf]
  split
  next hlt =>
    refine iff_of_true ⟨_, rfl, fun cmd hcmd => ?_⟩ hlt
    rw [← Option.some.inj hcmd]
    exact ⟨hlt, h⟩
  next hlt =>
    refine iff_of_false ?_ hlt
    rintro ⟨e, he, -⟩
    cases he

/-- The arguments have to be accepted. -/
theorem Overflows.accepted {self flag arg : CStr} (h : Overflows [self, flag, arg]) :
    accepts flag.val ∧ accepts arg.val := by
  obtain ⟨self', flag', arg', heq, hflag, harg, -⟩ := h
  cases heq
  exact ⟨hflag, harg⟩

theorem overflows_iff {self flag arg : CStr} (hflag : accepts flag.val) (harg : accepts arg.val) :
    Overflows [self, flag, arg] ↔
      flag.val.take 2 = chars "-e" ∧ 171 ≤ arg.val.length ∨
        flag.val.take 2 = chars "-i" ∧ 154 ≤ arg.val.length := by
  constructor
  · rintro ⟨self', flag', arg', heq, -, -, h⟩
    cases heq
    exact h
  · exact fun h => ⟨self, flag, arg, rfl, hflag, harg, h⟩

/-- Nothing is run. -/
theorem wrapper_iff_none {argv : List CStr} (status : ℤ)
    (hwrapper : wrapper argv = .ok ⟨status, none⟩) (h : ¬ Overflows argv) :
    WrapperConfined argv ↔ ¬ Overflows argv :=
  iff_of_true ⟨_, hwrapper, fun _ hcmd => nomatch hcmd⟩ h

/-- Two arguments that are accepted. -/
theorem wrapper_iff_accepted {self flag arg : CStr} (hflag : accepts flag.val)
    (harg : accepts arg.val) :
    WrapperConfined [self, flag, arg] ↔ ¬ Overflows [self, flag, arg] := by
  rw [overflows_iff hflag harg, WrapperConfined, wrapper, if_neg (by simpa using hflag),
    if_neg (by simpa using harg)]
  by_cases he : flag.val.take 2 = chars "-e"
  · have hne : ¬ chars "-e" = chars "-i" := by decide
    have hlength : (uninstaller ++ arg.val).length = 29 + arg.val.length := List.length_append
    rw [if_pos he, runAsRoot_iff (.inl ⟨_, harg, .inl rfl⟩), hlength, he]
    simp only [hne, false_and, or_false, true_and]
    omega
  by_cases hi : flag.val.take 2 = chars "-i"
  · have hlength : (upgrade ++ arg.val).length = 46 + arg.val.length := List.length_append
    rw [if_neg he, if_pos hi, runAsRoot_iff (.inl ⟨_, harg, .inr rfl⟩), hlength,
      or_iff_right (by simp [he]), and_iff_right hi]
    omega
  rw [if_neg he, if_neg hi]
  refine iff_of_true ?_ (by simp [he, hi])
  by_cases hr : flag.val.take 2 = chars "-r"
  · rw [if_pos hr]
    exact (runAsRoot_iff (.inr rfl)).mpr (by decide)
  · rw [if_neg hr]
    exact ⟨_, rfl, fun _ hcmd => nomatch hcmd⟩

/-- When what the wrapper runs is confined. -/
theorem wrapper_iff (argv : List CStr) : WrapperConfined argv ↔ ¬ Overflows argv := by
  match argv with
  | [self, flag, arg] =>
    by_cases hflag : accepts flag.val
    swap
    · exact wrapper_iff_none (-1) (by rw [wrapper, if_pos (by simpa using hflag)])
        fun h => hflag h.accepted.1
    by_cases harg : accepts arg.val
    swap
    · exact wrapper_iff_none (-1)
        (by rw [wrapper, if_neg (by simpa using hflag), if_pos (by simpa using harg)])
        fun h => harg h.accepted.2
    exact wrapper_iff_accepted hflag harg
  | [] => exact wrapper_iff_none (-1) rfl fun ⟨_, _, _, heq, _⟩ => nomatch heq
  | [_] => exact wrapper_iff_none (-1) rfl fun ⟨_, _, _, heq, _⟩ => nomatch heq
  | [_, _] => exact wrapper_iff_none (-1) rfl fun ⟨_, _, _, heq, _⟩ => nomatch heq
  | _ :: _ :: _ :: _ :: _ => exact wrapper_iff_none (-1) rfl fun ⟨_, _, _, heq, _⟩ => nomatch heq

/-- Some names pass the first program and overrun the buffer of the second. -/
theorem confined_overflows {name : CStr} (self : CStr) (hname : accepts name.val)
    (hlo : 154 ≤ name.val.length) (hhi : name.val.length < 178) :
    Confined (chars "./software-wrapper -i ") (Command.install (some name)).popen ∧
      ¬ WrapperConfined [self, ⟨chars "-i", by decide⟩, name] := by
  refine ⟨(buildCommand_iff rfl name).mpr ⟨hname, hhi⟩, ?_⟩
  rw [wrapper_iff, not_not]
  exact ⟨self, _, name, rfl, by decide, hname, .inr ⟨by decide, hlo⟩⟩

/-- The strings given to `popen` are confined exactly for the names that the wrapper accepts, if
    they are short enough; and what the wrapper runs exactly if its second argument is. -/
theorem command_confined_iff (name : CStr) (argv : List CStr) :
    (Confined (chars "./software-wrapper -i ") (Command.install (some name)).popen ↔
      accepts name.val ∧ name.val.length < 178) ∧
    (Confined (chars "./software-wrapper -e ") (Command.unInstall (some name)).popen ↔
      accepts name.val ∧ name.val.length < 178) ∧
    (WrapperConfined argv ↔ ¬ Overflows argv) :=
  ⟨buildCommand_iff rfl name, buildCommand_iff rfl name, wrapper_iff argv⟩

/-- A name with a second command. -/
theorem command_confined_semicolon :
    ¬ ∀ (name : CStr) (argv : List CStr),
      Confined (chars "./software-wrapper -i ") (Command.install (some name)).popen ∧
      Confined (chars "./software-wrapper -e ") (Command.unInstall (some name)).popen ∧
      WrapperConfined argv := by
  intro hall
  obtain ⟨⟨command, hcommand, -, n, hn, heq⟩, -⟩ := hall ⟨chars "a;id", by decide⟩ []
  rw [← Except.ok.inj hcommand] at heq
  rw [← List.append_cancel_left heq] at hn
  exact absurd hn (by decide)

end CompatSuva.Software
