import CompatSuva.Common.Scanf
import CompatSuva.Scl.Types

/-!
# The payload of the Software suvlet

All replies of `Software.c` are collected in one static array (lines 30–44, 190–252).
`Software_FetchPackageList` empties it first. The functions that run `software-wrapper`
append to what it holds, so that a reply starts with those before it.

* `readAll_eq`: what a loop of `fgets` and `strcat` leaves in the array;
* `leftEmpty_iff`: which requests leave it empty;
* `reply_independent_iff`: when a reply is the output of the wrapper, whatever came
  before.
-/

namespace CompatSuva.Software

open CompatSuva.Common CompatSuva.Scl

/-! ## Model -/

/-- A call that does not return: undefined behaviour; `starved` is a loop of the model that
    has gone round too often, which does not happen. -/
inductive Halt where
  | undefined
  | starved
  deriving DecidableEq, Repr

/-- `XMLSIZE`. -/
def xmlSize : ℕ := 92160

/-- `BUFSIZE`. -/
def bufSize : ℕ := 500

/-- `strcat(payload, line)`. -/
def strcat (payload line : List Byte) : Except Halt (List Byte) :=
  if payload.length + line.length < xmlSize then .ok (payload ++ line) else .error .undefined

/-- `while (fgets(line, size, file)) strcat(payload, line);`: the array after a file or pipe has
    been read. -/
def readAll (size : ℕ) (file payload : List Byte) : Except Halt (List Byte) :=
  eachLine size .starved strcat (file.length + 1) file payload

/-- `Software_FetchPackageList`; `none` is a `packages.xml` that cannot be opened. The string
    returned, and the array. -/
def fetchPackageList : Option (List Byte) → Except Halt (List Byte × List Byte)
  | none => .ok (chars "error", [])
  | some file => do
    let payload ← readAll bufSize file []
    .ok (payload, payload)

/-- `command[200]`, for a file name that may be NULL. -/
def buildCommand (start : List Byte) (filename : Option CStr) : Except Halt (List Byte) :=
  match filename with
  | none => .error .undefined
  | some name =>
    if start.length + name.val.length < 200 then .ok (start ++ name.val) else .error .undefined

/-- The rest of a function that runs the wrapper; `none` is a `popen` that fails. -/
def runWrapper (size : ℕ) (output : Option (List Byte)) (payload : List Byte) :
    Except Halt (List Byte × List Byte) :=
  match output with
  | none => .ok (chars "error: wrapper did not run", payload)
  | some output => do
    let payload ← readAll size output payload
    .ok (payload, payload)

/-- `Software_InstallPKG`. -/
def installPKG (filename : Option CStr) (output : Option (List Byte)) (payload : List Byte) :
    Except Halt (List Byte × List Byte) := do
  let _ ← buildCommand (chars "./software-wrapper -i ") filename
  runWrapper 2000 output payload

/-- `Software_UnInstallPKG`. -/
def unInstallPKG (filename : Option CStr) (output : Option (List Byte)) (payload : List Byte) :
    Except Halt (List Byte × List Byte) := do
  let _ ← buildCommand (chars "./software-wrapper -e ") filename
  runWrapper 2000 output payload

/-- `Software_ResetPKGDir`. -/
def resetPKGDir (output : Option (List Byte)) (payload : List Byte) :
    Except Halt (List Byte × List Byte) := runWrapper 200 output payload

/-- A request that runs the wrapper. -/
inductive Command where
  | install (filename : Option CStr)
  | unInstall (filename : Option CStr)
  | reset

/-- Its function. -/
def Command.call (c : Command) (output : Option (List Byte)) (payload : List Byte) :
    Except Halt (List Byte × List Byte) :=
  match c with
  | .install filename => installPKG filename output payload
  | .unInstall filename => unInstallPKG filename output payload
  | .reset => resetPKGDir output payload

/-- A request, with what `fopen` or `popen` gives. -/
inductive Request where
  | fetch (file : Option (List Byte))
  | wrapper (c : Command) (output : Option (List Byte))

/-- The array after a request. -/
def step (payload : List Byte) : Request → Except Halt (List Byte)
  | .fetch file => Prod.snd <$> fetchPackageList file
  | .wrapper c output => Prod.snd <$> c.call output payload

/-- The array after requests one after the other. -/
def serve (payload : List Byte) (history : List Request) : Except Halt (List Byte) :=
  history.foldlM step payload

/-! ## Reading -/

/-- The text that reading a file adds. -/
def shown (size : ℕ) (file : List Byte) : List Byte := (pieces size (file.length + 1) file).flatten

theorem foldlM_strcat (texts : List (List Byte)) {payload : List Byte}
    (hpayload : payload.length < xmlSize) :
    texts.foldlM strcat payload =
      if payload.length + texts.flatten.length < xmlSize then .ok (payload ++ texts.flatten)
      else .error .undefined := by
  induction texts generalizing payload with
  | nil =>
    rw [List.flatten_nil, List.length_nil, Nat.add_zero, List.append_nil, if_pos hpayload]
    rfl
  | cons text texts ih =>
    rw [List.foldlM_cons, List.flatten_cons, List.length_append, strcat]
    by_cases hfits : payload.length + text.length < xmlSize
    · rw [if_pos hfits, ok_bind, ih (by rw [List.length_append]; exact hfits), List.length_append,
        Nat.add_assoc, List.append_assoc]
    · rw [if_neg hfits, if_neg (by omega), error_bind]

/-- Reading a file appends its text, which must fit. -/
theorem readAll_eq {size : ℕ} (hsize : 2 ≤ size) (file : List Byte) {payload : List Byte}
    (hpayload : payload.length < xmlSize) :
    readAll size file payload =
      if payload.length + (shown size file).length < xmlSize then .ok (payload ++ shown size file)
      else .error .undefined := by
  rw [readAll, eachLine_eq hsize _ _ _ (Nat.lt_succ_self _), foldlM_strcat _ hpayload, shown]

/-- The text is that of the pieces. -/
theorem shown_pieces {size : ℕ} (hsize : 2 ≤ size) {ps : List (List Byte)} {file : List Byte}
    (h : Pieces size ps file) : shown size file = (ps.map cstr).flatten := by
  rw [shown, pieces_eq h (Nat.lt_succ_of_le (h.length_le hsize))]

theorem noNul_shown {size : ℕ} (hsize : 2 ≤ size) (file : List Byte) :
    (0 : Byte) ∉ shown size file := by
  obtain ⟨ps, hpieces⟩ := pieces_exist hsize file
  rw [shown_pieces hsize hpieces]
  intro hmem
  obtain ⟨text, htext, h0⟩ := List.mem_flatten.mp hmem
  obtain ⟨piece, -, rfl⟩ := List.mem_map.mp htext
  simpa using List.mem_takeWhile_imp h0

/-- Of a file without NUL, all is shown. -/
theorem shown_eq {size : ℕ} (hsize : 2 ≤ size) {file : List Byte} (h : (0 : Byte) ∉ file) :
    shown size file = file := by
  obtain ⟨ps, hpieces⟩ := pieces_exist hsize file
  rw [shown_pieces hsize hpieces, hpieces.map_cstr h, hpieces.flatten]

/-! ## Requests -/

/-- The size given to `fgets`. -/
def Command.lineSize : Command → ℕ
  | .install _ => 2000
  | .unInstall _ => 2000
  | .reset => 200

/-- The command line has room for the file name. -/
def Command.Fits : Command → Prop
  | .install filename => ∃ name, filename = some name ∧ 22 + name.val.length < 200
  | .unInstall filename => ∃ name, filename = some name ∧ 22 + name.val.length < 200
  | .reset => True

/-- The text that a request puts into the array. -/
def Request.adds : Request → List Byte
  | .fetch none => []
  | .fetch (some file) => shown bufSize file
  | .wrapper _ none => []
  | .wrapper c (some output) => shown c.lineSize output

/-- A request that empties the array first. -/
def Request.empties : Request → Bool
  | .fetch _ => true
  | .wrapper _ _ => false

/-- After the requests the array is empty, if `empty` says whether it was before. -/
def leftEmpty : Bool → List Request → Bool
  | empty, [] => empty
  | empty, q :: qs => leftEmpty ((q.empties || empty) && q.adds = []) qs

/-- A string in the array. -/
structure Stored (payload : List Byte) : Prop where
  noNul : (0 : Byte) ∉ payload
  fits : payload.length < xmlSize

theorem two_le_lineSize (c : Command) : 2 ≤ c.lineSize := by
  cases c with
  | install filename => exact show 2 ≤ 2000 by decide
  | unInstall filename => exact show 2 ≤ 2000 by decide
  | reset => exact show 2 ≤ 200 by decide

theorem buildCommand_cases {start : List Byte} (hstart : start.length = 22)
    (filename : Option CStr) :
    (∃ command, buildCommand start filename = .ok command) ∧
        (∃ name, filename = some name ∧ 22 + name.val.length < 200) ∨
      buildCommand start filename = .error .undefined ∧
        ¬ ∃ name, filename = some name ∧ 22 + name.val.length < 200 := by
  cases filename with
  | none => exact Or.inr ⟨rfl, by simp⟩
  | some name =>
    rw [buildCommand, hstart]
    by_cases hfits : 22 + name.val.length < 200
    · exact Or.inl ⟨⟨_, if_pos hfits⟩, name, rfl, hfits⟩
    · refine Or.inr ⟨if_neg hfits, ?_⟩
      rintro ⟨name', heq, hfits'⟩
      exact hfits (Option.some.inj heq ▸ hfits')

/-- A function that runs the wrapper: undefined if the command line is too long, and else
    what it does with the output. -/
theorem call_cases (c : Command) (output : Option (List Byte)) (payload : List Byte) :
    c.call output payload = runWrapper c.lineSize output payload ∧ c.Fits ∨
      c.call output payload = .error .undefined ∧ ¬ c.Fits := by
  cases c with
  | install filename =>
    obtain ⟨⟨command, hcommand⟩, hfits⟩ | ⟨hcommand, hnot⟩ :=
      buildCommand_cases (show (chars "./software-wrapper -i ").length = 22 by decide) filename
    · refine Or.inl ⟨?_, hfits⟩
      rw [Command.call, installPKG, hcommand]
      rfl
    · refine Or.inr ⟨?_, hnot⟩
      rw [Command.call, installPKG, hcommand]
      rfl
  | unInstall filename =>
    obtain ⟨⟨command, hcommand⟩, hfits⟩ | ⟨hcommand, hnot⟩ :=
      buildCommand_cases (show (chars "./software-wrapper -e ").length = 22 by decide) filename
    · refine Or.inl ⟨?_, hfits⟩
      rw [Command.call, unInstallPKG, hcommand]
      rfl
    · refine Or.inr ⟨?_, hnot⟩
      rw [Command.call, unInstallPKG, hcommand]
      rfl
  | reset => exact Or.inl ⟨rfl, trivial⟩

theorem runWrapper_eq (c : Command) (output : List Byte) {payload : List Byte}
    (hpayload : payload.length < xmlSize) :
    runWrapper c.lineSize (some output) payload =
      if payload.length + (shown c.lineSize output).length < xmlSize then
        .ok (payload ++ shown c.lineSize output, payload ++ shown c.lineSize output)
      else .error .undefined := by
  rw [runWrapper, readAll_eq (two_le_lineSize c) output hpayload]
  split <;> rfl

theorem noNul_adds (q : Request) : (0 : Byte) ∉ q.adds := by
  cases q with
  | fetch file =>
    cases file with
    | none => exact List.not_mem_nil
    | some file => exact noNul_shown (by decide) file
  | wrapper c output =>
    cases output with
    | none => exact List.not_mem_nil
    | some output => exact noNul_shown (two_le_lineSize c) output

/-- The array after a request that returns. -/
theorem step_eq {payload payload' : List Byte} (hpayload : payload.length < xmlSize) {q : Request}
    (h : step payload q = .ok payload') :
    payload' = (if q.empties then [] else payload) ++ q.adds ∧ payload'.length < xmlSize := by
  have hzero : ([] : List Byte).length < xmlSize := by decide
  cases q with
  | fetch file =>
    cases file with
    | none =>
      obtain rfl := Except.ok.inj h
      exact ⟨rfl, hzero⟩
    | some file =>
      rw [step, fetchPackageList, readAll_eq (by decide) file hzero] at h
      split at h
      next hfits =>
        obtain rfl := Except.ok.inj h
        rw [List.length_nil, zero_add] at hfits
        exact ⟨rfl, hfits⟩
      next => exact absurd h (by simp)
  | wrapper c output =>
    rw [step] at h
    obtain ⟨hcall, -⟩ | ⟨hcall, -⟩ := call_cases c output payload
    · rw [hcall] at h
      cases output with
      | none =>
        obtain rfl := Except.ok.inj h
        exact ⟨(List.append_nil _).symm, hpayload⟩
      | some output =>
        rw [runWrapper_eq c output hpayload] at h
        split at h
        next hfits =>
          obtain rfl := Except.ok.inj h
          rw [← List.length_append] at hfits
          exact ⟨rfl, hfits⟩
        next => exact absurd h (by simp)
    · rw [hcall] at h
      exact absurd h (by simp)

theorem Stored.step {payload payload' : List Byte} (hs : Stored payload) {q : Request}
    (h : step payload q = .ok payload') : Stored payload' := by
  obtain ⟨heq, hfits⟩ := step_eq hs.fits h
  refine ⟨?_, hfits⟩
  rw [heq, List.mem_append, not_or]
  refine ⟨?_, noNul_adds q⟩
  split
  · exact List.not_mem_nil
  · exact hs.noNul

/-- What the requests leave in the array, and when that is nothing. -/
theorem leftEmpty_iff (history : List Request) {payload payload' : List Byte} (hs : Stored payload)
    (h : serve payload history = .ok payload') :
    Stored payload' ∧ (payload' = [] ↔ leftEmpty (payload = []) history = true) := by
  induction history generalizing payload with
  | nil =>
    obtain rfl := Except.ok.inj h
    exact ⟨hs, by rw [leftEmpty, decide_eq_true_iff]⟩
  | cons q history ih =>
    rw [serve, List.foldlM_cons] at h
    cases hq : CompatSuva.Software.step payload q with
    | error e =>
      rw [hq] at h
      exact absurd h (by simp)
    | ok payload₁ =>
      rw [hq] at h
      obtain ⟨heq, -⟩ := step_eq hs.fits hq
      obtain ⟨hs', hiff⟩ := ih (hs.step hq) h
      refine ⟨hs', ?_⟩
      rw [hiff, leftEmpty]
      have hempty : decide (payload₁ = []) =
          ((q.empties || decide (payload = [])) && decide (q.adds = [])) := by
        rw [heq]
        cases q.empties <;> simp
      rw [hempty]

/-! ## Independence -/

/-- The reply is the output of the wrapper. -/
def Answers (payload : List Byte) (c : Command) (output : List Byte) : Prop :=
  ∃ payload', c.call (some output) payload = .ok (output, payload')

theorem answers_iff {payload : List Byte} (hs : Stored payload) (c : Command) (output : List Byte) :
    Answers payload c output ↔
      payload = [] ∧ c.Fits ∧ (0 : Byte) ∉ output ∧ output.length < xmlSize := by
  obtain ⟨hcall, hfits⟩ | ⟨hcall, hnot⟩ := call_cases c (some output) payload
  · rw [Answers, hcall, runWrapper_eq c output hs.fits]
    constructor
    · rintro ⟨payload', h⟩
      split at h
      next hroom =>
        have heq := (Prod.mk.inj (Except.ok.inj h)).1
        have hno : (0 : Byte) ∉ output := by
          rw [← heq, List.mem_append, not_or]
          exact ⟨hs.noNul, noNul_shown (two_le_lineSize c) output⟩
        rw [shown_eq (two_le_lineSize c) hno] at heq hroom
        have hnil : payload = [] := by
          have hlen := congrArg List.length heq
          rw [List.length_append] at hlen
          exact List.length_eq_zero_iff.mp (by omega)
        rw [hnil, List.length_nil, zero_add] at hroom
        exact ⟨hnil, hfits, hno, hroom⟩
      next => exact absurd h (by simp)
    · rintro ⟨hnil, -, hno, hroom⟩
      refine ⟨output, ?_⟩
      rw [hnil, shown_eq (two_le_lineSize c) hno, List.length_nil, zero_add, if_pos hroom,
        List.nil_append]
  · refine iff_of_false ?_ fun h => hnot h.2.1
    rintro ⟨payload', h⟩
    rw [hcall] at h
    exact absurd h (by simp)

theorem stored_nil : Stored [] := ⟨List.not_mem_nil, by decide⟩

theorem answers_after_iff {history : List Request} {payload : List Byte}
    (h : serve [] history = .ok payload) (c : Command) (output : List Byte) :
    Answers payload c output ↔
      leftEmpty true history = true ∧ c.Fits ∧ (0 : Byte) ∉ output ∧ output.length < xmlSize := by
  obtain ⟨hs, hiff⟩ := leftEmpty_iff history stored_nil h
  rw [answers_iff hs, hiff]
  rfl

/-- After any two histories, the reply is the output of the wrapper exactly if both left
    the array empty, and the command line and the output fit. -/
theorem reply_independent_iff {history₁ history₂ : List Request} {payload₁ payload₂ : List Byte}
    (h₁ : serve [] history₁ = .ok payload₁) (h₂ : serve [] history₂ = .ok payload₂) (c : Command)
    (output : List Byte) :
    Answers payload₁ c output ∧ Answers payload₂ c output ↔
      (leftEmpty true history₁ = true ∧ leftEmpty true history₂ = true) ∧
        c.Fits ∧ (0 : Byte) ∉ output ∧ output.length < xmlSize := by
  rw [answers_after_iff h₁, answers_after_iff h₂]
  exact and_and_right.symm

/-- The text of an earlier reply is in the array until a list of packages is fetched, also one
    that is not there: the next reply is the one after no calls at all. -/
theorem reply_independent_fetch :
    serve [] [.wrapper .reset (some (chars "old\n"))] = .ok (chars "old\n") ∧
      ∃ payload, serve [] [.wrapper .reset (some (chars "old\n")), .fetch none] = .ok payload ∧
        Answers payload .reset (chars "done\n") ∧ Answers [] .reset (chars "done\n") := by
  have hserve : serve [] [.wrapper .reset (some (chars "old\n")), .fetch none] = .ok [] := by rfl
  exact ⟨by rfl, [], hserve, (reply_independent_iff hserve
    (show serve [] [] = .ok [] from rfl) .reset
    (chars "done\n")).mpr ⟨⟨rfl, rfl⟩, trivial, by decide, by decide⟩⟩

/-- The second reply starts with the first. -/
theorem reply_depends : ¬ ∀ (history₁ history₂ : List Request) (payload₁ payload₂ : List Byte)
    (c : Command) (output : List Byte), serve [] history₁ = .ok payload₁ →
      serve [] history₂ = .ok payload₂ → Answers payload₁ c output ∧ Answers payload₂ c output := by
  intro hall
  have hserve : serve [] [.wrapper .reset (some (chars "done\n"))] = .ok (chars "done\n") := by rfl
  obtain ⟨-, payload', h⟩ := hall [] _ [] _ .reset (chars "done\n") rfl hserve
  have hcall : Command.reset.call (some (chars "done\n")) (chars "done\n") =
      .ok (chars "done\ndone\n", chars "done\ndone\n") := by rfl
  rw [hcall] at h
  exact absurd (Prod.mk.inj (Except.ok.inj h)).1 (by decide)

end CompatSuva.Software
