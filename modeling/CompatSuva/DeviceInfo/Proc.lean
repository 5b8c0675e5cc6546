import CompatSuva.Common.Block
import CompatSuva.Common.Descriptors
import CompatSuva.Common.Outcome
import CompatSuva.DeviceInfo.Disk

/-!
# What the DeviceInfo suvlet reads in `/proc`

Model of the reports on processes, temperature, uptime, load, memory and swap space (`DeviceInfo.c`
lines 34–192), and of the nine reports as requests to one process. A report that opens its file and
cannot scan the line returns without closing the stream.

* `processes_loadavg`, `threeWords_fileOf`: what is read from the lines of the kernel;
* `dfReports_eq`: the reports on the disk as in `DeviceInfo.Disk`;
* `proc_round_trip`: the reports on a machine whose kernel writes the tables that the code expects;
* `requests_bounded`: a line that is not scanned costs a descriptor, until all reports fail.
-/

namespace CompatSuva.DeviceInfo.Proc

open CompatSuva.Common CompatSuva.Scl

/-! ## Model -/

/-- How a report goes: the file is not opened; the stream stays open because a line is not scanned;
    or it is closed and there is a result. -/
inductive Outcome (α : Type) where
  | notOpened
  | unscanned
  | scanned (result : α)
  deriving DecidableEq, Repr

/-- `fgets(msg, BUFSIZE, output)`: the buffer, and what is left of the file. -/
def getLine (msg file : List Byte) : List Byte × List Byte :=
  match fgets bufSize file with
  | none => (msg, file)
  | some piece => (piece ++ 0 :: msg.drop (piece.length + 1), file.drop piece.length)

/-- The buffer after several calls, whatever these return. -/
def getLines : ℕ → List Byte → List Byte → List Byte
  | 0, msg, _ => msg
  | n + 1, msg, file => getLines n (getLine msg file).1 (getLine msg file).2

/-- The string in `msg`. -/
def text (msg : List Byte) : Except Fault (List Byte) := stringAt .array msg 0

/-- `%*s` several times. -/
def skipWords : ℕ → List Byte → Option (List Byte)
  | 0, s => some s
  | n + 1, s =>
    match scanStr s with
    | none => none
    | some (_, rest) => skipWords n rest

/-- `%i`: a `long` that is stored in an `int`. -/
def scanInt (s : List Byte) : Option (ℤ × List Byte) :=
  (scanLong s).map fun r => (r.1.bmod (2 ^ 32), r.2)

/-- `"%*s %*s %*s %*i/%i"`. -/
def scanProcesses (msg : List Byte) : Option ℤ :=
  match skipWords 3 msg with
  | none => none
  | some s =>
    match scanInt s with
    | none => none
    | some (_, s) =>
      match s with
      | 47 :: s => (scanInt s).map Prod.fst
      | _ => none

/-- `"temperature     : %i"`, where white space stands for any. -/
def scanTemperature (msg : List Byte) : Option ℤ :=
  if chars "temperature" <+: msg then
    match (msg.drop (chars "temperature").length).dropWhile isSpace with
    | 58 :: s => (scanInt s).map Prod.fst
    | _ => none
  else none

/-- `DeviceInfo_Processes`. `msg` holds anything at first, and `none` is a file that is not opened;
    so below. -/
def processes (msg : List Byte) : Option (List Byte) → Except Fault (Outcome ℤ)
  | none => .ok .notOpened
  | some file => do
    let line ← text (getLine msg file).1
    match scanProcesses line with
    | none => return .unscanned
    | some n => return .scanned n

/-- The body of the loop of `DeviceInfo_CPUTemp`; it is left with a temperature. -/
def tempRow (_ : Unit) (msg : List Byte) : Except (Fault ⊕ ℤ) Unit :=
  match scanTemperature msg with
  | none => .ok ()
  | some temperature => .error (.inr temperature)

/-- `DeviceInfo_CPUTemp`. -/
def cpuTemp : Option (List Byte) → Except Fault (Outcome ℤ)
  | none => .ok .notOpened
  | some file =>
    match eachLine bufSize (.inl .starved) tempRow (file.length + 1) file () with
    | .ok _ => .ok (.scanned (-1))
    | .error (.inr temperature) => .ok (.scanned temperature)
    | .error (.inl f) => .error f

/-- `DeviceInfo_Uptime`, where `scanDouble` is `"%lf"`. -/
def uptime {D : Type} (scanDouble : List Byte → Option D) (msg : List Byte) :
    Option (List Byte) → Except Fault (Outcome D)
  | none => .ok .notOpened
  | some file => do
    let line ← text (getLine msg file).1
    match scanDouble line with
    | none => return .unscanned
    | some d => return .scanned d

/-- Three words with commas between them, in `payload`. -/
def commas (w₁ w₂ w₃ : List Byte) : List Byte := w₁ ++ chars "," ++ w₂ ++ chars "," ++ w₃

/-- A report that reads a number of lines, skips words of the last one, and scans three strings into
    arrays of one size, before `rest`. -/
def threeWords (lines skipped size : ℕ) (rest : List Directive) (msg : List Byte) :
    Option (List Byte) → Except Fault (Outcome (List Byte))
  | none => .ok .notOpened
  | some file => do
    let line ← text (getLines lines msg file)
    match sscanf (List.replicate skipped .skip ++ [.str size, .str size, .str size] ++ rest)
      line with
    | none => throw .array
    | some [.str w₁, .str w₂, .str w₃] => return .scanned (commas w₁ w₂ w₃)
    | some _ => return .unscanned

/-- `DeviceInfo_LoadAverage`: `"%s %s %s "` of the first line. -/
def loadAverage : List Byte → Option (List Byte) → Except Fault (Outcome (List Byte)) :=
  threeWords 1 0 10 []

/-- `DeviceInfo_MemoryUsage`: `"%*s %s %s %s %*s %*s %*s"` of the second line. -/
def memoryUsage : List Byte → Option (List Byte) → Except Fault (Outcome (List Byte)) :=
  threeWords 2 1 30 [.skip, .skip, .skip]

/-- `DeviceInfo_SwapUsage`: `"%*s %s %s %s"` of the third line. -/
def swapUsage : List Byte → Option (List Byte) → Except Fault (Outcome (List Byte)) :=
  threeWords 3 1 30 []

/-- A report on the output of `df`, that is left early when a line is not scanned. -/
def dfReport (report : List Byte → Except Leave (List Byte)) :
    Option (List Byte) → Except Fault (Outcome (List Byte))
  | none => .ok .notOpened
  | some output =>
    match report output with
    | .ok text => .ok (.scanned text)
    | .error (.ret _) => .ok .unscanned
    | .error (.fault f) => .error f

/-- The three reports, once `popen` has succeeded. -/
def totalReport (output : List Byte) : Except Leave (List Byte) := do
  let t ← overLines totalRow (discardLine output) (0, 0, 0)
  strcat [] (totalText t)

def tableReport (output : List Byte) : Except Leave (List Byte) := do
  let payload ← strcats [] [chars "<?xml version='1.0' ?>\n", chars "<Disks>\n"]
  let payload ← overLines tableRow output payload
  strcat payload tableFooter

def percentagesReport (output : List Byte) : Except Leave (List Byte) :=
  overLines percentagesRow output []

/-! ### Requests -/

/-- A request, with what `msg` holds at first, and the file or the output that is read. -/
inductive Call where
  | processes (msg : List Byte) (file : Option (List Byte))
  | cpuTemp (file : Option (List Byte))
  | uptime (msg : List Byte) (file : Option (List Byte))
  | loadAverage (msg : List Byte) (file : Option (List Byte))
  | memoryUsage (msg : List Byte) (file : Option (List Byte))
  | swapUsage (msg : List Byte) (file : Option (List Byte))
  | diskSpaceTotal (output : Option (List Byte))
  | diskSpaceTable (output : Option (List Byte))
  | diskSpacePercentages (output : Option (List Byte))

/-- What is returned; a `double` is missing where it is -1. -/
inductive Answer (D : Type) where
  | int (n : ℤ)
  | double (d : Option D)
  | text (s : List Byte)
  deriving DecidableEq, Repr

/-- What `fopen` and `popen` do with descriptors. -/
def fopenUses : List Use := [.take]

def popenUses : List Use := [.take, .take, .give]

/-- What a report does with them. In `DeviceInfo_DiskSpaceTotal`, `fclose` stands for `pclose`. -/
def Outcome.uses {α : Type} (opening : List Use) : Outcome α → List Use
  | .notOpened => []
  | .unscanned => opening
  | .scanned _ => opening ++ [.give]

/-- `return -1`. -/
def Outcome.int : Outcome ℤ → ℤ
  | .scanned n => n
  | _ => -1

def Outcome.double {D : Type} : Outcome D → Option D
  | .scanned d => some d
  | _ => none

/-- `return "error"`, and what is returned when a line is not scanned. -/
def Outcome.textOr (unscanned : List Byte) : Outcome (List Byte) → List Byte
  | .scanned s => s
  | .unscanned => unscanned
  | .notOpened => chars "error"

section

variable {D : Type} (scanDouble : List Byte → Option D)

/-- What is answered, and what is done with descriptors. -/
def answer : Call → Except Fault (Answer D × List Use)
  | .processes msg file => do
    let o ← processes msg file
    return (.int o.int, o.uses fopenUses)
  | .cpuTemp file => do
    let o ← cpuTemp file
    return (.int o.int, o.uses fopenUses)
  | .uptime msg file => do
    let o ← uptime scanDouble msg file
    return (.double o.double, o.uses fopenUses)
  | .loadAverage msg file => do
    let o ← loadAverage msg file
    return (.text (o.textOr (chars "error")), o.uses fopenUses)
  | .memoryUsage msg file => do
    let o ← memoryUsage msg file
    return (.text (o.textOr (chars "error")), o.uses fopenUses)
  | .swapUsage msg file => do
    let o ← swapUsage msg file
    return (.text (o.textOr (chars "error")), o.uses fopenUses)
  | .diskSpaceTotal output => do
    let o ← dfReport totalReport output
    return (.text (o.textOr (chars "error")), o.uses popenUses)
  | .diskSpaceTable output => do
    let o ← dfReport tableReport output
    return (.text (o.textOr (chars "error")), o.uses popenUses)
  | .diskSpacePercentages output => do
    let o ← dfReport percentagesReport output
    return (.text (o.textOr (chars "sscanf error")), o.uses popenUses)

/-- A request is answered. The process has no state but its table. -/
def ServesWith (_ : Unit) (c : Call) (a : Answer D) (us : List Use) (_ : Unit) : Prop :=
  answer scanDouble c = .ok (a, us)

end

/-! ## The reports on the disk -/

/-- When a report is left early, this is the text. -/
def Says (message : List Byte) : Leave → Prop
  | .ret text => text = message
  | .fault _ => True

theorem says_strcat (message payload s : List Byte) :
    Post (Says message) (fun _ => True) (strcat payload s) := by
  unfold strcat
  split
  · exact trivial
  · exact trivial

theorem says_strcats (message payload : List Byte) (ss : List (List Byte)) :
    Post (Says message) (fun _ => True) (strcats payload ss) :=
  Post.foldlM (fun payload s _ => says_strcat message payload s) ss trivial

theorem says_scan (message : List Byte) (ds : List Directive) (msg : List Byte) :
    Post (Says message) (fun _ => True) (scan ds msg) := by
  unfold scan
  split
  · exact trivial
  · exact trivial

theorem says_addLong (message : List Byte) (x y : ℤ) :
    Post (Says message) (fun _ => True) (addLong x y) := by
  unfold addLong
  split
  · exact trivial
  · exact trivial

theorem says_overLines {σ : Type} {message : List Byte} {row : σ → List Byte → Except Leave σ}
    (h : ∀ s msg, Post (Says message) (fun _ => True) (row s msg)) (output : List Byte) (s : σ) :
    Post (Says message) (fun _ => True) (overLines row output s) := by
  rw [overLines_eq]
  exact Post.foldlM (fun s msg _ => h s msg) _ trivial

theorem says_total (output : List Byte) :
    Post (Says (chars "error")) (fun _ => True) (totalReport output) := by
  refine (says_overLines (fun t msg => ?_) _ _).bind fun t _ => says_strcat _ _ _
  refine (says_scan _ _ msg).bind fun fields _ => ?_
  split
  · refine (says_addLong _ _ _).bind fun total _ => ?_
    refine (says_addLong _ _ _).bind fun used _ => ?_
    exact (says_addLong _ _ _).bind fun free _ => trivial
  · exact rfl

theorem says_table (output : List Byte) :
    Post (Says (chars "error")) (fun _ => True) (tableReport output) := by
  refine (says_strcats _ _ _).bind fun payload _ => ?_
  refine (says_overLines (fun payload msg => ?_) _ _).bind fun payload _ => says_strcat _ _ _
  refine (says_strcat _ _ _).bind fun payload _ => ?_
  refine (says_scan _ _ msg).bind fun fields _ => ?_
  split
  · exact says_strcats _ _ _
  · exact rfl

theorem says_percentages (output : List Byte) :
    Post (Says (chars "sscanf error")) (fun _ => True) (percentagesReport output) := by
  refine says_overLines (fun payload msg => ?_) _ _
  refine (says_scan _ _ msg).bind fun fields _ => ?_
  split
  · exact says_strcats _ _ _
  · exact rfl

theorem dfReport_text {report : List Byte → Except Leave (List Byte)} {message : List Byte}
    (h : ∀ output, Post (Says message) (fun _ => True) (report output)) (output : List Byte) :
    (Outcome.textOr message <$> dfReport report (some output)) = returned (report output) := by
  have hsays := h output
  rw [dfReport]
  cases hreport : report output with
  | ok text => rfl
  | error e =>
    rw [hreport] at hsays
    cases e with
    | fault f => rfl
    | ret text =>
      obtain rfl : text = message := hsays
      rfl

/-- The replies are those of the functions. -/
theorem dfReports_eq (output : Option (List Byte)) :
    Outcome.textOr (chars "error") <$> dfReport totalReport output = diskSpaceTotal output ∧
      Outcome.textOr (chars "error") <$> dfReport tableReport output = diskSpaceTable output ∧
      Outcome.textOr (chars "sscanf error") <$> dfReport percentagesReport output =
        diskSpacePercentages output := by
  cases output with
  | none => exact ⟨rfl, rfl, rfl⟩
  | some output =>
    exact ⟨dfReport_text says_total output, dfReport_text says_table output,
      dfReport_text says_percentages output⟩

/-! ## Lines -/

/-- A line that is short is what the buffer then holds. -/
theorem getLine_line {line rest msg : List Byte} (h : Short line) :
    (getLine msg (line ++ 10 :: rest)).2 = rest ∧
      text (getLine msg (line ++ 10 :: rest)).1 = .ok (line ++ [10]) := by
  have hbuf : bufSize = 100 := rfl
  have hfgets : fgets bufSize (line ++ 10 :: rest) = some (line ++ [10]) := by
    rw [fgets, if_neg (by simp), takeLine_line h.noNewline h.short]
  have hnul : (0 : Byte) ∉ line ++ [10] := by
    rw [List.mem_append, not_or]
    exact ⟨h.noNul, by decide⟩
  rw [getLine, hfgets]
  refine ⟨?_, ?_⟩
  · show (line ++ 10 :: rest).drop (line ++ [10]).length = rest
    rw [show line ++ 10 :: rest = (line ++ [10]) ++ rest by simp, List.drop_left]
  · show stringAt Fault.array ((line ++ [10]) ++ 0 :: msg.drop ((line ++ [10]).length + 1)) 0 = _
    exact stringAt_append Fault.array [] hnul _

/-- The last of several lines. -/
theorem getLines_fileOf {lines : List (List Byte)} {line msg : List Byte} {n : ℕ}
    (h : ∀ l ∈ lines, Short l) (hline : lines[n]? = some line) :
    text (getLines (n + 1) msg (fileOf lines [])) = .ok (line ++ [10]) := by
  induction n generalizing lines msg with
  | zero =>
    cases lines with
    | nil => cases hline
    | cons l lines =>
      obtain rfl := Option.some.inj hline
      have hfile : fileOf (l :: lines) [] = l ++ 10 :: fileOf lines [] := by simp [fileOf]
      rw [hfile]
      exact (getLine_line (h l List.mem_cons_self)).2
  | succ n ih =>
    cases lines with
    | nil => cases hline
    | cons l lines =>
      have hfile : fileOf (l :: lines) [] = l ++ 10 :: fileOf lines [] := by simp [fileOf]
      rw [getLines, hfile, (getLine_line (h l List.mem_cons_self)).1]
      exact ih (fun l' hl' => h l' (List.mem_cons_of_mem _ hl')) hline

/-! ## Three words -/

/-- Words that are skipped at the end store nothing. -/
theorem sscanf_skips (ds : List Directive) (n : ℕ) (s : List Byte) :
    sscanf (ds ++ List.replicate n .skip) s = sscanf ds s := by
  induction ds generalizing s with
  | nil =>
    rw [List.nil_append, sscanf]
    induction n generalizing s with
    | zero => rfl
    | succ n ih =>
      rw [List.replicate_succ, sscanf]
      split
      · rfl
      · exact ih _
  | cons d ds ih =>
    cases d with
    | skip => simp only [List.cons_append, sscanf, ih]
    | str size => simp only [List.cons_append, sscanf, ih]
    | long => simp only [List.cons_append, sscanf, ih]

/-- What is returned of the words behind those that are skipped. -/
def firstThree : List (List Byte) → Outcome (List Byte)
  | w₁ :: w₂ :: w₃ :: _ => .scanned (commas w₁ w₂ w₃)
  | _ => .unscanned

/-- The report by the words of its line. -/
theorem threeWords_fileOf {lines : List (List Byte)} {line msg : List Byte} {n : ℕ}
    (h : ∀ l ∈ lines, Short l) (hline : lines[n]? = some line) (skipped size m : ℕ)
    (hfits : ∀ word ∈ (words (line ++ [10])).drop skipped, word.length < size) :
    threeWords (n + 1) skipped size (List.replicate m .skip) msg (some (fileOf lines [])) =
      .ok (firstThree ((words (line ++ [10])).drop skipped)) := by
  have hscan := sscanf_strs skipped [size, size, size] (line ++ [10])
  have hwords : WordsFit [size, size, size] ((words (line ++ [10])).drop skipped) := by
    generalize (words (line ++ [10])).drop skipped = ws at hfits
    match ws with
    | [] => trivial
    | [w₁] => exact ⟨hfits w₁ (by simp), trivial⟩
    | [w₁, w₂] => exact ⟨hfits w₁ (by simp), hfits w₂ (by simp), trivial⟩
    | w₁ :: w₂ :: w₃ :: ws =>
      exact ⟨hfits w₁ (by simp), hfits w₂ (by simp), hfits w₃ (by simp), by simp [WordsFit]⟩
  rw [if_pos hwords] at hscan
  rw [threeWords, getLines_fileOf h hline, ok_bind, sscanf_skips]
  rw [show [Directive.str size, .str size, .str size] = [size, size, size].map .str from rfl, hscan]
  generalize (words (line ++ [10])).drop skipped = ws
  match ws with
  | [] => rfl
  | [w₁] => rfl
  | [w₁, w₂] => rfl
  | w₁ :: w₂ :: w₃ :: ws => rfl

/-! ## Processes -/

/-- A numeral in front of a slash. -/
theorem scanLong_slash {s rest : List Byte} {n : ℕ}
    (h : s.dropWhile isSpace = decimal n ++ 47 :: rest) :
    scanLong s = some (clampLong n, 47 :: rest) := by
  have htake {base : ℕ} {ds : List Byte} (hbase : base ≤ 16) (hds : ∀ b ∈ ds, digitVal b < base) :
      (ds ++ 47 :: rest).takeWhile (digitVal · < base) = ds := by
    rw [List.takeWhile_append_of_pos (by simpa using hds), List.takeWhile_cons_of_neg,
      List.append_nil]
    rw [show digitVal 47 = 16 from rfl]
    simpa using hbase
  by_cases hn : n = 0
  · subst hn
    have hbegins : scanPrefix (s.dropWhile isSpace) = (false, 8, [48] ++ 47 :: rest) := by
      rw [h]
      rfl
    have hdigit : ∀ b ∈ [(48 : Byte)], digitVal b < 8 := fun b hb => by
      rw [List.mem_singleton.mp hb]
      decide
    unfold scanLong
    rw [hbegins]
    simp only [htake (by norm_num) hdigit, if_neg (List.cons_ne_nil _ _), List.drop_left]
    rfl
  · obtain ⟨d, ds, ⟨hpos, hlt⟩, hcons⟩ := decimal_cons hn
    have hbegins : scanPrefix (s.dropWhile isSpace) = (false, 10, decimal n ++ 47 :: rest) := by
      rw [h, hcons]
      exact scanPrefix_digit hpos hlt _
    have hne : decimal n ≠ [] := hcons ▸ List.cons_ne_nil _ _
    unfold scanLong
    rw [hbegins]
    simp only [htake (by norm_num) digitVal_decimal, if_neg hne, List.drop_left,
      digitsVal_decimal, Bool.false_eq_true, if_false]

theorem bmod_int {n : ℕ} (h : n < 2 ^ 31) : (clampLong n).bmod (2 ^ 32) = n := by
  have hclamp : clampLong n = n := by
    unfold clampLong longMax
    omega
  have hpow : (2 : ℕ) ^ 31 = 2147483648 := by norm_num
  have hmod : ((n : ℤ) % ((2 ^ 32 : ℕ) : ℤ)) = n := by
    apply Int.emod_eq_of_lt
    · omega
    · norm_num
      omega
  rw [hclamp, Int.bmod, hmod, if_pos (by norm_num; omega)]

theorem decimalInt_natCast (n : ℕ) : decimalInt n = decimal n := by
  rw [decimalInt, if_neg (by omega), Int.natAbs_natCast]

/-- There is no white space in front of a numeral. -/
theorem dropWhile_decimal (n : ℕ) (rest : List Byte) :
    (decimal n ++ rest).dropWhile isSpace = decimal n ++ rest := by
  cases hn : decimal n with
  | nil => exact absurd (decimalInt_natCast n ▸ hn) (decimalInt_ne_nil n)
  | cons b ds =>
    have hdigit : digitVal b < 10 := digitVal_decimal b (hn ▸ List.mem_cons_self)
    apply List.dropWhile_cons_of_neg
    intro hspace
    rw [digitVal_space hspace] at hdigit
    omega

theorem skipWords_cons {s word : List Byte} {ws : List (List Byte)} (h : words s = word :: ws)
    (n : ℕ) : ∃ rest, skipWords (n + 1) s = skipWords n rest ∧ words rest = ws := by
  obtain ⟨rest, hscan, hrest⟩ := words_cons h
  exact ⟨rest, by rw [skipWords, hscan], hrest⟩

/-- The number of processes is behind the slash of the fourth word. -/
theorem scanProcesses_eq {s w₁ w₂ w₃ : List Byte} {running total : ℕ} {ws : List (List Byte)}
    (h : words s = w₁ :: w₂ :: w₃ :: (decimal running ++ 47 :: decimal total) :: ws)
    (htotal : total < 2 ^ 31) : scanProcesses s = some (total : ℤ) := by
  obtain ⟨s₁, h₁, hw₁⟩ := skipWords_cons h 2
  obtain ⟨s₂, h₂, hw₂⟩ := skipWords_cons hw₁ 1
  obtain ⟨s₃, h₃, hw₃⟩ := skipWords_cons hw₂ 0
  obtain ⟨rest, hscan, -⟩ := words_cons hw₃
  obtain ⟨hsplit, -, hended⟩ := scanStr_some hscan
  rw [List.append_assoc, List.cons_append] at hsplit
  have hrunning : scanInt s₃ =
      some ((clampLong running).bmod (2 ^ 32), 47 :: (decimal total ++ rest)) := by
    rw [scanInt, scanLong_slash hsplit]
    rfl
  have hspace : (decimal total ++ rest).dropWhile isSpace = decimalInt total ++ rest := by
    rw [decimalInt_natCast, dropWhile_decimal]
  have htotals : scanInt (decimal total ++ rest) = some ((total : ℤ), rest) := by
    rw [scanInt, scanLong_decimalInt hspace hended, Option.map_some, bmod_int htotal]
  rw [scanProcesses, h₁, h₂, h₃, skipWords]
  simp only [hrunning, htotals, Option.map_some]

theorem processes_loadavg {lines : List (List Byte)} {line msg w₁ w₂ w₃ : List Byte}
    {running total : ℕ} {ws : List (List Byte)} (h : ∀ l ∈ lines, Short l)
    (hline : lines[0]? = some line) (hwords : words (line ++ [10]) =
      w₁ :: w₂ :: w₃ :: (decimal running ++ 47 :: decimal total) :: ws) (htotal : total < 2 ^ 31) :
    processes msg (some (fileOf lines [])) = .ok (.scanned (total : ℤ)) := by
  have htext : text (getLine msg (fileOf lines [])).1 = .ok (line ++ [10]) :=
    getLines_fileOf h hline
  rw [processes, htext, ok_bind, scanProcesses_eq hwords htotal]
  rfl

/-! ## The reports -/

/-- What the kernel has to tell. -/
structure Figures where
  min1 : List Byte
  min5 : List Byte
  min15 : List Byte
  running : ℕ
  total : ℕ
  memory : List (List Byte)
  swap : List (List Byte)

/-- A row of a table: the words from `word` on, all of which fit an array. -/
structure HasRow (lines : List (List Byte)) (n skipped size : ℕ) (ws : List (List Byte)) :
    Prop where
  short : ∀ line ∈ lines, Short line
  row : ∃ line rest, lines[n]? = some line ∧ (words (line ++ [10])).drop skipped = ws ++ rest ∧
    ∀ word ∈ (words (line ++ [10])).drop skipped, word.length < size

/-- Files with the tables for which the code is made: in `/proc/meminfo`, memory and swap space have
    their rows behind a header. -/
structure Writes (loadavg meminfo : List (List Byte)) (r : Figures) : Prop where
  loads : HasRow loadavg 0 0 10
    [r.min1, r.min5, r.min15, decimal r.running ++ 47 :: decimal r.total]
  int : r.total < 2 ^ 31
  memories : HasRow meminfo 1 1 30 r.memory
  swaps : HasRow meminfo 2 1 30 r.swap
  three : r.memory.length = 3 ∧ r.swap.length = 3
  noComma : ∀ word ∈ [r.min1, r.min5, r.min15] ++ r.memory ++ r.swap, (44 : Byte) ∉ word

theorem commas_splitOn {w₁ w₂ w₃ : List Byte} (h₁ : (44 : Byte) ∉ w₁) (h₂ : (44 : Byte) ∉ w₂)
    (h₃ : (44 : Byte) ∉ w₃) : (commas w₁ w₂ w₃).splitOn 44 = [w₁, w₂, w₃] := by
  have hcommas : commas w₁ w₂ w₃ = w₁ ++ 44 :: (w₂ ++ 44 :: w₃) := by simp [commas, chars]
  rw [hcommas, List.splitOn_append_cons_self_of_not_mem h₁,
    List.splitOn_append_cons_self_of_not_mem h₂, List.splitOn_eq_singleton h₃]

/-- Three words of a row, as the client gets them. -/
theorem HasRow.threeWords {lines rest : List (List Byte)} {n skipped size : ℕ}
    {w₁ w₂ w₃ : List Byte} (h : HasRow lines n skipped size (w₁ :: w₂ :: w₃ :: rest)) (m : ℕ)
    (msg : List Byte) (hcomma : ∀ word ∈ [w₁, w₂, w₃], (44 : Byte) ∉ word) :
    ∃ s, threeWords (n + 1) skipped size (List.replicate m .skip) msg (some (fileOf lines [])) =
      .ok (.scanned s) ∧ s.splitOn 44 = [w₁, w₂, w₃] := by
  obtain ⟨line, behind, hline, hwords, hfits⟩ := h.row
  refine ⟨commas w₁ w₂ w₃, ?_, commas_splitOn (hcomma _ (by simp)) (hcomma _ (by simp))
    (hcomma _ (by simp))⟩
  rw [threeWords_fileOf h.short hline skipped size m hfits, hwords]
  rfl

/-- On a machine with these tables, the client gets what the kernel has written. -/
theorem proc_round_trip {loadavg meminfo : List (List Byte)} {r : Figures}
    (h : Writes loadavg meminfo r) (msg : List Byte) :
    processes msg (some (fileOf loadavg [])) = .ok (.scanned (r.total : ℤ)) ∧
      (∃ s, loadAverage msg (some (fileOf loadavg [])) = .ok (.scanned s) ∧
        s.splitOn 44 = [r.min1, r.min5, r.min15]) ∧
      (∃ s, memoryUsage msg (some (fileOf meminfo [])) = .ok (.scanned s) ∧
        s.splitOn 44 = r.memory) ∧
      ∃ s, swapUsage msg (some (fileOf meminfo [])) = .ok (.scanned s) ∧ s.splitOn 44 = r.swap := by
  obtain ⟨m₁, m₂, m₃, hmemory⟩ := List.length_eq_three.mp h.three.1
  obtain ⟨p₁, p₂, p₃, hswap⟩ := List.length_eq_three.mp h.three.2
  have hcomma := h.noComma
  rw [hmemory, hswap] at hcomma ⊢
  refine ⟨?_, ?_, ?_, ?_⟩
  · obtain ⟨line, behind, hline, hwords, -⟩ := h.loads.row
    exact processes_loadavg h.loads.short hline hwords h.int
  · exact h.loads.threeWords 0 msg fun w hw =>
      hcomma w (List.mem_append_left _ (List.mem_append_left _ hw))
  · exact (hmemory ▸ h.memories).threeWords 3 msg fun w hw =>
      hcomma w (List.mem_append_left _ (List.mem_append_right _ hw))
  · exact (hswap ▸ h.swaps).threeWords 0 msg fun w hw => hcomma w (List.mem_append_right _ hw)

/-- The tables of an old kernel. -/
def oldLoadavg : List (List Byte) := [chars "0.20 0.18 0.12 1/80 11206"]

def oldMeminfo : List (List Byte) :=
  [chars "        total:    used:    free:  shared: buffers:  cached:",
    chars "Mem:  62894080 60231680  2662400        0  1126400 26472448",
    chars "Swap: 139821056  1105920 138715136"]

def oldFigures : Figures where
  min1 := chars "0.20"
  min5 := chars "0.18"
  min15 := chars "0.12"
  running := 1
  total := 80
  memory := [chars "62894080", chars "60231680", chars "2662400"]
  swap := [chars "139821056", chars "1105920", chars "138715136"]

theorem hasRow_of {lines ws rest : List (List Byte)} {n skipped size : ℕ} {line : List Byte}
    {skips : List (List Byte)} (h : ∀ l ∈ lines, Short l) (hline : lines[n]? = some line)
    (hwords : words (line ++ [10]) = skips ++ (ws ++ rest)) (hskips : skips.length = skipped)
    (hfits : ∀ word ∈ ws ++ rest, word.length < size) : HasRow lines n skipped size ws := by
  have hdrop : (words (line ++ [10])).drop skipped = ws ++ rest := by
    rw [hwords, List.drop_left' hskips]
  exact ⟨h, line, rest, hline, hdrop, hdrop ▸ hfits⟩

theorem short_old : ∀ line ∈ oldLoadavg ++ oldMeminfo, Short line := by decide +kernel

theorem writes_old : Writes oldLoadavg oldMeminfo oldFigures where
  loads := @hasRow_of _ _ [chars "11206"] _ _ _ _ []
    (fun line hline => short_old line (List.mem_append_left _ hline)) rfl (by decide +kernel) rfl
    (by decide +kernel)
  int := by decide
  memories := @hasRow_of _ _ [chars "0", chars "1126400", chars "26472448"] _ _ _ _ [chars "Mem:"]
    (fun line hline => short_old line (List.mem_append_right _ hline)) rfl (by decide +kernel) rfl
    (by decide +kernel)
  swaps := @hasRow_of _ _ [] _ _ _ _ [chars "Swap:"]
    (fun line hline => short_old line (List.mem_append_right _ hline)) rfl (by decide +kernel) rfl
    (by decide +kernel)
  three := ⟨rfl, rfl⟩
  noComma := by decide +kernel

theorem proc_round_trip_old :
    processes [] (some (fileOf oldLoadavg [])) = .ok (.scanned 80) ∧
      ∃ s, memoryUsage [] (some (fileOf oldMeminfo [])) = .ok (.scanned s) ∧
        s.splitOn 44 = [chars "62894080", chars "60231680", chars "2662400"] :=
  ⟨(proc_round_trip writes_old []).1, (proc_round_trip writes_old []).2.2.1⟩

/-! ## Descriptors -/

variable {D : Type} {scanDouble : List Byte → Option D}

/-- The file is opened, and a line is not scanned. -/
def leavesOpen {α : Type} : Except Fault (Outcome α) → Bool
  | .ok .unscanned => true
  | _ => false

def fails (scanDouble : List Byte → Option D) : Call → Bool
  | .processes msg file => leavesOpen (processes msg file)
  | .cpuTemp file => leavesOpen (cpuTemp file)
  | .uptime msg file => leavesOpen (uptime scanDouble msg file)
  | .loadAverage msg file => leavesOpen (loadAverage msg file)
  | .memoryUsage msg file => leavesOpen (memoryUsage msg file)
  | .swapUsage msg file => leavesOpen (swapUsage msg file)
  | .diskSpaceTotal output => leavesOpen (dfReport totalReport output)
  | .diskSpaceTable output => leavesOpen (dfReport tableReport output)
  | .diskSpacePercentages output => leavesOpen (dfReport percentagesReport output)

/-- The replies when nothing is opened. -/
def Refused (c : Call) (a : Answer D) : Prop :=
  match c with
  | .processes _ _ => a = .int (-1)
  | .cpuTemp _ => a = .int (-1)
  | .uptime _ _ => a = .double none
  | _ => a = .text (chars "error")

/-- A report keeps the descriptor of a stream that it leaves open. -/
theorem kept_report {α : Type} {m : Except Fault (Outcome α)} {f : Outcome α → Answer D}
    {opening us : List Use} {a : Answer D} (hopening : Kept opening 1)
    (h : (do let o ← m; return (f o, o.uses opening)) = .ok (a, us)) :
    Kept us (if leavesOpen m then 1 else 0) := by
  obtain ⟨o, rfl, h⟩ := bind_eq_ok.mp h
  obtain ⟨-, rfl⟩ := Prod.mk.inj (Except.ok.inj h)
  cases o with
  | notOpened => rfl
  | unscanned => exact hopening
  | scanned result =>
    unfold Kept at *
    rw [Outcome.uses, List.count_append, List.count_append, hopening]
    rfl

/-- Without a descriptor the stream is not opened. -/
theorem refused_report {α : Type} {m : Except Fault (Outcome α)} {f : Outcome α → Answer D}
    {opening us : List Use} {a : Answer D} {n : ℕ}
    (hopening : ∀ us, afterUses 0 (opening ++ us) = none)
    (h : (do let o ← m; return (f o, o.uses opening)) = .ok (a, us))
    (hafter : afterUses 0 us = some n) : a = f .notOpened := by
  obtain ⟨o, rfl, h⟩ := bind_eq_ok.mp h
  obtain ⟨rfl, rfl⟩ := Prod.mk.inj (Except.ok.inj h)
  cases o with
  | notOpened => rfl
  | unscanned =>
    have hnone := hopening []
    rw [List.append_nil] at hnone
    rw [Outcome.uses, hnone] at hafter
    cases hafter
  | scanned result =>
    rw [Outcome.uses, hopening] at hafter
    cases hafter

theorem kept_fopenUses : Kept fopenUses 1 := rfl

theorem kept_popenUses : Kept popenUses 1 := rfl

theorem serves_keeps :
    Costs (ServesWith scanDouble) fun c _ => if fails scanDouble c then 1 else 0 := by
  intro s c a us s' h
  cases c with
  | processes msg file => exact kept_report kept_fopenUses h
  | cpuTemp file => exact kept_report kept_fopenUses h
  | uptime msg file => exact kept_report kept_fopenUses h
  | loadAverage msg file => exact kept_report kept_fopenUses h
  | memoryUsage msg file => exact kept_report kept_fopenUses h
  | swapUsage msg file => exact kept_report kept_fopenUses h
  | diskSpaceTotal output => exact kept_report kept_popenUses h
  | diskSpaceTable output => exact kept_report kept_popenUses h
  | diskSpacePercentages output => exact kept_report kept_popenUses h

theorem serves_refused : Refuses (ServesWith scanDouble) 0 Refused := by
  rintro ⟨free, s⟩ c a ⟨free', s'⟩ hfree ⟨us, h, hafter⟩
  obtain rfl : free = 0 := Nat.le_zero.mp hfree
  have hfopen (us : List Use) : afterUses 0 (fopenUses ++ us) = none := rfl
  have hpopen (us : List Use) : afterUses 0 (popenUses ++ us) = none := rfl
  cases c with
  | processes msg file => exact refused_report hfopen h hafter
  | cpuTemp file => exact refused_report hfopen h hafter
  | uptime msg file => exact refused_report hfopen h hafter
  | loadAverage msg file => exact refused_report hfopen h hafter
  | memoryUsage msg file => exact refused_report hfopen h hafter
  | swapUsage msg file => exact refused_report hfopen h hafter
  | diskSpaceTotal output => exact refused_report hpopen h hafter
  | diskSpaceTable output => exact refused_report hpopen h hafter
  | diskSpacePercentages output => exact refused_report hpopen h hafter

/-- Each line that is not scanned costs a descriptor, and nothing else does. When there have been as
    many as were free, the suvlet refuses all reports, for ever. -/
theorem requests_bounded {free free' : ℕ} {before after : List Call} {answers : List (Answer D)}
    (hrun : Runs (WithTable (ServesWith scanDouble)) (free, ()) (before ++ after) answers
      (free', ())) :
    free' + (before ++ after).countP (fails scanDouble) = free ∧
      (before.countP (fails scanDouble) = free →
        List.Forall₂ Refused after (answers.drop before.length)) := by
  refine ⟨serves_keeps.count hrun, fun hall => ?_⟩
  obtain ⟨t, as, as', rfl, hlength, hbefore, hrest⟩ := hrun.split
  have := serves_keeps.count hbefore
  rw [← hlength, List.drop_left]
  exact serves_keeps.refused serves_refused (by omega) hrest

/-- The tables of a newer kernel. -/
def newMeminfo : List (List Byte) :=
  [chars "MemTotal:       515824 kB", chars "MemFree:         77196 kB",
    chars "Buffers:         25084 kB"]

theorem unscanned_new : memoryUsage [] (some (fileOf newMeminfo [])) = .ok .unscanned := by
  have hshort : ∀ line ∈ newMeminfo, Short line := by decide +kernel
  have hwords : words (chars "MemFree:         77196 kB" ++ [10]) =
      [chars "MemFree:", chars "77196", chars "kB"] := by decide +kernel
  refine (threeWords_fileOf hshort rfl 1 30 3 ?_).trans ?_
  · rw [hwords]
    decide +kernel
  · rw [hwords]
    rfl

/-- One request about the memory takes the only descriptor. -/
theorem requests_bounded_new : ∃ answers : List (Answer ℤ),
    Runs (WithTable (ServesWith fun _ => none)) (1, ())
      [.memoryUsage [] (some (fileOf newMeminfo [])), .loadAverage [] none] answers (0, ()) ∧
      List.Forall₂ Refused [.loadAverage [] none] (answers.drop 1) := by
  have hfails : fails (fun _ : List Byte => (none : Option ℤ))
      (.memoryUsage [] (some (fileOf newMeminfo []))) = true := by
    rw [fails, unscanned_new]
    rfl
  have hfirst : WithTable (ServesWith fun _ : List Byte => (none : Option ℤ)) (1, ())
      (.memoryUsage [] (some (fileOf newMeminfo []))) (.text (chars "error")) (0, ()) := by
    refine ⟨[.take], ?_, rfl⟩
    rw [ServesWith, answer, unscanned_new]
    rfl
  have hsecond : WithTable (ServesWith fun _ : List Byte => (none : Option ℤ)) (0, ())
      (.loadAverage [] none) (.text (chars "error")) (0, ()) := ⟨[], rfl, rfl⟩
  have hrun := Runs.cons hfirst (.cons hsecond .nil)
  refine ⟨_, hrun, (@requests_bounded _ _ 1 0 [.memoryUsage [] (some (fileOf newMeminfo []))]
    [.loadAverage [] none] _ hrun).2 ?_⟩
  rw [List.countP_cons, hfails]
  rfl

end CompatSuva.DeviceInfo.Proc
