import CompatSuva.Common.Scanf
import CompatSuva.Scl.Types

/-!
# The disk reports of the DeviceInfo suvlet

Model of `DeviceInfo_DiskSpaceTotal`, `DeviceInfo_DiskSpaceTable` and
`DeviceInfo_DiskSpacePercentages` (`DeviceInfo.c` lines 194–320): loops over the output of
`/bin/df | grep ^/dev` that scan each line and put a report together in `payload`. A string that
does not fit its array and a `long` that overflows are undefined.

* `tableRow_eq`, `percentagesRow_eq`: what a line does to the report;
* `length_msg`: the lines are shorter than the buffer.
-/

namespace CompatSuva.DeviceInfo

open CompatSuva.Common CompatSuva.Scl

/-! ## Model -/

/-- `XMLSIZE`. -/
def xmlSize : ℕ := 4000

/-- `BUFSIZE`. -/
def bufSize : ℕ := 100

/-- Undefined behaviour: a string that does not fit `payload`, one that does not fit a local array,
    a `long` that overflows; `starved` does not happen. -/
inductive Fault where
  | payload
  | array
  | overflow
  | starved
  deriving DecidableEq, Repr

/-- How a function is left before its end. -/
inductive Leave where
  | ret (text : List Byte)
  | fault (f : Fault)
  deriving DecidableEq, Repr

/-- What the function returns. -/
def returned : Except Leave (List Byte) → Except Fault (List Byte)
  | .ok text => .ok text
  | .error (.ret text) => .ok text
  | .error (.fault f) => .error f

/-- `strcat(payload, text)`. -/
def strcat (payload text : List Byte) : Except Leave (List Byte) :=
  if payload.length + text.length < xmlSize then .ok (payload ++ text)
  else .error (.fault .payload)

/-- Calls of `strcat` one after the other. -/
def strcats (payload : List Byte) (texts : List (List Byte)) : Except Leave (List Byte) :=
  texts.foldlM strcat payload

/-- `sscanf(msg, …)`. -/
def scan (ds : List Directive) (msg : List Byte) : Except Leave (List Field) :=
  match sscanf ds msg with
  | some fields => .ok fields
  | none => .error (.fault .array)

/-- `x + y`, in `long`s. -/
def addLong (x y : ℤ) : Except Leave ℤ :=
  if -longMax - 1 ≤ x + y ∧ x + y ≤ longMax then .ok (x + y) else .error (.fault .overflow)

/-- A loop over the lines of the output. -/
def overLines {σ : Type} (row : σ → List Byte → Except Leave σ) (output : List Byte) (s : σ) :
    Except Leave σ :=
  eachLine bufSize (.fault .starved) row (output.length + 1) output s

/-! ### `DeviceInfo_DiskSpaceTotal` -/

/-- The body of its loop, on `total`, `used` and `free`. -/
def totalRow (t : ℤ × ℤ × ℤ) (msg : List Byte) : Except Leave (ℤ × ℤ × ℤ) := do
  match ← scan [.skip, .long, .long, .long, .skip, .skip] msg with
  | [.long partitiontotal, .long partitionused, .long partitionfree] =>
    let total ← addLong t.1 partitiontotal
    let used ← addLong t.2.1 partitionused
    let free ← addLong t.2.2 partitionfree
    return (total, used, free)
  | _ => throw (.ret (chars "error"))

/-- `"%li,%li,%li"`. -/
def totalText (t : ℤ × ℤ × ℤ) : List Byte :=
  decimalInt t.1 ++ chars "," ++ decimalInt t.2.1 ++ chars "," ++ decimalInt t.2.2

/-- `fgets(msg, BUFSIZE, output)`, of which the line is discarded. -/
def discardLine (output : List Byte) : List Byte :=
  match fgets bufSize output with
  | none => output
  | some piece => output.drop piece.length

/-- `DeviceInfo_DiskSpaceTotal`; `none` is a `popen` that fails. -/
def diskSpaceTotal : Option (List Byte) → Except Fault (List Byte)
  | none => .ok (chars "error")
  | some output => returned do
    let t ← overLines totalRow (discardLine output) (0, 0, 0)
    strcat [] (totalText t)

/-! ### `DeviceInfo_DiskSpaceTable` -/

/-- What the table has for a row, behind `<Disk>`. -/
def rowTexts (filesystem blocks used available percentused mount : List Byte) :
    List (List Byte) :=
  [chars "<Filesystem>", filesystem, chars "</Filesystem>\n",
    chars "<Blocks>", blocks, chars "</Blocks>\n",
    chars "<Used>", used, chars "</Used>\n",
    chars "<Available>", available, chars "</Available>\n",
    chars "<Use>", percentused, chars "</Use>\n",
    chars "<Mounted_on>", mount, chars "</Mounted_on>\n",
    chars "</Disk>\n"]

/-- The body of its loop. -/
def tableRow (payload msg : List Byte) : Except Leave (List Byte) := do
  let payload ← strcat payload (chars "<Disk>\n")
  match ← scan [.str 200, .str 30, .str 30, .str 30, .str 30, .str 200] msg with
  | [.str filesystem, .str blocks, .str used, .str available, .str percentused, .str mount] =>
    strcats payload (rowTexts filesystem blocks used available percentused mount)
  | _ => throw (.ret (chars "error"))

/-- The text in front of the rows. -/
def tableHeader : List Byte := chars "<?xml version='1.0' ?>\n" ++ chars "<Disks>\n"

/-- The text behind the rows. -/
def tableFooter : List Byte := chars "</Disks>\n"

/-- `DeviceInfo_DiskSpaceTable`. -/
def diskSpaceTable : Option (List Byte) → Except Fault (List Byte)
  | none => .ok (chars "error")
  | some output => returned do
    let payload ← strcats [] [chars "<?xml version='1.0' ?>\n", chars "<Disks>\n"]
    let payload ← overLines tableRow output payload
    strcat payload tableFooter

/-! ### `DeviceInfo_DiskSpacePercentages` -/

/-- The body of its loop. -/
def percentagesRow (payload msg : List Byte) : Except Leave (List Byte) := do
  match ← scan [.skip, .skip, .skip, .skip, .str 10, .str 100] msg with
  | [.str percentused, .str mount] =>
    strcats payload [mount, chars ",", percentused, chars ","]
  | _ => throw (.ret (chars "sscanf error"))

/-- `DeviceInfo_DiskSpacePercentages`. -/
def diskSpacePercentages : Option (List Byte) → Except Fault (List Byte)
  | none => .ok (chars "error")
  | some output => returned (overLines percentagesRow output [])

/-! ## Strings -/

theorem strcats_eq (texts : List (List Byte)) {payload : List Byte}
    (h : payload.length < xmlSize) :
    strcats payload texts =
      if payload.length + texts.flatten.length < xmlSize then .ok (payload ++ texts.flatten)
      else .error (.fault .payload) := by
  induction texts generalizing payload with
  | nil => simp [strcats, h]; rfl
  | cons text texts ih =>
    rw [List.flatten_cons, List.length_append]
    show (strcat payload text >>= fun payload => strcats payload texts) = _
    rw [strcat]
    by_cases hfits : payload.length + text.length < xmlSize
    · rw [if_pos hfits, ok_bind, ih (by rw [List.length_append]; exact hfits), List.length_append,
        Nat.add_assoc, List.append_assoc]
    · rw [if_neg hfits, if_neg (by omega), error_bind]

/-- What the lines put in `msg`. -/
def msgsOf (output : List Byte) : List (List Byte) := pieces bufSize (output.length + 1) output

theorem overLines_eq {σ : Type} (row : σ → List Byte → Except Leave σ) (output : List Byte)
    (s : σ) : overLines row output s = (msgsOf output).foldlM row s :=
  eachLine_eq (by decide) _ row output (Nat.lt_succ_self _) s

theorem length_msg {output msg : List Byte} (h : msg ∈ msgsOf output) : msg.length < bufSize := by
  have hle := length_pieces (show 2 ≤ bufSize by decide) h
  have hbuf : bufSize = 100 := rfl
  omega

/-- A line that fits the buffer with its newline. -/
structure Short (line : List Byte) : Prop where
  noNewline : (10 : Byte) ∉ line
  noNul : (0 : Byte) ∉ line
  short : line.length < bufSize - 1

instance (line : List Byte) : Decidable (Short line) :=
  decidable_of_iff ((10 : Byte) ∉ line ∧ (0 : Byte) ∉ line ∧ line.length < bufSize - 1)
    ⟨fun h => ⟨h.1, h.2.1, h.2.2⟩, fun h => ⟨h.noNewline, h.noNul, h.short⟩⟩

/-- Short lines are read one after the other. -/
theorem msgsOf_fileOf {lines : List (List Byte)} (h : ∀ line ∈ lines, Short line) :
    msgsOf (fileOf lines []) = lines.map (· ++ [10]) := by
  have hpieces : Pieces bufSize (linesOf lines []) (fileOf lines []) := by
    refine pieces_fileOf (fun line hline => ⟨(h line hline).noNewline, ?_⟩) (by simp) (by decide)
    have := (h line hline).short
    omega
  rw [linesOf, if_pos rfl, List.append_nil] at hpieces
  rw [msgsOf, pieces_eq hpieces (Nat.lt_succ_of_le (hpieces.length_le (by decide))), List.map_map]
  refine List.map_congr_left fun line hline => cstr_noNul fun h0 => ?_
  obtain h0 | h0 := List.mem_append.mp h0
  · exact (h line hline).noNul h0
  · exact absurd (List.mem_singleton.mp h0) (by decide)

/-! ## What a line does to the report -/

/-- A loop that appends to the report: it appends `before` bytes, scans the line into arrays and
    appends the text of the words; where there are not enough words it returns `message`. -/
structure Appends where
  before : ℕ
  skipped : ℕ
  arrays : List ℕ
  text : List (List Byte) → Option (List Byte)
  message : List Byte
  before_le : ∀ ws t, text ws = some t → before ≤ t.length

/-- The words of a line from the first that is stored. -/
def Appends.stored (e : Appends) (msg : List Byte) : List (List Byte) := (words msg).drop e.skipped

/-- The body of the loop. -/
def Appends.row (e : Appends) (payload msg : List Byte) : Except Leave (List Byte) :=
  if payload.length + e.before < xmlSize then
    if WordsFit e.arrays (e.stored msg) then
      match e.text (e.stored msg) with
      | none => .error (.ret e.message)
      | some t =>
        if payload.length + t.length < xmlSize then .ok (payload ++ t) else .error (.fault .payload)
    else .error (.fault .array)
  else .error (.fault .payload)

/-- What the table has for a line. -/
def tableText : List (List Byte) → Option (List Byte)
  | filesystem :: blocks :: used :: available :: percentused :: mount :: _ =>
    some (chars "<Disk>\n" ++
      (rowTexts filesystem blocks used available percentused mount).flatten)
  | _ => none

/-- The loop of `DeviceInfo_DiskSpaceTable`. -/
def tableAppends : Appends where
  before := (chars "<Disk>\n").length
  skipped := 0
  arrays := [200, 30, 30, 30, 30, 200]
  text := tableText
  message := chars "error"
  before_le ws t h := by
    unfold tableText at h
    split at h
    · obtain rfl := Option.some.inj h
      rw [List.length_append]
      omega
    · cases h

/-- What `DeviceInfo_DiskSpacePercentages` has for a line, from its fifth word. -/
def percentagesText : List (List Byte) → Option (List Byte)
  | percentused :: mount :: _ => some [mount, chars ",", percentused, chars ","].flatten
  | _ => none

/-- The loop of `DeviceInfo_DiskSpacePercentages`. -/
def percentagesAppends : Appends where
  before := 0
  skipped := 4
  arrays := [10, 100]
  text := percentagesText
  message := chars "sscanf error"
  before_le _ _ _ := Nat.zero_le _

theorem scan_strs (k : ℕ) (sizes : List ℕ) (msg : List Byte) :
    scan (List.replicate k .skip ++ sizes.map .str) msg =
      if WordsFit sizes ((words msg).drop k) then
        .ok ((((words msg).drop k).take sizes.length).map .str)
      else .error (.fault .array) := by
  rw [scan, sscanf_strs]
  split
  next heq =>
    split at heq
    · rw [Option.some.inj heq, if_pos ‹_›]
    · cases heq
  next heq =>
    split at heq
    · cases heq
    · rw [if_neg ‹_›]

theorem tableRow_eq (payload msg : List Byte) :
    tableRow payload msg = tableAppends.row payload msg := by
  have hscan : scan [.str 200, .str 30, .str 30, .str 30, .str 30, .str 200] msg =
      if WordsFit tableAppends.arrays (tableAppends.stored msg) then
        .ok (((tableAppends.stored msg).take 6).map .str)
      else .error (.fault .array) := scan_strs 0 [200, 30, 30, 30, 30, 200] msg
  rw [tableRow, Appends.row, strcat]
  by_cases hroom : payload.length + tableAppends.before < xmlSize
  · rw [if_pos hroom, if_pos (show payload.length + (chars "<Disk>\n").length < xmlSize from hroom),
      ok_bind, hscan]
    by_cases hfit : WordsFit tableAppends.arrays (tableAppends.stored msg)
    · rw [if_pos hfit, if_pos hfit]
      generalize tableAppends.stored msg = ws
      match ws with
      | filesystem :: blocks :: used :: available :: percentused :: mount :: ws =>
        show strcats (payload ++ chars "<Disk>\n") _ = _
        rw [strcats_eq _ (by rw [List.length_append]; exact hroom), List.length_append,
          Nat.add_assoc, List.append_assoc, ← List.length_append]
        rfl
      | [] | [_] | [_, _] | [_, _, _] | [_, _, _, _] | [_, _, _, _, _] => rfl
    · rw [if_neg hfit, if_neg hfit]
      rfl
  · rw [if_neg hroom, if_neg (show ¬ payload.length +
      (chars "<Disk>\n").length < xmlSize from hroom)]
    rfl

theorem percentagesRow_eq {payload : List Byte} (hpayload : payload.length < xmlSize)
    (msg : List Byte) : percentagesRow payload msg = percentagesAppends.row payload msg := by
  have hscan : scan [.skip, .skip, .skip, .skip, .str 10, .str 100] msg =
      if WordsFit percentagesAppends.arrays (percentagesAppends.stored msg) then
        .ok (((percentagesAppends.stored msg).take 2).map .str)
      else .error (.fault .array) := scan_strs 4 [10, 100] msg
  rw [percentagesRow, Appends.row, hscan,
    if_pos (show payload.length + percentagesAppends.before < xmlSize from hpayload)]
  by_cases hfit : WordsFit percentagesAppends.arrays (percentagesAppends.stored msg)
  · rw [if_pos hfit, if_pos hfit]
    generalize percentagesAppends.stored msg = ws
    match ws with
    | percentused :: mount :: ws =>
      show strcats payload _ = _
      rw [strcats_eq _ hpayload]
      rfl
    | [] | [_] => rfl
  · rw [if_neg hfit, if_neg hfit]
    rfl

end CompatSuva.DeviceInfo
