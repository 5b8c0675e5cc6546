import CompatSuva.Software.Cobalt

/-!
# Creating the package list

Model of `Software_CreatePackageList` (`Software.c` lines 47–181). It writes `packages.xml.new`,
with an element for each line of a listing, and renames it at the end. For a system with RPMs,
another command is run for each line, and its output is scanned. Streams are opened with `fopen` and
`popen`; not every return closes them, and `pclose` is also called with what is no stream.

* `rpmRound_cases`: what a round of the loop does;
* `rpmOk_iff`: which outputs of the command are scanned;
* `packageList_iff`: when the list is replaced as a whole or not at all, with each stream closed
  once.
-/

namespace CompatSuva.Software

open CompatSuva.Common CompatSuva.Scl

/-! ## Model -/

/-- Undefined behaviour: in parsing a line, a command that does not fit `command`, a string that
    does not fit its array, a `line1` without NUL, a `pclose` of no stream; `starved` does not
    happen. -/
inductive ListFault where
  | parse (f : Fault)
  | command
  | array
  | line1
  | stream
  | starved
  deriving DecidableEq, Repr

/-- The streams: `package_xml`, `package_list`, and `package_info` in a round. -/
inductive Stream where
  | xml
  | list
  | info (round : ℕ)
  deriving DecidableEq, Repr

/-- What is done with them. -/
inductive Event where
  | opened (s : Stream)
  | closed (s : Stream)
  deriving DecidableEq, Repr

/-- What is found about an RPM. -/
structure Fields where
  name : List Byte
  version : List Byte
  release : List Byte
  size : List Byte
  summary : List Byte
  deriving DecidableEq, Repr

/-- A part of the document. -/
inductive Part where
  | header (thedate : List Byte)
  | rpm (p : Fields)
  | cobalt (p : Entry)
  | trailer
  deriving DecidableEq, Repr

/-- A line of an element. -/
def tag (name : String) (value : List Byte) : List Byte :=
  chars "   <" ++ chars name ++ chars ">" ++ value ++ chars "</" ++ chars name ++ chars ">\n"

/-- What `fprintf` writes for it. -/
def Part.text : Part → List Byte
  | .header thedate =>
    chars "<?xml version='1.0' ?>\n" ++ chars "<Software>\n" ++ chars " <Date>" ++ thedate ++
      chars "</Date>\n" ++ chars " <Packages>\n"
  | .rpm p =>
    chars "  <Package>\n" ++ tag "Name" p.name ++ tag "Version" p.version ++
      tag "Release" p.release ++ tag "Size" p.size ++ tag "Summary" p.summary ++
      chars "  </Package>\n"
  | .cobalt p =>
    chars "  <Package>\n" ++ tag "Name" p.name ++ tag "Version" p.version ++
      tag "Release" p.release ++ chars "  </Package>\n"
  | .trailer => chars " </Packages>\n" ++ chars "</Software>"

/-- What the system gives: the date; whether `packages.xml.new` is opened; what the listing and the
    command of each round output, `none` being a `popen` that fails; and what is in `line` and
    `line1` at first. -/
structure Env where
  thedate : List Byte
  fopen : Bool
  listing : Option (List Byte)
  info : ℕ → Option (List Byte)
  line : List Byte
  line1 : List Byte

/-- How the function is left before its end. -/
inductive Leave where
  | ret (value : ℤ) (log : List Event)
  | fault (f : ListFault)

/-- The variables; `packageList` is not set at first. -/
structure Vars where
  log : List Event
  xml : List Part
  round : ℕ
  line1 : List Byte
  packageList : Option Stream

/-- What the function returns; what it puts in the place of `packages.xml`, if it does; and what it
    did with streams. -/
structure Outcome where
  ret : ℤ
  packagesXml : Option (List Part)
  log : List Event
  deriving DecidableEq, Repr

/-- The text that is put in the place of `packages.xml`. -/
def Outcome.file (o : Outcome) : Option (List Byte) :=
  o.packagesXml.map fun parts => parts.flatMap Part.text

/-- `command`, for a line. -/
def queryCommand (line : List Byte) : Except Leave (List Byte) :=
  let command := chars "/bin/rpm -q --queryformat " ++
    chars "\"%\x7bNAME\x7d\t%\x7bVERSION\x7d\t%\x7bRELEASE\x7d\t%\x7bSIZE\x7d\t%\x7bSUMMARY\x7d\n\" " ++
    line
  if command.length < 200 then .ok command else .error (.fault .command)

/-- `%s` several times, into arrays of these sizes: the words, and what is behind them. -/
def scanWords : List ℕ → List Byte → Except Leave (List (List Byte) × List Byte)
  | [], s => .ok ([], s)
  | size :: sizes, s =>
    match scanStr s with
    | none => .ok ([], [])
    | some (word, rest) =>
      if word.length < size then do
        let (ws, rest) ← scanWords sizes rest
        return (word :: ws, rest)
      else .error (.fault .array)

/-- `sscanf(line1, "%s\t%s\t%s\t%s\t%[^\n]s", …)`; `none` is a result that is not 5. -/
def scanInfo (line1 : List Byte) : Except Leave (Option Fields) := do
  match ← scanWords [100, 100, 20, 20] line1 with
  | ([name, version, release, size], rest) =>
    let summary := (rest.dropWhile isSpace).takeWhile (· ≠ 10)
    if summary = [] then return none
    else if summary.length < 500 then return some ⟨name, version, release, size, summary⟩
    else throw (.fault .array)
  | _ => return none

/-- `fgets(line1, BUFSIZE, package_info)`. -/
def readInfo (line1 output : List Byte) : List Byte :=
  match fgets lineSize output with
  | none => line1
  | some piece => store line1 piece

/-- A round of the loop over the RPMs (lines 77–97). -/
def rpmRound (env : Env) (v : Vars) (piece : List Byte) : Except Leave Vars := do
  let _ ← queryCommand (cstr piece)
  match env.info v.round with
  | none => throw (.fault .stream)
  | some output =>
    let log := v.log ++ [.opened (.info v.round)]
    let line1 := readInfo v.line1 output
    let text ← stringAt (.fault .line1) line1 0
    match ← scanInfo text with
    | none => throw (.ret (-1) log)
    | some p =>
      return { v with
        log := log ++ [.closed (.info v.round)], xml := v.xml ++ [.rpm p], round := v.round + 1,
        line1 := line1 }

/-- `package_list = popen(…)`. -/
def openList (env : Env) (v : Vars) : Except Leave (List Byte × Vars) :=
  match env.listing with
  | none => .error (.ret (-1) v.log)
  | some listing =>
    .ok (listing, { v with log := v.log ++ [.opened .list], packageList := some .list })

/-- The branch for systems with RPMs. -/
def rpmBranch (env : Env) (devicetype : ℤ) (v : Vars) : Except Leave Vars :=
  if 1000 ≤ devicetype ∧ devicetype < 2000 then do
    let (listing, v) ← openList env v
    eachPiece lineSize (.fault .starved) (rpmRound env) (listing.length + 1) listing v
  else .ok v

/-- The branch for Cobalt systems. -/
def cobaltBranch (env : Env) (devicetype : ℤ) (v : Vars) : Except Leave Vars :=
  if 2000 ≤ devicetype ∧ devicetype < 3000 then do
    let (listing, v) ← openList env v
    match cobaltLoop listing env.line with
    | .error f => throw (.fault (.parse f))
    | .ok (_, entries) => return { v with xml := v.xml ++ entries.map .cobalt }
  else .ok v

/-- The end of the function (lines 175–180). -/
def ending (v : Vars) : Except Leave Outcome :=
  match v.packageList with
  | none => .error (.fault .stream)
  | some stream =>
    .ok ⟨0, some (v.xml ++ [.trailer]), v.log ++ [.closed stream, .closed .xml]⟩

/-- The function, once left. -/
def returned : Except Leave Outcome → Except ListFault Outcome
  | .ok o => .ok o
  | .error (.ret value log) => .ok ⟨value, none, log⟩
  | .error (.fault f) => .error f

/-- `Software_CreatePackageList`. -/
def createPackageList (env : Env) (devicetype : ℤ) : Except ListFault Outcome :=
  returned
    (if env.fopen then do
      let v ← rpmBranch env devicetype ⟨[.opened .xml], [.header env.thedate], 0, env.line1, none⟩
      let v ← cobaltBranch env devicetype v
      ending v
    else throw (.ret (-1) []))

/-! ## What is asked of it -/

/-- The output of the command of a round has this. -/
def InfoIs (env : Env) (round : ℕ) (p : Fields) : Prop :=
  ∃ output piece, env.info round = some output ∧ fgets lineSize output = some piece ∧
    scanInfo (cstr piece) = .ok (some p)

/-- The part is the element of a line of the listing. -/
def Describes (env : Env) (devicetype : ℤ) (round : ℕ) (line : List Byte) : Part → Prop
  | .header _ => False
  | .rpm p => (1000 ≤ devicetype ∧ devicetype < 2000) ∧ InfoIs env round p
  | .cobalt e =>
    (2000 ≤ devicetype ∧ devicetype < 3000) ∧ ∃ line', cobaltLine (line ++ [0]) = .ok (line', e)
  | .trailer => False

/-- One element for each line. -/
def OneForEach (env : Env) (devicetype : ℤ) (lines : List (List Byte)) (parts : List Part) : Prop :=
  parts.length = lines.length ∧ ∀ round line part, lines[round]? = some line →
    parts[round]? = some part → Describes env devicetype round line part

/-- The whole list, or none. -/
def Replaced (env : Env) (devicetype : ℤ) (o : Outcome) : Prop :=
  (o.ret = 0 ∧ ∃ listing parts, env.listing = some listing ∧
    OneForEach env devicetype (fileLines listing) parts ∧
      o.packagesXml = some (.header env.thedate :: parts ++ [.trailer])) ∨
  o.ret = -1 ∧ o.packagesXml = none

/-- Each stream that was opened is closed once, and no other is. -/
def Closed (log : List Event) : Prop :=
  ∀ s, log.count (.closed s) = if .opened s ∈ log then 1 else 0

/-- All or nothing, with the streams closed. -/
def AllOrNothing (env : Env) (devicetype : ℤ) : Prop :=
  ∃ o, createPackageList env devicetype = .ok o ∧ Replaced env devicetype o ∧ Closed o.log

/-- The command for an RPM fits its array, and is run, and the first line of its output has five
    words, of which four fit their arrays. -/
def RpmOk (env : Env) (round : ℕ) (line : List Byte) : Prop :=
  (cstr line).length < 122 ∧ ∃ output piece, env.info round = some output ∧
    fgets lineSize output = some piece ∧ 5 ≤ (words (cstr piece)).length ∧
      WordsFit [100, 100, 20, 20] (words (cstr piece))

/-- The line of a Cobalt package is parsed. -/
def CobaltOk (line : List Byte) : Prop := TextOk (cstr line) ∧ 16 ≤ line.length

/-- `packages.xml.new` is not opened; or it is, and the listing, and the type is known, and all
    lines fit the buffer and are good. -/
def ListOk (env : Env) (devicetype : ℤ) : Prop :=
  env.fopen = false ∨ ∃ listing, env.listing = some listing ∧
    (∀ line ∈ fileLines listing, line.length < lineSize) ∧
    ((1000 ≤ devicetype ∧ devicetype < 2000) ∧
        (∀ round line, (fileLines listing)[round]? = some line → RpmOk env round line) ∨
      (2000 ≤ devicetype ∧ devicetype < 3000) ∧ ∀ line ∈ fileLines listing, CobaltOk line)

/-! ## A round -/

variable {env : Env} {devicetype : ℤ} {v v' : Vars} {piece : List Byte}

/-- The log of a round. -/
def roundLog (round : ℕ) : List Event := [.opened (.info round), .closed (.info round)]

theorem queryCommand_iff (line : List Byte) :
    (∃ command, queryCommand line = .ok command) ↔ line.length < 122 := by
  have hlength (start : List Byte) (hstart : start.length = 78) :
      (start ++ line).length < 200 ↔ line.length < 122 := by
    rw [List.length_append]
    omega
  rw [queryCommand]
  split
  next hlt => exact iff_of_true ⟨_, rfl⟩ ((hlength _ rfl).mp hlt)
  next hlt => exact iff_of_false (fun ⟨_, h⟩ => nomatch h) fun h => hlt ((hlength _ rfl).mpr h)

theorem queryCommand_cases (line : List Byte) :
    (∃ command, queryCommand line = .ok command) ∨
      queryCommand line = .error (.fault .command) := by
  unfold queryCommand
  dsimp only
  split
  · exact .inl ⟨_, rfl⟩
  · exact .inr rfl

/-- The words that are scanned, if they fit. -/
theorem scanWords_eq (sizes : List ℕ) (s : List Byte) :
    ∃ rest : List Byte, rest.length ≤ s.length ∧ words rest = (words s).drop sizes.length ∧
      scanWords sizes s =
        if WordsFit sizes (words s) then .ok ((words s).take sizes.length, rest)
        else .error (.fault .array) := by
  induction sizes generalizing s with
  | nil => exact ⟨s, Nat.le_refl _, rfl, by simp [WordsFit, scanWords]⟩
  | cons size sizes ih =>
    rw [scanWords]
    cases hscan : scanStr s with
    | none =>
      have hnil : words [] = [] := words_none rfl
      exact ⟨[], Nat.zero_le _, by simp [words_none hscan, hnil],
        by simp [words_none hscan, WordsFit]⟩
    | some r =>
      obtain ⟨word, rest⟩ := r
      obtain ⟨rest', hlength, hwords, heq⟩ := ih rest
      have hle := (length_scanStr hscan).1
      refine ⟨rest', by omega, ?_, ?_⟩
      · rw [hwords, words_some hscan, List.length_cons, List.drop_succ_cons]
      · simp only [words_some hscan, WordsFit, heq, List.length_cons, List.take_succ_cons]
        by_cases hword : word.length < size
        · by_cases hrest : WordsFit sizes (words rest)
          · simp only [if_pos hword, if_pos hrest, if_pos (And.intro hword hrest)]
            rfl
          · simp only [if_pos hword, if_neg hrest, if_neg fun h : _ ∧ _ => hrest h.2]
            rfl
        · simp only [if_neg hword, if_neg fun h : _ ∧ _ => hword h.1]

/-- What is behind the white space, up to the newline. -/
theorem summary_eq_nil {s : List Byte} :
    (s.dropWhile isSpace).takeWhile (· ≠ 10) = [] ↔ words s = [] := by
  cases hscan : scanStr s with
  | none =>
    refine iff_of_true ?_ (words_none hscan)
    rw [scanStr] at hscan
    split at hscan
    next hnil => rw [hnil]; rfl
    next => cases hscan
  | some r =>
    refine iff_of_false (fun hnil => ?_) (by simp [words_some hscan])
    rw [scanStr] at hscan
    split at hscan
    next => cases hscan
    next b bs hdrop =>
      have hb : isSpace b = false := by
        have hhead := List.head?_dropWhile_not isSpace s
        rw [hdrop] at hhead
        simpa using hhead
      have h10 : b ≠ 10 := fun h => by
        rw [h] at hb
        exact absurd hb (by decide)
      rw [hdrop, List.takeWhile_cons_of_pos (by simpa using h10)] at hnil
      cases hnil

theorem scanInfo_iff {s : List Byte} (hs : s.length < 500) :
    (∃ p, scanInfo s = .ok (some p)) ↔
      5 ≤ (words s).length ∧ WordsFit [100, 100, 20, 20] (words s) := by
  obtain ⟨rest, hlength, hwords, heq⟩ := scanWords_eq [100, 100, 20, 20] s
  rw [scanInfo, heq]
  by_cases hfits : WordsFit [100, 100, 20, 20] (words s)
  swap
  · rw [if_neg hfits]
    exact iff_of_false (fun ⟨_, h⟩ => nomatch h) fun h => hfits h.2
  rw [if_pos hfits, ok_bind, and_iff_left hfits]
  generalize words s = ws at hwords ⊢
  match ws with
  | [] => exact iff_of_false (fun ⟨_, h⟩ => nomatch h) (by decide)
  | [_] => exact iff_of_false (fun ⟨_, h⟩ => nomatch h) (by simp)
  | [_, _] => exact iff_of_false (fun ⟨_, h⟩ => nomatch h) (by simp)
  | [_, _, _] => exact iff_of_false (fun ⟨_, h⟩ => nomatch h) (by simp)
  | name :: version :: release :: size :: ws =>
    have hsummary : ((rest.dropWhile isSpace).takeWhile (· ≠ 10)).length < 500 := by
      have htake := (List.takeWhile_sublist (· ≠ (10 : Byte))
          (l := rest.dropWhile isSpace)).length_le
      have hdrop := List.length_dropWhile_le isSpace rest
      omega
    have hws : words rest = ws := hwords
    simp only [List.take_succ_cons, List.length_cons, List.length_nil, List.take_zero]
    by_cases hnil : (rest.dropWhile isSpace).takeWhile (· ≠ 10) = []
    · rw [if_pos hnil]
      rw [summary_eq_nil, hws] at hnil
      exact iff_of_false (fun ⟨_, h⟩ => nomatch h) (by simp [hnil])
    · rw [if_neg hnil, if_pos hsummary]
      rw [summary_eq_nil, hws] at hnil
      have hpos := List.length_pos_iff.mpr hnil
      exact iff_of_true ⟨_, rfl⟩ (by omega)

/-- In terms of the code. -/
theorem rpmOk_iff {round : ℕ} {line : List Byte} :
    RpmOk env round line ↔
      (∃ command, queryCommand (cstr line) = .ok command) ∧ ∃ p, InfoIs env round p := by
  have hshort {output piece : List Byte} (h : fgets lineSize output = some piece) :
      (cstr piece).length < 500 := by
    have hcstr : (cstr piece).length ≤ piece.length := (List.takeWhile_sublist _).length_le
    have htake := length_takeLine_le (lineSize - 1) output
    rw [(fgets_eq_some h).2] at htake
    have hsize : lineSize = 500 := rfl
    omega
  rw [RpmOk, queryCommand_iff]
  refine and_congr_right fun _ => ⟨?_, ?_⟩
  · rintro ⟨output, piece, hinfo, hfgets, hwords⟩
    obtain ⟨p, hp⟩ := (scanInfo_iff (hshort hfgets)).mpr hwords
    exact ⟨p, output, piece, hinfo, hfgets, hp⟩
  · rintro ⟨p, output, piece, hinfo, hfgets, hp⟩
    exact ⟨output, piece, hinfo, hfgets, (scanInfo_iff (hshort hfgets)).mp ⟨p, hp⟩⟩

theorem scanWords_error {sizes : List ℕ} {s : List Byte} {e : Leave}
    (h : scanWords sizes s = .error e) : e = .fault .array := by
  induction sizes generalizing s with
  | nil => cases h
  | cons size sizes ih =>
    rw [scanWords] at h
    split at h
    · cases h
    · split at h
      · cases hrest : scanWords sizes _ with
        | error e' =>
          rw [hrest] at h
          cases h
          exact ih hrest
        | ok r =>
          rw [hrest] at h
          cases h
      · cases h
        rfl

theorem scanInfo_error {s : List Byte} {e : Leave} (h : scanInfo s = .error e) :
    e = .fault .array := by
  rw [scanInfo] at h
  cases hwords : scanWords [100, 100, 20, 20] s with
  | error e' =>
    rw [hwords] at h
    cases h
    exact scanWords_error hwords
  | ok r =>
    rw [hwords, ok_bind] at h
    split at h
    · dsimp only at h
      split at h
      · cases h
      · split at h
        · cases h
        · cases h
          rfl
    · cases h

/-- What a round does: undefined behaviour; a return with the output of the command open; or an
    element. -/
theorem rpmRound_cases (env : Env) (v : Vars) (piece : List Byte) :
    (∃ f, rpmRound env v piece = .error (.fault f)) ∨
    rpmRound env v piece = .error (.ret (-1) (v.log ++ [.opened (.info v.round)])) ∨
    ∃ p line1, rpmRound env v piece =
        .ok { v with
          log := v.log ++ roundLog v.round, xml := v.xml ++ [.rpm p], round := v.round + 1,
          line1 := line1 } ∧
      ∃ command, queryCommand (cstr piece) = .ok command := by
  rw [rpmRound]
  obtain ⟨command, hcommand⟩ | hcommand := queryCommand_cases (cstr piece)
  swap
  · exact .inl ⟨_, by rw [hcommand]; rfl⟩
  rw [hcommand, ok_bind]
  cases hinfo : env.info v.round with
  | none => exact .inl ⟨_, rfl⟩
  | some output =>
    dsimp only
    rw [stringAt]
    split
    swap
    · exact .inl ⟨_, rfl⟩
    rw [ok_bind]
    cases hscan : scanInfo (cstr ((readInfo v.line1 output).drop 0)) with
    | error e =>
      rw [scanInfo_error hscan]
      exact .inl ⟨_, rfl⟩
    | ok r =>
      cases r with
      | none => exact .inr (.inl rfl)
      | some p =>
        refine .inr (.inr ⟨p, readInfo v.line1 output, ?_, command, rfl⟩)
        rw [ok_bind, List.append_assoc]
        rfl

/-- A round that has what it needs. -/
theorem rpmRound_ok (h : RpmOk env v.round piece) :
    ∃ p line1, InfoIs env v.round p ∧ rpmRound env v piece =
      .ok { v with
        log := v.log ++ roundLog v.round, xml := v.xml ++ [.rpm p], round := v.round + 1,
        line1 := line1 } := by
  obtain ⟨⟨command, hcommand⟩, p, hp⟩ := rpmOk_iff.mp h
  obtain ⟨output, info, hinfo, hfgets, hscan⟩ := id hp
  have hread : readInfo v.line1 output = store v.line1 info := by rw [readInfo, hfgets]
  have htext : stringAt (.fault .line1) (store v.line1 info) 0 =
      (.ok (cstr info) : Except Leave _) := by
    rw [stringAt, List.drop_zero, if_pos (by simp [store]), store, cstr_append_cons]
  refine ⟨p, store v.line1 info, hp, ?_⟩
  simp only [rpmRound, hcommand, hinfo, ok_bind, hread, htext, hscan]
  rw [List.append_assoc]
  rfl

/-! ## The loop -/

/-- The log of rounds from one on. -/
def roundsLog (round n : ℕ) : List Event := (List.range' round n).flatMap roundLog

/-- Rounds that have what they need. -/
theorem rpmRounds_ok {lines : List (List Byte)}
    (h : ∀ i line, lines[i]? = some line → RpmOk env (v.round + i) line) :
    ∃ (ps : List Fields) (line1 : List Byte),
      ps.length = lines.length ∧
      (∀ i p, ps[i]? = some p → InfoIs env (v.round + i) p) ∧
      lines.foldlM (rpmRound env) v =
        .ok { v with
          log := v.log ++ roundsLog v.round lines.length, xml := v.xml ++ ps.map .rpm,
          round := v.round + lines.length, line1 := line1 } := by
  induction lines generalizing v with
  | nil => exact ⟨[], v.line1, rfl, fun i p hp => by simp at hp, by simp [roundsLog]; rfl⟩
  | cons line lines ih =>
    obtain ⟨p, line1, hp, hround⟩ := rpmRound_ok (h 0 line rfl)
    obtain ⟨ps, line1', hlength, hps, hrest⟩ := ih (v := { v with
      log := v.log ++ roundLog v.round, xml := v.xml ++ [.rpm p], round := v.round + 1,
      line1 := line1 }) fun i line' hi => by
        have := h (i + 1) line' hi
        rwa [show v.round + (i + 1) = v.round + 1 + i by omega] at this
    refine ⟨p :: ps, line1', by simp [hlength], fun i q hq => ?_, ?_⟩
    · cases i with
      | zero =>
        cases hq
        exact hp
      | succ i =>
        have := hps i q hq
        rwa [show v.round + (i + 1) = v.round + 1 + i by omega]
    · rw [List.foldlM_cons, hround, ok_bind, hrest]
      simp only [roundsLog, List.length_cons, List.range'_succ, List.flatMap_cons,
        List.append_assoc, List.map_cons, List.singleton_append, Nat.add_assoc, Nat.add_comm 1]

/-- Rounds that come to an end. -/
theorem rpmRounds_done {lines : List (List Byte)} (h : lines.foldlM (rpmRound env) v = .ok v') :
    ∃ ps : List Fields, ps.length = lines.length ∧ v'.xml = v.xml ++ ps.map .rpm ∧
      v'.packageList = v.packageList ∧
      ∀ line ∈ lines, ∃ command, queryCommand (cstr line) = .ok command := by
  induction lines generalizing v with
  | nil =>
    cases h
    exact ⟨[], rfl, by simp, rfl, fun _ hl => absurd hl List.not_mem_nil⟩
  | cons line lines ih =>
    obtain ⟨v₁, hround, hrest⟩ := bind_eq_ok.mp h
    obtain ⟨ps, hlength, hxml, hlist, hcommands⟩ := ih hrest
    obtain ⟨f, hf⟩ | hret | ⟨p, line1, heq, hcommand⟩ := rpmRound_cases env v line
    · rw [hf] at hround
      cases hround
    · rw [hret] at hround
      cases hround
    · rw [heq] at hround
      cases hround
      refine ⟨p :: ps, by simp [hlength], ?_, hlist, List.forall_mem_cons.mpr ⟨hcommand, hcommands⟩⟩
      rw [hxml, List.map_cons, List.append_assoc, List.singleton_append]

/-- Rounds that are left with a return: the list is still open. -/
theorem rpmRounds_left {lines : List (List Byte)} {value : ℤ} {log : List Event}
    (h : lines.foldlM (rpmRound env) v = .error (.ret value log))
    (hopened : .opened .xml ∈ v.log) (hclosed : .closed .xml ∉ v.log) :
    .opened .xml ∈ log ∧ .closed .xml ∉ log := by
  induction lines generalizing v with
  | nil => cases h
  | cons line lines ih =>
    rw [List.foldlM_cons] at h
    obtain ⟨f, hf⟩ | hret | ⟨p, line1, heq, -⟩ := rpmRound_cases env v line
    · rw [hf] at h
      cases h
    · rw [hret] at h
      cases h
      exact ⟨List.mem_append_left _ hopened, by simp [hclosed]⟩
    · rw [heq, ok_bind] at h
      exact ih h (List.mem_append_left _ hopened) (by simp [hclosed, roundLog])

theorem mem_roundsLog {e : Event} {n : ℕ} :
    e ∈ roundsLog 0 n ↔ ∃ k < n, e = .opened (.info k) ∨ e = .closed (.info k) := by
  simp only [roundsLog, roundLog, List.mem_flatMap, List.mem_range'_1, List.mem_cons,
    List.not_mem_nil, or_false, Nat.zero_le, true_and, Nat.zero_add]

theorem count_roundsLog (n k : ℕ) :
    (roundsLog 0 n).count (.closed (.info k)) = if k < n then 1 else 0 := by
  induction n with
  | zero => rfl
  | succ n ih =>
    have hround : (roundLog n).count (.closed (.info k)) = if n = k then 1 else 0 := by
      simp [roundLog, List.count_cons]
    have hsucc : roundsLog 0 (n + 1) = roundsLog 0 n ++ roundLog n := by
      rw [roundsLog, List.range'_1_concat, List.flatMap_append, Nat.zero_add,
        List.flatMap_singleton]
      rfl
    rw [hsucc, List.count_append, ih, hround]
    split_ifs <;> omega

/-- The log of a run with `n` rounds that goes through. -/
def fullLog (n : ℕ) : List Event :=
  [Event.opened .xml, Event.opened .list] ++ roundsLog 0 n ++
    [Event.closed .list, Event.closed .xml]

/-- With what is opened in the rounds, all is closed at the end. -/
theorem closed_fullLog (n : ℕ) : Closed (fullLog n) := by
  intro s
  unfold fullLog
  have hrest (s : Stream) (hs : ∀ k, s ≠ .info k) : (roundsLog 0 n).count (.closed s) = 0 := by
    rw [List.count_eq_zero, mem_roundsLog]
    rintro ⟨k, -, h | h⟩
    · cases h
    · exact hs k (Event.closed.inj h)
  rw [List.count_append, List.count_append]
  cases s with
  | xml => simp [hrest .xml fun k => by simp]
  | list => simp [hrest .list fun k => by simp]
  | info k =>
    rw [count_roundsLog]
    have hmem : Event.opened (.info k) ∈ roundsLog 0 n ↔ k < n := by simp [mem_roundsLog]
    simp [hmem]

/-! ## The list -/

/-- A return with `package_xml` open. -/
theorem not_closed {log : List Event} (hopened : .opened .xml ∈ log)
    (hclosed : .closed .xml ∉ log) :
    ¬ Closed log := fun h => by
  have hxml := h .xml
  rw [if_pos hopened, List.count_eq_zero.mpr hclosed] at hxml
  cases hxml

/-- The variables once the listing is run. -/
def Vars.listed (env : Env) : Vars :=
  ⟨[.opened .xml, .opened .list], [.header env.thedate], 0, env.line1, some .list⟩

/-- The loops, by the pieces of the listing. -/
theorem rpmBranch_eq {listing : List Byte} {ps : List (List Byte)}
    (hlisting : env.listing = some listing) (hps : Pieces lineSize ps listing)
    (htype : 1000 ≤ devicetype ∧ devicetype < 2000) :
    rpmBranch env devicetype ⟨[.opened .xml], [.header env.thedate], 0, env.line1, none⟩ =
      ps.foldlM (rpmRound env) (.listed env) := by
  have hlength := hps.length_le (by decide)
  rw [rpmBranch, if_pos htype, openList, hlisting]
  exact eachPiece_eq _ _ hps (by omega) _

theorem cobaltBranch_eq {listing : List Byte} {ps : List (List Byte)}
    (hlisting : env.listing = some listing) (hps : Pieces lineSize ps listing)
    (htype : 2000 ≤ devicetype ∧ devicetype < 3000) :
    cobaltBranch env devicetype ⟨[.opened .xml], [.header env.thedate], 0, env.line1, none⟩ =
      match ps.foldlM cobaltRound (env.line, []) with
      | .error f => .error (.fault (.parse f))
      | .ok (_, entries) =>
        .ok { Vars.listed env with xml := [.header env.thedate] ++ entries.map .cobalt } := by
  have hlength := hps.length_le (by decide)
  have hloop : cobaltLoop listing env.line = ps.foldlM cobaltRound (env.line, []) :=
    eachPiece_eq _ _ hps (by omega) _
  rw [← hloop, cobaltBranch, if_pos htype, openList, hlisting]
  rfl

/-- Rounds over lines that are parsed. -/
theorem cobaltRounds_ok {lines : List (List Byte)} (h : ∀ line ∈ lines, CobaltOk line)
    (line : List Byte) (entries : List Entry) :
    ∃ (line' : List Byte) (es : List Entry),
      lines.foldlM cobaltRound (line, entries) = .ok (line', entries ++ es) ∧
      es.length = lines.length ∧
      ∀ (i : ℕ) (l : List Byte) (e : Entry), lines[i]? = some l → es[i]? = some e →
        ∃ line', cobaltLine (l ++ [0]) = .ok (line', e) := by
  induction lines generalizing line entries with
  | nil => exact ⟨line, [], by simp; rfl, rfl, fun i l e hl => by simp at hl⟩
  | cons l lines ih =>
    obtain ⟨htext, hlength⟩ := h l List.mem_cons_self
    have hmem : (0 : Byte) ∈ (l ++ [0]).drop 16 := by
      rw [List.drop_append_of_le_length hlength]
      simp
    have hholds : Holds (l ++ [0]) (cstr l) := holds_store [] l
    obtain ⟨r, hr⟩ := (cobaltLine_ok_iff hholds).mpr ⟨htext, hmem⟩
    have hline := cobaltLine_frame (line.drop (l.length + 1)) (by simp) hr
    rw [List.append_assoc, List.singleton_append] at hline
    obtain ⟨line', es, hrest, hes, hall⟩ := ih (fun l' hl' => h l' (List.mem_cons_of_mem _ hl'))
      (r.1 ++ line.drop (l.length + 1)) (entries ++ [r.2])
    refine ⟨line', r.2 :: es, ?_, by simp [hes], fun i l' e hl' he => ?_⟩
    · rw [List.foldlM_cons, cobaltRound, store, hline, ok_bind]
      refine hrest.trans ?_
      rw [List.append_assoc, List.singleton_append]
    · cases i with
      | zero =>
        cases hl'
        cases he
        exact ⟨r.1, hr⟩
      | succ i => exact hall i l' e hl' he

/-- A listing of Cobalt packages that is good. -/
theorem allOrNothing_cobalt {listing : List Byte} (hfopen : env.fopen = true)
    (hlisting : env.listing = some listing)
    (hfits : ∀ line ∈ fileLines listing, line.length < lineSize)
    (htype : 2000 ≤ devicetype ∧ devicetype < 3000)
    (hok : ∀ line ∈ fileLines listing, CobaltOk line) :
    AllOrNothing env devicetype := by
  obtain ⟨line', es, hrounds, hlength, hall⟩ := cobaltRounds_ok hok env.line []
  have hrpm : rpmBranch env devicetype
      ⟨[.opened .xml], [.header env.thedate], 0, env.line1, none⟩ = .ok _ := if_neg (by omega)
  have hbranch := cobaltBranch_eq hlisting (pieces_fileLines hfits) htype
  rw [hrounds] at hbranch
  refine ⟨⟨0, some (Part.header env.thedate :: es.map Part.cobalt ++ [Part.trailer]), fullLog 0⟩,
    ?_, .inl ⟨rfl, listing, es.map .cobalt, hlisting, ⟨by rw [List.length_map, hlength], ?_⟩, rfl⟩,
    closed_fullLog 0⟩
  · rw [createPackageList, if_pos hfopen, hrpm, ok_bind, hbranch]
    rfl
  · intro round line part hline hpart
    rw [List.getElem?_map, Option.map_eq_some_iff] at hpart
    obtain ⟨e, he, rfl⟩ := hpart
    exact ⟨htype, hall round line e hline he⟩

/-- A listing of RPMs that is good. -/
theorem allOrNothing_rpm {listing : List Byte} (hfopen : env.fopen = true)
    (hlisting : env.listing = some listing)
    (hfits : ∀ line ∈ fileLines listing, line.length < lineSize)
    (htype : 1000 ≤ devicetype ∧ devicetype < 2000)
    (hok : ∀ round line, (fileLines listing)[round]? = some line → RpmOk env round line) :
    AllOrNothing env devicetype := by
  obtain ⟨ps, line1, hlength, hall, hrounds⟩ := rpmRounds_ok (v := .listed env)
    fun i line hline => by
      rw [show (Vars.listed env).round + i = i from Nat.zero_add i]
      exact hok i line hline
  have hbranch := rpmBranch_eq hlisting (pieces_fileLines hfits) htype
  rw [hrounds] at hbranch
  refine ⟨⟨0, some (Part.header env.thedate :: ps.map Part.rpm ++ [Part.trailer]),
    fullLog (fileLines listing).length⟩, ?_,
    .inl ⟨rfl, listing, ps.map .rpm, hlisting, ⟨by rw [List.length_map, hlength], ?_⟩, rfl⟩,
    closed_fullLog _⟩
  · rw [createPackageList, if_pos hfopen, hbranch, ok_bind, cobaltBranch, if_neg (by omega)]
    rfl
  · intro round line part hline hpart
    rw [List.getElem?_map, Option.map_eq_some_iff] at hpart
    obtain ⟨p, hp, rfl⟩ := hpart
    refine ⟨htype, ?_⟩
    have := hall round p hp
    rwa [show (Vars.listed env).round + round = round from Nat.zero_add round] at this

/-- A line of which a buffer that has only this line is parsed. -/
theorem cobaltOk_of_line {line : List Byte} {r : List Byte × Entry}
    (h : cobaltLine (line ++ [0]) = .ok r) : CobaltOk line := by
  have hholds : Holds (line ++ [0]) (cstr line) := holds_store [] line
  obtain ⟨htext, hmem⟩ := (cobaltLine_ok_iff hholds).mp ⟨r, h⟩
  refine ⟨htext, ?_⟩
  by_contra hlt
  rw [List.drop_of_length_le (by simp; omega)] at hmem
  exact List.not_mem_nil hmem

/-- What is put in the place of the list, without its first and its last part. -/
theorem parts_inj {thedate : List Byte} {parts parts' : List Part}
    (h : some (.header thedate :: parts ++ [.trailer]) =
      some (.header thedate :: parts' ++ [.trailer])) : parts = parts' := by
  simpa using h

/-- What is put in the place of the list has an element for each line. -/
theorem Replaced.oneForEach {o : Outcome} {parts : List Part} (h : Replaced env devicetype o)
    (hxml : o.packagesXml = some (.header env.thedate :: parts ++ [.trailer])) :
    ∃ listing, env.listing = some listing ∧
      OneForEach env devicetype (fileLines listing) parts := by
  obtain ⟨-, listing, parts', hlisting, heach, hxml'⟩ | ⟨-, hnone⟩ := h
  · obtain rfl := parts_inj (hxml.symm.trans hxml')
    exact ⟨listing, hlisting, heach⟩
  · rw [hnone] at hxml
    cases hxml

/-- A list that is replaced is a complete document. -/
theorem Replaced.file {o : Outcome} (h : Replaced env devicetype o) (hret : o.ret = 0) :
    ∃ listing parts, env.listing = some listing ∧
      OneForEach env devicetype (fileLines listing) parts ∧
      o.file = some ((Part.header env.thedate).text ++ parts.flatMap Part.text ++
        Part.trailer.text) := by
  obtain ⟨-, listing, parts, hlisting, heach, hxml⟩ | ⟨hret', -⟩ := h
  · refine ⟨listing, parts, hlisting, heach, ?_⟩
    rw [Outcome.file, hxml, Option.map_some, List.flatMap_append, List.flatMap_cons,
      List.flatMap_singleton]
  · rw [hret'] at hret
    cases hret

/-- The part of a line. -/
theorem OneForEach.part {lines : List (List Byte)} {parts : List Part} {round : ℕ}
    {line : List Byte}
    (h : OneForEach env devicetype lines parts) (hline : lines[round]? = some line) :
    ∃ part, parts[round]? = some part ∧ Describes env devicetype round line part := by
  have hlt : round < parts.length := h.1 ▸ (List.getElem?_eq_some_iff.mp hline).1
  exact ⟨parts[round], List.getElem?_eq_getElem hlt, h.2 round line _ hline
    (List.getElem?_eq_getElem hlt)⟩

/-- With an element for each piece of the listing, the pieces are its lines. -/
theorem Replaced.lines {o : Outcome} {parts : List Part} {listing : List Byte}
    {ps : List (List Byte)}
    (h : Replaced env devicetype o)
    (hxml : o.packagesXml = some (.header env.thedate :: parts ++ [.trailer]))
    (hlisting : env.listing = some listing) (hps : Pieces lineSize ps listing)
    (hlength : parts.length = ps.length) :
    ps = fileLines listing ∧ (∀ line ∈ fileLines listing, line.length < lineSize) ∧
      OneForEach env devicetype (fileLines listing) parts := by
  obtain ⟨listing', hlisting', heach⟩ := h.oneForEach hxml
  obtain rfl := Option.some.inj (hlisting.symm.trans hlisting')
  obtain ⟨hlines, hfits⟩ := hps.eq_fileLines (by decide) (hlength.symm.trans heach.1)
  exact ⟨hlines, hfits, heach⟩

theorem listOk_of_rpm (hfopen : env.fopen = true) (htype : 1000 ≤ devicetype ∧ devicetype < 2000)
    (h : AllOrNothing env devicetype) : ListOk env devicetype := by
  obtain ⟨o, hrun, hreplaced, hclosed⟩ := h
  rw [createPackageList, if_pos hfopen] at hrun
  cases hlisting : env.listing with
  | none =>
    rw [rpmBranch, if_pos htype, openList, hlisting] at hrun
    cases hrun
    exact absurd hclosed (not_closed (by simp) (by simp))
  | some listing =>
    obtain ⟨ps, hps⟩ := pieces_exist (show 2 ≤ lineSize by decide) listing
    rw [rpmBranch_eq hlisting hps htype] at hrun
    cases hrounds : ps.foldlM (rpmRound env) (.listed env) with
    | error e =>
      rw [hrounds] at hrun
      cases e with
      | fault f => cases hrun
      | ret value log =>
        cases hrun
        obtain ⟨hopened, hnot⟩ := rpmRounds_left hrounds (by simp [Vars.listed])
          (by simp [Vars.listed])
        exact absurd hclosed (not_closed hopened hnot)
    | ok v' =>
      obtain ⟨qs, hlength, hxml, hlist, hcommands⟩ := rpmRounds_done hrounds
      rw [hrounds, ok_bind, cobaltBranch, if_neg (by omega), ok_bind, ending, hlist] at hrun
      have hlast : o.packagesXml = some (.header env.thedate :: qs.map .rpm ++ [.trailer]) := by
        rw [← Except.ok.inj hrun, hxml]
        rfl
      obtain ⟨hlines, hfits, heach⟩ :=
        hreplaced.lines hlast hlisting hps (by rw [List.length_map, hlength])
      refine .inr ⟨listing, hlisting, hfits, .inl ⟨htype, fun round line hline =>
        rpmOk_iff.mpr ⟨?_, ?_⟩⟩⟩
      · exact hcommands line (hlines ▸ List.mem_of_getElem? hline)
      · obtain ⟨part, -, hpart⟩ := heach.part hline
        cases part with
        | rpm p => exact ⟨p, hpart.2⟩
        | cobalt e => exact absurd hpart.1 (by omega)
        | header thedate => exact hpart.elim
        | trailer => exact hpart.elim

theorem listOk_of_cobalt (hfopen : env.fopen = true) (htype : 2000 ≤ devicetype ∧ devicetype < 3000)
    (h : AllOrNothing env devicetype) : ListOk env devicetype := by
  obtain ⟨o, hrun, hreplaced, hclosed⟩ := h
  have hrpm : rpmBranch env devicetype
      ⟨[.opened .xml], [.header env.thedate], 0, env.line1, none⟩ = .ok _ := if_neg (by omega)
  rw [createPackageList, if_pos hfopen, hrpm, ok_bind] at hrun
  cases hlisting : env.listing with
  | none =>
    rw [cobaltBranch, if_pos htype, openList, hlisting] at hrun
    cases hrun
    exact absurd hclosed (not_closed (by simp) (by simp))
  | some listing =>
    obtain ⟨ps, hps⟩ := pieces_exist (show 2 ≤ lineSize by decide) listing
    rw [cobaltBranch_eq hlisting hps htype] at hrun
    cases hrounds : ps.foldlM cobaltRound (env.line, []) with
    | error f =>
      rw [hrounds] at hrun
      cases hrun
    | ok r =>
      have hlength := length_foldlM_cobaltRound hrounds
      rw [hrounds] at hrun
      have hlast : o.packagesXml = some (.header env.thedate :: r.2.map .cobalt ++ [.trailer]) := by
        rw [← Except.ok.inj hrun]
        rfl
      obtain ⟨-, hfits, heach⟩ := hreplaced.lines hlast hlisting hps
        (by rw [List.length_map, hlength, List.length_nil, Nat.zero_add])
      refine .inr ⟨listing, hlisting, hfits, .inr ⟨htype, fun line hline => ?_⟩⟩
      obtain ⟨round, hround⟩ := List.mem_iff_getElem?.mp hline
      obtain ⟨part, -, hpart⟩ := heach.part hround
      cases part with
      | rpm p => exact absurd hpart.1 (by omega)
      | cobalt e =>
        obtain ⟨line', hline'⟩ := hpart.2
        exact cobaltOk_of_line hline'
      | header thedate => exact hpart.elim
      | trailer => exact hpart.elim

/-- The list is replaced as a whole or not at all, and the streams closed, exactly if `ListOk`. -/
theorem packageList_iff (env : Env) (devicetype : ℤ) :
    AllOrNothing env devicetype ↔ ListOk env devicetype := by
  cases hfopen : env.fopen with
  | false =>
    refine iff_of_true ⟨⟨-1, none, []⟩, ?_, .inr ⟨rfl, rfl⟩, fun s => rfl⟩ (.inl hfopen)
    rw [createPackageList, hfopen]
    rfl
  | true =>
    constructor
    · intro h
      by_cases hrpm : 1000 ≤ devicetype ∧ devicetype < 2000
      · exact listOk_of_rpm hfopen hrpm h
      by_cases hcobalt : 2000 ≤ devicetype ∧ devicetype < 3000
      · exact listOk_of_cobalt hfopen hcobalt h
      · obtain ⟨o, hrun, -, -⟩ := h
        rw [createPackageList, if_pos hfopen, rpmBranch, if_neg hrpm, ok_bind, cobaltBranch,
          if_neg hcobalt] at hrun
        cases hrun
    · rintro (hfalse | ⟨listing, hlisting, hfits, ⟨htype, hok⟩ | ⟨htype, hok⟩⟩)
      · rw [hfopen] at hfalse
        cases hfalse
      · exact allOrNothing_rpm hfopen hlisting hfits htype hok
      · exact allOrNothing_cobalt hfopen hlisting hfits htype hok

/-- The listing does not run: `package_xml` stays open. -/
theorem packageList_noListing : ¬ ∀ (env : Env) (devicetype : ℤ), AllOrNothing env devicetype := by
  intro hall
  obtain ⟨o, hrun, -, hclosed⟩ := hall ⟨[], true, none, fun _ => none, [], []⟩ 1500
  cases hrun
  exact absurd (hclosed .xml) (by decide)

end CompatSuva.Software
