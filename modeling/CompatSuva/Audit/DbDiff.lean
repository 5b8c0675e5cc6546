import CompatSuva.Common.Scanf
import CompatSuva.Common.Tokens
import CompatSuva.Audit.BufferReuse
import CompatSuva.Audit.Match

/-!
# What `db_diff` reports and records

`db_diff` (`SecurityAudit.c` lines 475–549) collects the output of a program in `buf2`,
adds the lines that the old file does not have to `buf`, and writes `buf2` over the file.
The text of `buf2` is the format of `fprintf`, so that a file name with a `%` does not
reach the file as it is.

* `grab_spec`: `buf2` holds the output without the lines that are sorted out;
* `compare_returns`, `compare_known`: the comparison ends, and adds nothing when the file
  has all lines in their order;
* `dbDiff_iff`: when the file is the output, and a second call reports nothing.
-/

namespace CompatSuva.Audit.DbDiff

open CompatSuva.Common CompatSuva.Scl

/-! ## Model -/

/-- The buffers, the outcomes of `realloc`, the byte in front of the buffer of
    `get_match`, and the file. -/
structure State where
  buf : BufferDesc
  buf2 : BufferDesc
  reallocs : List Realloc
  below : Byte
  db : List Byte

/-- A run of the program: whether `safe_exec_pipe`, `fdopen`, `wait` with the exit status,
    and the two calls of `fopen` succeed; and its output. -/
structure Program where
  exec : Bool
  fdopen : Bool
  output : List Byte
  exited : Bool
  readable : Bool
  writable : Bool

/-- Every step succeeds. -/
def Program.Succeeds (p : Program) : Prop :=
  p.exec = true ∧ p.fdopen = true ∧ p.exited = true ∧ p.readable = true ∧ p.writable = true

/-- The start of the lines that are sorted out (line 503). -/
def findProc : List Byte := chars "find: proc"

/-- A line of the output (lines 502–506). -/
def grabStep (s : BufferDesc × List Realloc) (line : List Byte) :
    Except Halt (BufferDesc × List Realloc) :=
  if strncmp findProc line 10 then .ok s else addLine s.1 line s.2

/-- The loop that collects the output (lines 501–507). -/
def grab (output : List Byte) (s : BufferDesc × List Realloc) :
    Except Halt (BufferDesc × List Realloc) :=
  eachLine lineLength .starved grabStep (output.length + 1) output s

/-- A round of the comparison (lines 523–528). -/
def compareStep (s : Haystack × BufferDesc × List Realloc) (needle : List Byte) :
    Except Halt (Haystack × BufferDesc × List Realloc) := do
  let (found, hay) ← getMatch needle s.1
  if found then .ok (hay, s.2)
  else do
    let (buf, reallocs) ← addLine s.2.1 needle s.2.2
    let (buf, reallocs) ← addLine buf [10] reallocs
    .ok (hay, buf, reallocs)

/-- The comparison (lines 521–530), where `rest` is left for `strtok`. -/
def compareLoop : ℕ → List Byte → Haystack × BufferDesc × List Realloc →
    Except Halt (Haystack × BufferDesc × List Realloc)
  | 0, _, _ => .error .starved
  | fuel + 1, rest, s =>
    match strtok 10 rest with
    | none => .ok s
    | some (needle, rest) => do
      let s ← compareStep s needle
      compareLoop fuel rest s

/-- `fprintf(file, format)`: what is written. Any conversion but `%%` wants an argument and
    is undefined. -/
def fprintf : List Byte → Option (List Byte)
  | [] => some []
  | [b] => if b = 37 then none else some [b]
  | b :: c :: rest =>
    if b = 37 then if c = 37 then (fprintf rest).map (37 :: ·) else none
    else (fprintf (c :: rest)).map (b :: ·)

/-- `db_diff`: the string returned, and the state. -/
def dbDiff (s : State) (p : Program) : Except Halt (List Byte × State) :=
  let s := { s with buf := s.buf.clearBuffer, buf2 := s.buf2.clearBuffer }
  if p.exec = false then .ok (chars "<error>1\nFailed to execute command", s)
  else if p.fdopen = false then .ok (chars "<error>2\nFailed to open pipe as stream", s)
  else do
    let (buf2, reallocs) ← grab p.output (s.buf2, s.reallocs)
    let s := { s with buf2 := buf2, reallocs := reallocs }
    if p.exited = false then .ok (chars "<error>1\nFailed to execute command", s)
    else if p.readable = false then .ok (chars "<error>4\nFailed opening db file for reading", s)
    else do
      let (hay, buf, reallocs) ← compareLoop (s.buf2.text.length + 1) s.buf2.text
        (opened s.db s.below, s.buf, s.reallocs)
      let s := { s with buf := buf, reallocs := reallocs, below := hay.below }
      if p.writable = false then .ok (chars "<error>5\nFailed opening db file for writing", s)
      else
        match fprintf s.buf2.text with
        | none => .error .undefined
        | some written => .ok (s.buf.text, { s with db := written })

/-! ## `fprintf` -/

theorem fprintf_plain {format : List Byte} (h : (37 : Byte) ∉ format) :
    fprintf format = some format := by
  fun_induction fprintf format with
  | case1 => rfl
  | case2 => exact absurd List.mem_cons_self h
  | case3 => rfl
  | case4 rest ih => exact absurd List.mem_cons_self h
  | case5 c rest hc => exact absurd List.mem_cons_self h
  | case6 b c rest hb ih =>
    rw [ih fun hmem => h (List.mem_cons_of_mem _ hmem), Option.map_some]

/-- Every `%%` is written as one character. -/
theorem fprintf_length {format written : List Byte} (h : fprintf format = some written) :
    written.length ≤ format.length ∧ ((37 : Byte) ∈ format → written.length < format.length) := by
  fun_induction fprintf format generalizing written with
  | case1 =>
    obtain rfl := Option.some.inj h
    exact ⟨le_refl _, fun hmem => absurd hmem List.not_mem_nil⟩
  | case2 => exact absurd h (by simp)
  | case3 b hb =>
    obtain rfl := Option.some.inj h
    exact ⟨le_refl _, fun hmem => absurd (List.mem_singleton.mp hmem).symm hb⟩
  | case4 rest ih =>
    obtain ⟨out, hout, rfl⟩ := Option.map_eq_some_iff.mp h
    obtain ⟨hle, -⟩ := ih hout
    simp only [List.length_cons]
    exact ⟨by omega, fun _ => by omega⟩
  | case5 c rest hc => exact absurd h (by simp)
  | case6 b c rest hb ih =>
    obtain ⟨out, hout, rfl⟩ := Option.map_eq_some_iff.mp h
    obtain ⟨hle, hlt⟩ := ih hout
    simp only [List.length_cons] at hle hlt ⊢
    refine ⟨by omega, fun hmem => ?_⟩
    obtain heq | hmem := List.mem_cons.mp hmem
    · exact absurd heq.symm hb
    · have := hlt hmem
      omega

theorem fprintf_eq_self_iff {format : List Byte} :
    fprintf format = some format ↔ (37 : Byte) ∉ format := by
  constructor
  · intro h hmem
    exact lt_irrefl _ ((fprintf_length h).2 hmem)
  · exact fprintf_plain

/-! ## Collecting the output -/

/-- A line of the output that is kept. -/
def keepLine (line : List Byte) : Bool := ¬ strncmp findProc line 10

/-- The lines of the output that are kept, as they are in the buffer. -/
def keptPieces (pieces : List (List Byte)) : List Byte := (pieces.filter keepLine).flatten

/-- The output without the lines that are sorted out. -/
def kept (lines : List (List Byte)) (last : List Byte) : List Byte :=
  fileOf (lines.filter keepLine) (if keepLine last then last else [])

theorem foldlM_grabStep {pieces : List (List Byte)} (hno : ∀ piece ∈ pieces, (0 : Byte) ∉ piece)
    {d : BufferDesc} {n : ℕ} {text : List Byte} {evs : List Realloc} (hok : ∀ e ∈ evs, e.Ok)
    (hd : d.Good n text) (hn : n ≤ 7) (hsup : d.superseded = false)
    (htotal : text.length + pieces.flatten.length ≤ sizeLimit) :
    ∃ d' evs' n', pieces.foldlM grabStep (d, evs) = .ok (d', evs') ∧ (∀ e ∈ evs', e.Ok) ∧
      d'.Good n' (text ++ keptPieces pieces) ∧ n' ≤ 7 ∧ d'.superseded = false := by
  induction pieces generalizing d n text evs with
  | nil =>
    refine ⟨d, evs, n, rfl, hok, ?_, hn, hsup⟩
    rw [keptPieces, List.filter_nil, List.flatten_nil, List.append_nil]
    exact hd
  | cons piece pieces ih =>
    obtain ⟨hpiece, hrest⟩ := List.forall_mem_cons.mp hno
    rw [List.flatten_cons, List.length_append] at htotal
    rw [List.foldlM_cons]
    by_cases hskip : strncmp findProc piece 10 = true
    · have hkept : keptPieces (piece :: pieces) = keptPieces pieces := by
        rw [keptPieces, List.filter_cons_of_neg (by simp [keepLine, hskip])]
        rfl
      rw [hkept, grabStep, if_pos hskip, ok_bind]
      exact ih hrest hok hd hn hsup (by omega)
    · have hkept : text ++ keptPieces (piece :: pieces) = (text ++ piece) ++ keptPieces pieces := by
        rw [keptPieces, List.filter_cons_of_pos (by simp [keepLine, hskip]), List.flatten_cons,
          List.append_assoc]
        rfl
      have hlimit : sizeLimit ≤ 2 ^ 30 := by decide
      obtain ⟨d', evs', m, hadd, hok', hm⟩ :=
        addLine_spec hok hd hsup ⟨piece, hpiece⟩ (show text.length + piece.length ≤ 2 ^ 30 by omega)
      have hm7 : m ≤ 7 :=
        hm.short_iff.mpr ⟨hn, show text.length + piece.length ≤ sizeLimit by omega⟩
      rw [hkept, grabStep, if_neg hskip, hadd, ok_bind]
      refine ih hrest hok' (hm.good_short hm7) hm7 (hm.not_superseded hm7) ?_
      rw [List.length_append]
      omega

/-- The loop, when nothing is too long. -/
theorem grab_spec {ps : List (List Byte)} {output : List Byte} (h : Pieces lineLength ps output)
    (hno : (0 : Byte) ∉ output) {d : BufferDesc} {n : ℕ} {text : List Byte} {evs : List Realloc}
    (hok : ∀ e ∈ evs, e.Ok) (hd : d.Good n text) (hn : n ≤ 7) (hsup : d.superseded = false)
    (htotal : text.length + output.length ≤ sizeLimit) :
    ∃ d' evs' n', grab output (d, evs) = .ok (d', evs') ∧ (∀ e ∈ evs', e.Ok) ∧
      d'.Good n' (text ++ keptPieces ps) ∧ n' ≤ 7 ∧ d'.superseded = false := by
  have hlen := h.length_le (show 2 ≤ lineLength by decide)
  rw [← h.flatten] at hno htotal
  rw [grab, eachLine_eq (by decide) _ _ _ (Nat.lt_succ_self _),
    pieces_eq h (Nat.lt_succ_of_le hlen), h.map_cstr (by rw [← h.flatten]; exact hno)]
  exact foldlM_grabStep (fun piece hpiece h0 => hno (List.mem_flatten.mpr ⟨piece, hpiece, h0⟩)) hok
    hd hn hsup htotal

/-- The newline of a line does not make it one to be sorted out. -/
theorem keepLine_newline {line : List Byte} : keepLine (line ++ [10]) = keepLine line := by
  have hproc : findProc.take 10 = findProc := by decide
  have hten : findProc.length = 10 := by decide
  have hno : (10 : Byte) ∉ findProc := by decide
  rw [keepLine, keepLine, strncmp, strncmp, hproc]
  by_cases hlen : 10 ≤ line.length
  · rw [List.take_append_of_le_length hlen]
  · have hlong : findProc ≠ (line ++ [10]).take 10 := by
      rw [List.take_of_length_le (by rw [List.length_append, List.length_singleton]; omega)]
      exact fun heq => hno (heq ▸ List.mem_append_right _ (List.mem_singleton_self _))
    have hshort : findProc ≠ line.take 10 := by
      intro heq
      have := congrArg List.length heq
      rw [hten, List.length_take] at this
      omega
    simp [hlong, hshort]

theorem keptPieces_linesOf (lines : List (List Byte)) (last : List Byte) :
    keptPieces (linesOf lines last) = kept lines last := by
  have hlines : (lines.map (· ++ [10])).filter keepLine =
      (lines.filter keepLine).map (· ++ [10]) := by
    rw [List.filter_map]
    congr 1
    exact List.filter_congr fun line _ => keepLine_newline
  have hlast : ((if last = [] then [] else [last]).filter keepLine).flatten =
      if keepLine last then last else [] := by
    by_cases hnil : last = []
    · rw [hnil]
      rfl
    · rw [if_neg hnil, List.filter_singleton]
      cases keepLine last <;> simp
  rw [keptPieces, linesOf, List.filter_append, List.flatten_append, hlines, hlast, kept, fileOf,
    List.flatMap_def]

/-! ## The comparison -/

theorem compareLoop_eq {fuel : ℕ} {rest : List Byte} (hfuel : (tokens 10 rest).length < fuel)
    (s : Haystack × BufferDesc × List Realloc) :
    compareLoop fuel rest s = (tokens 10 rest).foldlM compareStep s := by
  induction fuel generalizing rest s with
  | zero => omega
  | succ fuel ih =>
    rw [compareLoop]
    cases htok : strtok 10 rest with
    | none =>
      rw [strtok_none htok]
      rfl
    | some t =>
      obtain ⟨needle, rest'⟩ := t
      rw [strtok_some htok, List.length_cons] at hfuel
      rw [strtok_some htok, List.foldlM_cons]
      show (compareStep s needle >>= compareLoop fuel rest') = _
      exact congrArg _ (funext fun s' => ih (by omega) s')

theorem addLine_returns {evs : List Realloc} (hok : ∀ e ∈ evs, e.Ok) {d : BufferDesc} {n : ℕ}
    {text : List Byte} (hd : d.Good n text) (line : CStr)
    (htotal : text.length + line.val.length ≤ 2 ^ 30) :
    ∃ d' evs' n' text', addLine d line.val evs = .ok (d', evs') ∧ (∀ e ∈ evs', e.Ok) ∧
      d'.Good n' text' ∧ text'.length ≤ text.length + line.val.length := by
  cases hsup : d.superseded with
  | true => exact ⟨d, evs, n, text, addLine_superseded hsup _ _, hok, hd, Nat.le_add_right _ _⟩
  | false =>
    obtain ⟨d', evs', m, hadd, hok', hm⟩ := addLine_spec hok hd hsup line htotal
    exact ⟨d', evs', m, _, hadd, hok', hm.good, (length_addedText m text line.val).le⟩

/-- The comparison ends, with any file. -/
theorem compare_returns (needles : List (List Byte)) (hneedles : ∀ t ∈ needles, (0 : Byte) ∉ t)
    {hay : Haystack} {before after : List (List Byte)} (hat : hay.At before after)
    {evs : List Realloc} (hok : ∀ e ∈ evs, e.Ok) {d : BufferDesc} {n : ℕ} {text : List Byte}
    (hd : d.Good n text)
    (htotal : text.length + (needles.map fun t => t.length + 1).sum ≤ 2 ^ 30) :
    ∃ hay' d' evs' n' text', needles.foldlM compareStep (hay, d, evs) = .ok (hay', d', evs') ∧
      (∀ e ∈ evs', e.Ok) ∧ d'.Good n' text' := by
  induction needles generalizing hay before after d n text evs with
  | nil => exact ⟨hay, d, evs, n, text, rfl, hok, hd⟩
  | cons needle needles ih =>
    rw [List.map_cons, List.sum_cons] at htotal
    obtain ⟨hneedle, hrest⟩ := List.forall_mem_cons.mp hneedles
    obtain ⟨found, hay₁, before₁, after₁, hmatch, hat₁, -, -⟩ := getMatch_spec hat needle
    rw [List.foldlM_cons, compareStep, hmatch]
    cases found with
    | true => exact ih hrest hat₁ hok hd (by omega)
    | false =>
      obtain ⟨d₁, evs₁, n₁, text₁, hadd₁, hok₁, hd₁, hlen₁⟩ :=
        addLine_returns hok hd ⟨needle, hneedle⟩
          (show text.length + needle.length ≤ 2 ^ 30 by omega)
      replace hlen₁ : text₁.length ≤ text.length + needle.length := hlen₁
      obtain ⟨d₂, evs₂, n₂, text₂, hadd₂, hok₂, hd₂, hlen₂⟩ :=
        addLine_returns hok₁ hd₁ ⟨[10], by decide⟩ (show text₁.length + 1 ≤ 2 ^ 30 by omega)
      replace hlen₂ : text₂.length ≤ text₁.length + 1 := hlen₂
      obtain ⟨hay', d', evs', n', text', hfold, hok', hd'⟩ := ih hrest hat₁ hok₂ hd₂ (by omega)
      refine ⟨hay', d', evs', n', text', ?_, hok', hd'⟩
      rw [← hfold]
      show ((addLine d needle evs >>= _) >>= _) = _
      rw [hadd₁]
      show ((addLine d₁ [10] evs₁ >>= _) >>= _) = _
      rw [hadd₂]
      rfl

theorem not_hit_blank {needle : List Byte} (h : needle ≠ []) : ¬ Hit needle [10] := by
  rw [Hit, show ([10] : List Byte) = [] ++ [10] from rfl, killReturn_line List.not_mem_nil,
    strncmp_short (by decide)]
  exact h.symm

/-- The last line has no newline to be killed. -/
theorem hit_last {last : List Byte} (h : IsLine last) : Hit last last := by
  have hkill : killReturn last = last := by
    rw [killReturn, if_neg]
    exact fun heq => h.noNewline (List.mem_of_getLast? heq)
  rw [Hit, cstr_noNul h.noNul, hkill, strncmp, decide_eq_true_iff]

theorem compareStep_found {hay hay' : Haystack} {needle : List Byte}
    (h : getMatch needle hay = .ok (true, hay')) (s : BufferDesc × List Realloc) :
    compareStep (hay, s) needle = .ok (hay', s) := by
  rw [compareStep, h]
  rfl

/-- With the lines of the file in their order, every search ends at the next line that is
    not empty, and nothing is added. -/
theorem compare_known {last : List Byte} (hlast : IsLine last) (lines : List (List Byte))
    (hlines : ∀ line ∈ lines, IsLine line) {hay : Haystack} {before blanks : List (List Byte)}
    (hblanks : ∀ piece ∈ blanks, piece = [10]) (hat : hay.At before (blanks ++ linesOf lines last))
    (s : BufferDesc × List Realloc) :
    ∃ hay', ((lines ++ [last]).filter (· ≠ [])).foldlM compareStep (hay, s) = .ok (hay', s) := by
  have hmiss : ∀ {needle : List Byte}, needle ≠ [] → ∀ piece ∈ blanks, ¬ Hit needle piece :=
    fun hne piece hmem => hblanks piece hmem ▸ not_hit_blank hne
  induction lines generalizing hay before blanks with
  | nil =>
    by_cases hnil : last = []
    · refine ⟨hay, ?_⟩
      rw [List.nil_append, List.filter_singleton, hnil]
      rfl
    · rw [linesOf, if_neg hnil, List.map_nil, List.nil_append] at hat
      obtain ⟨hay', hmatch, -, -⟩ := getMatch_next hat (hmiss hnil) (hit_last hlast)
      refine ⟨hay', ?_⟩
      rw [List.nil_append, List.filter_cons_of_pos (by simpa using hnil), List.filter_nil,
        List.foldlM_cons, compareStep_found hmatch]
      rfl
  | cons line lines ih =>
    obtain ⟨hline, hrest⟩ := List.forall_mem_cons.mp hlines
    have hcons : linesOf (line :: lines) last = (line ++ [10]) :: linesOf lines last := rfl
    rw [hcons] at hat
    by_cases hnil : line = []
    · -- an empty line is passed in the next search
      rw [hnil, List.nil_append, List.append_cons] at hat
      have hblanks' : ∀ piece ∈ blanks ++ [[10]], piece = [10] := by
        intro piece hpiece
        obtain hpiece | hpiece := List.mem_append.mp hpiece
        · exact hblanks piece hpiece
        · exact List.mem_singleton.mp hpiece
      rw [List.cons_append, List.filter_cons_of_neg (by simpa using hnil)]
      exact ih hrest hblanks' hat fun hne piece hmem => hblanks' piece hmem ▸ not_hit_blank hne
    · obtain ⟨hay₁, hmatch, hat₁, -⟩ := getMatch_next hat (hmiss hnil) ((hit_line hline).mpr rfl)
      rw [List.cons_append, List.filter_cons_of_pos (by simpa using hnil), List.foldlM_cons,
        compareStep_found hmatch]
      exact @ih hrest hay₁ _ [] (fun _ h => absurd h List.not_mem_nil) hat₁
        fun _ _ h => absurd h List.not_mem_nil

/-! ## Two calls -/

theorem dbDiff_eq {s : State} {p : Program} (hp : p.Succeeds) {buf2 buf : BufferDesc}
    {evs evs' : List Realloc} {hay : Haystack}
    (hgrab : grab p.output (s.buf2.clearBuffer, s.reallocs) = .ok (buf2, evs))
    (hcompare : compareLoop (buf2.text.length + 1) buf2.text
      (opened s.db s.below, s.buf.clearBuffer, evs) = .ok (hay, buf, evs')) :
    dbDiff s p =
      match fprintf buf2.text with
      | none => .error .undefined
      | some written => .ok (buf.text, ⟨buf, buf2, evs', hay.below, written⟩) := by
  obtain ⟨hexec, hfdopen, hexited, hreadable, hwritable⟩ := hp
  rw [dbDiff, if_neg (by simp [hexec]), if_neg (by simp [hfdopen])]
  simp only [hgrab, ok_bind, hexited, hreadable, hwritable, hcompare, Bool.true_eq_false, if_false]

/-- A buffer that calls have left behind, without a failure of `realloc`, and that was not
    enlarged beyond 256k. -/
def Usable (d : BufferDesc) : Prop :=
  ∃ evs ops evs', (∀ e ∈ evs, e.Ok) ∧ BufferDesc.Reached evs ops d evs' ∧ d.bufferSize ≤ sizeLimit

theorem Usable.good {d : BufferDesc} (h : Usable d) : ∃ n text, d.Good n text ∧ n ≤ 7 := by
  obtain ⟨evs, ops, evs', hok, hreach, hsize⟩ := h
  obtain ⟨n, text, hd, -, -⟩ := reached_short_iff hok hreach
  refine ⟨n, text, hd, ?_⟩
  rw [hd.size] at hsize
  exact bufSize_le_iff.mp hsize

/-- Output of lines that are read as a whole, the last of them perhaps without newline. -/
structure IsOutput (lines : List (List Byte)) (last : List Byte) : Prop where
  isLine : ∀ line ∈ lines, IsLine line
  isLast : IsLine last
  short : (fileOf lines last).length ≤ sizeLimit

/-- The file is what was kept of the output, and stays so in a second call, which reports
    nothing. -/
def Records (s : State) (p : Program) (text : List Byte) : Prop :=
  ∃ reply s₁, dbDiff s p = .ok (reply, s₁) ∧ s₁.db = text ∧
    ∃ s₂, dbDiff s₁ p = .ok ([], s₂) ∧ s₂.db = text

theorem isLine_nil : IsLine [] := ⟨List.not_mem_nil, List.not_mem_nil, by decide⟩

theorem IsOutput.pieces {lines : List (List Byte)} {last : List Byte} (h : IsOutput lines last) :
    Pieces lineLength (linesOf lines last) (fileOf lines last) := by
  refine pieces_fileOf (fun line hline => ?_) h.isLast.noNewline ?_
  · have hl := h.isLine line hline
    have hshort := hl.short
    exact ⟨hl.noNewline, by omega⟩
  · have hshort := h.isLast.short
    omega

theorem IsOutput.noNul {lines : List (List Byte)} {last : List Byte} (h : IsOutput lines last) :
    (0 : Byte) ∉ fileOf lines last := by
  intro hmem
  obtain hmem | hmem := List.mem_append.mp hmem
  · obtain ⟨line, hline, hb⟩ := List.mem_flatMap.mp hmem
    obtain hb | hb := List.mem_append.mp hb
    · exact (h.isLine line hline).noNul hb
    · exact absurd (List.mem_singleton.mp hb) (by decide)
  · exact h.isLast.noNul hmem

/-- What is kept is output of the same kind. -/
theorem IsOutput.kept {lines : List (List Byte)} {last : List Byte} (h : IsOutput lines last) :
    IsOutput (lines.filter keepLine) (if keepLine last then last else []) := by
  refine ⟨fun line hline => h.isLine line (List.mem_of_mem_filter hline), ?_, ?_⟩
  · split
    · exact h.isLast
    · exact isLine_nil
  · have hlines : ((lines.filter keepLine).flatMap fun line => line ++ [10]).length ≤
        (lines.flatMap fun line => line ++ [10]).length :=
      (List.filter_sublist.flatMap fun line => line ++ [10]).length_le
    have hlast : (if keepLine last then last else []).length ≤ last.length := by
      split
      · exact le_refl _
      · exact Nat.zero_le _
    have hshort := h.short
    simp only [fileOf, List.length_append] at hshort ⊢
    omega

/-- `buf2` after the output has been collected. -/
theorem grab_output {lines : List (List Byte)} {last : List Byte} (h : IsOutput lines last)
    {d : BufferDesc} {n : ℕ} {text : List Byte} (hd : d.Good n text) (hn : n ≤ 7)
    {evs : List Realloc} (hok : ∀ e ∈ evs, e.Ok) :
    ∃ d' evs' n', grab (fileOf lines last) (d.clearBuffer, evs) = .ok (d', evs') ∧
      (∀ e ∈ evs', e.Ok) ∧ d'.Good n' (kept lines last) ∧ n' ≤ 7 := by
  have hshort := h.short
  obtain ⟨d', evs', n', hgrab, hok', hgood, hn', -⟩ :=
    grab_spec h.pieces h.noNul hok (good_clearBuffer hd) hn rfl (by
      rw [List.length_nil]
      omega)
  rw [List.nil_append, keptPieces_linesOf] at hgood
  exact ⟨d', evs', n', hgrab, hok', hgood, hn'⟩

/-- The first call, with any file. -/
theorem dbDiff_first {lines : List (List Byte)} {last : List Byte} (h : IsOutput lines last)
    {p : Program} (hp : p.Succeeds) (hout : p.output = fileOf lines last) {s : State}
    (hbuf : ∃ n text, s.buf.Good n text) (hbuf2 : ∃ n text, s.buf2.Good n text ∧ n ≤ 7)
    (hok : ∀ e ∈ s.reallocs, e.Ok) :
    ∃ buf buf2 evs below, (∀ e ∈ evs, e.Ok) ∧ (∃ n text, buf.Good n text) ∧
      (∃ n text, buf2.Good n text ∧ n ≤ 7) ∧
      dbDiff s p =
        match fprintf (kept lines last) with
        | none => .error .undefined
        | some written => .ok (buf.text, ⟨buf, buf2, evs, below, written⟩) := by
  obtain ⟨n, text, hd⟩ := hbuf
  obtain ⟨n₂, text₂, hd₂, hn₂⟩ := hbuf2
  obtain ⟨buf2, evs₁, n', hgrab, hok₁, hgood, hn'⟩ := grab_output h hd₂ hn₂ hok
  rw [← hout] at hgrab
  obtain ⟨pieces, hpieces⟩ := @pieces_exist lineLength (by decide) s.db
  have hno : ∀ t ∈ tokens 10 (kept lines last), (0 : Byte) ∉ t :=
    fun t ht h0 => hgood.rep.noNul ((mem_tokens ht).2 0 h0)
  have hsum := sum_tokens_le 10 (kept lines last)
  have hshort : (kept lines last).length ≤ sizeLimit := h.kept.short
  have hlimit : sizeLimit + 1 ≤ 2 ^ 30 := by decide
  obtain ⟨hay, buf, evs₂, m, t, hfold, hok₂, hbuf⟩ :=
    compare_returns _ hno (opened_at hpieces s.below) hok₁ (good_clearBuffer hd) (by
      rw [List.length_nil]
      omega)
  refine ⟨buf, buf2, evs₂, hay.below, hok₂, ⟨m, t, hbuf⟩, ⟨n', _, hgood, hn'⟩, ?_⟩
  have heq := hgood.rep.text_eq
  have hlen := length_tokens_le 10 (kept lines last)
  rw [← heq]
  refine dbDiff_eq hp hgrab ?_
  rw [heq, compareLoop_eq (Nat.lt_succ_of_le hlen), hfold]

/-- A call when the file is what is kept of the output. -/
theorem dbDiff_known {lines : List (List Byte)} {last : List Byte} (h : IsOutput lines last)
    {p : Program} (hp : p.Succeeds) (hout : p.output = fileOf lines last) {s : State}
    (hbuf2 : ∃ n text, s.buf2.Good n text ∧ n ≤ 7) (hok : ∀ e ∈ s.reallocs, e.Ok)
    (hdb : s.db = kept lines last) :
    ∃ buf buf2 evs below,
      dbDiff s p =
        match fprintf (kept lines last) with
        | none => .error .undefined
        | some written => .ok ([], ⟨buf, buf2, evs, below, written⟩) := by
  obtain ⟨n₂, text₂, hd₂, hn₂⟩ := hbuf2
  obtain ⟨buf2, evs₁, n', hgrab, hok₁, hgood, hn'⟩ := grab_output h hd₂ hn₂ hok
  rw [← hout] at hgrab
  have hkept := h.kept
  have hat : (opened s.db s.below).At [] ([] ++ linesOf (lines.filter keepLine)
      (if keepLine last then last else [])) := by
    refine opened_at ?_ s.below
    rw [hdb]
    exact hkept.pieces
  obtain ⟨hay, hfold⟩ := compare_known hkept.isLast _ hkept.isLine
    (fun _ h => absurd h List.not_mem_nil) hat (s.buf.clearBuffer, evs₁)
  have htokens : tokens 10 (kept lines last) =
      (lines.filter keepLine ++ [if keepLine last then last else []]).filter (· ≠ []) := by
    refine tokens_fileOf fun line hline => ?_
    obtain hline | hline := List.mem_append.mp hline
    · exact (hkept.isLine line hline).noNewline
    · rw [List.mem_singleton.mp hline]
      exact hkept.isLast.noNewline
  have heq := hgood.rep.text_eq
  have hlen := length_tokens_le 10 (kept lines last)
  refine ⟨s.buf.clearBuffer, buf2, evs₁, hay.below, ?_⟩
  rw [← heq, ← (rep_clearBuffer s.buf).text_eq]
  refine dbDiff_eq hp hgrab ?_
  rw [heq, compareLoop_eq (Nat.lt_succ_of_le hlen), htokens, hfold]

theorem records_iff {lines : List (List Byte)} {last : List Byte} (h : IsOutput lines last)
    {p : Program} (hp : p.Succeeds) (hout : p.output = fileOf lines last) {s : State}
    (hbuf : ∃ n text, s.buf.Good n text) (hbuf2 : ∃ n text, s.buf2.Good n text ∧ n ≤ 7)
    (hok : ∀ e ∈ s.reallocs, e.Ok) :
    Records s p (kept lines last) ↔ (37 : Byte) ∉ kept lines last := by
  obtain ⟨buf, buf2, evs, below, hok', hgood, hgood2, hfirst⟩ :=
    dbDiff_first h hp hout hbuf hbuf2 hok
  constructor
  · rintro ⟨reply, s₁, hcall, hdb, -⟩
    rw [hfirst] at hcall
    cases hprint : fprintf (kept lines last) with
    | none =>
      rw [hprint] at hcall
      exact absurd hcall (by simp)
    | some written =>
      rw [hprint] at hcall
      obtain ⟨-, rfl⟩ := Prod.mk.inj (Except.ok.inj hcall)
      rw [fprintf_eq_self_iff.symm, hprint]
      exact congrArg some hdb
  · intro hplain
    rw [fprintf_plain hplain] at hfirst
    obtain ⟨buf', buf2', evs', below', hsecond⟩ :=
      @dbDiff_known _ _ h p hp hout ⟨buf, buf2, evs, below, kept lines last⟩ hgood2 hok' rfl
    rw [fprintf_plain hplain] at hsecond
    exact ⟨_, _, hfirst, rfl, _, hsecond, rfl⟩

/-- For any old file: the file is what was kept of the output, and a second call with the
    same output returns the empty string and leaves the file as it is, exactly if nothing
    that was kept has a `%`. -/
theorem dbDiff_iff {lines : List (List Byte)} {last : List Byte} (h : IsOutput lines last)
    {p : Program} (hp : p.Succeeds) (hout : p.output = fileOf lines last) {s : State}
    (hbuf : Usable s.buf) (hbuf2 : Usable s.buf2) (hok : ∀ e ∈ s.reallocs, e.Ok) :
    Records s p (kept lines last) ↔ (37 : Byte) ∉ kept lines last := by
  obtain ⟨n, text, hd, -⟩ := hbuf.good
  exact records_iff h hp hout ⟨n, text, hd⟩ hbuf2.good hok

/-- A run of a program in which every step succeeds. -/
def printing (output : List Byte) : Program := ⟨true, true, output, true, true, true⟩

theorem succeeds_printing (output : List Byte) : (printing output).Succeeds :=
  ⟨rfl, rfl, rfl, rfl, rfl⟩

theorem constructor_usable : ∃ d, Usable d := by
  obtain ⟨d, evs', hreach, -, hsize, -⟩ := constructor_reached
  refine ⟨d, [], [], evs', fun _ h => absurd h List.not_mem_nil, hreach, ?_⟩
  rw [hsize]
  decide

theorem isOutput_singleton {line : List Byte} (h : IsLine line) : IsOutput [line] [] := by
  have hshort := h.short
  have hlimit : lineLength ≤ sizeLimit := by decide
  refine ⟨fun l hl => List.mem_singleton.mp hl ▸ h, isLine_nil, ?_⟩
  simp only [fileOf, List.flatMap_singleton, List.length_append, List.length_singleton,
    List.length_nil]
  omega

theorem dbDiff_iff_line : ∃ d, Usable d ∧
    Records ⟨d, d, [], 0, chars "a\n"⟩ (printing (chars "b\n")) (chars "b\n") := by
  obtain ⟨d, hd⟩ := constructor_usable
  have hline : IsLine (chars "b") := ⟨by decide, by decide, by decide⟩
  exact ⟨d, hd, (@dbDiff_iff _ _ (isOutput_singleton hline) _ (succeeds_printing (chars "b\n")) rfl
    ⟨d, d, [], 0, chars "a\n"⟩ hd hd fun _ h => absurd h List.not_mem_nil).mpr (by decide)⟩

/-- Of a file name with `%%` one `%` is recorded. -/
theorem dbDiff_percent : ¬ ∀ (lines : List (List Byte)) (last : List Byte) (p : Program)
    (s : State), IsOutput lines last → p.Succeeds → p.output = fileOf lines last → Usable s.buf →
      Usable s.buf2 → (∀ e ∈ s.reallocs, e.Ok) → Records s p (kept lines last) := by
  intro hall
  obtain ⟨d, hd⟩ := constructor_usable
  have hline : IsLine (chars "a%%") := ⟨by decide, by decide, by decide⟩
  have hout := isOutput_singleton hline
  have hok : ∀ e ∈ ([] : List Realloc), e.Ok := fun _ h => absurd h List.not_mem_nil
  have h := hall _ _ (printing (chars "a%%\n")) ⟨d, d, [], 0, []⟩ hout
    (succeeds_printing _) rfl hd hd hok
  obtain ⟨n, text, hgood, hn⟩ := hd.good
  have hiff := @records_iff _ _ hout (printing (chars "a%%\n")) (succeeds_printing _) rfl
    ⟨d, d, [], 0, []⟩ ⟨n, text, hgood⟩ ⟨n, text, hgood, hn⟩ hok
  exact hiff.mp h (by decide)

end CompatSuva.Audit.DbDiff
