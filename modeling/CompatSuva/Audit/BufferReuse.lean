import CompatSuva.Audit.Buffer

/-!
# Reports that follow each other in a buffer

`clear_buffer` resets the text, `buffer_pos` and `superseded`, but not `buffer_size`,
and `add_line` takes `buffer_size` for the length of the text when it decides whether a
text is too long. Once a report has made a buffer larger than 256k, the first line of
every later report is cut and the rest dropped.

* `reportOf`: the text of a report, in terms of its lines;
* `seenAfter_short`: what a buffer of up to 256k shows;
* `report_independent_iff`: when a report does not depend on the calls before it.
-/

namespace CompatSuva.Audit

open CompatSuva.Common CompatSuva.Scl

/-! ## Reports -/

/-- What the users of a buffer see: the text, `buffer_pos` and `superseded`. -/
def BufferDesc.seen (d : BufferDesc) : List Byte × ℕ × Bool := (d.text, d.bufferPos, d.superseded)

/-- What they see after a sequence of calls. -/
def seenAfter (s : BufferDesc × List Realloc) (ops : List BufferOp) :
    Except Halt (List Byte × ℕ × Bool) :=
  (fun s => s.1.seen) <$> BufferDesc.run s ops

/-- The calls for a report. -/
def reportOps (lines : List CStr) : List BufferOp := .clear :: lines.map .addLine

/-- All characters of the lines. -/
def joined (lines : List CStr) : List Byte := lines.flatMap fun line => line.val

@[simp] theorem joined_nil : joined [] = [] := rfl

@[simp] theorem joined_cons (line : CStr) (lines : List CStr) :
    joined (line :: lines) = line.val ++ joined lines := rfl

/-- The report that lines make behind a text: cut with the line that makes it too long;
    undefined when that line is too long for any buffer. -/
def reportOf : List Byte → List CStr → Except Halt (List Byte × ℕ × Bool)
  | text, [] => .ok (text, text.length, false)
  | text, line :: lines =>
    if 2 ^ 30 < (text ++ line.val).length then .error .undefined
    else if sizeLimit < (text ++ line.val).length then
      .ok (cutText (text ++ line.val), (text ++ line.val).length, true)
    else reportOf (text ++ line.val) lines

/-- The report of `lines` is the one that a new buffer gives; if it has up to 256k it is
    the lines, uncut. -/
def ReportIndependent (s : BufferDesc × List Realloc) (evs : List Realloc) (lines : List CStr) :
    Prop :=
  seenAfter s (reportOps lines) = seenAfter (.zero, evs) (.addLine nullLine :: reportOps lines) ∧
    ((joined lines).length ≤ sizeLimit →
      seenAfter s (reportOps lines) = .ok (joined lines, (joined lines).length, false))

/-- With `pos` characters in the buffer, no text gets longer than 256k. -/
def AllShort : ℕ → List BufferOp → Prop
  | _, [] => True
  | _, .clear :: ops => AllShort 0 ops
  | pos, .addLine line :: ops =>
    pos + line.val.length ≤ sizeLimit ∧ AllShort (pos + line.val.length) ops

/-! ## The text of a report -/

theorem reportOf_short {text : List Byte} {lines : List CStr}
    (h : (text ++ joined lines).length ≤ sizeLimit) :
    reportOf text lines = .ok (text ++ joined lines, (text ++ joined lines).length, false) := by
  induction lines generalizing text with
  | nil => rw [reportOf, joined_nil, List.append_nil]
  | cons line lines ih =>
    have hjoin : text ++ joined (line :: lines) = (text ++ line.val) ++ joined lines := by
      rw [joined_cons, List.append_assoc]
    rw [hjoin] at h ⊢
    have hle : (text ++ line.val).length ≤ sizeLimit := by
      rw [List.length_append] at h
      omega
    have hlimit : sizeLimit ≤ 2 ^ 30 := by decide
    rw [reportOf, if_neg (by omega), if_neg (by omega)]
    exact ih h

/-- A report that is cut is long. -/
theorem reportOf_cut {text t : List Byte} {lines : List CStr} {pos : ℕ}
    (h : reportOf text lines = .ok (t, pos, true)) : sizeLimit < pos := by
  induction lines generalizing text with
  | nil => simp [reportOf] at h
  | cons line lines ih =>
    rw [reportOf] at h
    split at h
    · exact absurd h (by simp)
    · split at h
      next hlong =>
        simp only [Except.ok.injEq, Prod.mk.injEq] at h
        rw [← h.2.1]
        exact hlong
      next => exact ih h

theorem seen_good {d : BufferDesc} {n : ℕ} {text : List Byte} (hd : d.Good n text) :
    d.seen = (text, text.length, d.superseded) := by
  rw [BufferDesc.seen, hd.rep.text_eq, hd.rep.pos]

theorem run_superseded {d : BufferDesc} (h : d.superseded = true) (evs : List Realloc)
    (lines : List CStr) : BufferDesc.run (d, evs) (lines.map .addLine) = .ok (d, evs) := by
  induction lines with
  | nil => rfl
  | cons line lines ih =>
    rw [List.map_cons, BufferDesc.run, List.foldlM_cons, BufferDesc.step, addLine_superseded h]
    exact ih

theorem seenAfter_cons (s : BufferDesc × List Realloc) (op : BufferOp)
    {s' : BufferDesc × List Realloc} (h : BufferDesc.step s op = .ok s') (ops : List BufferOp) :
    seenAfter s (op :: ops) = seenAfter s' ops := by
  rw [seenAfter, BufferDesc.run, List.foldlM_cons, h]
  rfl

theorem seenAfter_error (s : BufferDesc × List Realloc) (op : BufferOp) {e : Halt}
    (h : BufferDesc.step s op = .error e) (ops : List BufferOp) :
    seenAfter s (op :: ops) = .error e := by
  rw [seenAfter, BufferDesc.run, List.foldlM_cons, h]
  rfl

/-- A buffer of up to 256k shows the report of the lines. -/
theorem seenAfter_short (lines : List CStr) {evs : List Realloc} (hok : ∀ e ∈ evs, e.Ok)
    {d : BufferDesc} {n : ℕ} {text : List Byte} (hd : d.Good n text) (hn : n ≤ 7)
    (hsup : d.superseded = false) :
    seenAfter (d, evs) (lines.map .addLine) = reportOf text lines := by
  induction lines generalizing d n text evs with
  | nil =>
    rw [reportOf, ← hsup, ← seen_good hd]
    rfl
  | cons line lines ih =>
    rw [List.map_cons, reportOf]
    by_cases htotal : text.length + line.val.length ≤ 2 ^ 30
    · obtain ⟨d', evs', m, hadd, hok', hm⟩ := addLine_spec hok hd hsup line htotal
      rw [seenAfter_cons (d, evs) (.addLine line) hadd, List.length_append,
        if_neg (by omega)]
      by_cases hshort : text.length + line.val.length ≤ sizeLimit
      · have hm7 : m ≤ 7 := hm.short_iff.mpr ⟨hn, hshort⟩
        rw [if_neg (by omega)]
        exact ih hok' (hm.good_short hm7) hm7 (hm.not_superseded hm7)
      · have hm8 : 8 ≤ m := by
          by_contra hlt
          exact hshort (hm.short_iff.mp (by omega)).2
        have hsup' := hm.is_superseded hm8
        rw [if_pos (by omega), seenAfter, run_superseded hsup', map_ok,
          seen_good (hm.good_long hm8), hsup', length_cutText, List.length_append]
    · rw [List.length_append, if_pos (by omega)]
      exact seenAfter_error (d, evs) (.addLine line)
        (addLine_overflow hok hd hsup line.val (by omega)) _

/-- A larger one shows the first line, cut. -/
theorem seenAfter_long (line : CStr) (lines : List CStr) {evs : List Realloc}
    (hok : ∀ e ∈ evs, e.Ok) {d : BufferDesc} {n : ℕ} (hd : d.Good n []) (hn : 8 ≤ n)
    (hsup : d.superseded = false) :
    seenAfter (d, evs) ((line :: lines).map .addLine) =
      if 2 ^ 30 < line.val.length then .error .undefined
      else .ok (cutText line.val, line.val.length, true) := by
  rw [List.map_cons]
  by_cases htotal : ([] : List Byte).length + line.val.length ≤ 2 ^ 30
  · obtain ⟨d', evs', m, hadd, hok', hm⟩ := addLine_spec hok hd hsup line htotal
    have hm8 : 8 ≤ m := hn.trans hm.le
    have hsup' := hm.is_superseded hm8
    have hgood := hm.good_long hm8
    rw [List.nil_append] at hgood
    rw [List.length_nil, zero_add] at htotal
    rw [seenAfter_cons (d, evs) (.addLine line) hadd, if_neg (by omega), seenAfter,
      run_superseded hsup', map_ok, seen_good hgood, hsup', length_cutText]
  · have herr := addLine_overflow hok hd hsup line.val (by omega)
    rw [List.length_nil, zero_add] at htotal
    rw [if_pos (by omega)]
    exact seenAfter_error (d, evs) (.addLine line) herr _

/-! ## Independence -/

/-- What a new buffer shows. -/
theorem seenAfter_fresh {evs : List Realloc} (hok : ∀ e ∈ evs, e.Ok) (lines : List CStr) :
    seenAfter (.zero, evs) (.addLine nullLine :: reportOps lines) = reportOf [] lines := by
  obtain ⟨d₀, evs₀, hadd, hok₀, hd₀, -, -⟩ := constructor_spec hok
  rw [seenAfter_cons (.zero, evs) (.addLine nullLine) hadd, reportOps,
    seenAfter_cons (d₀, evs₀) .clear rfl]
  exact seenAfter_short lines hok₀ (good_clearBuffer hd₀) (by omega) rfl

theorem reportIndependent_iff {evs evs₂ : List Realloc} (hok : ∀ e ∈ evs, e.Ok)
    (hok₂ : ∀ e ∈ evs₂, e.Ok) {d : BufferDesc} {n : ℕ} {text : List Byte} (hd : d.Good n text)
    (lines : List CStr) :
    ReportIndependent (d, evs) evs₂ lines ↔
      n ≤ 7 ∨ lines = [] ∨ ∃ line rest, lines = line :: rest ∧ sizeLimit < line.val.length := by
  have hclear := good_clearBuffer hd
  have hsup : d.clearBuffer.superseded = false := rfl
  have hstep : seenAfter (d, evs) (reportOps lines) =
      seenAfter (d.clearBuffer, evs) (lines.map .addLine) :=
    seenAfter_cons (d, evs) .clear rfl _
  rw [ReportIndependent, seenAfter_fresh hok₂, hstep]
  by_cases hn : n ≤ 7
  · rw [seenAfter_short lines hok hclear hn hsup]
    refine iff_of_true ⟨rfl, fun hle => ?_⟩ (Or.inl hn)
    exact @reportOf_short [] lines hle
  · cases lines with
    | nil =>
      refine iff_of_true ⟨?_, fun _ => ?_⟩ (Or.inr (Or.inl rfl))
      · rw [reportOf, ← hsup, ← seen_good hclear]
        rfl
      · rw [joined_nil, ← hsup, ← seen_good hclear]
        rfl
    | cons line rest =>
      rw [seenAfter_long line rest hok hclear (by omega) hsup]
      by_cases hlong : sizeLimit < line.val.length
      · refine iff_of_true ⟨?_, fun hle => ?_⟩ (Or.inr (Or.inr ⟨line, rest, rfl, hlong⟩))
        · rw [reportOf, List.nil_append, if_pos hlong]
        · rw [joined_cons, List.length_append] at hle
          omega
      · refine iff_of_false ?_ ?_
        · rintro ⟨hsame, -⟩
          have hlimit : sizeLimit ≤ 2 ^ 30 := by decide
          rw [if_neg (by omega)] at hsame
          exact hlong (reportOf_cut hsame.symm)
        · rintro (h | h | ⟨line', rest', h, hlong'⟩)
          · exact hn h
          · exact absurd h (by simp)
          · rw [List.cons.inj h |>.1] at hlong
            exact hlong hlong'

/-- A buffer has up to 256k if it had, and every text was that short. -/
theorem run_short_iff (ops : List BufferOp) {evs evs' : List Realloc} (hok : ∀ e ∈ evs, e.Ok)
    {d d' : BufferDesc} {n : ℕ} {text : List Byte} (hd : d.Good n text)
    (hsup : d.superseded = true → 8 ≤ n)
    (hrun : BufferDesc.run (d, evs) ops = .ok (d', evs')) :
    ∃ n' text', d'.Good n' text' ∧ (∀ e ∈ evs', e.Ok) ∧
      (n' ≤ 7 ↔ n ≤ 7 ∧ AllShort text.length ops) := by
  induction ops generalizing d n text evs with
  | nil =>
    obtain ⟨rfl, rfl⟩ := Prod.mk.inj (Except.ok.inj hrun)
    exact ⟨n, text, hd, hok, by simp only [AllShort, and_true]⟩
  | cons op ops ih =>
    rw [BufferDesc.run, List.foldlM_cons] at hrun
    cases op with
    | clear => exact ih hok (good_clearBuffer hd) (fun h => absurd h Bool.false_ne_true) hrun
    | addLine line =>
      rw [BufferDesc.step] at hrun
      cases hd₁ : d.superseded with
      | true =>
        rw [addLine_superseded hd₁] at hrun
        obtain ⟨n', text', hd', hok', hiff⟩ := ih hok hd hsup hrun
        have hn := hsup hd₁
        refine ⟨n', text', hd', hok', ?_⟩
        rw [hiff]
        constructor
        · intro h
          omega
        · intro h
          omega
      | false =>
        by_cases htotal : text.length + line.val.length ≤ 2 ^ 30
        · obtain ⟨d₁, evs₁, m, hadd, hok₁, hm⟩ := addLine_spec hok hd hd₁ line htotal
          rw [hadd] at hrun
          obtain ⟨n', text', hd', hok', hiff⟩ := ih hok₁ hm.good (fun h => by
            rw [hm.superseded, decide_eq_true_eq] at h
            exact sizeLimit_lt_bufSize.mp h) hrun
          refine ⟨n', text', hd', hok', ?_⟩
          rw [hiff, hm.short_iff, length_addedText, AllShort, and_assoc]
        · rw [addLine_overflow hok hd hd₁ line.val (not_le.mp htotal)] at hrun
          exact absurd hrun (by simp)

/-- Short texts all find their place. -/
theorem run_of_short (ops : List BufferOp) {evs : List Realloc} (hok : ∀ e ∈ evs, e.Ok)
    {d : BufferDesc} {n : ℕ} {text : List Byte} (hd : d.Good n text) (hn : n ≤ 7)
    (hsup : d.superseded = false) (hshort : AllShort text.length ops) :
    ∃ d' evs', BufferDesc.run (d, evs) ops = .ok (d', evs') := by
  induction ops generalizing d n text evs with
  | nil => exact ⟨d, evs, rfl⟩
  | cons op ops ih =>
    rw [BufferDesc.run, List.foldlM_cons]
    cases op with
    | clear => exact ih hok (good_clearBuffer hd) hn rfl hshort
    | addLine line =>
      obtain ⟨hle, hrest⟩ := hshort
      have hlimit : sizeLimit ≤ 2 ^ 30 := by decide
      obtain ⟨d₁, evs₁, m, hadd, hok₁, hm⟩ := addLine_spec hok hd hsup line (by omega)
      have hm7 : m ≤ 7 := hm.short_iff.mpr ⟨hn, hle⟩
      rw [BufferDesc.step, hadd]
      refine ih hok₁ (hm.good_short hm7) hm7 (hm.not_superseded hm7) ?_
      rw [List.length_append]
      exact hrest

theorem reached_short_iff {evs evs' : List Realloc} (hok : ∀ e ∈ evs, e.Ok)
    {history : List BufferOp} {d : BufferDesc} (h : BufferDesc.Reached evs history d evs') :
    ∃ n text, d.Good n text ∧ (∀ e ∈ evs', e.Ok) ∧
      (n ≤ 7 ↔ AllShort nullLine.val.length history) := by
  obtain ⟨n, text, hd, hok', hiff⟩ :=
    run_short_iff _ hok good_zero (fun h => absurd h Bool.false_ne_true) h
  refine ⟨n, text, hd, hok', ?_⟩
  rw [hiff, AllShort, List.length_nil, zero_add]
  simp only [show (0 : ℕ) ≤ 7 by omega, show nullLine.val.length ≤ sizeLimit by decide, true_and]

/-- A report is independent of the calls before it exactly if none of their texts was
    longer than 256k, or the report is empty, or its first line is that long. -/
theorem report_independent_iff {evs evs' evs₂ : List Realloc} (hok : ∀ e ∈ evs, e.Ok)
    (hok₂ : ∀ e ∈ evs₂, e.Ok) {history : List BufferOp} {d : BufferDesc}
    (h : BufferDesc.Reached evs history d evs') (lines : List CStr) :
    ReportIndependent (d, evs') evs₂ lines ↔
      AllShort nullLine.val.length history ∨ lines = [] ∨
        ∃ line rest, lines = line :: rest ∧ sizeLimit < line.val.length := by
  obtain ⟨n, text, hd, hok', hiff⟩ := reached_short_iff hok h
  rw [reportIndependent_iff hok' hok₂ hd, hiff]

/-- A third report, behind one of 5000 characters and one of 200300. -/
theorem report_independent_third : ∃ d evs', BufferDesc.Reached []
      [.addLine (letters 5000), .clear, .addLine (letters 200000), .addLine (letters 300)] d evs' ∧
    ReportIndependent (d, evs') [] [letters 70000, letters 2] := by
  have hok : ∀ e ∈ ([] : List Realloc), e.Ok := fun _ h => absurd h List.not_mem_nil
  have hshort : AllShort nullLine.val.length
      [.addLine (letters 5000), .clear, .addLine (letters 200000), .addLine (letters 300)] := by
    have hlen : nullLine.val.length = 4 := by decide
    simp only [AllShort, hlen, length_letters, sizeLimit]
    decide
  obtain ⟨d₀, evs₀, hadd₀, hok₀, hd₀, hsup₀, -⟩ := constructor_spec hok
  obtain ⟨d, evs', hrun⟩ := run_of_short _ hok₀ hd₀ (by omega) hsup₀ hshort
  have hreach : BufferDesc.Reached []
      [.addLine (letters 5000), .clear, .addLine (letters 200000), .addLine (letters 300)] d
      evs' := by
    rw [BufferDesc.Reached, BufferDesc.run, List.foldlM_cons, BufferDesc.step, hadd₀]
    exact hrun
  exact ⟨d, evs', hreach, (report_independent_iff hok hok hreach _).mpr (Or.inl hshort)⟩

/-- After a text of more than 256k, a report of one character is cut. -/
theorem report_depends : ¬ ∀ (evs evs' evs₂ : List Realloc) (history : List BufferOp)
    (d : BufferDesc) (lines : List CStr), (∀ e ∈ evs, e.Ok) → (∀ e ∈ evs₂, e.Ok) →
      BufferDesc.Reached evs history d evs' → ReportIndependent (d, evs') evs₂ lines := by
  intro hall
  have hok : ∀ e ∈ ([] : List Realloc), e.Ok := fun _ h => absurd h List.not_mem_nil
  obtain ⟨d₀, evs₀, hadd₀, hok₀, hd₀, hsup₀, -⟩ := constructor_spec hok
  have hlen : nullLine.val.length = 4 := by decide
  obtain ⟨d, evs', m, hadd, -⟩ := addLine_spec hok₀ hd₀ hsup₀ (letters sizeLimit) (by
    rw [length_letters, hlen]
    decide)
  have hreach : BufferDesc.Reached [] [.addLine (letters sizeLimit)] d evs' := by
    rw [BufferDesc.Reached, BufferDesc.run, List.foldlM_cons, BufferDesc.step, hadd₀, ok_bind,
      List.foldlM_cons, BufferDesc.step, hadd]
    rfl
  obtain ⟨n, text, hd, hok', hiff⟩ := reached_short_iff hok hreach
  have h := hall _ _ _ _ _ [letters 1] hok hok hreach
  rw [reportIndependent_iff hok' hok hd, hiff] at h
  obtain ⟨hle, -⟩ | hnil | ⟨line, rest, hline, hlong⟩ := h
  · rw [length_letters, hlen] at hle
    omega
  · exact absurd hnil (by simp)
  · rw [← (List.cons.inj hline).1, length_letters] at hlong
    exact absurd hlong (by decide)

end CompatSuva.Audit
