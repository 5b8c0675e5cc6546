import CompatSuva.Audit.Buffer

/-!
# Where `add_line` writes

`add_line` lets the buffer grow until `buffer_pos + line_len` is at most `buffer_size`,
so that the bytes of the text have room. Its comment says "One for null", but the test
leaves no room for it: `strcpy` writes the NUL at `buffer_pos`, and the last line of the
function another one at `buffer_pos + 1`. A total that is a size, or one less, puts them
behind the buffer. The mark of a cut text is written 27 bytes before its end, which is
before the buffer when a short text stands in a buffer that was grown earlier.

* `addLine_inside_iff`: which calls keep every write inside the buffer;
* `addLine_outside`: a line of 4095 characters in a buffer that was cleared.
-/

namespace CompatSuva.Audit

open CompatSuva.Common CompatSuva.Scl

/-- The bytes written have indices between 0 and `buffer_size - 1`. -/
def Write.Inside (w : Write) : Prop := 0 ≤ w.start ∧ w.stop ≤ w.size

/-- Every write up to now. -/
def BufferDesc.Inside (d : BufferDesc) : Prop := ∀ w ∈ d.writes, w.Inside

/-- From `constructor` on, the calls are defined and write inside the buffer only. -/
def StaysInside (evs : List Realloc) (ops : List BufferOp) : Prop :=
  ∃ d evs', BufferDesc.Reached evs ops d evs' ∧ d.Inside

/-- A call that stays inside: the line is dropped, or the text has a length that some size
    can hold, that is no size from `buffer_size` on and not one less, and that leaves room
    for the mark. -/
def BufferOp.Fits (d : BufferDesc) : BufferOp → Prop
  | .clear => True
  | .addLine line =>
    d.superseded = true ∨
      (d.bufferPos + line.val.length ≤ 2 ^ 30 ∧
        (∀ k, d.bufferSize ≤ lineLength * 2 ^ k →
          d.bufferPos + line.val.length ≠ lineLength * 2 ^ k ∧
            d.bufferPos + line.val.length + 1 ≠ lineLength * 2 ^ k) ∧
        (sizeLimit < d.bufferSize → snip.length ≤ d.bufferPos + line.val.length))

/-- Every call of a sequence does, in the state it is made in. -/
def AllFit : BufferDesc × List Realloc → List BufferOp → Prop
  | _, [] => True
  | s, op :: ops => op.Fits s.1 ∧ ∀ s', BufferDesc.step s op = .ok s' → AllFit s' ops

/-! ## One call -/

theorem mem_putWrites {size block pos len : ℕ} {w : Write} (h : w ∈ putWrites size block pos len) :
    w.size = size ∧ w.block = block := by
  rw [putWrites] at h
  split at h
  · simp only [List.mem_append, List.mem_singleton] at h
    rcases h with rfl | rfl | rfl <;> exact ⟨rfl, rfl⟩
  · simp only [List.nil_append, List.mem_append, List.mem_singleton] at h
    rcases h with rfl | rfl <;> exact ⟨rfl, rfl⟩

theorem putWrites_bound_iff {size block pos len bound : ℕ} :
    (∀ w ∈ putWrites size block pos len, 0 ≤ w.start ∧ w.stop ≤ bound) ↔
      pos + len + 2 ≤ bound ∧ (sizeLimit < size → snip.length ≤ pos + len) := by
  rw [putWrites]
  split
  next hlong =>
    simp only [List.mem_append, List.mem_singleton]
    constructor
    · intro h
      have hmark := h _ (Or.inr (Or.inl rfl))
      have hend := h _ (Or.inr (Or.inr rfl))
      push_cast at hmark hend
      omega
    · intro h w hw
      have hroom := h.2 hlong
      rcases hw with rfl | rfl | rfl
      · show (0 : ℤ) ≤ pos ∧ (pos : ℤ) + len + 1 ≤ bound
        omega
      · push_cast
        omega
      · push_cast
        omega
  next hshort =>
    simp only [List.nil_append, List.mem_append, List.mem_singleton]
    constructor
    · intro h
      have hend := h _ (Or.inr rfl)
      push_cast at hend
      omega
    · intro h w hw
      rcases hw with rfl | rfl
      · show (0 : ℤ) ≤ pos ∧ (pos : ℤ) + len + 1 ≤ bound
        omega
      · push_cast
        omega

theorem putWrites_inside_iff {size block pos len : ℕ} :
    (∀ w ∈ putWrites size block pos len, w.Inside) ↔
      pos + len + 2 ≤ size ∧ (sizeLimit < size → snip.length ≤ pos + len) := by
  rw [← @putWrites_bound_iff size block]
  refine forall₂_congr fun w hw => ?_
  rw [Write.Inside, (mem_putWrites hw).1]

/-- Two bytes of room behind the text, in terms of the sizes. -/
theorem room_iff {n m total : ℕ} (hn : 1 ≤ n) (hle : n ≤ m) (hfits : total ≤ bufSize m)
    (hleast : m = n ∨ bufSize (m - 1) < total) :
    total + 2 ≤ bufSize m ↔
      ∀ k, bufSize n ≤ lineLength * 2 ^ k →
        total ≠ lineLength * 2 ^ k ∧ total + 1 ≠ lineLength * 2 ^ k := by
  constructor
  · intro hroom k hk
    rw [show lineLength * 2 ^ k = bufSize (k + 1) from rfl] at hk ⊢
    have hnk := bufSize_le_iff.mp hk
    -- a size between `total` and `bufSize m` is `bufSize m`
    have hsize : total ≤ bufSize (k + 1) → bufSize (k + 1) < bufSize m → False := by
      intro hge hlt
      have hkm : k + 1 < m := by
        by_contra hnot
        have := bufSize_le_iff.mpr (not_lt.mp hnot)
        omega
      obtain heq | hlast := hleast
      · omega
      · have := bufSize_le_iff.mpr (show k + 1 ≤ m - 1 by omega)
        omega
    constructor
    · intro heq
      exact hsize (by omega) (by omega)
    · intro heq
      exact hsize (by omega) (by omega)
  · intro h
    have hk : lineLength * 2 ^ (m - 1) = bufSize m := by
      obtain ⟨k, rfl⟩ : ∃ k, m = k + 1 := ⟨m - 1, by omega⟩
      rfl
    have hm := h (m - 1) (by
      rw [hk]
      exact bufSize_le_iff.mpr hle)
    rw [hk] at hm
    omega

/-- Room for the mark is missing only in a buffer that was long before. -/
theorem mark_iff {n m total : ℕ} (hle : n ≤ m) (hleast : m = n ∨ bufSize (m - 1) < total) :
    (sizeLimit < bufSize m → snip.length ≤ total) ↔
      (sizeLimit < bufSize n → snip.length ≤ total) := by
  constructor
  · intro h hn
    exact h (hn.trans_le (bufSize_le_iff.mpr hle))
  · intro h hm
    obtain rfl | hlast := hleast
    · exact h hm
    · have h8 := sizeLimit_lt_bufSize.mp hm
      have h7 : bufSize 7 ≤ bufSize (m - 1) := bufSize_le_iff.mpr (by omega)
      have hval : bufSize 7 = 262144 := by decide
      rw [length_snip]
      omega

/-- What one call writes. -/
theorem step_inside {evs : List Realloc} (hok : ∀ e ∈ evs, e.Ok) {d : BufferDesc} {n : ℕ}
    {text : List Byte} (hd : d.Good n text) (hn : 1 ≤ n) (op : BufferOp) :
    (BufferDesc.step (d, evs) op = .error .undefined ∧ ¬ op.Fits d) ∨
      ∃ d' evs' n' text', BufferDesc.step (d, evs) op = .ok (d', evs') ∧ (∀ e ∈ evs', e.Ok) ∧
        d'.Good n' text' ∧ 1 ≤ n' ∧ ∃ ws, d'.writes = d.writes ++ ws ∧
          ((∀ w ∈ ws, w.Inside) ↔ op.Fits d) := by
  have hpos := hd.rep.pos
  cases op with
  | clear =>
    refine Or.inr ⟨d.clearBuffer, evs, n, [], rfl, hok, good_clearBuffer hd, hn, _, rfl, ?_⟩
    refine iff_of_true ?_ trivial
    intro w hw
    rw [List.mem_singleton] at hw
    have hone : bufSize 1 ≤ bufSize n := bufSize_le_iff.mpr hn
    have hval : bufSize 1 = 4096 := by decide
    have hsize := hd.size
    rw [hw]
    show (0 : ℤ) ≤ 0 ∧ (0 : ℤ) + 1 ≤ (d.bufferSize : ℤ)
    omega
  | addLine line =>
    cases hsup : d.superseded with
    | true =>
      refine Or.inr ⟨d, evs, n, text, addLine_superseded hsup _ _, hok, hd, hn, [],
        (List.append_nil _).symm, ?_⟩
      exact iff_of_true (fun w hw => absurd hw List.not_mem_nil) (Or.inl hsup)
    | false =>
      by_cases htotal : text.length + line.val.length ≤ 2 ^ 30
      · obtain ⟨d', evs', m, hadd, hok', hm⟩ := addLine_spec hok hd hsup line htotal
        have hle := hm.le
        have hfits := hm.good.fits
        rw [hm.good.size, length_addedText] at hfits
        refine Or.inr ⟨d', evs', m, _, hadd, hok', hm.good, by omega, _, hm.writes, ?_⟩
        rw [putWrites_inside_iff, room_iff hn hle hfits hm.least, mark_iff hle hm.least,
          BufferOp.Fits, hsup, hd.size, hpos]
        simp only [Bool.false_eq_true, false_or, and_iff_right htotal]
      · refine Or.inl ⟨addLine_overflow hok hd hsup line.val (not_le.mp htotal), ?_⟩
        rw [BufferOp.Fits, hsup, hpos]
        intro h
        obtain h | h := h
        · exact absurd h (by decide)
        · exact htotal h.1

/-! ## A sequence of calls -/

/-- The writes of a sequence of calls, step by step. -/
theorem run_inside_iff (ops : List BufferOp) {evs : List Realloc} (hok : ∀ e ∈ evs, e.Ok)
    {d : BufferDesc} {n : ℕ} {text : List Byte} (hd : d.Good n text) (hn : 1 ≤ n) :
    (∃ d' evs', BufferDesc.run (d, evs) ops = .ok (d', evs') ∧ d'.Inside) ↔
      d.Inside ∧ AllFit (d, evs) ops := by
  induction ops generalizing d n text evs with
  | nil =>
    constructor
    · rintro ⟨d', evs', hrun, hin⟩
      obtain ⟨rfl, rfl⟩ := Prod.mk.inj (Except.ok.inj hrun)
      exact ⟨hin, trivial⟩
    · intro h
      exact ⟨d, evs, rfl, h.1⟩
  | cons op ops ih =>
    rw [BufferDesc.run, List.foldlM_cons]
    obtain ⟨herr, hnot⟩ | ⟨d₁, evs₁, n₁, text₁, hstep, hok₁, hd₁, hn₁, ws, hws, hiff⟩ :=
      step_inside hok hd hn op
    · constructor
      · rintro ⟨d', evs', hrun, -⟩
        rw [herr] at hrun
        exact absurd hrun (by simp)
      · intro h
        exact absurd h.2.1 hnot
    · have hin : d₁.Inside ↔ d.Inside ∧ op.Fits d := by
        rw [← hiff, BufferDesc.Inside, hws]
        simp only [List.mem_append, or_imp, forall_and]
        rfl
      rw [hstep, ok_bind, show ops.foldlM BufferDesc.step (d₁, evs₁) =
        BufferDesc.run (d₁, evs₁) ops from rfl, ih hok₁ hd₁ hn₁, hin, AllFit, and_assoc]
      refine and_congr_right fun _ => and_congr_right fun _ => ?_
      constructor
      · intro h s' hs'
        rw [hstep] at hs'
        exact Except.ok.inj hs' ▸ h
      · intro h
        exact h _ hstep

theorem fits_nullLine : (BufferOp.addLine nullLine).Fits .zero := by
  have hlen : nullLine.val.length = 4 := by decide
  refine Or.inr ⟨?_, fun k _ => ?_, fun h => absurd h (by decide)⟩
  · rw [hlen]
    decide
  · have hpow : 1 ≤ 2 ^ k := Nat.one_le_two_pow
    have hpos : BufferDesc.zero.bufferPos = 0 := rfl
    rw [hlen, hpos, lineLength]
    omega

/-- A sequence of calls after `constructor`. -/
theorem staysInside_iff {evs evs₀ : List Realloc} {d₀ : BufferDesc}
    (hadd : addLine .zero nullLine.val evs = .ok (d₀, evs₀)) (ops : List BufferOp) :
    StaysInside evs ops ↔ ∃ d evs', BufferDesc.run (d₀, evs₀) ops = .ok (d, evs') ∧ d.Inside := by
  have hrun : BufferDesc.run (.zero, evs) (.addLine nullLine :: ops) =
      BufferDesc.run (d₀, evs₀) ops := by
    rw [BufferDesc.run, List.foldlM_cons, BufferDesc.step, hadd]
    rfl
  rw [StaysInside]
  simp only [BufferDesc.Reached, hrun]

/-- From `constructor` on, `add_line` writes inside the buffer exactly as long as every
    call fits. -/
theorem addLine_inside_iff {evs : List Realloc} (hok : ∀ e ∈ evs, e.Ok) (ops : List BufferOp) :
    StaysInside evs ops ↔ AllFit (.zero, evs) (.addLine nullLine :: ops) := by
  obtain ⟨d₀, evs₀, hadd, hok₀, hd₀, -, hwrites⟩ := constructor_spec hok
  have hin : d₀.Inside := by
    rw [BufferDesc.Inside, hwrites]
    exact putWrites_inside_iff.mpr (by decide)
  rw [staysInside_iff hadd, run_inside_iff ops hok₀ hd₀ (le_refl 1), and_iff_right hin, AllFit,
    and_iff_right fits_nullLine]
  constructor
  · intro h s' hs'
    rw [BufferDesc.step, hadd] at hs'
    exact Except.ok.inj hs' ▸ h
  · intro h
    exact h _ hadd

/-- Behind `pos` characters no text is longer than 256k, and none ends at the end of a block of
    4096, or one before it. -/
def AllOff : ℕ → List BufferOp → Prop
  | _, [] => True
  | _, .clear :: ops => AllOff 0 ops
  | pos, .addLine line :: ops =>
    pos + line.val.length ≤ sizeLimit ∧ (pos + line.val.length) % lineLength ≠ 0 ∧
      (pos + line.val.length + 1) % lineLength ≠ 0 ∧ AllOff (pos + line.val.length) ops

/-- Such calls fit. -/
theorem allFit_of_off (ops : List BufferOp) {evs : List Realloc} (hok : ∀ e ∈ evs, e.Ok)
    {d : BufferDesc} {n : ℕ} {text : List Byte} (hd : d.Good n text) (hn : n ≤ 7)
    (hsup : d.superseded = false) (hoff : AllOff text.length ops) : AllFit (d, evs) ops := by
  induction ops generalizing d n text evs with
  | nil => trivial
  | cons op ops ih =>
    cases op with
    | clear =>
      refine ⟨trivial, fun s' hs' => ?_⟩
      rw [← Except.ok.inj hs']
      exact ih hok (good_clearBuffer hd) hn rfl hoff
    | addLine line =>
      obtain ⟨hle, hend, hlast, hrest⟩ := hoff
      have hlimit : sizeLimit ≤ 2 ^ 30 := by decide
      obtain ⟨d₁, evs₁, m, hadd, hok₁, hm⟩ := addLine_spec hok hd hsup line (by omega)
      have hm7 : m ≤ 7 := hm.short_iff.mpr ⟨hn, hle⟩
      constructor
      · refine Or.inr ⟨?_, fun k _ => ?_, fun hlong => ?_⟩
        · rw [hd.rep.pos]
          omega
        · rw [hd.rep.pos]
          unfold lineLength at hend hlast ⊢
          omega
        · rw [hd.size] at hlong
          have := sizeLimit_lt_bufSize.mp hlong
          omega
      · intro s' hs'
        rw [BufferDesc.step, hadd] at hs'
        rw [← Except.ok.inj hs']
        refine ih hok₁ (hm.good_short hm7) hm7 (hm.not_superseded hm7) ?_
        rw [List.length_append]
        exact hrest

/-- Three lines, the second behind a `clear_buffer`, and the buffer grows for the third. -/
theorem addLine_inside_three : StaysInside []
    [.addLine (letters 100), .clear, .addLine (letters 4000), .addLine (letters 200)] := by
  have hok : ∀ e ∈ ([] : List Realloc), e.Ok := fun _ h => absurd h List.not_mem_nil
  refine (addLine_inside_iff hok _).mpr ⟨fits_nullLine, fun s' hs' => ?_⟩
  obtain ⟨d₀, evs₀, hadd, hok₀, hd₀, hsup, -⟩ := constructor_spec hok
  rw [BufferDesc.step, hadd] at hs'
  rw [← Except.ok.inj hs']
  refine allFit_of_off _ hok₀ hd₀ (by omega) hsup ?_
  have hlen : nullLine.val.length = 4 := by decide
  simp only [AllOff, hlen, length_letters, sizeLimit, lineLength]
  decide

/-- A line of 4095 characters after a `clear_buffer` fills the 4096 bytes with its NUL; the
    other terminator is written behind them. -/
theorem addLine_outside : ¬ ∀ (evs : List Realloc) (ops : List BufferOp), (∀ e ∈ evs, e.Ok) →
    StaysInside evs ops := by
  intro hall
  obtain ⟨d₀, evs₀, hadd, hok₀, hd₀, hsup, -⟩ :=
    @constructor_spec [] fun _ h => absurd h List.not_mem_nil
  have h := hall [] [.clear, .addLine (letters 4095)] fun _ h => absurd h List.not_mem_nil
  rw [staysInside_iff hadd, run_inside_iff _ hok₀ hd₀ (le_refl 1)] at h
  obtain ⟨-, -, hclear⟩ := h
  obtain ⟨hfits, -⟩ := hclear _ rfl
  obtain hdrop | ⟨-, hroom, -⟩ := hfits
  · exact Bool.false_ne_true hdrop
  · have hsize : d₀.clearBuffer.bufferSize = 4096 := hd₀.size
    have hpos : d₀.clearBuffer.bufferPos = 0 := rfl
    have hfull := (hroom 0 (by
      rw [hsize]
      decide)).2
    rw [length_letters, hpos] at hfull
    exact hfull rfl

end CompatSuva.Audit
