import CompatSuva.Audit.BufferBounds

/-!
# `add_line` when `realloc` fails

When `realloc` fails, `add_line` takes a block of `LINE_LENGTH` bytes and puts a message
there, but `buffer_size` keeps the size that was asked for. The loop then goes on: if the
line does not fit behind the message, the next `realloc` makes the block as large as
`buffer_size` again; if it does fit, the block stays smaller. Either way the line is
added behind the message.

* `Reaches`: the loop comes to a given `realloc`;
* `growLoop_failed`: the buffer after the last `realloc` that fails;
* `addLine_failure_iff`: when the buffer is sound after the call.
-/

namespace CompatSuva.Audit

open CompatSuva.Common CompatSuva.Scl

/-- The loop asks for another size. -/
def Short (pos size len : ℕ) : Prop := size < pos + len ∧ pos + len < 2 ^ 31 ∧ size * 2 < 2 ^ 31

/-- With outcomes `pre` of `realloc`, the loop comes to one more `realloc`. -/
def Reaches (len : ℕ) : ℕ → ℕ → List Realloc → Prop
  | pos, size, [] => Short pos size len
  | pos, size, .moved _ :: pre => Short pos size len ∧ Reaches len pos (nextSize size) pre
  | _, _, .failed none :: _ => False
  | pos, size, .failed (some _) :: pre =>
    Short pos size len ∧ Reaches len outOfMemory.length (nextSize size) pre

/-- From `d` to `d'` everything is written inside the block. -/
def WritesWithin (d d' : BufferDesc) : Prop :=
  ∃ ws, d'.writes = d.writes ++ ws ∧ ∀ w ∈ ws, 0 ≤ w.start ∧ w.stop ≤ w.block

/-- The buffer after a call in which memory ran out: its size is not above that of the
    block, nothing was written outside, and the message is there, for good. -/
structure Survives (d d' : BufferDesc) : Prop where
  size : d'.bufferSize ≤ d'.block
  writes : WritesWithin d d'
  text : outOfMemory <+: d'.text
  superseded : d'.superseded = true

/-- The buffer once `realloc` has failed and another block has been found. -/
def BufferDesc.renew (d : BufferDesc) (core : Memory) : BufferDesc :=
  { d with bufferSize := nextSize d.bufferSize, block := lineLength, mem := core }.clearBuffer

/-! ## Any run -/

/-- What holds in any run: the size is one of the sizes, and `buffer_pos` is not above it. -/
structure BufferDesc.Sized (d : BufferDesc) : Prop where
  size : ∃ n, n ≤ 19 ∧ d.bufferSize = bufSize n
  pos : d.bufferPos ≤ d.bufferSize

theorem putLine_bufferPos (d : BufferDesc) (line : List Byte) :
    (d.putLine line).bufferPos = d.bufferPos + line.length := by
  by_cases hsize : sizeLimit < d.bufferSize
  · rw [putLine_long hsize]
  · rw [putLine_short hsize]

theorem putLine_bufferSize (d : BufferDesc) (line : List Byte) :
    (d.putLine line).bufferSize = d.bufferSize := by
  by_cases hsize : sizeLimit < d.bufferSize
  · rw [putLine_long hsize]
  · rw [putLine_short hsize]

/-- What a loop does to the sizes. -/
def GrowSized (grow : BufferDesc → List Byte → List Realloc →
    Except Halt (BufferDesc × List Realloc)) :
    Prop :=
  ∀ d line evs, d.Sized → Post (fun _ => True)
    (fun s => s.1.Sized ∧ s.1.bufferPos + line.length ≤ s.1.bufferSize) (grow d line evs)

theorem addLineBy_sized
    {grow : BufferDesc → List Byte → List Realloc → Except Halt (BufferDesc × List Realloc)}
    (hgrow : GrowSized grow) {d : BufferDesc} (hd : d.Sized) (line : List Byte)
    (evs : List Realloc) :
    Post (fun _ => True) (fun s => s.1.Sized) (addLineBy grow d line evs) := by
  rw [addLineBy]
  split
  · exact hd
  · split
    · trivial
    · apply Post.bind (hgrow d line evs hd)
      intro s hs
      refine ⟨?_, ?_⟩
      · rw [putLine_bufferSize]
        exact hs.1.size
      · rw [putLine_bufferSize, putLine_bufferPos]
        exact hs.2

theorem growLoop_sized (fuel : ℕ) : GrowSized (growLoop fuel) := by
  induction fuel with
  | zero => exact fun _ _ _ _ => trivial
  | succ fuel ih =>
    intro d line evs hd
    obtain ⟨n, hn, hsize⟩ := hd.size
    rw [growLoop]
    split
    · trivial
    split
    next hfit => exact ⟨hd, Nat.lt_succ_iff.mp hfit⟩
    split
    · trivial
    next hdouble =>
      rw [hsize] at hdouble
      have hn18 : n ≤ 18 := bufSize_double.mp (not_le.mp hdouble)
      have hlt : bufSize n < bufSize (n + 1) := bufSize_lt (Nat.lt_succ_self n)
      have hpos := hd.pos
      have hnext : ∃ k, k ≤ 19 ∧ nextSize d.bufferSize = bufSize k :=
        ⟨n + 1, by omega, by rw [hsize, nextSize_bufSize]⟩
      split
      · refine ih _ _ _ ⟨hnext, ?_⟩
        show d.bufferPos ≤ nextSize d.bufferSize
        rw [hsize, nextSize_bufSize]
        omega
      · trivial
      next core evs' _ =>
        have hclear : (d.renew core).Sized := ⟨hnext, Nat.zero_le _⟩
        apply Post.bind (addLineBy_sized ih hclear outOfMemory evs')
        intro s hs
        exact ih _ _ _ ⟨hs.size, hs.pos⟩

theorem reached_sized {evs evs' : List Realloc} {ops : List BufferOp} {d : BufferDesc}
    (h : BufferDesc.Reached evs ops d evs') : d.Sized := by
  have hrun : Post (fun _ => True) (fun s : BufferDesc × List Realloc => s.1.Sized)
      (BufferDesc.run (.zero, evs) (.addLine nullLine :: ops)) := by
    refine Post.foldlM ?_ _ ⟨⟨0, by omega, rfl⟩, le_refl _⟩
    intro s op hs
    cases op with
    | addLine line => exact addLineBy_sized (growLoop_sized 24) hs _ _
    | clear => exact ⟨hs.size, Nat.zero_le _⟩
  exact hrun.ok h

/-! ## The `realloc` that fails -/

theorem iterate_nextSize (n k : ℕ) : nextSize^[k] (bufSize n) = bufSize (n + k) := by
  induction k with
  | zero => rfl
  | succ k ih => rw [Function.iterate_succ_apply', ih, nextSize_bufSize, Nat.add_assoc]

theorem WritesWithin.refl (d : BufferDesc) : WritesWithin d d :=
  ⟨[], (List.append_nil _).symm, fun _ h => absurd h List.not_mem_nil⟩

theorem WritesWithin.trans {d d' d'' : BufferDesc} (h : WritesWithin d d')
    (h' : WritesWithin d' d'') : WritesWithin d d'' := by
  obtain ⟨ws, hws, hin⟩ := h
  obtain ⟨ws', hws', hin'⟩ := h'
  refine ⟨ws ++ ws', by rw [hws', hws, List.append_assoc], ?_⟩
  intro w hw
  obtain hw | hw := List.mem_append.mp hw
  · exact hin w hw
  · exact hin' w hw

theorem length_outOfMemory : outOfMemory.length = 28 := by decide

/-- The text after a failure, in a buffer that was to get size `bufSize n`. -/
def failedText (n : ℕ) : List Byte := addedText n [] outOfMemory

/-- A buffer in which the message has been put, in place of one of size `bufSize n`. -/
structure Failed (d f : BufferDesc) (n : ℕ) : Prop where
  size : f.bufferSize = bufSize n
  block : f.block = lineLength
  superseded : f.superseded = true
  rep : f.Rep (failedText n)
  writes : WritesWithin d f

theorem putWrites_within {d d' : BufferDesc} {size block pos len : ℕ}
    (hws : d'.writes = d.writes ++ putWrites size block pos len) (hroom : pos + len + 2 ≤ block)
    (hmark : sizeLimit < size → snip.length ≤ pos + len) : WritesWithin d d' := by
  refine ⟨_, hws, fun w hw => ?_⟩
  rw [(mem_putWrites hw).2]
  exact putWrites_bound_iff.mpr ⟨hroom, hmark⟩ w hw

/-- The message in its block. -/
theorem renew_failed {d : BufferDesc} {n : ℕ} (hsize : nextSize d.bufferSize = bufSize n)
    (core : Memory) : Failed d { (d.renew core).putLine outOfMemory with
      superseded := true } n := by
  have hclear : (d.renew core).Rep [] := rep_clearBuffer _
  have hbuf : (d.renew core).bufferSize = bufSize n := hsize
  have hput := putLine_spec (holds_append.mp hclear.holds).1 hclear.noNul
    (show (0 : Byte) ∉ outOfMemory by decide) hclear.pos
  refine ⟨hput.size.trans hsize, hput.block, rfl, ?_, ?_⟩
  · have hrep := hput.rep
    rw [hbuf] at hrep
    exact ⟨hrep.holds, hrep.noNul, hrep.pos⟩
  · refine @WritesWithin.trans d (d.renew core) _ ?_ ?_
    · refine ⟨_, rfl, fun w hw => ?_⟩
      rw [List.mem_singleton] at hw
      rw [hw]
      exact ⟨le_refl (0 : ℤ), show (0 : ℤ) + 1 ≤ (lineLength : ℕ) by decide⟩
    · refine putWrites_within hput.writes ?_ ?_
      · rw [length_outOfMemory]
        exact show 0 + 28 + 2 ≤ lineLength by decide
      · intro _
        rw [length_outOfMemory, length_snip]
        decide

/-- One round in which `realloc` fails. -/
theorem growLoop_fails (fuel : ℕ) {n : ℕ} {d : BufferDesc} {line : List Byte} (core : Memory)
    (hsize : d.bufferSize = bufSize n) (h : Short d.bufferPos d.bufferSize line.length)
    (rest : List Realloc) :
    ∃ f, Failed d f (n + 1) ∧
      growLoop (fuel + 2) d line (.failed (some core) :: rest) =
        growLoop (fuel + 1) f line rest := by
  obtain ⟨hlt, hint, hdouble⟩ := h
  have hnext : nextSize d.bufferSize = bufSize (n + 1) := by rw [hsize, nextSize_bufSize]
  refine ⟨_, renew_failed hnext core, ?_⟩
  -- the message needs no other size
  have hmessage : addLineBy (growLoop (fuel + 1)) (d.renew core) outOfMemory rest =
      .ok ((d.renew core).putLine outOfMemory, rest) := by
    have hfit : growLoop (fuel + 1) (d.renew core) outOfMemory rest = .ok (d.renew core, rest) := by
      have hone : bufSize 1 ≤ bufSize (n + 1) := bufSize_le_iff.mpr (by omega)
      have hval : bufSize 1 = 4096 := by decide
      have hpos : (d.renew core).bufferPos = 0 := rfl
      have hbuf : (d.renew core).bufferSize = bufSize (n + 1) := hnext
      rw [growLoop, hpos, hbuf, length_outOfMemory, if_neg (by omega), if_pos (by omega)]
    have hsup : (d.renew core).superseded = false := rfl
    rw [addLineBy, hsup, if_neg Bool.false_ne_true, length_outOfMemory, if_neg (by omega), hfit]
    rfl
  rw [growLoop, if_neg (by omega), if_neg (by omega), if_neg (by omega)]
  show (addLineBy (growLoop (fuel + 1)) (d.renew core) outOfMemory rest >>= _) = _
  rw [hmessage]
  rfl

theorem Failed.of_within {d₀ d f : BufferDesc} {n : ℕ} (hd : WritesWithin d₀ d)
    (h : Failed d f n) : Failed d₀ f n :=
  ⟨h.size, h.block, h.superseded, h.rep, hd.trans h.writes⟩

theorem length_failedText (n : ℕ) : (failedText n).length = outOfMemory.length := by
  rw [failedText, length_addedText, List.length_nil, zero_add]

theorem Failed.pos {d f : BufferDesc} {n : ℕ} (h : Failed d f n) :
    f.bufferPos = outOfMemory.length := by
  rw [h.rep.pos, length_failedText]

theorem Reaches.short {len pos size : ℕ} {pre : List Realloc} (h : Reaches len pos size pre) :
    Short pos size len := by
  cases pre with
  | nil => exact h
  | cons e pre =>
    cases e with
    | moved junk => exact h.1
    | failed core =>
      cases core with
      | none => exact h.elim
      | some core => exact h.1

/-- The loop up to a `realloc` that fails. The induction is on the outcomes before it;
    each takes one round, and up to `2^30` bytes there are no more than 19. -/
theorem growLoop_failed {line : List Byte} (core : Memory) (rest : List Realloc)
    (pre : List Realloc) (fuel : ℕ) {n : ℕ} {d : BufferDesc} (hsize : d.bufferSize = bufSize n)
    (h : Reaches line.length d.bufferPos d.bufferSize pre) :
    ∃ f, Failed d f (n + pre.length + 1) ∧ n + pre.length ≤ 18 ∧
      growLoop (fuel + pre.length + 2) d line (pre ++ .failed (some core) :: rest) =
        growLoop (fuel + 1) f line rest := by
  induction pre generalizing d n with
  | nil =>
    obtain ⟨f, hf, hloop⟩ := growLoop_fails fuel core hsize h rest
    refine ⟨f, hf, ?_, hloop⟩
    exact bufSize_double.mp (hsize ▸ h.2.2)
  | cons e pre ih =>
    obtain ⟨hlt, hint, hdouble⟩ := h.short
    have hn : n ≤ 18 := bufSize_double.mp (hsize ▸ hdouble)
    have hnext : nextSize d.bufferSize = bufSize (n + 1) := by rw [hsize, nextSize_bufSize]
    have hlen : n + 1 + pre.length = n + (e :: pre).length := by
      rw [List.length_cons]
      omega
    cases e with
    | moved junk =>
      obtain ⟨-, hreach⟩ := h
      rw [hnext] at hreach
      obtain ⟨f, hf, hmax, hloop⟩ :=
        @ih (n + 1) ({ d with bufferSize := bufSize (n + 1) }.realloc
          (bufSize (n + 1)) junk) rfl hreach
      rw [hlen] at hf hmax
      refine ⟨f, ⟨hf.size, hf.block, hf.superseded, hf.rep, hf.writes⟩, hmax, ?_⟩
      rw [List.cons_append, ← hloop]
      exact growLoop_moved hsize hn (hsize ▸ hlt) hint rfl
    | failed core' =>
      cases core' with
      | none => exact h.elim
      | some core' =>
        obtain ⟨hshort, hreach⟩ := h
        rw [hnext] at hreach
        obtain ⟨f₁, hf₁, hloop₁⟩ := growLoop_fails (fuel + pre.length + 1) core' hsize hshort
          (pre ++ .failed (some core) :: rest)
        rw [← hf₁.pos, ← hf₁.size] at hreach
        obtain ⟨f, hf, hmax, hloop⟩ := @ih (n + 1) f₁ hf₁.size hreach
        rw [hlen] at hf hmax
        exact ⟨f, hf.of_within hf₁.writes, hmax, hloop₁.trans hloop⟩

/-! ## The rest of the call -/

/-- The buffer after a call in which `realloc` failed last when it was asked for
    `bufSize n` bytes. -/
structure Recovered (d d' : BufferDesc) (n m : ℕ) (line : List Byte) : Prop where
  le : n ≤ m
  fits : outOfMemory.length + line.length ≤ bufSize m
  least : m = n ∨ bufSize (m - 1) < outOfMemory.length + line.length
  size : d'.bufferSize = bufSize m
  block : d'.block = if m = n then lineLength else bufSize m
  superseded : d'.superseded = true
  text : d'.text = addedText m (failedText n) line
  writes : ∃ f, WritesWithin d f ∧
    d'.writes = f.writes ++ putWrites (bufSize m) d'.block outOfMemory.length line.length

theorem Failed.recovered {d f : BufferDesc} {n : ℕ} (hf : Failed d f n) (hone : 1 ≤ n)
    (hn : n ≤ 19) (line : CStr) {rest : List Realloc} (hrest : ∀ e ∈ rest, e.Ok) {fuel : ℕ}
    (hfuel : 20 ≤ fuel + n) (htotal : outOfMemory.length + line.val.length ≤ 2 ^ 30) :
    ∃ g evs' m, growLoop fuel f line.val rest = .ok (g, evs') ∧
      Recovered d (g.putLine line.val) n m line.val := by
  have hsize : lineLength ≤ bufSize n := bufSize_le_iff.mpr hone
  have hpos := hf.pos
  have hblock : f.block ≤ f.bufferSize := by
    rw [hf.block, hf.size]
    exact hsize
  rw [← hpos] at htotal
  obtain ⟨g, evs', m, hgrow, -, hg⟩ := growLoop_ok hrest hfuel hn hf.size hblock htotal
  have htext : (failedText n).length ≤ lineLength := by
    rw [length_failedText]
    decide
  have hholds : Holds g.mem 0 (failedText n) := by
    refine (holds_append.mp hf.rep.holds).1.congr hg.mem (le_refl _) ?_
    rw [hf.block]
    omega
  have hput := putLine_spec hholds hf.rep.noNul line.property (hg.pos.trans hf.rep.pos)
  have hgsize := hg.size
  have hgblock : g.block = if m = n then lineLength else bufSize m := by
    split
    next heq => rw [hg.same heq, hf.block]
    next hne => rw [hg.block (lt_of_le_of_ne hg.le (Ne.symm hne)), hgsize]
  have hfits := hg.fits
  have hleast := hg.least
  rw [hpos] at hfits hleast
  refine ⟨g, evs', m, hgrow, hg.le, hfits, hleast, hput.size.trans hgsize, ?_, ?_, ?_, f,
    hf.writes, ?_⟩
  · rw [hput.block, hgblock]
  · rw [hput.superseded, hg.superseded, hf.superseded, Bool.true_or]
  · rw [hput.rep.text_eq, hgsize]
    rfl
  · rw [hput.writes, hg.writes, hgsize, hput.block, length_failedText]

/-- The message is at the start of the text unless it was cut itself. -/
theorem message_prefix_iff {n m : ℕ} {line : List Byte} (hle : n ≤ m) (hline : line ≠ [])
    (hleast : m = n ∨ bufSize (m - 1) < outOfMemory.length + line.length) :
    outOfMemory <+: addedText m (failedText n) line ↔ n ≤ 7 := by
  have hlen : 1 ≤ line.length := List.length_pos_iff.mpr hline
  by_cases hn : n ≤ 7
  · refine iff_of_true ?_ hn
    rw [failedText, addedText_short hn, List.nil_append]
    by_cases hm : m ≤ 7
    · rw [addedText_short hm]
      exact List.prefix_append _ _
    · -- the mark is behind the message, as the text has more than 256k
      rw [addedText_long (by omega), cutText]
      have h7 : bufSize 7 ≤ bufSize (m - 1) := bufSize_le_iff.mpr (by omega)
      have hval : bufSize 7 = 262144 := by decide
      have hlong : bufSize (m - 1) < outOfMemory.length + line.length := by
        obtain heq | hlast := hleast
        · omega
        · exact hlast
      have htake : outOfMemory <+: (outOfMemory ++ line).take
          ((outOfMemory ++ line).length - snip.length) := by
        refine List.prefix_take_iff.mpr ⟨List.prefix_append _ _, ?_⟩
        rw [length_outOfMemory] at hlong
        rw [List.length_append, length_snip, length_outOfMemory]
        omega
      exact htake.trans (List.prefix_append _ _)
  · refine iff_of_false ?_ hn
    -- the mark starts at index 1
    rw [failedText, addedText_long (by omega), addedText_long (by omega), List.nil_append]
    intro hstarts
    have hcut : cutText outOfMemory = 60 :: 10 :: snip.drop 1 := by decide
    obtain ⟨k, hk⟩ : ∃ k, (cutText outOfMemory ++ line).length - snip.length = k + 2 := by
      refine ⟨line.length - 1, ?_⟩
      rw [List.length_append, length_cutText, length_snip, length_outOfMemory]
      omega
    obtain ⟨rest, hrest⟩ := hstarts
    rw [cutText, hk, hcut, List.cons_append, List.cons_append, List.take_succ_cons,
      List.take_succ_cons] at hrest
    have hmessage : outOfMemory = 60 :: 101 :: outOfMemory.drop 2 := by decide
    rw [hmessage] at hrest
    have hsecond := (List.cons.inj (List.cons.inj hrest).2).1
    exact absurd hsecond (by decide)

theorem Recovered.survives_iff {d d' : BufferDesc} {n m : ℕ} {line : List Byte}
    (h : Recovered d d' n m line) (hone : 1 ≤ n) (hline : line ≠ []) :
    Survives d d' ↔
      bufSize n ≤ sizeLimit ∧
        (bufSize n = lineLength ∨ bufSize n < outOfMemory.length + line.length) ∧
        ∀ k, bufSize n ≤ lineLength * 2 ^ k →
          outOfMemory.length + line.length ≠ lineLength * 2 ^ k ∧
            outOfMemory.length + line.length + 1 ≠ lineLength * 2 ^ k := by
  have hlimit : bufSize n ≤ sizeLimit ↔ n ≤ 7 := bufSize_le_iff (n := 7)
  have hmin : lineLength ≤ bufSize n := bufSize_le_iff.mpr hone
  -- the block is as large as `buffer_size` says
  have hsize : d'.bufferSize ≤ d'.block ↔
      bufSize n = lineLength ∨ bufSize n < outOfMemory.length + line.length := by
    rw [h.size, h.block]
    split
    next heq =>
      have hfits := h.fits
      rw [heq] at hfits ⊢
      omega
    next hne =>
      obtain heq | hlast := h.least
      · exact absurd heq hne
      · have hle := h.le
        have : bufSize n ≤ bufSize (m - 1) := bufSize_le_iff.mpr (by omega)
        exact iff_of_true (le_refl _) (Or.inr (by omega))
  obtain ⟨f, hf, hws⟩ := h.writes
  rw [← room_iff hone h.le h.fits h.least, hlimit, ← message_prefix_iff h.le hline h.least,
    ← h.text, ← hsize]
  constructor
  · intro hs
    refine ⟨hs.text, hs.size, ?_⟩
    obtain ⟨ws, hall, hin⟩ := hs.writes
    obtain ⟨wsf, hwsf, -⟩ := hf
    rw [hwsf, hall, List.append_assoc, List.append_cancel_left_eq] at hws
    have hroom : outOfMemory.length + line.length + 2 ≤ d'.block := by
      refine ((@putWrites_bound_iff (bufSize m) d'.block _ _ _).mp fun w hw => ?_).1
      rw [← (mem_putWrites hw).2]
      exact hin w (hws ▸ List.mem_append_right _ hw)
    refine hroom.trans ?_
    rw [h.block]
    split
    · exact hmin.trans (bufSize_le_iff.mpr h.le)
    · exact le_refl _
  · rintro ⟨htext, hblock, hroom⟩
    refine ⟨hblock, ?_, htext, h.superseded⟩
    rw [h.size] at hblock
    refine hf.trans (putWrites_within hws (hroom.trans hblock) fun _ => ?_)
    rw [length_outOfMemory, length_snip]
    omega

/-- The call returns, and the buffer survives it. -/
def SurvivesCall (d : BufferDesc) (line : List Byte) (evs : List Realloc) : Prop :=
  ∃ d' evs', addLine d line evs = .ok (d', evs') ∧ Survives d d'

/-- The size that was asked for when `realloc` failed last, after `k` other outcomes. -/
def failedSize (d : BufferDesc) (k : ℕ) : ℕ := nextSize^[k + 1] d.bufferSize

/-- The failure is survived if the message was not cut, if the line made the block grow
    again to the size, or the size is that of the new block, and if the line fits there. -/
def FailureFits (d : BufferDesc) (line : List Byte) (k : ℕ) : Prop :=
  failedSize d k ≤ sizeLimit ∧
    (failedSize d k = lineLength ∨ failedSize d k < outOfMemory.length + line.length) ∧
    outOfMemory.length + line.length ≤ 2 ^ 30 ∧
    ∀ j, failedSize d k ≤ lineLength * 2 ^ j →
      outOfMemory.length + line.length ≠ lineLength * 2 ^ j ∧
        outOfMemory.length + line.length + 1 ≠ lineLength * 2 ^ j

theorem addLine_failed {d : BufferDesc} (hd : d.Sized) (hsup : d.superseded = false) (line : CStr)
    {pre : List Realloc} (hpre : Reaches line.val.length d.bufferPos d.bufferSize pre)
    (core : Memory) {rest : List Realloc} (hrest : ∀ e ∈ rest, e.Ok) :
    (SurvivesCall d line.val (pre ++ .failed (some core) :: rest) ↔
        FailureFits d line.val pre.length) ∧
      ∀ d' evs', addLine d line.val (pre ++ .failed (some core) :: rest) = .ok (d', evs') →
        d'.text ≠ outOfMemory := by
  obtain ⟨n, -, hsize⟩ := hd.size
  obtain ⟨hlt, hint, -⟩ := hpre.short
  have hline : line.val ≠ [] := by
    have hpos := hd.pos
    intro hnil
    rw [hnil, List.length_nil] at hlt
    omega
  have hlen : line.val.length ≠ 0 := fun h0 => hline (List.length_eq_zero_iff.mp h0)
  have hfailed : failedSize d pre.length = bufSize (n + pre.length + 1) := by
    rw [failedSize, hsize, iterate_nextSize, Nat.add_assoc]
  -- the call is the loop from the failure on
  obtain ⟨f, hf, hn, hloop⟩ := growLoop_failed core rest pre (22 - pre.length) hsize hpre
  rw [show 22 - pre.length + pre.length + 2 = 24 by omega] at hloop
  have hcall : addLine d line.val (pre ++ .failed (some core) :: rest) =
      (growLoop (22 - pre.length + 1) f line.val rest >>= fun s => .ok
        (s.1.putLine line.val, s.2)) := by
    rw [addLine, addLineBy, hsup, if_neg Bool.false_ne_true, if_neg (by omega), hloop]
  rw [SurvivesCall, FailureFits, hfailed, hcall]
  by_cases htotal : outOfMemory.length + line.val.length ≤ 2 ^ 30
  · have hfuel : 20 ≤ 22 - pre.length + 1 + (n + pre.length + 1) := by omega
    obtain ⟨g, evs', m, hgrow, hrec⟩ :=
      hf.recovered (by omega) (by omega) line hrest hfuel htotal
    have hiff := hrec.survives_iff (by omega) hline
    rw [hgrow, ok_bind, and_iff_right htotal, ← hiff]
    constructor
    · constructor
      · rintro ⟨d', evs'', heq, hs⟩
        rw [← (Prod.mk.inj (Except.ok.inj heq)).1] at hs
        exact hs
      · intro hs
        exact ⟨_, _, rfl, hs⟩
    · intro d' evs'' heq htext
      rw [← (Prod.mk.inj (Except.ok.inj heq)).1, hrec.text] at htext
      have := congrArg List.length htext
      rw [length_addedText, length_failedText] at this
      omega
  · have herr : growLoop (22 - pre.length + 1) f line.val rest = .error .undefined := by
      rw [← hf.pos] at htotal
      exact growLoop_overflow hrest (n := n + pre.length + 1) (by omega) (by omega) hf.size
        (not_le.mp htotal)
    rw [herr, error_bind]
    constructor
    · refine iff_of_false ?_ fun h => htotal h.2.2.1
      rintro ⟨d', evs', heq, -⟩
      exact absurd heq (by simp)
    · intro d' evs' heq
      exact absurd heq (by simp)

/-- In every state that any run reaches, whenever `realloc` fails: the buffer is sound
    after the call exactly if `FailureFits`; and it never holds just the message. -/
theorem addLine_failure_iff {evs evs₀ : List Realloc} {ops : List BufferOp} {d : BufferDesc}
    (h : BufferDesc.Reached evs ops d evs₀) (hsup : d.superseded = false) (line : CStr)
    {pre : List Realloc} (hpre : Reaches line.val.length d.bufferPos d.bufferSize pre)
    (core : Memory) {rest : List Realloc} (hrest : ∀ e ∈ rest, e.Ok) :
    (SurvivesCall d line.val (pre ++ .failed (some core) :: rest) ↔
        FailureFits d line.val pre.length) ∧
      ∀ d' evs', addLine d line.val (pre ++ .failed (some core) :: rest) = .ok (d', evs') →
        d'.text ≠ outOfMemory :=
  addLine_failed (reached_sized h) hsup line hpre core hrest

theorem short_letters {d : BufferDesc} (hsize : d.bufferSize = 4096) (hpos : d.bufferPos = 4)
    {n : ℕ} (hn : 4093 ≤ n) (hint : n < 10000) :
    Reaches (letters n).val.length d.bufferPos d.bufferSize [] := by
  rw [length_letters, hsize, hpos, Reaches, Short]
  omega

theorem failedSize_first {d : BufferDesc} (hsize : d.bufferSize = 4096) :
    failedSize d 0 = 8192 := by
  show nextSize d.bufferSize = 8192
  rw [hsize]
  rfl

theorem addLine_failure_long : ∃ d evs', BufferDesc.Reached [] [] d evs' ∧
    SurvivesCall d (letters 8165).val [.failed (some fun _ => 0)] := by
  obtain ⟨d, evs', hreach, hsup, hsize, hpos⟩ := constructor_reached
  refine ⟨d, evs', hreach, (@addLine_failure_iff _ _ _ _ hreach hsup (letters 8165) []
    (short_letters hsize hpos (by omega) (by omega)) (fun _ => 0) []
    (fun _ h => absurd h List.not_mem_nil)).1.mpr ?_⟩
  rw [List.length_nil, FailureFits, failedSize_first hsize, length_letters, length_outOfMemory]
  refine ⟨by decide, Or.inr (by omega), by omega, fun j _ => ?_⟩
  rw [lineLength]
  omega

/-- A line of 4095 characters for which `realloc` fails: the block gets 4096 bytes, and 28
    of them are taken by the message. -/
theorem addLine_failure_unsound : ¬ ∀ (evs evs₀ : List Realloc) (ops : List BufferOp)
    (d : BufferDesc) (line : CStr) (pre rest : List Realloc) (core : Memory),
    BufferDesc.Reached evs ops d evs₀ → d.superseded = false →
      Reaches line.val.length d.bufferPos d.bufferSize pre → (∀ e ∈ rest, e.Ok) →
        SurvivesCall d line.val (pre ++ .failed (some core) :: rest) := by
  intro hall
  obtain ⟨d, evs', hreach, hsup, hsize, hpos⟩ := constructor_reached
  have hshort := short_letters hsize hpos (show 4093 ≤ 4095 by omega) (by omega)
  have hnone : ∀ e ∈ ([] : List Realloc), e.Ok := fun _ h => absurd h List.not_mem_nil
  have h := hall _ _ _ d (letters 4095) [] [] (fun _ => 0) hreach hsup hshort hnone
  rw [(addLine_failed (reached_sized hreach) hsup (letters 4095) hshort (fun _ => 0) hnone).1] at h
  rw [List.length_nil, FailureFits, failedSize_first hsize, length_letters,
    length_outOfMemory] at h
  obtain hmin | hlt := h.2.1
  · exact absurd hmin (by decide)
  · omega

end CompatSuva.Audit
