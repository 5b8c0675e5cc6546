import CompatSuva.Common.Memory
import CompatSuva.Common.Outcome
import CompatSuva.Scl.Types

/-!
# The buffers of `SecurityAudit`

Model of `struct buffer_desc` (`SecurityAudit.c` lines 24–31), `add_line` and
`clear_buffer`. A buffer is a memory, addressed from `buffer`: a write outside the block
changes what lies there. Every write is recorded with its bounds. What `realloc` and
`malloc` return are arguments.

Signed overflow is undefined, and so is a line whose length an `int` cannot hold.

* `growLoop_ok`: how the buffer grows when `realloc` does not fail;
* `addLine_spec`: the text after a line has been added, and what has been written.
-/

namespace CompatSuva.Audit

open CompatSuva.Common CompatSuva.Scl

/-! ## Data -/

/-- Bytes `start` to `stop - 1` are written, while the block has `block` bytes and
    `buffer_size` is `size`. -/
structure Write where
  start : ℤ
  stop : ℤ
  size : ℕ
  block : ℕ
  deriving DecidableEq, Repr

/-- `struct buffer_desc`: the memory from `buffer` on, the bytes of the block there (0
    for NULL), and the other fields. -/
structure BufferDesc where
  mem : Memory
  block : ℕ
  bufferSize : ℕ
  bufferPos : ℕ
  superseded : Bool
  writes : List Write

/-- `LINE_LENGTH`. -/
def lineLength : ℕ := 4096

/-- Above this size a buffer is cut (line 418). -/
def sizeLimit : ℕ := 262144

/-- What `realloc` does: a block whose new bytes are those of `junk`; or NULL, and what
    `malloc(LINE_LENGTH)` then gives. -/
inductive Realloc where
  | moved (junk : Memory)
  | failed (core : Option Memory)

/-- A call that does not return: `exit(1)`; undefined behaviour; `starved` is the loop
    of the model that has gone round too often, which does not happen. -/
inductive Halt where
  | exit
  | undefined
  | starved
  deriving DecidableEq, Repr

/-- What `realloc` does next; with no more outcomes given, it succeeds. -/
def nextRealloc : List Realloc → Realloc × List Realloc
  | [] => (.moved fun _ => 0, [])
  | e :: evs => (e, evs)

/-- The text added when memory runs out (line 409). -/
def outOfMemory : List Byte := chars "<error>256\nRan out of memory"

/-- The mark of a text that was cut (line 419). -/
def snip : List Byte := chars "\n\n(Message too long, snip)\n"

namespace BufferDesc

/-- `memset(&buf, 0, sizeof(struct buffer_desc))`. -/
def zero : BufferDesc := ⟨fun _ => 0, 0, 0, 0, false, []⟩

/-- `strcpy(buffer + offset, s)`. -/
def strcpy (d : BufferDesc) (offset : ℤ) (s : List Byte) : BufferDesc :=
  { d with
    mem := store d.mem offset (s ++ [0])
    writes := d.writes ++ [⟨offset, offset + s.length + 1, d.bufferSize, d.block⟩] }

/-- `*(buffer + offset) = '\0'`. -/
def terminate (d : BufferDesc) (offset : ℤ) : BufferDesc :=
  { d with
    mem := store d.mem offset [0]
    writes := d.writes ++ [⟨offset, offset + 1, d.bufferSize, d.block⟩] }

/-- `realloc(buffer, size)`, when it succeeds. -/
def realloc (d : BufferDesc) (size : ℕ) (junk : Memory) : BufferDesc :=
  { d with
    mem := fun x => if 0 ≤ x ∧ x < min d.block size then d.mem x else junk x
    block := size }

/-- `clear_buffer` (lines 431–437). -/
def clearBuffer (d : BufferDesc) : BufferDesc :=
  { { d with bufferPos := 0 }.terminate 0 with superseded := false }

/-- The end of `add_line` (lines 414–428), once the buffer has grown. -/
def putLine (d : BufferDesc) (line : List Byte) : BufferDesc :=
  let d := d.strcpy d.bufferPos line
  let d := { d with bufferPos := d.bufferPos + line.length }
  let d :=
    if sizeLimit < d.bufferSize then
      { d with superseded := true }.strcpy (d.bufferPos - snip.length) snip
    else d
  d.terminate (d.bufferPos + 1)

/-- The text in the buffer. -/
def text (d : BufferDesc) : List Byte := (load d.mem 0 (d.bufferPos + 2)).takeWhile (· ≠ 0)

end BufferDesc

/-! ## `add_line` -/

/-- `add_line` (lines 384–429), given its loop. -/
def addLineBy (grow : BufferDesc → List Byte → List Realloc →
    Except Halt (BufferDesc × List Realloc))
    (d : BufferDesc) (line : List Byte) (evs : List Realloc) :
    Except Halt (BufferDesc × List Realloc) :=
  if d.superseded then .ok (d, evs)
  else if 2 ^ 31 ≤ line.length then .error .undefined
  else do
    let (d, evs) ← grow d line evs
    .ok (d.putLine line, evs)

/-- The size asked for next (lines 396–398). -/
def nextSize (size : ℕ) : ℕ := if size * 2 < lineLength then lineLength else size * 2

/-- The `while` loop of `add_line` (lines 392–413). When `realloc` fails, the buffer
    starts anew with a message, and the loop goes on with the size it asked for. -/
def growLoop : ℕ → BufferDesc → List Byte → List Realloc → Except Halt (BufferDesc × List Realloc)
  | 0, _, _, _ => .error .starved
  | fuel + 1, d, line, evs =>
    if 2 ^ 31 ≤ d.bufferPos + line.length then .error .undefined
    else if d.bufferPos + line.length < d.bufferSize + 1 then .ok (d, evs)
    else if 2 ^ 31 ≤ d.bufferSize * 2 then .error .undefined
    else
      let d := { d with bufferSize := nextSize d.bufferSize }
      match nextRealloc evs with
      | (.moved junk, evs) => growLoop fuel (d.realloc d.bufferSize junk) line evs
      | (.failed none, _) => .error .exit
      | (.failed (some core), evs) => do
        let d := { d with mem := core, block := lineLength }.clearBuffer
        let (d, evs) ← addLineBy (growLoop fuel) d outOfMemory evs
        growLoop fuel { d with superseded := true } line evs

/-- `add_line`. The size doubles until it reaches `2^30` bytes at most. -/
def addLine (d : BufferDesc) (line : List Byte) (evs : List Realloc) :
    Except Halt (BufferDesc × List Realloc) := addLineBy (growLoop 24) d line evs

/-- A call on a buffer. -/
inductive BufferOp where
  | addLine (line : CStr)
  | clear

/-- A call, with the outcomes of `realloc` that are left. -/
def BufferDesc.step (s : BufferDesc × List Realloc) :
    BufferOp → Except Halt (BufferDesc × List Realloc)
  | .addLine line => Audit.addLine s.1 line.val s.2
  | .clear => .ok (s.1.clearBuffer, s.2)

/-- A sequence of calls. -/
def BufferDesc.run (s : BufferDesc × List Realloc) (ops : List BufferOp) :
    Except Halt (BufferDesc × List Realloc) := ops.foldlM BufferDesc.step s

/-- The line that `constructor` adds (lines 56–57). -/
def nullLine : CStr := ⟨chars "null", by decide⟩

/-- A buffer after `constructor` (lines 51–58) and a sequence of calls. -/
def BufferDesc.Reached (evs : List Realloc) (ops : List BufferOp) (d : BufferDesc)
    (evs' : List Realloc) : Prop :=
  BufferDesc.run (.zero, evs) (.addLine nullLine :: ops) = .ok (d, evs')

/-- `n` times the character `a`. -/
def letters (n : ℕ) : CStr :=
  ⟨List.replicate n 97, fun h => absurd (List.eq_of_mem_replicate h) (by decide)⟩

theorem length_letters (n : ℕ) : (letters n).val.length = n := List.length_replicate

/-! ## Growing -/

/-- The sizes a buffer can have: none, and `LINE_LENGTH` doubled any number of times. -/
def bufSize : ℕ → ℕ
  | 0 => 0
  | k + 1 => lineLength * 2 ^ k

@[simp] theorem nextSize_bufSize (n : ℕ) : nextSize (bufSize n) = bufSize (n + 1) := by
  cases n with
  | zero => rfl
  | succ k =>
    have hpos : 1 ≤ 2 ^ k := Nat.one_le_two_pow
    have hpow : 2 ^ (k + 1) = 2 ^ k * 2 := pow_succ 2 k
    rw [nextSize, if_neg]
    · simp only [bufSize, hpow]
      ring
    · simp only [bufSize, lineLength]
      omega

theorem bufSize_lt {m n : ℕ} (h : m < n) : bufSize m < bufSize n := by
  obtain ⟨k, rfl⟩ := Nat.exists_eq_add_one_of_ne_zero (Nat.ne_zero_of_lt h)
  cases m with
  | zero => simp [bufSize, lineLength]
  | succ j =>
    simp only [bufSize, lineLength]
    have hpow : 2 ^ j < 2 ^ k := Nat.pow_lt_pow_right (by norm_num) (by omega)
    omega

theorem bufSize_le_iff {m n : ℕ} : bufSize m ≤ bufSize n ↔ m ≤ n := by
  constructor
  · intro h
    by_contra hlt
    have := bufSize_lt (not_le.mp hlt)
    omega
  · intro h
    rcases Nat.lt_or_eq_of_le h with hlt | rfl
    · exact (bufSize_lt hlt).le
    · exact le_refl _

/-- Sizes up to `2^30` can be doubled, but for `2^30` itself. -/
theorem bufSize_double {n : ℕ} : bufSize n * 2 < 2 ^ 31 ↔ n ≤ 18 := by
  have h19 : bufSize 19 = 2 ^ 30 := by decide
  rw [← Nat.lt_succ_iff, show Nat.succ 18 = 19 from rfl]
  constructor
  · intro h
    by_contra hge
    have := bufSize_le_iff.mpr (not_lt.mp hge)
    omega
  · intro h
    have := bufSize_lt h
    omega

/-- `realloc` succeeds. -/
def Realloc.Ok : Realloc → Prop
  | .moved _ => True
  | .failed _ => False

/-- From `d` to `d'` the buffer has grown from size `n` to the first size `m` that holds
    `total` bytes; the block goes with it. -/
structure Grown (d d' : BufferDesc) (n m total : ℕ) : Prop where
  le : n ≤ m
  max : m ≤ 19
  size : d'.bufferSize = bufSize m
  fits : total ≤ bufSize m
  least : m = n ∨ bufSize (m - 1) < total
  same : m = n → d' = d
  block : n < m → d'.block = d'.bufferSize
  mem : Agree d.mem d'.mem 0 d.block
  pos : d'.bufferPos = d.bufferPos
  superseded : d'.superseded = d.superseded
  writes : d'.writes = d.writes

theorem nextRealloc_ok {evs : List Realloc} (h : ∀ e ∈ evs, e.Ok) :
    ∃ junk evs', nextRealloc evs = (.moved junk, evs') ∧ ∀ e ∈ evs', e.Ok := by
  cases evs with
  | nil => exact ⟨_, _, rfl, h⟩
  | cons e evs =>
    have he : e.Ok := h e (by simp)
    cases e with
    | moved junk => exact ⟨junk, evs, rfl, fun e he => h e (by simp [he])⟩
    | failed core => exact he.elim

/-- One round of the loop, when `realloc` succeeds. -/
theorem growLoop_moved {fuel n : ℕ} {d : BufferDesc} {line : List Byte} {evs evs' : List Realloc}
    {junk : Memory} (hsize : d.bufferSize = bufSize n) (hn : n ≤ 18)
    (htotal : bufSize n < d.bufferPos + line.length) (hint : d.bufferPos + line.length < 2 ^ 31)
    (hnext : nextRealloc evs = (.moved junk, evs')) :
    growLoop (fuel + 1) d line evs =
      growLoop fuel ({ d with bufferSize := bufSize (n + 1) }.realloc (bufSize (n + 1)) junk) line
        evs' := by
  have hdouble : bufSize n * 2 < 2 ^ 31 := bufSize_double.mpr hn
  rw [growLoop, if_neg (by omega), if_neg (by omega), if_neg (by omega)]
  simp only [hnext, hsize, nextSize_bufSize]

/-- The loop, when `realloc` does not fail. -/
theorem growLoop_ok {evs : List Realloc} (hok : ∀ e ∈ evs, e.Ok) {fuel n : ℕ}
    (hfuel : 20 ≤ fuel + n) (hn : n ≤ 19) {d : BufferDesc} (hsize : d.bufferSize = bufSize n)
    (hblock : d.block ≤ d.bufferSize) {line : List Byte}
    (htotal : d.bufferPos + line.length ≤ 2 ^ 30) :
    ∃ d' evs' m, growLoop fuel d line evs = .ok (d', evs') ∧ (∀ e ∈ evs', e.Ok) ∧
      Grown d d' n m (d.bufferPos + line.length) := by
  induction fuel generalizing d n evs with
  | zero => omega
  | succ fuel ih =>
    by_cases hfit : d.bufferPos + line.length ≤ bufSize n
    · refine ⟨d, evs, n, ?_, hok, ?_⟩
      · rw [growLoop, if_neg (by omega), if_pos (by omega)]
      · exact ⟨le_refl _, hn, hsize, hfit, Or.inl rfl, fun _ => rfl,
          fun h => absurd h (lt_irrefl _), fun _ _ _ => rfl, rfl, rfl, rfl⟩
    · have h19 : bufSize 19 = 2 ^ 30 := by decide
      have hn' : n ≤ 18 := by
        by_contra hlt
        have : n = 19 := by omega
        rw [this] at hfit
        omega
      obtain ⟨junk, evs₁, hnext, hok₁⟩ := nextRealloc_ok hok
      have hlt : bufSize n < bufSize (n + 1) := bufSize_lt (by omega)
      rw [growLoop_moved hsize hn' (by omega) (by omega) hnext]
      obtain ⟨d', evs', m, hrun, hok', hgrown⟩ :=
        @ih evs₁ hok₁ (n + 1) (by omega) (by omega)
          ({ d with bufferSize := bufSize (n + 1) }.realloc (bufSize (n + 1)) junk) rfl (le_refl _)
          htotal
      have hmem : Agree d.mem
          ({ d with bufferSize := bufSize (n + 1) }.realloc
            (bufSize (n + 1)) junk).mem 0 d.block := by
        intro x hx hx'
        simp only [BufferDesc.realloc]
        rw [if_pos ⟨hx, by rw [min_eq_left (by omega)]; exact hx'⟩]
      refine ⟨d', evs', m, hrun, hok', ?_⟩
      have hle := hgrown.le
      refine ⟨by omega, hgrown.max, hgrown.size, hgrown.fits, Or.inr ?_, fun h => by omega,
        fun _ => ?_, hmem.trans ?_, hgrown.pos, hgrown.superseded, hgrown.writes⟩
      · rcases hgrown.least with heq | hlast
        · rw [heq]
          exact not_le.mp hfit
        · exact hlast
      · by_cases hm : m = n + 1
        · rw [hgrown.same hm]
          rfl
        · exact hgrown.block (by omega)
      · exact hgrown.mem.mono (le_refl _) (by
          show (d.block : ℤ) ≤ (bufSize (n + 1) : ℕ)
          omega)

/-- A total that no size holds. -/
theorem growLoop_overflow {evs : List Realloc} (hok : ∀ e ∈ evs, e.Ok) {fuel n : ℕ}
    (hfuel : 20 ≤ fuel + n) (hn : n ≤ 19) {d : BufferDesc} (hsize : d.bufferSize = bufSize n)
    {line : List Byte} (htotal : 2 ^ 30 < d.bufferPos + line.length) :
    growLoop fuel d line evs = .error .undefined := by
  have h19 : bufSize 19 = 2 ^ 30 := by decide
  induction fuel generalizing d n evs with
  | zero => omega
  | succ fuel ih =>
    have hle : bufSize n ≤ bufSize 19 := bufSize_le_iff.mpr hn
    by_cases hint : d.bufferPos + line.length < 2 ^ 31
    · by_cases hn' : n ≤ 18
      · obtain ⟨junk, evs₁, hnext, hok₁⟩ := nextRealloc_ok hok
        rw [growLoop_moved hsize hn' (by omega) hint hnext]
        exact @ih evs₁ hok₁ (n + 1) (by omega) (by omega) _ rfl htotal
      · have hdouble : ¬ bufSize n * 2 < 2 ^ 31 := fun h => hn' (bufSize_double.mp h)
        rw [growLoop, if_neg (by omega), if_neg (by omega), if_pos (by omega)]
    · rw [growLoop, if_pos (by omega)]

/-! ## The text -/

/-- The buffer holds the text, and `buffer_pos` stands behind it. -/
structure BufferDesc.Rep (d : BufferDesc) (text : List Byte) : Prop where
  holds : Holds d.mem 0 (text ++ [0])
  noNul : (0 : Byte) ∉ text
  pos : d.bufferPos = text.length

/-- A text that is cut: its end is overwritten with the mark, or with the end of the
    mark if the text is shorter. -/
def cutText (text : List Byte) : List Byte :=
  text.take (text.length - snip.length) ++ snip.drop (snip.length - text.length)

theorem length_snip : snip.length = 27 := by decide

theorem length_cutText (text : List Byte) : (cutText text).length = text.length := by
  simp only [cutText, List.length_append, List.length_take, List.length_drop]
  omega

theorem BufferDesc.Rep.text_eq {d : BufferDesc} {text : List Byte} (h : d.Rep text) :
    d.text = text := by
  have hload : load d.mem 0 (d.bufferPos + 2) =
      (text ++ [0]) ++ load d.mem ((text ++ [0]).length : ℕ) 1 := by
    have hsplit : d.bufferPos + 2 = (text ++ [0]).length + 1 := by
      rw [h.pos, List.length_append, List.length_singleton]
    rw [hsplit, load_add, h.holds.load rfl, zero_add]
  have hchars : ∀ b ∈ text, (decide (b ≠ 0)) = true := by
    intro b hb
    simpa using fun h0 : b = 0 => h.noNul (h0 ▸ hb)
  rw [BufferDesc.text, hload, List.append_assoc, List.takeWhile_append_of_pos hchars]
  simp

theorem rep_clearBuffer (d : BufferDesc) : d.clearBuffer.Rep [] :=
  ⟨holds_store _ _ _, List.not_mem_nil, rfl⟩

/-- The mark, copied over the end of a text. -/
theorem holds_snip {m : Memory} {text : List Byte} (h : Holds m 0 text) :
    Holds (store m (text.length - snip.length : ℤ) (snip ++ [0])) 0 (cutText text ++ [0]) := by
  have hsnip := holds_store m (text.length - snip.length : ℤ) (snip ++ [0])
  have hlen : (snip.take (snip.length - text.length)).length = snip.length - text.length := by
    rw [List.length_take]
    omega
  have hsplit : snip ++ [0] = snip.take (snip.length - text.length) ++
      (snip.drop (snip.length - text.length) ++ [0]) := by
    rw [← List.append_assoc, List.take_append_drop]
  rw [hsplit, holds_append, hlen] at hsnip
  rw [cutText, List.append_assoc, holds_append]
  obtain ⟨-, hend⟩ := hsnip
  have hfirst : (text.take (text.length - snip.length)).length = text.length - snip.length := by
    rw [List.length_take]
    omega
  have hat : (text.length - snip.length : ℤ) + (snip.length - text.length : ℕ) =
      0 + (text.length - snip.length : ℕ) := by
    omega
  rw [← hsplit, hat] at hend
  rw [hfirst]
  refine ⟨?_, hend⟩
  intro i hi
  have hi' : i < text.length - snip.length := hfirst ▸ hi
  rw [store_eq_of_lt (by omega), h i (by omega), List.getElem_take]

theorem putLine_long {d : BufferDesc} (hsize : sizeLimit < d.bufferSize) (line : List Byte) :
    d.putLine line = { d with
      mem := store (store (store d.mem d.bufferPos (line ++ [0]))
        ((d.bufferPos + line.length : ℕ) - snip.length : ℤ) (snip ++ [0]))
        ((d.bufferPos + line.length : ℕ) + 1 : ℤ) [0]
      bufferPos := d.bufferPos + line.length
      superseded := true
      writes := d.writes ++
        [⟨d.bufferPos, d.bufferPos + line.length + 1, d.bufferSize, d.block⟩] ++
        [⟨(d.bufferPos + line.length : ℕ) - snip.length,
          (d.bufferPos + line.length : ℕ) - snip.length + snip.length + 1, d.bufferSize,
            d.block⟩] ++
        [⟨(d.bufferPos + line.length : ℕ) + 1, (d.bufferPos + line.length : ℕ) + 1 + 1,
          d.bufferSize, d.block⟩] } :=
  congrArg (fun d : BufferDesc => d.terminate (d.bufferPos + 1)) (if_pos hsize)

theorem putLine_short {d : BufferDesc} (hsize : ¬ sizeLimit < d.bufferSize) (line : List Byte) :
    d.putLine line = { d with
      mem := store (store d.mem d.bufferPos (line ++ [0]))
        ((d.bufferPos + line.length : ℕ) + 1 : ℤ) [0]
      bufferPos := d.bufferPos + line.length
      writes := d.writes ++
        [⟨d.bufferPos, d.bufferPos + line.length + 1, d.bufferSize, d.block⟩] ++
        [⟨(d.bufferPos + line.length : ℕ) + 1, (d.bufferPos + line.length : ℕ) + 1 + 1,
          d.bufferSize, d.block⟩] } :=
  congrArg (fun d : BufferDesc => d.terminate (d.bufferPos + 1)) (if_neg hsize)

/-- The writes of `add_line` for `len` characters at `pos`. -/
def putWrites (size block pos len : ℕ) : List Write :=
  [⟨pos, pos + len + 1, size, block⟩] ++
    ((if sizeLimit < size then
      [⟨(pos + len : ℕ) - snip.length, (pos + len : ℕ) - snip.length + snip.length + 1, size,
        block⟩]
    else []) ++ [⟨(pos + len : ℕ) + 1, (pos + len : ℕ) + 1 + 1, size, block⟩])

/-- What a line does to the buffer once it has grown. -/
structure Put (d d' : BufferDesc) (text line : List Byte) : Prop where
  rep : d'.Rep (if sizeLimit < d.bufferSize then cutText (text ++ line) else text ++ line)
  size : d'.bufferSize = d.bufferSize
  block : d'.block = d.block
  superseded : d'.superseded = (d.superseded || decide (sizeLimit < d.bufferSize))
  writes : d'.writes = d.writes ++ putWrites d.bufferSize d.block text.length line.length

theorem putLine_spec {d : BufferDesc} {text line : List Byte} (h : Holds d.mem 0 text)
    (htext : (0 : Byte) ∉ text) (hline : (0 : Byte) ∉ line) (hpos : d.bufferPos = text.length) :
    Put d (d.putLine line) text line := by
  -- the line behind the text
  have hput : Holds (store d.mem text.length (line ++ [0])) 0 (text ++ line ++ [0]) := by
    rw [List.append_assoc, holds_append, zero_add]
    exact ⟨h.congr (agree_store_below (le_refl _)) (le_refl _) (by omega), holds_store _ _ _⟩
  have hno : (0 : Byte) ∉ text ++ line := by
    rw [List.mem_append, not_or]
    exact ⟨htext, hline⟩
  have hlen : (text ++ line).length = text.length + line.length := List.length_append
  -- the terminator at `buffer_pos + 1` leaves it alone
  have hend : ∀ {m : Memory} {t : List Byte}, Holds m 0 (t ++ [0]) →
      t.length = text.length + line.length →
        Holds (store m ((text.length + line.length : ℕ) + 1 : ℤ) [0]) 0 (t ++ [0]) := by
    intro m t ht heq
    refine ht.congr (agree_store_below (le_refl _)) (le_refl _) ?_
    rw [List.length_append, heq, List.length_singleton]
    push_cast
    omega
  by_cases hsize : sizeLimit < d.bufferSize
  · have hcut := holds_snip (holds_append.mp hput).1
    rw [hlen] at hcut
    have hcutlen : (cutText (text ++ line)).length = text.length + line.length := by
      rw [length_cutText, hlen]
    have hsnip : (0 : Byte) ∉ snip := by decide
    have hcutno : (0 : Byte) ∉ cutText (text ++ line) := by
      rw [cutText, List.mem_append, not_or]
      exact ⟨fun hmem => hno (List.mem_of_mem_take hmem),
        fun hmem => hsnip (List.mem_of_mem_drop hmem)⟩
    have hmem := hend hcut hcutlen
    rw [putLine_long hsize, hpos]
    refine ⟨?_, rfl, rfl, by simp [hsize], ?_⟩
    · rw [if_pos hsize]
      exact ⟨hmem, hcutno, hcutlen.symm⟩
    · simp only [putWrites, if_pos hsize, List.append_assoc]
  · have hmem := hend hput hlen
    rw [putLine_short hsize, hpos]
    refine ⟨?_, rfl, rfl, by simp [hsize], ?_⟩
    · rw [if_neg hsize]
      exact ⟨hmem, hno, hlen.symm⟩
    · simp only [putWrites, if_neg hsize, List.append_assoc, List.nil_append]

/-! ## A whole call -/

/-- A buffer when `realloc` has not failed: `buffer_size` is the size of the block, and
    the text lies in it. -/
structure BufferDesc.Good (d : BufferDesc) (n : ℕ) (text : List Byte) : Prop where
  max : n ≤ 19
  size : d.bufferSize = bufSize n
  block : d.block = d.bufferSize
  fits : text.length ≤ d.bufferSize
  rep : d.Rep text

/-- The text after a line has been added in a buffer of size `bufSize m`. -/
def addedText (m : ℕ) (text line : List Byte) : List Byte :=
  if sizeLimit < bufSize m then cutText (text ++ line) else text ++ line

/-- What `add_line` does when `realloc` does not fail and the line is not dropped. -/
structure Added (d d' : BufferDesc) (n m : ℕ) (text line : List Byte) : Prop where
  le : n ≤ m
  least : m = n ∨ bufSize (m - 1) < text.length + line.length
  good : d'.Good m (addedText m text line)
  superseded : d'.superseded = decide (sizeLimit < bufSize m)
  writes : d'.writes = d.writes ++ putWrites (bufSize m) (bufSize m) text.length line.length

theorem sizeLimit_lt_bufSize {m : ℕ} : sizeLimit < bufSize m ↔ 8 ≤ m := by
  rw [show sizeLimit = bufSize 7 from rfl, ← not_le, bufSize_le_iff]
  omega

theorem length_addedText (m : ℕ) (text line : List Byte) :
    (addedText m text line).length = text.length + line.length := by
  unfold addedText
  split
  · rw [length_cutText, List.length_append]
  · exact List.length_append

theorem addedText_short {m : ℕ} (h : m ≤ 7) (text line : List Byte) :
    addedText m text line = text ++ line := by
  rw [addedText, if_neg]
  rw [sizeLimit_lt_bufSize]
  omega

theorem addedText_long {m : ℕ} (h : 8 ≤ m) (text line : List Byte) :
    addedText m text line = cutText (text ++ line) := by
  rw [addedText, if_pos (sizeLimit_lt_bufSize.mpr h)]

theorem Added.not_superseded {d d' : BufferDesc} {n m : ℕ} {text line : List Byte}
    (h : Added d d' n m text line) (hm : m ≤ 7) : d'.superseded = false := by
  rw [h.superseded, decide_eq_false]
  rw [sizeLimit_lt_bufSize]
  omega

theorem Added.is_superseded {d d' : BufferDesc} {n m : ℕ} {text line : List Byte}
    (h : Added d d' n m text line) (hm : 8 ≤ m) : d'.superseded = true := by
  rw [h.superseded, decide_eq_true (sizeLimit_lt_bufSize.mpr hm)]

/-- A buffer that is not cut holds the text and the line. -/
theorem Added.good_short {d d' : BufferDesc} {n m : ℕ} {text line : List Byte}
    (h : Added d d' n m text line) (hm : m ≤ 7) : d'.Good m (text ++ line) := by
  rw [← addedText_short hm]
  exact h.good

theorem Added.good_long {d d' : BufferDesc} {n m : ℕ} {text line : List Byte}
    (h : Added d d' n m text line) (hm : 8 ≤ m) : d'.Good m (cutText (text ++ line)) := by
  rw [← addedText_long hm]
  exact h.good

theorem addLine_superseded {d : BufferDesc} (h : d.superseded = true) (line : List Byte)
    (evs : List Realloc) : addLine d line evs = .ok (d, evs) := by
  rw [addLine, addLineBy, if_pos h]

/-- A buffer of up to 256k stays so exactly if the text does. -/
theorem Added.short_iff {d d' : BufferDesc} {n m : ℕ} {text line : List Byte}
    (h : Added d d' n m text line) :
    m ≤ 7 ↔ n ≤ 7 ∧ text.length + line.length ≤ sizeLimit := by
  have h7 : sizeLimit = bufSize 7 := rfl
  have hle := h.le
  have hfits := h.good.fits
  rw [h.good.size, length_addedText] at hfits
  constructor
  · intro hm
    have := bufSize_le_iff.mpr hm
    omega
  · rintro ⟨hn, htotal⟩
    obtain heq | hlast := h.least
    · omega
    · by_contra hm
      have : bufSize 7 ≤ bufSize (m - 1) := bufSize_le_iff.mpr (by omega)
      omega

/-- `add_line`, when `realloc` does not fail and a size holds the text. -/
theorem addLine_spec {evs : List Realloc} (hok : ∀ e ∈ evs, e.Ok) {d : BufferDesc} {n : ℕ}
    {text : List Byte} (hd : d.Good n text) (hsup : d.superseded = false) (line : CStr)
    (htotal : text.length + line.val.length ≤ 2 ^ 30) :
    ∃ d' evs' m, addLine d line.val evs = .ok (d', evs') ∧ (∀ e ∈ evs', e.Ok) ∧
      Added d d' n m text line.val := by
  have hpos := hd.rep.pos
  rw [← hpos] at htotal
  obtain ⟨g, evs', m, hgrow, hok', hg⟩ := @growLoop_ok evs hok 24 n (by omega) hd.max d hd.size
    hd.block.le line.val htotal
  have hsame : g.block = g.bufferSize := by
    by_cases hm : m = n
    · rw [hg.same hm]
      exact hd.block
    · have hle := hg.le
      exact hg.block (by omega)
  have hfits := hd.fits
  have hblock := hd.block
  have hholds : Holds g.mem 0 text :=
    (holds_append.mp hd.rep.holds).1.congr hg.mem (le_refl _) (by omega)
  have hput := putLine_spec hholds hd.rep.noNul line.property (hg.pos.trans hpos)
  have hsize := hg.size
  refine ⟨g.putLine line.val, evs', m, ?_, hok', hg.le, ?_, ⟨hg.max, ?_, ?_, ?_, ?_⟩, ?_, ?_⟩
  · rw [addLine, addLineBy, if_neg (by simp [hsup]), if_neg (by omega), hgrow]
    rfl
  · rw [← hpos]
    exact hg.least
  · rw [hput.size, hsize]
  · rw [hput.block, hput.size, hsame]
  · rw [hput.size, hsize, length_addedText, ← hpos]
    exact hg.fits
  · have hrep := hput.rep
    rw [hsize] at hrep
    exact hrep
  · rw [hput.superseded, hg.superseded, hsup, hsize, Bool.false_or]
  · rw [hput.writes, hg.writes, hsame, hsize]

/-- `add_line`, when no size holds the text. -/
theorem addLine_overflow {evs : List Realloc} (hok : ∀ e ∈ evs, e.Ok) {d : BufferDesc} {n : ℕ}
    {text : List Byte} (hd : d.Good n text) (hsup : d.superseded = false) (line : List Byte)
    (htotal : 2 ^ 30 < text.length + line.length) : addLine d line evs = .error .undefined := by
  rw [addLine, addLineBy, if_neg (by simp [hsup])]
  rw [← hd.rep.pos] at htotal
  split
  · rfl
  · rw [growLoop_overflow hok (n := n) (by omega) hd.max hd.size htotal]
    rfl

theorem good_clearBuffer {d : BufferDesc} {n : ℕ} {text : List Byte} (hd : d.Good n text) :
    d.clearBuffer.Good n [] :=
  ⟨hd.max, hd.size, hd.block, Nat.zero_le _, rep_clearBuffer d⟩

theorem good_zero : BufferDesc.zero.Good 0 [] := by
  refine ⟨by omega, rfl, rfl, le_refl _, ?_, List.not_mem_nil, rfl⟩
  exact holds_singleton.mpr rfl

/-- The buffer that `constructor` makes. -/
theorem constructor_spec {evs : List Realloc} (hok : ∀ e ∈ evs, e.Ok) :
    ∃ d evs', addLine .zero nullLine.val evs = .ok (d, evs') ∧ (∀ e ∈ evs', e.Ok) ∧
      d.Good 1 nullLine.val ∧ d.superseded = false ∧ d.writes = putWrites 4096 4096 0 4 := by
  have hlen : nullLine.val.length = 4 := by decide
  obtain ⟨d, evs', m, hadd, hok', hadded⟩ := addLine_spec hok good_zero rfl nullLine (by
    rw [hlen]
    norm_num)
  have hm : m = 1 := by
    have hfits := hadded.good.fits
    rw [hadded.good.size, length_addedText, hlen, List.length_nil] at hfits
    obtain heq | hlast := hadded.least
    · rw [heq] at hfits
      exact absurd hfits (by decide)
    · rw [hlen, List.length_nil] at hlast
      by_contra hne
      have hle : bufSize 1 ≤ bufSize (m - 1) := bufSize_le_iff.mpr (by
        have hzero : m ≠ 0 := fun h0 => absurd (h0 ▸ hfits) (by decide)
        omega)
      have hone : bufSize 1 = 4096 := by decide
      omega
  rw [hm] at hadded
  refine ⟨d, evs', hadd, hok', hadded.good, ?_, hadded.writes⟩
  rw [hadded.superseded]
  rfl

/-- The buffer as `constructor` leaves it. -/
theorem constructor_reached : ∃ d evs', BufferDesc.Reached [] [] d evs' ∧ d.superseded = false ∧
    d.bufferSize = 4096 ∧ d.bufferPos = 4 := by
  obtain ⟨d, evs', hadd, -, hd, hsup, -⟩ :=
    @constructor_spec [] fun _ h => absurd h List.not_mem_nil
  refine ⟨d, evs', ?_, hsup, hd.size, hd.rep.pos⟩
  rw [BufferDesc.Reached, BufferDesc.run, List.foldlM_cons, BufferDesc.step, hadd]
  rfl

end CompatSuva.Audit
