import CompatSuva.Common.LittleEndian

/-!
# The progress of a transfer

Model of the computations of the callback code of `scl_il_xfer_ex` (`scl_inlines.c` lines 532–579).
The rate since the last callback goes into a ring of five, of which -1 marks what is unused; the
average of the ring gives the time that is left. The arithmetic on `int`s wraps, and a division by
zero traps, as does `INT_MIN / -1`. The rate is computed in floating point, where nothing traps;
what it comes to is a parameter. `exactBps` takes the exact quotient, `floatBps` the operations of
IEEE 754.

Results:
* `Ring.push`: the ring holds the last five rates;
* `Ring.runningTotal_eq`: what is divided to get their average.
-/

namespace CompatSuva.Local

open CompatSuva.Common

/-! ## Data -/

/-- `struct scl_copy_progress`. -/
structure CopyProgress where
  bytesTotal : ℤ
  bytesTransfered : ℤ
  msecElapsed : ℤ
  avgBps : ℤ
  eta : ℤ
  deriving DecidableEq, Repr

/-- The divisors of the callback code. -/
inductive Divisor where
  /-- `cur_msec - prev_msec` -/
  | msec
  | avgs
  /-- `copy_prog.avg_bps` -/
  | avgBps
  deriving DecidableEq, Repr

/-- What a transfer does not survive, and `running` for one that is not over. -/
inductive Fault where
  | divZero (d : Divisor)
  | overflow
  | undefined
  | running
  deriving DecidableEq, Repr

/-- What a callback is made for: `bytes_transfered` and `cur_msec`. -/
structure Sample where
  bytes : ℤ
  msec : ℤ
  deriving DecidableEq, Repr

/-- The variables of the callback code: `bps_avgs`, `bps_avg_index`, and the bytes and the time
    of the last callback. -/
structure Progress where
  bpsAvgs : Fin 5 → ℤ
  bpsAvgIndex : Fin 5
  last : Sample

/-- As the transfer starts: `memset(bps_avgs, 255, …)`. -/
def Progress.start : Progress := ⟨fun _ => -1, 0, ⟨0, 0⟩⟩

/-! ## The rate -/

/-- The exact quotient, truncated; `INT_MIN` where that is no `int`, as the conversion of a
    `float` gives it. -/
def exactBps (bytes msec : ℤ) : ℤ :=
  let q := (bytes * 1000).tdiv msec
  if msec ≠ 0 ∧ -2 ^ 31 ≤ q ∧ q < 2 ^ 31 then q else -2 ^ 31

/-- A `float` as an `int`. -/
def intOfFloat (f : Float32.Model) : ℤ :=
  let x := f.unpack.toInt (-2 ^ 31) (-2 ^ 31)
  if f.isFinite = true ∧ -2 ^ 31 ≤ x ∧ x < 2 ^ 31 then x else -2 ^ 31

/-- The quotient of `float`s, times 1000 (lines 557–558). -/
def floatBps (bytes msec : ℤ) : ℤ :=
  intOfFloat (Float32.Model.ofInt bytes / Float32.Model.ofInt msec * Float32.Model.ofInt 1000)

/-- One byte a second, but 134219000 is not a `float`. -/
example : exactBps 134219 134219000 = 1 ∧ floatBps 134219 134219000 = 0 := by decide +kernel

/-- The rate between two callbacks. -/
def rate (bps : ℤ → ℤ → ℤ) (last s : Sample) : ℤ :=
  bps (wrap32 (s.bytes - last.bytes)) (wrap32 (s.msec - last.msec))

/-! ## The callback code -/

/-- A division of `int`s. -/
def divide (x y : ℤ) (d : Divisor) : Except Fault ℤ :=
  if y = 0 then .error (.divZero d)
  else if x = -2 ^ 31 ∧ y = -1 then .error .overflow
  else .ok (x.tdiv y)

/-- `cur_msec` at the time `now`, the offsets being the time `start`. -/
def curMsec (start now : ℤ × ℤ) : ℤ :=
  wrap32 ((now.1 - start.1) * 1000 + (now.2 - start.2).tdiv 1000)

/-- The rate takes the next place in the ring (lines 554–558). -/
def Progress.push (p : Progress) (bps : ℤ) (s : Sample) : Progress :=
  ⟨Function.update p.bpsAvgs (p.bpsAvgIndex + 1) bps, p.bpsAvgIndex + 1, s⟩

/-- The body of the loop over `bps_avgs`. -/
def addAvg (bpsAvgs : Fin 5 → ℤ) (t : ℤ × ℤ) (i : Fin 5) : ℤ × ℤ :=
  if bpsAvgs i ≠ -1 then (wrap32 (t.1 + bpsAvgs i), t.2 + 1) else t

/-- The loop over `bps_avgs` (lines 560–568): `running_total` and `avgs`. -/
def runningTotal (bpsAvgs : Fin 5 → ℤ) : ℤ × ℤ := (List.finRange 5).foldl (addAvg bpsAvgs) (0, 0)

/-! ## The ring -/

theorem wrap32_add (x y : ℤ) : wrap32 (wrap32 x + y) = wrap32 (x + y) := by
  simp only [wrap32, BitVec.toInt_ofInt, Int.bmod_add_bmod]

/-- The rates that are not taken for a mark. -/
def used (l : List ℤ) : List ℤ := l.filter (· ≠ -1)

theorem used_append (l l' : List ℤ) : used (l ++ l') = used l ++ used l' := List.filter_append l l'

theorem used_replicate (n : ℕ) : used (List.replicate n (-1)) = [] := by
  simp [used]

theorem addAvg_eq (bpsAvgs : Fin 5 → ℤ) (x n : ℤ) (i : Fin 5) :
    addAvg bpsAvgs (wrap32 x, n) i =
      (wrap32 (x + (used [bpsAvgs i]).sum), n + (used [bpsAvgs i]).length) := by
  unfold addAvg used
  by_cases hi : bpsAvgs i = -1
  · simp [hi]
  · simp [hi, wrap32_add]

/-- The loop adds up the rates that are not taken for a mark, and counts them. -/
theorem runningTotal_eq (bpsAvgs : Fin 5 → ℤ) :
    runningTotal bpsAvgs = (wrap32 (used ((List.finRange 5).map bpsAvgs)).sum,
      ((used ((List.finRange 5).map bpsAvgs)).length : ℤ)) := by
  have hloop : ∀ (l : List (Fin 5)) (x n : ℤ), l.foldl (addAvg bpsAvgs) (wrap32 x, n) =
      (wrap32 (x + (used (l.map bpsAvgs)).sum), n + (used (l.map bpsAvgs)).length) := by
    intro l
    induction l with
    | nil =>
      intro x n
      simp [used]
    | cons i l ih =>
      intro x n
      have hsplit : used ((i :: l).map bpsAvgs) = used [bpsAvgs i] ++ used (l.map bpsAvgs) :=
        used_append [bpsAvgs i] _
      rw [List.foldl_cons, addAvg_eq, ih, hsplit, List.sum_append, List.length_append]
      push_cast
      rw [add_assoc, add_assoc]
  have htotal := hloop (List.finRange 5) 0 0
  rwa [zero_add, zero_add] at htotal

/-- The ring holds the last five of the rates `rs`, the latest first; those before the start are
    marked. -/
def Ring (rs : List ℤ) (p : Progress) : Prop :=
  ∀ j : Fin 5, p.bpsAvgs (p.bpsAvgIndex - j) = rs.getD j (-1)

theorem Ring.start : Ring [] Progress.start := fun _ => rfl

/-- The next rate takes the place of the fifth last. -/
theorem Ring.push {rs : List ℤ} {p : Progress} (h : Ring rs p) (r : ℤ) (s : Sample) :
    Ring (r :: rs) (p.push r s) := by
  intro j
  show Function.update p.bpsAvgs (p.bpsAvgIndex + 1) r (p.bpsAvgIndex + 1 - j) = _
  induction j using Fin.cases with
  | zero =>
    rw [sub_zero, Function.update_self]
    rfl
  | succ j =>
    have hne : ∀ (i : Fin 5) (j : Fin 4), i + 1 - j.succ ≠ i + 1 := by decide
    have hback : ∀ (i : Fin 5) (j : Fin 4), i + 1 - j.succ = i - j.castSucc := by decide
    rw [Function.update_of_ne (hne _ _), hback, h]
    rfl

theorem map_getD_finRange (rs : List ℤ) (n : ℕ) :
    (List.finRange n).map (fun j : Fin n => rs.getD j (-1)) =
      rs.take n ++ List.replicate (n - rs.length) (-1) := by
  apply List.ext_getElem
  · simp
    omega
  · intro i h1 h2
    rw [List.length_map, List.length_finRange] at h1
    rw [List.getElem_map, List.getElem_finRange, List.getElem_append]
    split_ifs with hi
    · rw [List.length_take] at hi
      simp [List.getElem?_eq_getElem (show i < rs.length by omega)]
    · rw [List.length_take] at hi
      simp [List.getElem?_eq_none (show rs.length ≤ i by omega)]

/-- The marks apart, the ring is the last five rates. -/
theorem Ring.used_perm {rs : List ℤ} {p : Progress} (h : Ring rs p) :
    (used ((List.finRange 5).map p.bpsAvgs)).Perm (used (rs.take 5)) := by
  have hturn : ∀ i : Fin 5, ((List.finRange 5).map (i - ·)).Perm (List.finRange 5) := by decide
  have hentries : ((List.finRange 5).map (p.bpsAvgIndex - ·)).map p.bpsAvgs =
      rs.take 5 ++ List.replicate (5 - rs.length) (-1) := by
    rw [List.map_map, ← map_getD_finRange]
    exact List.map_congr_left fun j _ => h j
  have hused := congrArg used hentries
  rw [used_append, used_replicate, List.append_nil] at hused
  rw [← hused]
  exact (((hturn p.bpsAvgIndex).map p.bpsAvgs).filter _).symm

theorem Ring.runningTotal_eq {rs : List ℤ} {p : Progress} (h : Ring rs p) :
    runningTotal p.bpsAvgs =
      (wrap32 (used (rs.take 5)).sum, ((used (rs.take 5)).length : ℤ)) := by
  rw [Local.runningTotal_eq, h.used_perm.sum_eq, h.used_perm.length_eq]

end CompatSuva.Local
