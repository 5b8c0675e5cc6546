import CompatSuva.Local.Steps

/-!
# The divisors of a transfer

The callback code divides by the milliseconds since the last callback, by the number of rates in
its ring and by their average, and guards none. In a transfer in which no call fails, the callbacks
are made for samples that follow from the length of the file, the block size, the callback interval
and the clock.

* `divisorsOf_iff`: when no divisor of a list of callbacks is 0;
* `loop_divisors`: the loop makes its callbacks for the samples that are due;
* `sclIlXferEx_divisors_iff`: a transfer never divides by 0 just when these are paced.
-/

namespace CompatSuva.Local

open CompatSuva.Common

/-! ## The divisors of callbacks -/

/-- The divisor of an event. -/
def Event.divisorOf : Event → Option (Divisor × ℤ)
  | .divisor d value => some (d, value)
  | _ => none

/-- The divisors of a log. -/
def divisors (log : List Event) : List (Divisor × ℤ) := log.filterMap Event.divisorOf

section

variable (bps : ℤ → ℤ → ℤ) (bytesTotal : ℤ)

/-- The divisors of one callback, and whether it comes to its end. -/
def callbackDivisors (p : Progress) (s : Sample) : List (Divisor × ℤ) × Bool :=
  let t := runningTotal (p.push (rate bps p.last s) s).bpsAvgs
  let delta := wrap32 (s.msec - p.last.msec)
  match divide t.1 t.2 .avgs with
  | .error _ => ([(.msec, delta), (.avgs, t.2)], false)
  | .ok avgBps =>
    ([(.msec, delta), (.avgs, t.2), (.avgBps, avgBps)],
      (divide (wrap32 (bytesTotal - s.bytes)) avgBps .avgBps).isOk)

/-- The divisors of the callbacks for these samples, up to one that does not come to its end. -/
def divisorsOf : Progress → List Sample → List (Divisor × ℤ)
  | _, [] => []
  | p, s :: ss =>
    (callbackDivisors bps bytesTotal p s).1 ++
      if (callbackDivisors bps bytesTotal p s).2 then
        divisorsOf (p.push (rate bps p.last s) s) ss
      else []

/-- What counts of the rates, the latest first: the last five, but for those that are -1. -/
def counted (rs : List ℤ) : List ℤ := used (rs.take 5)

/-- What is asked of a callback, behind others with the rates `rs`: the clock shows another
    millisecond than at the last one, some rate counts, and their sum is no less than their number,
    or no more than minus their number, so that their average is not 0. -/
def Paced (rs : List ℤ) (last s : Sample) : Prop :=
  wrap32 (s.msec - last.msec) ≠ 0 ∧
    counted (rate bps last s :: rs) ≠ [] ∧
    (counted (rate bps last s :: rs)).length ≤
      (wrap32 (counted (rate bps last s :: rs)).sum).natAbs

/-- `INT_MIN / -1`, when the time that is left is computed. -/
def Overflows (rs : List ℤ) (last s : Sample) : Prop :=
  wrap32 (bytesTotal - s.bytes) = -2 ^ 31 ∧
    (wrap32 (counted (rate bps last s :: rs)).sum).tdiv
      (counted (rate bps last s :: rs)).length = -1

/-- Every callback for these samples is paced, up to one that ends in the overflow. -/
def AllPaced : List ℤ → Sample → List Sample → Prop
  | _, _, [] => True
  | rs, last, s :: ss =>
    Paced bps rs last s ∧
      (¬ Overflows bps bytesTotal rs last s → AllPaced (rate bps last s :: rs) s ss)

instance (rs : List ℤ) (last s : Sample) : Decidable (Paced bps rs last s) :=
  inferInstanceAs (Decidable (_ ∧ _ ∧ _))

instance (rs : List ℤ) (last s : Sample) : Decidable (Overflows bps bytesTotal rs last s) :=
  inferInstanceAs (Decidable (_ ∧ _))

instance decidableAllPaced : ∀ (rs : List ℤ) (last : Sample) (ss : List Sample),
    Decidable (AllPaced bps bytesTotal rs last ss)
  | _, _, [] => isTrue trivial
  | rs, last, s :: ss =>
    have := decidableAllPaced (rate bps last s :: rs) s ss
    inferInstanceAs (Decidable (Paced bps rs last s ∧
      (¬ Overflows bps bytesTotal rs last s →
        AllPaced bps bytesTotal (rate bps last s :: rs) s ss)))

variable {bps bytesTotal} {rs : List ℤ} {p : Progress} {s : Sample}

theorem divide_isOk {x y : ℤ} (hy : y ≠ 0) (d : Divisor) :
    (divide x y d).isOk = true ↔ ¬ (x = -2 ^ 31 ∧ y = -1) := by
  unfold divide
  rw [if_neg hy]
  split_ifs with h
  · exact iff_of_false nofun fun hn => hn h
  · exact iff_of_true rfl h

theorem divide_ok {x y : ℤ} (hy : 0 < y) (d : Divisor) : divide x y d = .ok (x.tdiv y) := by
  unfold divide
  rw [if_neg hy.ne', if_neg fun h => by omega]

theorem tdiv_natCast_ne_zero_iff (x : ℤ) {n : ℕ} (hn : 0 < n) :
    x.tdiv n ≠ 0 ↔ n ≤ x.natAbs := by
  rw [ne_eq, ← Int.natAbs_eq_zero, Int.natAbs_tdiv, Int.natAbs_natCast]
  show ¬ x.natAbs / n = 0 ↔ _
  rw [Nat.div_eq_zero_iff, not_or, not_lt]
  exact and_iff_right hn.ne'

/-- One callback: what it divides by, and whether it comes to its end. -/
theorem callbackDivisors_spec (h : Ring rs p) :
    ((∀ x ∈ (callbackDivisors bps bytesTotal p s).1, x.2 ≠ 0) ↔ Paced bps rs p.last s) ∧
      (Paced bps rs p.last s → ((callbackDivisors bps bytesTotal p s).2 = true ↔
        ¬ Overflows bps bytesTotal rs p.last s)) := by
  have htotal := (h.push (rate bps p.last s) s).runningTotal_eq
  unfold callbackDivisors Paced Overflows counted
  rw [htotal]
  set us := used ((rate bps p.last s :: rs).take 5)
  by_cases hnil : us = []
  · rw [hnil]
    simp [divide]
  · have hpos := List.length_pos_iff.mpr hnil
    have hne := tdiv_natCast_ne_zero_iff (wrap32 us.sum) hpos
    simp only [divide_ok (Int.natCast_pos.mpr hpos)]
    refine ⟨?_, fun hpaced => divide_isOk (hne.mpr hpaced.2.2) _⟩
    have hlength : (us.length : ℤ) ≠ 0 := by omega
    simp only [List.forall_mem_cons, hne, hlength, hnil, ne_eq, not_false_eq_true, true_and,
      List.not_mem_nil, false_imp_iff, implies_true, and_true]

/-- In a row of callbacks. -/
theorem divisorsOf_iff (h : Ring rs p) (ss : List Sample) :
    (∀ x ∈ divisorsOf bps bytesTotal p ss, x.2 ≠ 0) ↔
      AllPaced bps bytesTotal rs p.last ss := by
  induction ss generalizing rs p with
  | nil => simp [divisorsOf, AllPaced]
  | cons s ss ih =>
    obtain ⟨hzero, hend⟩ := @callbackDivisors_spec bps bytesTotal rs p s h
    have hnext := ih (h.push (rate bps p.last s) s)
    rw [divisorsOf, AllPaced, List.forall_mem_append, hzero]
    refine and_congr_right fun hpaced => ?_
    by_cases hoverflows : Overflows bps bytesTotal rs p.last s
    · rw [if_neg fun hend' => (hend hpaced).mp hend' hoverflows]
      simp [hoverflows]
    · rw [if_pos ((hend hpaced).mpr hoverflows)]
      simp only [hoverflows, not_false_eq_true, true_imp_iff]
      exact hnext

end

/-! ## The samples that are due -/

/-- The samples of `n` callbacks, from the `k`-th on: after every `interval` blocks, as long as the
    clock can be read. -/
def samplesFrom (fileLength blockSize interval : ℕ) (start : ℤ × ℤ) (k n : ℕ)
    (clock : List (ℤ × ℤ)) : List Sample :=
  List.zipWith (fun k now =>
    ⟨wrap32 (min fileLength (k * interval * blockSize) : ℕ), curMsec start now⟩)
    (List.range' k n) clock

/-- The samples of a transfer. The first reading of the clock is its start. -/
def dueSamples (fileLength blockSize interval : ℕ) : List (ℤ × ℤ) → List Sample
  | [] => []
  | now :: clock =>
    samplesFrom fileLength blockSize interval (wrap32 now.1, wrap32 now.2) 1
      (blockCount blockSize fileLength / interval) clock

/-- `bytes_total`. -/
def totalOf (fileLength : ℕ) : Direction → ℤ
  | .put => wrap32 fileLength
  | .get => if wrap32 fileLength = -1 then 0 else wrap32 fileLength

theorem divisors_append (l l' : List Event) : divisors (l ++ l') = divisors l ++ divisors l' :=
  List.filterMap_append

@[simp] theorem divisors_nil : divisors [] = [] := rfl

@[simp] theorem divisors_inline (call : InlineName) : divisors [.inline call] = [] := rfl

@[simp] theorem divisors_divisor (d : Divisor) (value : ℤ) (l : List Event) :
    divisors (.divisor d value :: l) = (d, value) :: divisors l := rfl

/-! ## The loop -/

variable (bps : ℤ → ℤ → ℤ) {fileLength blockSize interval : ℕ} {direction : Direction} {j : ℕ}
  {clock : List (ℤ × ℤ)} {s : Xfer Copying} {p : Progress}

/-- Behind `j` blocks. -/
structure Behind (fileLength blockSize : ℕ) (direction : Direction) (j : ℕ)
    (clock : List (ℤ × ℤ)) (s : Xfer Copying) : Prop where
  left : s.world.left = fileLength - j * blockSize
  clock : s.world.clock = clock
  data : direction = .put → s.data ≠ .null

/-- `bytes_transfered` behind `j` blocks. -/
def bytesBehind (fileLength blockSize j : ℕ) : ℤ := wrap32 (min fileLength (j * blockSize) : ℕ)

theorem bytesBehind_succ (hj : j * blockSize < fileLength) :
    wrap32 (bytesBehind fileLength blockSize j +
      ((min blockSize (fileLength - j * blockSize) : ℕ) : ℤ)) =
        bytesBehind fileLength blockSize (j + 1) := by
  rw [bytesBehind, bytesBehind, wrap32_add, ← Nat.cast_add]
  congr 2
  rw [Nat.succ_mul]
  omega

/-- A block is copied, or there is none left. -/
theorem block_run (h : Behind fileLength blockSize direction j clock s) (hpos : 0 < blockSize) :
    ∃ r s', ((copying bps blockSize).block direction blockSize
        (bytesBehind fileLength blockSize j)).runOn s = (r, s') ∧
      divisors s'.log = divisors s.log ∧
      (fileLength ≤ j * blockSize → ∀ x, r ≠ .ok (some x)) ∧
      (j * blockSize < fileLength → Behind fileLength blockSize direction (j + 1) clock s' ∧
        r = .ok (some (bytesBehind fileLength blockSize (j + 1),
          ((min blockSize (fileLength - j * blockSize) : ℕ) : ℤ)))) := by
  have hleft := h.left
  have hnext : s.world.left - blockSize = fileLength - (j + 1) * blockSize := by
    rw [hleft, Nat.succ_mul]
    omega
  have hbytes : j * blockSize < fileLength → wrap32 (bytesBehind fileLength blockSize j +
      ((min blockSize (fileLength - j * blockSize) : ℕ) : ℤ)) =
        bytesBehind fileLength blockSize (j + 1) := bytesBehind_succ
  cases direction with
  | put =>
    have hdata := h.data rfl
    unfold Steps.block Steps.putBlock
    simp only [Halting.runOn_bind, runOn_get, hdata, false_and, onlyIf, if_false, runOn_pure,
      runOn_ask s (show (copying bps blockSize).fread s.world = some _ from rfl)]
    by_cases hend : fileLength ≤ j * blockSize
    · have hzero : min blockSize s.world.left = 0 := by omega
      simp only [hzero, if_true, runOn_pure]
      exact ⟨_, _, rfl, rfl, fun _ _ => nofun, fun hj => absurd hend (by omega)⟩
    · have hne : min blockSize s.world.left ≠ 0 := by omega
      simp only [hne, if_false, Steps.sendBlock, Halting.runOn_bind, runOn_note]
      rw [runOn_ask _ (show (copying bps blockSize).putData _ _ = some _ from rfl)]
      refine ⟨_, _, rfl, ?_, fun hle => absurd hle hend, fun hj => ⟨⟨hnext, h.clock, h.data⟩, ?_⟩⟩
      · simp [divisors_append]
      · rw [← hbytes hj, ← hleft]
  | get =>
    unfold Steps.block Steps.getBlock
    simp only [Halting.runOn_bind, runOn_note]
    rw [runOn_ask _ (show (copying bps blockSize).getData _ = some _ from rfl)]
    simp only [Halting.runOn_bind, runOn_setData]
    rw [runOn_ask _ (show (copying bps blockSize).fwrite _ _ = some _ from rfl)]
    by_cases hend : fileLength ≤ j * blockSize
    · have hzero : min blockSize s.world.left = 0 := by omega
      simp only [hzero]
      exact ⟨_, _, rfl, by simp [divisors_append], fun _ _ => nofun,
        fun hj => absurd hend (by omega)⟩
    · have hne : ((min blockSize s.world.left : ℕ) : ℤ) ≠ 0 := by omega
      simp only [hne, ne_eq, not_false_eq_true, decide_true, if_true, Halting.runOn_bind]
      rw [runOn_ask _ (show (copying bps blockSize).freePacketMem _ = some _ from rfl)]
      refine ⟨_, _, rfl, by simp [divisors_append], fun hle => absurd hle hend,
        fun hj => ⟨⟨hnext, h.clock, nofun⟩, ?_⟩⟩
      rw [← hbytes hj, ← hleft]

/-- A callback that returns 0, for a sample. -/
theorem report_run (blockSize : ℕ) (callback : CopyProgress → Step Copying Bool)
    (hcallback : ∀ copyProg w, callback copyProg w = some (false, w)) (bytesTotal : ℤ)
    (sample : Sample) (p : Progress) (s : Xfer Copying) :
    ∃ r s', ((copying bps blockSize).report callback bytesTotal sample p).runOn s = (r, s') ∧
      s'.world = s.world ∧ s'.data = s.data ∧
      divisors s'.log = divisors s.log ++ (callbackDivisors bps bytesTotal p sample).1 ∧
      ((callbackDivisors bps bytesTotal p sample).2 = true →
        r = .ok (p.push (rate bps p.last sample) sample)) ∧
      ((callbackDivisors bps bytesTotal p sample).2 = false → ∃ e, r = .error e) := by
  have hrate : (copying bps blockSize).bps = bps := rfl
  unfold Steps.report Steps.noteDivide callbackDivisors
  simp only [Halting.runOn_bind, runOn_note, hrate]
  cases havg : divide (runningTotal (p.push (rate bps p.last sample) sample).bpsAvgs).1
      (runningTotal (p.push (rate bps p.last sample) sample).bpsAvgs).2 .avgs with
  | error e =>
    simp only [runOn_compute_error]
    exact ⟨_, _, rfl, rfl, rfl, by simp [divisors_append], nofun, fun _ => ⟨_, rfl⟩⟩
  | ok avgBps =>
    simp only [runOn_compute_ok]
    cases heta : divide (wrap32 (bytesTotal - sample.bytes)) avgBps .avgBps with
    | error e =>
      simp only [runOn_compute_error]
      exact ⟨_, _, rfl, rfl, rfl, by simp [divisors_append], nofun, fun _ => ⟨_, rfl⟩⟩
    | ok eta =>
      simp only [runOn_compute_ok]
      rw [runOn_ask _ (hcallback _ _)]
      exact ⟨_, _, rfl, rfl, rfl, by simp [divisors_append], fun _ => rfl, nofun⟩

theorem samplesFrom_cons (start now : ℤ × ℤ) (k n : ℕ) :
    samplesFrom fileLength blockSize interval start k (n + 1) (now :: clock) =
      ⟨bytesBehind fileLength blockSize (k * interval), curMsec start now⟩ ::
        samplesFrom fileLength blockSize interval start (k + 1) n clock := rfl

/-- The number of callbacks that are due behind `j` of `n` blocks. -/
def due (interval j n : ℕ) : ℕ := n / interval - j / interval

theorem due_succ {n : ℕ} (hinterval : 0 < interval) (hlast : j % interval + 1 = interval)
    (hn : j < n) : due interval j n = due interval (j + 1) n + 1 ∧
      (j + 1) / interval = j / interval + 1 ∧ (j + 1) % interval = 0 ∧
      (j / interval + 1) * interval = j + 1 := by
  have hsplit := Nat.div_add_mod j interval
  have hmul : (j / interval + 1) * interval = j + 1 := by
    rw [Nat.add_mul, Nat.one_mul, Nat.mul_comm]
    omega
  have hdiv : (j + 1) / interval = j / interval + 1 := by
    rw [← hmul, Nat.mul_div_cancel _ hinterval]
  have hle : (j + 1) / interval ≤ n / interval := Nat.div_le_div_right hn
  refine ⟨?_, hdiv, ?_, hmul⟩
  · unfold due
    omega
  · rw [← hmul, Nat.mul_mod_left]

theorem due_same {n : ℕ} (hmore : j % interval + 1 < interval) :
    due interval (j + 1) n = due interval j n ∧ (j + 1) / interval = j / interval ∧
      (j + 1) % interval = j % interval + 1 := by
  have hsplit := Nat.div_add_mod j interval
  have hinterval : 0 < interval := by omega
  have hdiv : (j + 1) / interval = j / interval := by
    rw [Nat.succ_div, if_neg, Nat.add_zero]
    rintro ⟨q, hq⟩
    have hmod : (j + 1) % interval = (j % interval + 1) % interval := by simp [Nat.add_mod]
    rw [hq, Nat.mul_mod_right, Nat.mod_eq_of_lt hmore] at hmod
    omega
  refine ⟨?_, hdiv, ?_⟩
  · unfold due
    rw [hdiv]
  · rw [Nat.add_mod, Nat.mod_eq_of_lt (show 1 < interval by omega), Nat.mod_eq_of_lt hmore]

/-- The interval is not over. -/
theorem countInterval_wait (blockSize : ℕ) (start : ℤ × ℤ) (bytesTotal bytes : ℤ) (p : Progress)
    {i : ℕ} (hi : i + 1 < interval) (hint : interval < 2 ^ 31) (s : Xfer Copying) :
    ((copying bps blockSize).countInterval interval start bytesTotal
        ⟨bytes, interval - (i : ℕ), p⟩).runOn s =
      (.ok ⟨bytes, interval - ((i + 1 : ℕ) : ℤ), p⟩, s) := by
  have hcount : wrap32 ((interval : ℤ) - (i : ℕ) - 1) = interval - ((i + 1 : ℕ) : ℤ) := by
    rw [wrap32_of_lt (by omega) (by omega)]
    push_cast
    ring
  unfold Steps.countInterval
  simp only [hcount]
  rw [if_neg (by omega), runOn_pure]

/-- The interval is over. -/
theorem countInterval_last (blockSize : ℕ) (start : ℤ × ℤ) (bytesTotal bytes : ℤ) (p : Progress)
    {i : ℕ} (hi : i + 1 = interval) (hclock : s.world.clock = clock) :
    ∃ r s', ((copying bps blockSize).countInterval interval start bytesTotal
        ⟨bytes, interval - (i : ℕ), p⟩).runOn s = (r, s') ∧
      s'.world.left = s.world.left ∧ s'.world.clock = clock.tail ∧ s'.data = s.data ∧
      (clock = [] → divisors s'.log = divisors s.log ∧ ∃ e, r = .error e) ∧
      ∀ now, clock.head? = some now →
        divisors s'.log = divisors s.log ++
          (callbackDivisors bps bytesTotal p ⟨bytes, curMsec start now⟩).1 ∧
        ((callbackDivisors bps bytesTotal p ⟨bytes, curMsec start now⟩).2 = true →
          r = .ok ⟨bytes, interval, p.push (rate bps p.last ⟨bytes, curMsec start now⟩)
            ⟨bytes, curMsec start now⟩⟩) ∧
        ((callbackDivisors bps bytesTotal p ⟨bytes, curMsec start now⟩).2 = false →
          ∃ e, r = .error e) := by
  have hcount : wrap32 ((interval : ℤ) - (i : ℕ) - 1) = 0 := by
    rw [show (interval : ℤ) - (i : ℕ) - 1 = 0 by omega]
    rfl
  have hclockStep : (copying bps blockSize).gettimeofday s.world =
      some (clock.head?, { s.world with clock := clock.tail }) := by
    rw [← hclock]
    rfl
  unfold Steps.countInterval
  simp only [hcount, if_true]
  show ∃ r s', ((copying bps blockSize).makeCallback (fun _ w => some (false, w)) start bytesTotal
    bytes p >>= fun p => pure (⟨bytes, interval, p⟩ : Steps.Loop)).runOn s = (r, s') ∧ _
  unfold Steps.makeCallback
  rw [Halting.runOn_bind, Halting.runOn_bind, runOn_ask _ hclockStep]
  cases clock with
  | nil => exact ⟨_, _, rfl, rfl, rfl, rfl, fun _ => ⟨rfl, _, rfl⟩, nofun⟩
  | cons now clock =>
    simp only [List.head?_cons, List.tail_cons]
    obtain ⟨r, s', hrun, hworld, hdata, hlog, hok, herror⟩ := report_run bps blockSize
      (fun _ w => some (false, w)) (fun _ _ => rfl) bytesTotal
      ⟨bytes, curMsec start now⟩ p { s with world := { s.world with clock := clock } }
    rw [hrun]
    cases hend : (callbackDivisors bps bytesTotal p ⟨bytes, curMsec start now⟩).2 with
    | true =>
      obtain rfl := hok hend
      refine ⟨_, _, rfl, by rw [hworld], by rw [hworld], hdata, nofun, fun now' hnow => ?_⟩
      obtain rfl := Option.some.inj hnow
      exact ⟨hlog, fun _ => rfl, fun hfalse => by simp [hend] at hfalse⟩
    | false =>
      obtain ⟨e, rfl⟩ := herror hend
      refine ⟨_, _, rfl, by rw [hworld], by rw [hworld], hdata, nofun, fun now' hnow => ?_⟩
      obtain rfl := Option.some.inj hnow
      exact ⟨hlog, fun htrue => by simp [hend] at htrue, fun _ => ⟨e, rfl⟩⟩

section

variable (fileLength blockSize interval direction) (start : ℤ × ℤ) (bytesTotal : ℤ)

/-- The loop, behind `j` blocks. -/
def loopBehind (fuel j : ℕ) (p : Progress) : Halting Halt (Xfer Copying) Unit :=
  (copying bps blockSize).loop direction blockSize interval start bytesTotal fuel
    ⟨bytesBehind fileLength blockSize j, interval - (j % interval : ℕ), p⟩

/-- The divisors of the callbacks that are due behind `j` of `n` blocks. -/
def divisorsBehind (n j : ℕ) (p : Progress) (clock : List (ℤ × ℤ)) : List (Divisor × ℤ) :=
  divisorsOf bps bytesTotal p
    (samplesFrom fileLength blockSize interval start (j / interval + 1) (due interval j n) clock)

/-- The loop behind `j` blocks makes the callbacks that are due. -/
def MakesDue (fuel n j : ℕ) : Prop :=
  ∀ p clock s, Behind fileLength blockSize direction j clock s →
    divisors ((loopBehind bps fileLength blockSize interval direction start bytesTotal fuel j
      p).runOn s).2.log =
        divisors s.log ++
          divisorsBehind bps fileLength blockSize interval start bytesTotal n j p clock

variable {fileLength blockSize interval direction start bytesTotal} {fuel n : ℕ}

/-- Behind the last block, no callback is due. -/
theorem divisorsBehind_last (clock : List (ℤ × ℤ)) :
    divisorsBehind bps fileLength blockSize interval start bytesTotal j j p clock = [] := by
  rw [divisorsBehind, due, Nat.sub_self, samplesFrom, List.range'_zero, List.zipWith_nil_left,
    divisorsOf]

/-- The end of a round: a GET ends with a block that is not whole, else the loop goes on. -/
theorem round_end (hpos : 0 < blockSize)
    (hn : j + 1 + blockCount blockSize (fileLength - (j + 1) * blockSize) = n)
    (hnext : MakesDue bps fileLength blockSize interval direction start bytesTotal fuel n (j + 1))
    (h : Behind fileLength blockSize direction (j + 1) clock s) :
    divisors ((if direction = .get ∧
        ((min blockSize (fileLength - j * blockSize) : ℕ) : ℤ) ≠ blockSize then pure ()
      else loopBehind bps fileLength blockSize interval direction start bytesTotal fuel (j + 1)
        p).runOn s).2.log =
      divisors s.log ++
        divisorsBehind bps fileLength blockSize interval start bytesTotal n (j + 1) p clock := by
  split_ifs with hshort
  · have hlast : fileLength - (j + 1) * blockSize = 0 := by
      have hne := hshort.2
      rw [Nat.succ_mul]
      omega
    rw [hlast, blockCount_zero hpos, Nat.add_zero] at hn
    rw [← hn, divisorsBehind_last, List.append_nil, runOn_pure]
  · exact hnext p clock s h

/-- The callback code and the end of a round. -/
theorem round_divisors (hpos : 0 < blockSize) (hinterval : 0 < interval)
    (hint : interval < 2 ^ 31)
    (hn : j + 1 + blockCount blockSize (fileLength - (j + 1) * blockSize) = n)
    (hnext : MakesDue bps fileLength blockSize interval direction start bytesTotal fuel n (j + 1))
    (h : Behind fileLength blockSize direction (j + 1) clock s) :
    divisors (((copying bps blockSize).countInterval interval start bytesTotal
          ⟨bytesBehind fileLength blockSize (j + 1), interval - (j % interval : ℕ), p⟩ >>= fun v =>
        if direction = .get ∧
            ((min blockSize (fileLength - j * blockSize) : ℕ) : ℤ) ≠ blockSize then pure ()
        else (copying bps blockSize).loop direction blockSize interval start bytesTotal fuel
          v).runOn s).2.log =
      divisors s.log ++
        divisorsBehind bps fileLength blockSize interval start bytesTotal n j p clock := by
  have hmod := Nat.mod_lt j hinterval
  rw [Halting.runOn_bind]
  by_cases hlast : j % interval + 1 = interval
  · obtain ⟨hdue, hdiv, hmod', hmul⟩ := due_succ (n := n) hinterval hlast (by omega)
    obtain ⟨r, s', hrun, hleft, hclock, hdata, hnil, hcons⟩ := countInterval_last bps blockSize
      start bytesTotal (bytesBehind fileLength blockSize (j + 1)) p hlast h.clock
    have h' : Behind fileLength blockSize direction (j + 1) clock.tail s' :=
      ⟨hleft.trans h.left, hclock, fun hput => hdata ▸ h.data hput⟩
    rw [hrun]
    cases clock with
    | nil =>
      obtain ⟨hsame, e, rfl⟩ := hnil rfl
      rw [divisorsBehind, samplesFrom, List.zipWith_nil_right, divisorsOf, List.append_nil]
      exact hsame
    | cons now clock =>
      obtain ⟨hdivisors, hok, herror⟩ := hcons now rfl
      rw [divisorsBehind, hdue, samplesFrom_cons, hmul, divisorsOf, ← List.append_assoc,
        ← hdivisors]
      cases hend : (callbackDivisors bps bytesTotal p
          ⟨bytesBehind fileLength blockSize (j + 1), curMsec start now⟩).2 with
      | true =>
        obtain rfl := hok hend
        have hgo := @round_end bps _ _ interval _ _ _ _ (p.push (rate bps p.last
          ⟨bytesBehind fileLength blockSize (j + 1), curMsec start now⟩)
          ⟨bytesBehind fileLength blockSize (j + 1), curMsec start now⟩) start bytesTotal fuel n
          hpos hn hnext h'
        rw [divisorsBehind, loopBehind, hmod', Nat.cast_zero, sub_zero, hdiv] at hgo
        simpa using hgo
      | false =>
        obtain ⟨e, rfl⟩ := herror hend
        simp
  · obtain ⟨hdue, hdiv, hmod'⟩ := due_same (n := n) (show j % interval + 1 < interval by omega)
    rw [countInterval_wait bps blockSize start bytesTotal _ p
      (show j % interval + 1 < interval by omega) hint]
    have hgo := round_end bps (p := p) hpos hn hnext h
    rw [divisorsBehind, loopBehind, hmod', hdiv, hdue] at hgo
    exact hgo

/-- From `j` blocks on, the loop makes the callbacks that are due. -/
theorem loop_divisors (hpos : 0 < blockSize) (hinterval : 0 < interval) (hint : interval < 2 ^ 31)
    (hn : j + blockCount blockSize (fileLength - j * blockSize) = n) (hfuel : n < j + fuel) :
    MakesDue bps fileLength blockSize interval direction start bytesTotal fuel n j := by
  induction fuel generalizing j with
  | zero => omega
  | succ fuel ih =>
    intro p clock s h
    obtain ⟨r, s', hblock, hlog, hnone, hsome⟩ := block_run bps h hpos
    rw [loopBehind, Steps.loop, Halting.runOn_bind, hblock, ← hlog]
    by_cases hend : fileLength ≤ j * blockSize
    · rw [Nat.sub_eq_zero_of_le hend, blockCount_zero hpos, Nat.add_zero] at hn
      rw [← hn, divisorsBehind_last, List.append_nil]
      match r with
      | .error e => rfl
      | .ok none => rfl
      | .ok (some x) => exact absurd rfl (hnone hend x)
    · obtain ⟨h', rfl⟩ := hsome (by omega)
      have hcount := blockCount_eq hpos (n := fileLength - j * blockSize) (by omega)
      rw [Nat.sub_sub, ← Nat.succ_mul, Nat.succ_eq_add_one] at hcount
      exact round_divisors bps hpos hinterval hint (by omega) (ih (by omega) (by omega)) h'

end

/-! ## Whole transfers -/

/-- The divisors logged. -/
def Logged (ds : List (Divisor × ℤ)) (s : Xfer Copying) : Prop := divisors s.log = ds

variable {ds : List (Divisor × ℤ)} {E : Halt → Xfer Copying → Prop} {α : Type}

theorem note_logged {e : Event} (he : e.divisorOf = none) :
    Triple (Logged ds) (note e : Halting Halt (Xfer Copying) Unit) (fun _ => Logged ds) E := by
  refine Triple.modify _ fun s hs => ?_
  show divisors (s.log ++ [e]) = ds
  rw [divisors_append, show divisors s.log = ds from hs]
  simp [divisors, he]

theorem ask_logged (step : Step Copying α) :
    Triple (Logged ds) (ask step) (fun _ => Logged ds) (fun _ => Logged ds) := by
  intro s hs
  cases hstep : step s.world with
  | none =>
    rw [runOn_ask_none s hstep]
    exact hs
  | some r =>
    rw [runOn_ask s hstep]
    exact hs

theorem setMode_logged (S : Steps Copying) (direction : Direction) (apiVers : ℤ)
    (mode : BitVec 32) :
    Triple (Logged ds) (S.setMode direction apiVers mode) (fun _ => Logged ds)
      (fun _ => Logged ds) := by
  cases direction with
  | get => exact Triple.ite (fun _ => ask_logged _) fun _ _ hs => hs
  | put =>
    refine Triple.ite (fun _ => ?_) fun _ _ hs => hs
    exact Triple.bind (note_logged rfl) fun _ => ask_logged _

theorem sclIlXferExit_logged (S : Steps Copying) (direction : Direction) (e : Exit) :
    Triple (Logged ds) (S.sclIlXferExit direction e) (fun _ => Logged ds)
      (fun _ => Logged ds) := by
  have hrelease : ∀ {ev : Event}, ev.divisorOf = none → ∀ step : Step Copying Unit,
      Triple (Logged ds) (note ev >>= fun _ => ask step) (fun _ => Logged ds)
        (fun _ => Logged ds) := fun he step =>
    Triple.bind (note_logged he) fun _ => ask_logged step
  refine Triple.bind_get fun s hs => ?_
  refine Triple.bind (Triple.onlyIf (fun _ => note_logged rfl) fun _ _ h => h) (fun _ => ?_) s hs
  refine Triple.bind (ask_logged _) fun _ => ?_
  refine Triple.bind (Triple.onlyIf (fun _ => hrelease rfl _) fun _ _ h => h) fun _ => ?_
  refine Triple.bind (Triple.onlyIf (fun _ => hrelease rfl _) fun _ _ h => h) fun _ => ?_
  exact fun _ h => h

/-- As the clock is started, no divisor has been used. -/
theorem opened_run (fileLength blockSize : ℕ) (direction : Direction) (clock : List (ℤ × ℤ)) :
    ∃ s, ((copying bps blockSize).openLocal direction).runOn (.start ⟨fileLength, clock⟩) =
        (.ok 3, s) ∧
      ∃ s', ((copying bps blockSize).getSizes direction 3).runOn s =
          (.ok (totalOf fileLength direction, 420), s') ∧
        ∃ s'', (copying bps blockSize).openRemote.runOn s' = (.ok (), s'') ∧
          Behind fileLength blockSize direction 0 clock s'' ∧ divisors s''.log = [] := by
  cases direction with
  | get =>
    refine ⟨_, rfl, _, rfl, _, rfl, ⟨?_, rfl, nofun⟩, rfl⟩
    rw [Nat.zero_mul, Nat.sub_zero]
    rfl
  | put =>
    refine ⟨_, rfl, _, rfl, _, rfl, ⟨?_, rfl, fun _ => nofun⟩, rfl⟩
    rw [Nat.zero_mul, Nat.sub_zero]
    rfl

/-- The clock is started by its first reading. -/
theorem startClock_run (h : Behind fileLength blockSize direction 0 clock s) :
    (clock = [] → ∃ e, (copying bps blockSize).startClock.runOn s = (.error e, s)) ∧
      ∀ now rest, clock = now :: rest →
        ∃ s', (copying bps blockSize).startClock.runOn s =
            (.ok (wrap32 now.1, wrap32 now.2), s') ∧
          Behind fileLength blockSize direction 0 rest s' ∧ divisors s'.log = divisors s.log := by
  have hclock : (copying bps blockSize).gettimeofday s.world =
      some (clock.head?, { s.world with clock := clock.tail }) := by
    rw [← h.clock]
    rfl
  unfold Steps.startClock
  simp only [Halting.runOn_bind, runOn_ask _ hclock]
  constructor
  · rintro rfl
    refine ⟨_, congrArg (Prod.mk _) ?_⟩
    show { s with world := { s.world with clock := [] } } = s
    rw [← h.clock]
  · rintro now rest rfl
    exact ⟨_, rfl, ⟨h.left, rfl, h.data⟩, rfl⟩

/-- The loop as it starts. -/
theorem loop_start (hpos : 0 < blockSize) (hinterval : 0 < interval) (hint : interval < 2 ^ 31)
    {fuel : ℕ} (hfuel : blockCount blockSize fileLength < fuel) (start : ℤ × ℤ) (bytesTotal : ℤ)
    (h : Behind fileLength blockSize direction 0 clock s) :
    divisors (((copying bps blockSize).loop direction blockSize interval start bytesTotal fuel
        ⟨0, interval, .start⟩).runOn s).2.log =
      divisors s.log ++ divisorsOf bps bytesTotal .start
        (samplesFrom fileLength blockSize interval start 1
          (blockCount blockSize fileLength / interval) clock) := by
  have hloop : MakesDue bps fileLength blockSize interval direction start bytesTotal fuel
      (blockCount blockSize fileLength) 0 :=
    loop_divisors bps hpos hinterval hint (by simp) (by omega)
  have hbytes : bytesBehind fileLength blockSize 0 = 0 := by
    rw [bytesBehind, Nat.zero_mul, Nat.min_zero]
    rfl
  have hrun := hloop .start clock s h
  rw [loopBehind, hbytes, Nat.zero_mod, Nat.cast_zero, sub_zero, divisorsBehind, due,
    Nat.zero_div, Nat.sub_zero] at hrun
  exact hrun

theorem ends_logged {r : Except Halt α × Xfer Copying} :
    Ends (fun _ => Logged ds) (fun _ => Logged ds) r ↔ divisors r.2.log = ds := by
  obtain ⟨r, s⟩ := r
  cases r <;> exact Iff.rfl

/-- The divisors of a transfer in which no call fails. -/
theorem sclIlXferEx_logged (direction : Direction) (clock : List (ℤ × ℤ)) (hpos : 0 < blockSize)
    (hinterval : 0 < interval) (hint : interval < 2 ^ 31) {fuel : ℕ}
    (hfuel : blockCount blockSize fileLength < fuel) :
    divisors (((copying bps blockSize).sclIlXferEx fuel direction blockSize interval).runOn
        (.start ⟨fileLength, clock⟩)).2.log =
      divisorsOf bps (totalOf fileLength direction) .start
        (dueSamples fileLength blockSize interval clock) := by
  set ds := divisorsOf bps (totalOf fileLength direction) .start
    (dueSamples fileLength blockSize interval clock) with hds
  have hbody : Triple (· = .start ⟨fileLength, clock⟩)
      ((copying bps blockSize).body fuel direction blockSize interval) (fun _ => Logged ds)
      (fun _ => Logged ds) := by
    rintro _ rfl
    obtain ⟨s, hlocal, s', hsizes, s'', hremote, hbehind, hlog⟩ :=
      opened_run bps fileLength blockSize direction clock
    obtain ⟨hnever, hstarted⟩ := startClock_run bps hbehind
    unfold Steps.body
    simp only [Halting.runOn_bind, hlocal, hsizes, hremote]
    cases clock with
    | nil =>
      obtain ⟨e, hclock⟩ := hnever rfl
      rw [hclock]
      exact hlog
    | cons now rest =>
      obtain ⟨s₃, hclock, hbehind', hlog'⟩ := hstarted now rest rfl
      rw [hclock, ← Halting.runOn_bind]
      refine Triple.bind (P := (· = s₃)) (Q := fun _ => Logged ds) (fun s hs => ?_)
        (fun _ => setMode_logged _ _ _ _) s₃ rfl
      rw [hs, ends_logged, loop_start bps hpos hinterval hint hfuel _ _ hbehind', hlog', hlog]
      rfl
  exact ends_logged.mp ((copying bps blockSize).sclIlXferEx_triple hbody
    (sclIlXferExit_logged _ _ _) (fun _ => sclIlXferExit_logged _ _ _) (fun _ _ h => h) _ rfl)

/-- In a transfer in which no call fails, whatever the rates come to: no divisor of the callback
    code is 0 just when the callbacks that are due are paced. -/
theorem sclIlXferEx_divisors_iff (direction : Direction) (clock : List (ℤ × ℤ))
    (hpos : 0 < blockSize) (hinterval : 0 < interval) (hint : interval < 2 ^ 31) {fuel : ℕ}
    (hfuel : blockCount blockSize fileLength < fuel) :
    (∀ x ∈ divisors (((copying bps blockSize).sclIlXferEx fuel direction blockSize
        interval).runOn (.start ⟨fileLength, clock⟩)).2.log, x.2 ≠ 0) ↔
      AllPaced bps (totalOf fileLength direction) [] ⟨0, 0⟩
        (dueSamples fileLength blockSize interval clock) := by
  rw [sclIlXferEx_logged bps direction clock hpos hinterval hint hfuel]
  exact divisorsOf_iff Ring.start _

/-- Three bytes put in two blocks, 5 and 4 milliseconds after one another: six divisions. -/
theorem sclIlXferEx_divisors_iff_three :
    (divisors (((copying exactBps 2).sclIlXferEx 3 .put (2 : ℕ) (1 : ℕ)).runOn
      (.start ⟨3, [(7, 0), (7, 5000), (7, 9000)]⟩)).2.log).length = 6 ∧
    ∀ x ∈ divisors (((copying exactBps 2).sclIlXferEx 3 .put (2 : ℕ) (1 : ℕ)).runOn
      (.start ⟨3, [(7, 0), (7, 5000), (7, 9000)]⟩)).2.log, x.2 ≠ 0 :=
  ⟨by decide +kernel,
    (@sclIlXferEx_divisors_iff exactBps 3 2 1 .put [(7, 0), (7, 5000), (7, 9000)] (by decide)
      (by decide) (by decide) 3 (by decide)).mpr (by decide +kernel)⟩

/-- A clock whose readings, seconds and microseconds, do not decrease. -/
def Forward (clock : List (ℤ × ℤ)) : Prop :=
  clock.Pairwise fun t t' => t.1 < t'.1 ∨ t.1 = t'.1 ∧ t.2 ≤ t'.2

/-- Nothing in the code paces the callbacks. One byte put, and the first callback one and a half
    seconds after the start: the rate is less than one byte a second, and so 0; the time that is
    left is divided by it. -/
theorem sclIlXferEx_divides_by_zero :
    (¬ ∀ (fileLength blockSize fuel interval : ℕ) (direction : Direction)
      (clock : List (ℤ × ℤ)), 0 < blockSize → 0 < interval → Forward clock →
      ∀ x ∈ divisors (((copying exactBps blockSize).sclIlXferEx fuel direction blockSize
        interval).runOn (.start ⟨fileLength, clock⟩)).2.log, x.2 ≠ 0) ∧
      ∀ bps ∈ [exactBps, floatBps],
        (((copying bps 1).sclIlXferEx 2 .put 1 1).runOn
          (.start ⟨1, [(7, 0), (8, 500000)]⟩)).1 = .error (.fault (.divZero .avgBps)) := by
  constructor
  · intro h
    refine h 1 1 2 1 .put [(7, 0), (8, 500000)] (by decide) (by decide) (by simp [Forward])
      (.avgBps, 0) ?_ rfl
    decide +kernel
  · intro bps hbps
    rcases List.mem_cons.mp hbps with rfl | hbps
    · decide +kernel
    · obtain rfl := List.mem_singleton.mp hbps
      decide +kernel

end CompatSuva.Local
