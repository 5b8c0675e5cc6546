import CompatSuva.Crc.Checksum

/-!
# Bursts the checksum finds

The rounds of `scl_crc` are linear and, with the arithmetic shift as without it, one to one
on the states. So the states of two strings differ by the run from 0 over their difference
(`foldl_signedStep_xor`), and what differs stays different. A burst is four bytes of difference
at most, and the run over four bytes from 0 is one to one on them.

* `sclCrc_detects_burst`: strings of one length that differ only within four consecutive bytes
  have different checksums.
-/

namespace CompatSuva.Crc

open CompatSuva.Common

/-! ## Rounds are one to one -/

/-- The inverse of `shiftStep`. -/
def shiftStepInv : BitVec 32 → BitVec 32 := columns 0
  [0x00000100, 0x00000200, 0x00000400, 0x00000800, 0x00001000, 0x00002000,
   0x00004000, 0x00008000, 0x00010000, 0x00020000, 0x00040000, 0x00080000,
   0x00100000, 0x00200000, 0x00400000, 0x00800000, 0x01000000, 0x02000000,
   0x04000000, 0x08000000, 0x10000000, 0x20000000, 0x40000000, 0x8f6a70d9,
   0xd41b7698, 0x6d930ac3, 0xd44c655f, 0x6d3d2d4d, 0xd5102a43, 0x6f85b375,
   0xd0611633, 0x6567cb95]

theorem shiftStepInv_shiftStep (x : BitVec 32) : shiftStepInv (shiftStep x) = x :=
  ((xorLinear_columns _ 0).comp xorLinear_shiftStep).ext XorLinear.id (by decide +kernel) x

/-- The run from 0 over the four bytes of a word, the low one first. -/
def fourSteps (x : BitVec 32) : BitVec 32 :=
  shiftStep (shiftStep (shiftStep (shiftStep (x &&& 0xff#32) ^^^ (x >>> 8 &&& 0xff#32)) ^^^
    (x >>> 16 &&& 0xff#32)) ^^^ (x >>> 24 &&& 0xff#32))

/-- The inverse of `fourSteps`. -/
def fourStepsInv : BitVec 32 → BitVec 32 := columns 0
  [0xdb710641, 0x6d930ac3, 0xdb261586, 0x6d3d2d4d, 0xda7a5a9a, 0x6f85b375,
   0xdf0b66ea, 0x0fee26dc, 0xa0467a63, 0x4eee2815, 0xf755bd63, 0xe0c9a615,
   0x706ba722, 0x35c494d6, 0x0100c4e5, 0xeedfe849, 0x2611f6a9, 0xeaab41e2,
   0x5d63d3dd, 0x76c6e643, 0x0153ad05, 0x713c2c28, 0xdbb5e341, 0xbb00884b,
   0xc8c60530, 0x148f36cd, 0x0bc8dffa, 0x1aa7d340, 0x88dc0341, 0x8da9a144,
   0x64a37a63, 0x62f834c2]

theorem xorLinear_fourSteps : XorLinear fourSteps := by
  have hbyte : ∀ k, XorLinear fun x : BitVec 32 => x >>> k &&& 0xff#32 := fun k =>
    (XorLinear.and 0xff#32).comp (XorLinear.ushiftRight k)
  have h1 := xorLinear_shiftStep.comp (XorLinear.and 0xff#32)
  have h2 := xorLinear_shiftStep.comp (h1.xor (hbyte 8))
  have h3 := xorLinear_shiftStep.comp (h2.xor (hbyte 16))
  exact xorLinear_shiftStep.comp (h3.xor (hbyte 24))

theorem fourStepsInv_fourSteps (x : BitVec 32) : fourStepsInv (fourSteps x) = x :=
  ((xorLinear_columns _ 0).comp xorLinear_fourSteps).ext XorLinear.id (by decide +kernel) x

/-! ## Four bytes -/

theorem byteWord_xor (a b : Byte) : byteWord (a ^^^ b) = byteWord a ^^^ byteWord b := by
  rw [byteWord, UInt8.toBitVec_xor, BitVec.setWidth_xor, byteWord, byteWord]

theorem signedStep_zero : signedStep 0 0 = 0 := by decide

/-- Byte `k` of a word. -/
theorem ushiftRight_low_byte {n : ℕ} (h : n < 2 ^ 32) (k : ℕ) :
    BitVec.ofNat 32 n >>> (8 * k) &&& 0xff#32 = byteWord (UInt8.ofNat (n / 256 ^ k % 256)) := by
  rw [← low_byte_ofNat]
  congr 1
  apply BitVec.eq_of_toNat_eq
  have hle : n / 256 ^ k ≤ n := Nat.div_le_self _ _
  rw [BitVec.toNat_ushiftRight, BitVec.toNat_ofNat, BitVec.toNat_ofNat, Nat.mod_eq_of_lt h,
    Nat.mod_eq_of_lt (by omega), Nat.shiftRight_eq_div_pow, pow_mul]
  rfl

theorem leNat_four (a b c d : Byte) :
    leNat [a, b, c, d] = a.toNat + 256 * b.toNat + 65536 * c.toNat + 16777216 * d.toNat := by
  simp only [leNat]
  ring

theorem leNat_four_lt (a b c d : Byte) : leNat [a, b, c, d] < 2 ^ 32 := by
  have ha := a.toNat_lt
  have hb := b.toNat_lt
  have hc := c.toNat_lt
  have hd := d.toNat_lt
  rw [leNat_four]
  omega

theorem foldl_four (a b c d : Byte) :
    [a, b, c, d].foldl signedStep 0 = fourSteps (wordOf 32 [a, b, c, d]) := by
  have hlt := leNat_four_lt a b c d
  have ha := a.toNat_lt
  have hb := b.toNat_lt
  have hc := c.toNat_lt
  have hd := d.toNat_lt
  have hbyte : ∀ (k : ℕ) (x : Byte), leNat [a, b, c, d] / 256 ^ k % 256 = x.toNat →
      wordOf 32 [a, b, c, d] >>> (8 * k) &&& 0xff#32 = byteWord x := by
    intro k x hx
    rw [wordOf, ushiftRight_low_byte hlt, hx, UInt8.ofNat_toNat]
  have h0 := hbyte 0 a (by rw [leNat_four]; omega)
  have h1 := hbyte 1 b (by rw [leNat_four]; omega)
  have h2 := hbyte 2 c (by rw [leNat_four]; omega)
  have h3 := hbyte 3 d (by rw [leNat_four]; omega)
  rw [Nat.mul_zero, BitVec.ushiftRight_zero] at h0
  rw [fourSteps, h0, h1, h2, h3]
  simp only [List.foldl_cons, List.foldl_nil, signedStep]
  rw [show (0 : BitVec 32) ^^^ byteWord a = byteWord a from BitVec.zero_xor]

/-- Up to four bytes that leave the state at 0 are all 0. -/
theorem foldl_signedStep_eq_zero {e : List Byte} (hlen : e.length ≤ 4)
    (h : e.foldl signedStep 0 = 0) : ∀ b ∈ e, b = 0 := by
  have hzeros : ∀ k, (List.replicate k (0 : Byte)).foldl signedStep 0 = 0 := by
    intro k
    induction k with
    | zero => rfl
    | succ k ih => rw [List.replicate_succ, List.foldl_cons, signedStep_zero, ih]
  -- zeros in front make them four
  have hfour : (List.replicate (4 - e.length) 0 ++ e).length = 4 := by
    rw [List.length_append, List.length_replicate]
    omega
  have hfold : (List.replicate (4 - e.length) 0 ++ e).foldl signedStep 0 = 0 := by
    rw [List.foldl_append, hzeros, h]
  obtain ⟨a, b, c, d, hpadded⟩ := List.length_eq_four.mp hfour
  rw [hpadded, foldl_four] at hfold
  have hword := (xorLinear_columns _ 0).eq_zero_of_leftInverse fourStepsInv_fourSteps hfold
  have hlt := leNat_four_lt a b c d
  have hnat : leNat [a, b, c, d] = 0 := by
    have := congrArg BitVec.toNat hword
    rw [wordOf, BitVec.toNat_ofNat, Nat.mod_eq_of_lt hlt] at this
    exact this
  have hall : ∀ x ∈ [a, b, c, d], x = 0 := by
    rw [leNat_four] at hnat
    intro x hx
    apply UInt8.toNat_inj.mp
    show x.toNat = 0
    simp only [List.mem_cons, List.not_mem_nil, or_false] at hx
    obtain rfl | rfl | rfl | rfl := hx <;> omega
  intro x hx
  apply hall x
  rw [← hpadded]
  exact List.mem_append_right _ hx

/-! ## Two strings -/

/-- The states of two strings of one length differ by the run over their difference. -/
theorem foldl_signedStep_xor {d d' : List Byte} (h : d.length = d'.length) (s s' : BitVec 32) :
    d.foldl signedStep s ^^^ d'.foldl signedStep s' =
      (List.zipWith (· ^^^ ·) d d').foldl signedStep (s ^^^ s') := by
  induction d generalizing d' s s' with
  | nil =>
    obtain rfl := List.length_eq_zero_iff.mp h.symm
    rfl
  | cons b d ih =>
    cases d' with
    | nil => simp at h
    | cons b' d' =>
      have hstep : signedStep s b ^^^ signedStep s' b' = signedStep (s ^^^ s') (b ^^^ b') := by
        rw [signedStep, signedStep, signedStep, ← xorLinear_shiftStep, byteWord_xor]
        congr 1
        ac_rfl
      rw [List.zipWith_cons_cons, List.foldl_cons, List.foldl_cons, List.foldl_cons,
        ih (Nat.succ.inj h), hstep]

theorem foldl_signedStep_window {w w' : List Byte} (h : w.length = w'.length) (hle : w.length ≤ 4)
    (s : BitVec 32) (heq : w.foldl signedStep s = w'.foldl signedStep s) : w = w' := by
  have hdiff := foldl_signedStep_xor h s s
  rw [heq, BitVec.xor_self, BitVec.xor_self] at hdiff
  have hzero := foldl_signedStep_eq_zero (by rw [List.length_zipWith]; omega) hdiff.symm
  refine List.ext_getElem h fun i hi hi' => ?_
  have hxor := hzero _ (List.getElem_mem (l := List.zipWith (· ^^^ ·) w w')
    (by rw [List.length_zipWith]; omega : i < _))
  rw [List.getElem_zipWith] at hxor
  exact UInt8.xor_eq_zero_iff.mp hxor

theorem foldl_signedStep_injective (c : List Byte) :
    Function.Injective fun s => c.foldl signedStep s := by
  induction c with
  | nil => exact fun _ _ h => h
  | cons b c ih =>
    intro s s' h
    have hstep : signedStep s b = signedStep s' b := ih h
    have hinv := congrArg shiftStepInv hstep
    rw [signedStep, signedStep, shiftStepInv_shiftStep, shiftStepInv_shiftStep] at hinv
    exact (BitVec.xor_left_inj _).mp hinv

/-- Two strings that differ, and only within four consecutive bytes, have different checksums. -/
theorem sclCrc_detects_burst (d d' : List Byte) (hlen : d.length = d'.length)
    (h : d.length < 2 ^ 31) (hne : d ≠ d') (s : ℕ)
    (hburst : ∀ i, d[i]? ≠ d'[i]? → s ≤ i ∧ i < s + 4) :
    ∃ run run', sclCrc d (BitVec.ofNat 32 d.length) = .ok run ∧
      sclCrc d' (BitVec.ofNat 32 d'.length) = .ok run' ∧ run.crc ≠ run'.crc := by
  have hrun := sclCrc_eq d [] h
  have hrun' := sclCrc_eq d' [] (by omega)
  rw [List.append_nil] at hrun hrun'
  refine ⟨_, _, hrun, hrun', fun hcrc => hne ?_⟩
  -- what stands in front of the window, and what stands behind it, is the same
  have hfront : d.take s = d'.take s := by
    apply List.ext_getElem?
    intro i
    rw [List.getElem?_take, List.getElem?_take]
    split_ifs with hi
    · by_contra hdiff
      have := (hburst i hdiff).1
      omega
    · rfl
  have hback : (d.drop s).drop 4 = (d'.drop s).drop 4 := by
    apply List.ext_getElem?
    intro i
    rw [List.drop_drop, List.drop_drop, List.getElem?_drop, List.getElem?_drop]
    by_contra hdiff
    have := (hburst _ hdiff).2
    omega
  have hsplit : ∀ x : List Byte, x = x.take s ++ ((x.drop s).take 4 ++ (x.drop s).drop 4) :=
    fun x => by rw [List.take_append_drop, List.take_append_drop]
  have hstate : signedCrc (message d) = signedCrc (message d') := BitVec.not_inj.mp hcrc
  rw [signedCrc, signedCrc, message, message, ← hlen, List.foldl_append,
    List.foldl_append] at hstate
  have hdata := foldl_signedStep_injective _ hstate
  rw [hsplit d, hsplit d', ← hfront, ← hback, List.foldl_append, List.foldl_append,
    List.foldl_append, List.foldl_append] at hdata
  have hmid := foldl_signedStep_injective _ hdata
  have hwindow := foldl_signedStep_window (by simp [hlen]) (by simp) _ hmid
  rw [hsplit d, hsplit d', hfront, hback, hwindow]

/-- The first of two bytes inverted. -/
theorem sclCrc_detects_burst_two :
    ∃ run run', sclCrc [0x55, 1] 2 = .ok run ∧ sclCrc [0xaa, 1] 2 = .ok run' ∧
      run.crc ≠ run'.crc :=
  sclCrc_detects_burst [0x55, 1] [0xaa, 1] rfl (by decide) (by decide) 0 fun i hi => by
    match i with
    | 0 => exact ⟨le_rfl, by omega⟩
    | i + 1 => exact absurd rfl hi

end CompatSuva.Crc
