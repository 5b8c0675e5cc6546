import CompatSuva.Crc.Checksum

/-!
# The sign bit of the checksum

`scl_crc` shifts an `int`. Where the state is negative, eight copies of the sign bit come in
from the left in place of zeros, and the rounds that follow carry them on. `signErrors` adds
them up; it is what separates the value of `scl_crc` from the CRC-32 of the same bytes.

Results:
* `shiftStep_eq`: a round is the byte step of the CRC-32, plus `0xff000000` for a negative state;
* `sclCrc_eq_crc32_iff`: `scl_crc` is the CRC-32 exactly where the sign bits cancel;
* `sclCrc_short_ne_crc32`: on chunks of 1 to 31 bytes they do not.
-/

namespace CompatSuva.Crc

open CompatSuva.Common

/-- The sign bits copied into a negative state. -/
def signBits : BitVec 32 := 0xff000000#32

/-- What the copied sign bits add up to over `msg`: they come in behind every proper prefix whose
    CRC-32 has its top bit clear (the state is the complement), and go through the rounds left. -/
def signErrors (msg : List Byte) : BitVec 32 :=
  xorSum ((List.range msg.length).map fun k =>
    if (crc32 (msg.take k)).getLsbD 31 then 0 else shiftStep^[msg.length - 1 - k] signBits)

/-! ## One round -/

theorem shiftStep_eq (x : BitVec 32) :
    shiftStep x = bitStep^[8] x ^^^ (if x.getLsbD 31 then signBits else 0) :=
  xorLinear_shiftStep.ext
    ((xorLinear_bitStep.iterate 8).xor (XorLinear.ite_getLsbD 31 signBits)) (by decide +kernel) x

theorem byteWord_top (b : Byte) : (byteWord b).getLsbD 31 = false := by
  rw [byteWord, BitVec.getLsbD_setWidth, BitVec.getLsbD_of_ge _ _ (by norm_num)]
  rfl

/-- A round on two states that have come apart by `e`. -/
theorem signedStep_xor (crc e : BitVec 32) (b : Byte) :
    signedStep (crc ^^^ e) b =
      byteStep crc b ^^^ ((if crc.getLsbD 31 then signBits else 0) ^^^ shiftStep e) := by
  have hswap : crc ^^^ e ^^^ byteWord b = (crc ^^^ byteWord b) ^^^ e := by ac_rfl
  have htop : (crc ^^^ byteWord b).getLsbD 31 = crc.getLsbD 31 := by
    rw [BitVec.getLsbD_xor, byteWord_top, Bool.xor_false]
  rw [signedStep, hswap, xorLinear_shiftStep, shiftStep_eq (crc ^^^ byteWord b), htop, byteStep,
    BitVec.xor_assoc]

/-! ## A whole run -/

theorem signErrors_concat (msg : List Byte) (b : Byte) :
    signErrors (msg ++ [b]) =
      (if (crc32 msg).getLsbD 31 then 0 else signBits) ^^^ shiftStep (signErrors msg) := by
  have hrounds : ∀ k ∈ List.range msg.length,
      (if (crc32 ((msg ++ [b]).take k)).getLsbD 31 then 0
        else shiftStep^[(msg ++ [b]).length - 1 - k] signBits) =
      shiftStep (if (crc32 (msg.take k)).getLsbD 31 then 0
        else shiftStep^[msg.length - 1 - k] signBits) := by
    intro k hk
    have hlt := List.mem_range.mp hk
    have hexp : (msg ++ [b]).length - 1 - k = (msg.length - 1 - k) + 1 := by
      rw [List.length_append, List.length_singleton]
      omega
    rw [List.take_append_of_le_length (by omega), hexp, Function.iterate_succ_apply',
      apply_ite shiftStep, xorLinear_shiftStep.map_zero]
  rw [signErrors, signErrors, xorLinear_shiftStep.map_xorSum, List.map_map, List.length_append,
    List.length_singleton, List.range_succ, List.map_append, xorSum_append, BitVec.xor_comm]
  congr 1
  · simp
  · congr 1
    have hlen : msg.length + 1 = (msg ++ [b]).length := by simp
    rw [hlen]
    exact List.map_congr_left hrounds

/-- The two states after the same bytes. -/
theorem signedCrc_eq (msg : List Byte) :
    signedCrc msg = msg.foldl byteStep (BitVec.allOnes 32) ^^^ signErrors msg := by
  induction msg using List.reverseRecOn with
  | nil => rfl
  | append_singleton msg b ih =>
    have htop : (crc32 msg).getLsbD 31 = !(msg.foldl byteStep (BitVec.allOnes 32)).getLsbD 31 := by
      rw [crc32, BitVec.getLsbD_not]
      simp
    rw [signedCrc, List.foldl_append, ← signedCrc, ih, List.foldl_append, List.foldl_cons,
      List.foldl_nil, List.foldl_cons, List.foldl_nil, signedStep_xor, signErrors_concat, htop]
    cases (msg.foldl byteStep (BitVec.allOnes 32)).getLsbD 31 <;> rfl

theorem signedCrc_eq_crc32_iff (msg : List Byte) :
    ~~~signedCrc msg = crc32 msg ↔ signErrors msg = 0 := by
  rw [signedCrc_eq, crc32, BitVec.not_inj]
  constructor
  · intro h
    rw [← BitVec.xor_zero (x := msg.foldl byteStep _), BitVec.xor_assoc, BitVec.zero_xor] at h
    exact (BitVec.xor_right_inj _).mp h
  · intro h
    rw [h]
    exact BitVec.xor_zero

/-- `scl_crc` is the CRC-32 of the chunk and its length where the copied sign bits cancel. -/
theorem sclCrc_eq_crc32_iff (d : List Byte) (h : d.length < 2 ^ 31) :
    (∃ run, sclCrc d (BitVec.ofNat 32 d.length) = .ok run ∧ run.crc = crc32 (message d)) ↔
      signErrors (message d) = 0 := by
  have hrun := sclCrc_eq d [] h
  rw [List.append_nil] at hrun
  rw [← signedCrc_eq_crc32_iff]
  constructor
  · rintro ⟨run, hok, hcrc⟩
    rw [hrun] at hok
    obtain rfl := Except.ok.inj hok
    exact hcrc
  · intro hcrc
    exact ⟨_, hrun, hcrc⟩

/-- A chunk of 32 characters "a" and "o". -/
def vowels : List Byte :=
  [111, 97, 97, 111, 97, 111, 111, 111, 97, 97, 111, 111, 97, 111, 111, 97,
   97, 111, 111, 97, 111, 111, 111, 97, 111, 111, 97, 97, 111, 97, 97, 111]

/-- Its copied sign bits cancel. -/
theorem sclCrc_eq_crc32_iff_vowels :
    ∃ run, sclCrc vowels 32 = .ok run ∧ run.crc = crc32 (message vowels) :=
  (sclCrc_eq_crc32_iff vowels (by decide)).mpr (by decide +kernel)

/-- One zero byte: the value is `0xc9212269` and the CRC-32 of the bytes 0, 1 is `0x36de2269`. -/
theorem sclCrc_ne_crc32 : ¬ ∀ d : List Byte, d.length < 2 ^ 31 →
    ∃ run, sclCrc d (BitVec.ofNat 32 d.length) = .ok run ∧ run.crc = crc32 (message d) := by
  intro h
  obtain ⟨run, hok, hcrc⟩ := h [0] (by decide)
  have hrun := sclCrc_eq [0] [] (by decide)
  rw [List.append_nil, hok] at hrun
  have hmessage : message [0] = [0, 1] := by decide
  rw [Except.ok.inj hrun, hmessage] at hcrc
  revert hcrc
  decide +kernel

/-! ## Short chunks -/

/-- Takes the sign bits that went through `j < 32` rounds to the word with bit `j` alone. -/
def roundsBehind : BitVec 32 → BitVec 32 := columns 0
  [0x53fb5222, 0x478e475b, 0xa71bc8d2, 0xc07ae6a6, 0x63b4087d, 0x3da70770,
   0xf82f76af, 0xd52842a3, 0x29fda911, 0xe36b27ca, 0x538de469, 0x603d7353,
   0xf1760059, 0x1ed383b8, 0xbcbbbf30, 0xaa382536, 0xd452d0ef, 0x71b593e5,
   0xe96af653, 0xf0b2bdce, 0xb817044b, 0x0f69c1dc, 0x5e5ddf98, 0x551c129b,
   0xaa856c10, 0xf876cd95, 0xb4197f4e, 0x78595ee7, 0x9ca78642, 0x07b4e0ee,
   0x2f2eefcc, 0x2a8e094d]

theorem roundsBehind_iterate :
    ∀ j < 32, roundsBehind (shiftStep^[j] signBits) = BitVec.twoPow 32 j := by
  decide +kernel

/-- Over 1 to 32 bytes the sign bits do not cancel: those of the first round are still there. -/
theorem signErrors_ne_zero {msg : List Byte} (hpos : 0 < msg.length) (hle : msg.length ≤ 32) :
    signErrors msg ≠ 0 := by
  obtain ⟨n, hn⟩ : ∃ n, msg.length = n + 1 := ⟨msg.length - 1, by omega⟩
  have hsplit : signErrors msg = shiftStep^[n] signBits ^^^ xorSum ((List.range n).map fun k =>
      if (crc32 (msg.take (k + 1))).getLsbD 31 then 0 else shiftStep^[n - (k + 1)] signBits) := by
    rw [signErrors, hn, List.range_succ_eq_map, List.map_cons, xorSum_cons, List.map_map,
      List.take_zero, if_neg (by decide)]
    rfl
  have hlinear : XorLinear roundsBehind := xorLinear_columns _ 0
  have hrest : ∀ x ∈ ((List.range n).map fun k =>
      if (crc32 (msg.take (k + 1))).getLsbD 31 then 0
        else shiftStep^[n - (k + 1)] signBits).map roundsBehind, x.getLsbD n = false := by
    intro x hx
    obtain ⟨y, hy, rfl⟩ := List.mem_map.mp hx
    obtain ⟨k, hk, rfl⟩ := List.mem_map.mp hy
    have hlt := List.mem_range.mp hk
    split_ifs
    · rw [hlinear.map_zero]
      exact BitVec.getLsbD_zero
    · rw [roundsBehind_iterate _ (by omega), BitVec.getLsbD_twoPow]
      simp only [Bool.and_eq_false_iff, decide_eq_false_iff_not]
      omega
  intro hzero
  have hbit : (roundsBehind (signErrors msg)).getLsbD n = true := by
    rw [hsplit, hlinear, hlinear.map_xorSum, BitVec.getLsbD_xor, getLsbD_xorSum hrest,
      roundsBehind_iterate n (by omega), BitVec.getLsbD_twoPow]
    simp
    omega
  rw [hzero, hlinear.map_zero] at hbit
  simp at hbit

/-- On chunks of 1 to 31 bytes `scl_crc` is never the CRC-32. -/
theorem sclCrc_short_ne_crc32 {d : List Byte} (hpos : 0 < d.length) (hlt : d.length < 32) :
    ∃ run, sclCrc d (BitVec.ofNat 32 d.length) = .ok run ∧ run.crc ≠ crc32 (message d) := by
  have hrun := sclCrc_eq d [] (by omega)
  rw [List.append_nil] at hrun
  have hlen : (message d).length = d.length + 1 := by
    rw [message, List.length_append, lengthBytes, Nat.digits_of_lt 256 _ (by omega) (by omega)]
    rfl
  refine ⟨_, hrun, fun hcrc => ?_⟩
  exact signErrors_ne_zero (by omega) (by omega) ((signedCrc_eq_crc32_iff _).mp hcrc)

end CompatSuva.Crc
