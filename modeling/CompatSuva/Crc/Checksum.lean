import CompatSuva.Common.LittleEndian
import CompatSuva.Common.Outcome
import CompatSuva.Common.XorLinear

/-!
# The checksum of BWMeter

Model of `crc.c`: the table `crctab` and `scl_crc`, which runs over the bytes of a chunk and
then over the bytes of its length. The state is an `int`, so that `crc >> 8` copies the sign
bit, and so is the count of bytes, which the first loop only compares with 0.

The loops are given the memory that can be read at `data`; they count their rounds.

Results:
* `crctab_eq`: the table holds the remainders of the polynomial `0xEDB88320`;
* `crcStep_eq`: one round is `shiftStep`, the byte step of the reflected CRC-32 with
  the arithmetic shift in place of the logical one;
* `sclCrc_eq`: the two loops are one fold of it over the chunk and the digits of its length.
-/

namespace CompatSuva.Crc

open CompatSuva.Common

/-! ## `crc.c` -/

/-- `crctab`. -/
def crctab : List (BitVec 32) :=
  [0x00000000, 0x77073096, 0xee0e612c, 0x990951ba, 0x076dc419, 0x706af48f,
   0xe963a535, 0x9e6495a3, 0x0edb8832, 0x79dcb8a4, 0xe0d5e91e, 0x97d2d988,
   0x09b64c2b, 0x7eb17cbd, 0xe7b82d07, 0x90bf1d91, 0x1db71064, 0x6ab020f2,
   0xf3b97148, 0x84be41de, 0x1adad47d, 0x6ddde4eb, 0xf4d4b551, 0x83d385c7,
   0x136c9856, 0x646ba8c0, 0xfd62f97a, 0x8a65c9ec, 0x14015c4f, 0x63066cd9,
   0xfa0f3d63, 0x8d080df5, 0x3b6e20c8, 0x4c69105e, 0xd56041e4, 0xa2677172,
   0x3c03e4d1, 0x4b04d447, 0xd20d85fd, 0xa50ab56b, 0x35b5a8fa, 0x42b2986c,
   0xdbbbc9d6, 0xacbcf940, 0x32d86ce3, 0x45df5c75, 0xdcd60dcf, 0xabd13d59,
   0x26d930ac, 0x51de003a, 0xc8d75180, 0xbfd06116, 0x21b4f4b5, 0x56b3c423,
   0xcfba9599, 0xb8bda50f, 0x2802b89e, 0x5f058808, 0xc60cd9b2, 0xb10be924,
   0x2f6f7c87, 0x58684c11, 0xc1611dab, 0xb6662d3d, 0x76dc4190, 0x01db7106,
   0x98d220bc, 0xefd5102a, 0x71b18589, 0x06b6b51f, 0x9fbfe4a5, 0xe8b8d433,
   0x7807c9a2, 0x0f00f934, 0x9609a88e, 0xe10e9818, 0x7f6a0dbb, 0x086d3d2d,
   0x91646c97, 0xe6635c01, 0x6b6b51f4, 0x1c6c6162, 0x856530d8, 0xf262004e,
   0x6c0695ed, 0x1b01a57b, 0x8208f4c1, 0xf50fc457, 0x65b0d9c6, 0x12b7e950,
   0x8bbeb8ea, 0xfcb9887c, 0x62dd1ddf, 0x15da2d49, 0x8cd37cf3, 0xfbd44c65,
   0x4db26158, 0x3ab551ce, 0xa3bc0074, 0xd4bb30e2, 0x4adfa541, 0x3dd895d7,
   0xa4d1c46d, 0xd3d6f4fb, 0x4369e96a, 0x346ed9fc, 0xad678846, 0xda60b8d0,
   0x44042d73, 0x33031de5, 0xaa0a4c5f, 0xdd0d7cc9, 0x5005713c, 0x270241aa,
   0xbe0b1010, 0xc90c2086, 0x5768b525, 0x206f85b3, 0xb966d409, 0xce61e49f,
   0x5edef90e, 0x29d9c998, 0xb0d09822, 0xc7d7a8b4, 0x59b33d17, 0x2eb40d81,
   0xb7bd5c3b, 0xc0ba6cad, 0xedb88320, 0x9abfb3b6, 0x03b6e20c, 0x74b1d29a,
   0xead54739, 0x9dd277af, 0x04db2615, 0x73dc1683, 0xe3630b12, 0x94643b84,
   0x0d6d6a3e, 0x7a6a5aa8, 0xe40ecf0b, 0x9309ff9d, 0x0a00ae27, 0x7d079eb1,
   0xf00f9344, 0x8708a3d2, 0x1e01f268, 0x6906c2fe, 0xf762575d, 0x806567cb,
   0x196c3671, 0x6e6b06e7, 0xfed41b76, 0x89d32be0, 0x10da7a5a, 0x67dd4acc,
   0xf9b9df6f, 0x8ebeeff9, 0x17b7be43, 0x60b08ed5, 0xd6d6a3e8, 0xa1d1937e,
   0x38d8c2c4, 0x4fdff252, 0xd1bb67f1, 0xa6bc5767, 0x3fb506dd, 0x48b2364b,
   0xd80d2bda, 0xaf0a1b4c, 0x36034af6, 0x41047a60, 0xdf60efc3, 0xa867df55,
   0x316e8eef, 0x4669be79, 0xcb61b38c, 0xbc66831a, 0x256fd2a0, 0x5268e236,
   0xcc0c7795, 0xbb0b4703, 0x220216b9, 0x5505262f, 0xc5ba3bbe, 0xb2bd0b28,
   0x2bb45a92, 0x5cb36a04, 0xc2d7ffa7, 0xb5d0cf31, 0x2cd99e8b, 0x5bdeae1d,
   0x9b64c2b0, 0xec63f226, 0x756aa39c, 0x026d930a, 0x9c0906a9, 0xeb0e363f,
   0x72076785, 0x05005713, 0x95bf4a82, 0xe2b87a14, 0x7bb12bae, 0x0cb61b38,
   0x92d28e9b, 0xe5d5be0d, 0x7cdcefb7, 0x0bdbdf21, 0x86d3d2d4, 0xf1d4e242,
   0x68ddb3f8, 0x1fda836e, 0x81be16cd, 0xf6b9265b, 0x6fb077e1, 0x18b74777,
   0x88085ae6, 0xff0f6a70, 0x66063bca, 0x11010b5c, 0x8f659eff, 0xf862ae69,
   0x616bffd3, 0x166ccf45, 0xa00ae278, 0xd70dd2ee, 0x4e048354, 0x3903b3c2,
   0xa7672661, 0xd06016f7, 0x4969474d, 0x3e6e77db, 0xaed16a4a, 0xd9d65adc,
   0x40df0b66, 0x37d83bf0, 0xa9bcae53, 0xdebb9ec5, 0x47b2cf7f, 0x30b5ffe9,
   0xbdbdf21c, 0xcabac28a, 0x53b39330, 0x24b4a3a6, 0xbad03605, 0xcdd70693,
   0x54de5729, 0x23d967bf, 0xb3667a2e, 0xc4614ab8, 0x5d681b02, 0x2a6f2b94,
   0xb40bbe37, 0xc30c8ea1, 0x5a05df1b, 0x2d02ef8d]

/-- `crctab[i & 0xff]`. -/
def crctabAt (i : BitVec 32) : BitVec 32 := crctab.getD (i &&& 0xff#32).toNat 0

/-- `(crc >> 8) ^ crctab[(crc ^ b) & 0xff]`, on `int`s. -/
def crcStep (crc b : BitVec 32) : BitVec 32 := crc.sshiftRight 8 ^^^ crctabAt (crc ^^^ b)

/-- The value of `*data`, a `char`, as an `int`. -/
def charInt (b : Byte) : BitVec 32 := b.toBitVec.signExtend 32

/-- Undefined behaviour of `scl_crc`. -/
inductive CrcFault where
  /-- `*(data++)` behind the memory at `data`. -/
  | pastEnd
  /-- `len--` at the smallest `int`. -/
  | overflow
  deriving DecidableEq, Repr

/-- `while(len--)`, after `rounds` rounds; `mem` is the memory left at `data`. -/
def dataLoop : List Byte → (len crc : BitVec 32) → (rounds : ℕ) → Except CrcFault (BitVec 32 × ℕ)
  | mem, len, crc, rounds =>
    if len = 0 then .ok (crc, rounds)
    else if len = BitVec.intMin 32 then .error .overflow
    else match mem with
      | [] => .error .pastEnd
      | b :: mem => dataLoop mem (len - 1) (crcStep crc (charInt b)) (rounds + 1)

/-- `while(data_len > 0)`, after `rounds` rounds. -/
def lenLoop (dataLen crc : BitVec 32) (rounds : ℕ) : BitVec 32 × ℕ :=
  if 0 < dataLen.toInt then lenLoop (dataLen.sshiftRight 8) (crcStep crc dataLen) (rounds + 1)
  else (crc, rounds)
termination_by dataLen.toInt.toNat
decreasing_by
  rw [BitVec.toInt_sshiftRight, Int.shiftRight_eq_div_pow]
  omega

/-- A run of `scl_crc`: its value, and the rounds of its loops. -/
structure CrcRun where
  crc : BitVec 32
  dataRounds : ℕ
  lenRounds : ℕ
  deriving DecidableEq, Repr

/-- `scl_crc`, with `mem` the memory that can be read at `data`. -/
def sclCrc (mem : List Byte) (dataLen : BitVec 32) : Except CrcFault CrcRun := do
  let (crc, dataRounds) ← dataLoop mem dataLen (BitVec.allOnes 32) 0
  let (crc, lenRounds) := lenLoop dataLen crc 0
  return ⟨~~~crc, dataRounds, lenRounds⟩

/-! ## The bitwise definition -/

/-- One bit: a shift, and the polynomial if the bit shifted out is set. -/
def bitStep (x : BitVec 32) : BitVec 32 :=
  (x >>> 1) ^^^ (if x.getLsbD 0 then 0xEDB88320#32 else 0#32)

/-- A byte as a word. -/
def byteWord (b : Byte) : BitVec 32 := b.toBitVec.setWidth 32

/-- One byte: it is added to the low bits, and eight bits are shifted out. -/
def byteStep (crc : BitVec 32) (b : Byte) : BitVec 32 := bitStep^[8] (crc ^^^ byteWord b)

/-- The reflected CRC-32 with the polynomial `0xEDB88320`. -/
def crc32 (msg : List Byte) : BitVec 32 := ~~~(msg.foldl byteStep (BitVec.allOnes 32))

example : crc32 [49, 50, 51, 52, 53, 54, 55, 56, 57] = 0xcbf43926 := by decide +kernel

/-- The bytes of a length, least significant first, up to the last that is not 0. -/
def lengthBytes (n : ℕ) : List Byte := (Nat.digits 256 n).map UInt8.ofNat

/-- What `scl_crc` is given to check: a chunk followed by its length. -/
def message (d : List Byte) : List Byte := d ++ lengthBytes d.length

/-! ## One round -/

/-- `bitStep^[8]` with the arithmetic shift. -/
def shiftStep (x : BitVec 32) : BitVec 32 := x.sshiftRight 8 ^^^ bitStep^[8] (x &&& 0xff#32)

/-- A round of `scl_crc` on a byte. -/
def signedStep (crc : BitVec 32) (b : Byte) : BitVec 32 := shiftStep (crc ^^^ byteWord b)

theorem crctab_eq : crctab = (List.range 256).map fun i => bitStep^[8] (BitVec.ofNat 32 i) := by
  decide +kernel

theorem low_byte_lt (i : BitVec 32) : (i &&& 0xff#32).toNat < 256 := by
  rw [BitVec.toNat_and]
  exact Nat.lt_succ_of_le Nat.and_le_right

theorem crctabAt_eq (i : BitVec 32) : crctabAt i = bitStep^[8] (i &&& 0xff#32) := by
  rw [crctabAt, crctab_eq, List.getD_eq_getElem?_getD, List.getElem?_map,
    List.getElem?_range (low_byte_lt i), Option.map_some, Option.getD_some, BitVec.ofNat_toNat,
    BitVec.setWidth_eq]

theorem low_byte_sshiftRight (b : BitVec 32) : (b &&& 0xff#32).sshiftRight 8 = 0#32 :=
  ((XorLinear.sshiftRight 8).comp (XorLinear.and 0xff#32)).ext XorLinear.zero (by decide) b

theorem low_byte_xor (crc b : BitVec 32) :
    (crc ^^^ (b &&& 0xff#32)) &&& 0xff#32 = (crc ^^^ b) &&& 0xff#32 :=
  calc (crc ^^^ (b &&& 0xff#32)) &&& 0xff#32
      = (crc &&& 0xff#32) ^^^ ((b &&& 0xff#32) &&& 0xff#32) := XorLinear.and _ _ _
    _ = (crc &&& 0xff#32) ^^^ (b &&& 0xff#32) := by rw [BitVec.and_assoc, BitVec.and_self]
    _ = (crc ^^^ b) &&& 0xff#32 := (XorLinear.and _ _ _).symm

theorem crcStep_eq (crc b : BitVec 32) : crcStep crc b = shiftStep (crc ^^^ (b &&& 0xff#32)) := by
  rw [crcStep, shiftStep, crctabAt_eq, low_byte_xor, BitVec.sshiftRight_xor_distrib,
    low_byte_sshiftRight, BitVec.xor_zero]

theorem low_byte_charInt (b : Byte) : charInt b &&& 0xff#32 = byteWord b := by
  have h : ∀ x : BitVec 8, x.signExtend 32 &&& 0xff#32 = x.setWidth 32 := by decide
  exact h b.toBitVec

theorem low_byte_ofNat (n : ℕ) : BitVec.ofNat 32 n &&& 0xff#32 =
    byteWord (UInt8.ofNat (n % 256)) := by
  apply BitVec.eq_of_toNat_eq
  have hmask : n % 2 ^ 32 &&& 255 = n % 2 ^ 32 % 2 ^ 8 := Nat.and_two_pow_sub_one_eq_mod _ 8
  have hlow : (BitVec.ofNat 32 n &&& 0xff#32).toNat = n % 2 ^ 32 % 2 ^ 8 := by
    rw [BitVec.toNat_and, BitVec.toNat_ofNat]
    exact hmask
  have hbyte : (byteWord (UInt8.ofNat (n % 256))).toNat = n % 256 % 2 ^ 8 % 2 ^ 32 := by
    rw [byteWord, BitVec.toNat_setWidth, UInt8.toNat_toBitVec, UInt8.toNat_ofNat']
  omega

/-- Of a `char` the sign does not matter. -/
theorem crcStep_charInt (crc : BitVec 32) (b : Byte) :
    crcStep crc (charInt b) = signedStep crc b := by
  rw [crcStep_eq, low_byte_charInt, signedStep]

theorem xorLinear_bitStep : XorLinear bitStep :=
  (XorLinear.ushiftRight 1).xor (XorLinear.ite_getLsbD 0 0xEDB88320#32)

theorem xorLinear_shiftStep : XorLinear shiftStep :=
  (XorLinear.sshiftRight 8).xor ((xorLinear_bitStep.iterate 8).comp (XorLinear.and 0xff#32))

/-! ## The loops -/

theorem dataLoop_eq (d mem : List Byte) (crc : BitVec 32) (rounds : ℕ) (h : d.length < 2 ^ 31) :
    dataLoop (d ++ mem) (BitVec.ofNat 32 d.length) crc rounds =
      .ok (d.foldl signedStep crc, rounds + d.length) := by
  induction d generalizing crc rounds with
  | nil =>
    unfold dataLoop
    rfl
  | cons b d ih =>
    rw [List.length_cons] at h ⊢
    have hne : BitVec.ofNat 32 (d.length + 1) ≠ 0 := by bv_omega
    have hmin : BitVec.ofNat 32 (d.length + 1) ≠ BitVec.intMin 32 := by
      intro heq
      have := congrArg BitVec.toNat heq
      rw [BitVec.toNat_ofNat, BitVec.toNat_intMin] at this
      omega
    have hpred : BitVec.ofNat 32 (d.length + 1) - 1 = BitVec.ofNat 32 d.length := by bv_omega
    rw [List.cons_append, dataLoop, if_neg hne, if_neg hmin]
    show dataLoop (d ++ mem) (BitVec.ofNat 32 (d.length + 1) - 1) _ _ = _
    rw [hpred, ih _ _ (by omega), crcStep_charInt, List.foldl_cons]
    congr 2
    omega

theorem toInt_ofNat_length {n : ℕ} (h : n < 2 ^ 31) : (BitVec.ofNat 32 n).toInt = n := by
  rw [BitVec.toInt_eq_toNat_of_lt] <;> rw [BitVec.toNat_ofNat] <;> omega

/-- A positive length is shifted like the natural number it is. -/
theorem sshiftRight_ofNat {n : ℕ} (h : n < 2 ^ 31) :
    (BitVec.ofNat 32 n).sshiftRight 8 = BitVec.ofNat 32 (n / 256) := by
  apply BitVec.eq_of_toInt_eq
  rw [BitVec.toInt_sshiftRight, toInt_ofNat_length h, toInt_ofNat_length (n := n / 256) (by omega),
    Int.shiftRight_eq_div_pow]
  rfl

theorem lenLoop_eq {n : ℕ} (h : n < 2 ^ 31) (crc : BitVec 32) (rounds : ℕ) :
    lenLoop (BitVec.ofNat 32 n) crc rounds =
      ((lengthBytes n).foldl signedStep crc, rounds + (lengthBytes n).length) := by
  induction n using Nat.strongRecOn generalizing crc rounds with
  | ind n ih =>
    rw [lenLoop, toInt_ofNat_length h]
    by_cases hpos : 0 < n
    · have hdigits : lengthBytes n = UInt8.ofNat (n % 256) :: lengthBytes (n / 256) := by
        rw [lengthBytes, Nat.digits_def' (by norm_num) hpos, List.map_cons, lengthBytes]
      have hdiv : n / 256 < n := Nat.div_lt_self hpos (by norm_num)
      rw [if_pos (by omega), sshiftRight_ofNat h, ih _ hdiv (by omega), crcStep_eq, low_byte_ofNat,
        hdigits, List.foldl_cons, List.length_cons, signedStep]
      congr 1
      omega
    · obtain rfl : n = 0 := by omega
      rw [if_neg (by omega)]
      simp [lengthBytes]

theorem length_lengthBytes {n : ℕ} (h : n < 2 ^ 31) : (lengthBytes n).length ≤ 4 := by
  rw [lengthBytes, List.length_map]
  exact (Nat.digits_length_le_iff (by norm_num) n).mpr (by omega)

/-- The state `scl_crc` ends in on the bytes `msg`. -/
def signedCrc (msg : List Byte) : BitVec 32 := msg.foldl signedStep (BitVec.allOnes 32)

theorem sclCrc_eq (d mem : List Byte) (h : d.length < 2 ^ 31) :
    sclCrc (d ++ mem) (BitVec.ofNat 32 d.length) =
      .ok ⟨~~~signedCrc (message d), d.length, (lengthBytes d.length).length⟩ := by
  rw [sclCrc, dataLoop_eq d mem _ _ h, ok_bind]
  simp only [lenLoop_eq h, signedCrc, message, List.foldl_append, Nat.zero_add]
  rfl

end CompatSuva.Crc
