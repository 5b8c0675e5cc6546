import Mathlib

/-!
# Little-endian words

A machine word of `k` bytes is the list of its base-256 digits, least
significant first. `leBytes k v` writes the low `k` digits of `v`; `leNat`
reads a digit list back.

Results:
* `leNat_leBytes`: reading what was written gives `v mod 256^k`;
* `leBytes_leNat`: writing what was read gives the bytes back, so the two are
  inverse bijections between `[0, 256^k)` and the byte strings of length `k`;
* `wordOf_bytesOf`: the same for `BitVec` words.
-/

namespace CompatSuva.Common

/-- An `unsigned char`. -/
abbrev Byte := UInt8

/-- The `k` low bytes of `v`, least significant first. -/
def leBytes : ℕ → ℕ → List Byte
  | 0, _ => []
  | k + 1, v => UInt8.ofNat v :: leBytes k (v / 256)

/-- The number whose base-256 digits are `bs`, least significant first. -/
def leNat : List Byte → ℕ
  | [] => 0
  | b :: bs => b.toNat + 256 * leNat bs

@[simp] theorem length_leBytes (k v : ℕ) : (leBytes k v).length = k := by
  induction k generalizing v with
  | zero => rfl
  | succ k ih => simp [leBytes, ih]

theorem leNat_leBytes (k v : ℕ) : leNat (leBytes k v) = v % 256 ^ k := by
  induction k generalizing v with
  | zero => simp [leBytes, leNat, Nat.mod_one]
  | succ k ih =>
    have h : v % 2 ^ 8 = v % 256 := rfl
    rw [leBytes, leNat, ih, UInt8.toNat_ofNat', h, pow_succ', Nat.mod_mul]

theorem leNat_lt (bs : List Byte) : leNat bs < 256 ^ bs.length := by
  induction bs with
  | nil => simp [leNat]
  | cons b bs ih =>
    have hb : b.toNat < 256 := b.toNat_lt
    have h : leNat bs + 1 ≤ 256 ^ bs.length := ih
    calc leNat (b :: bs) < 256 * (leNat bs + 1) := by rw [leNat]; omega
      _ ≤ 256 * 256 ^ bs.length := Nat.mul_le_mul_left _ h
      _ = 256 ^ (b :: bs).length := by rw [List.length_cons, pow_succ']

theorem leBytes_leNat (bs : List Byte) : leBytes bs.length (leNat bs) = bs := by
  induction bs with
  | nil => rfl
  | cons b bs ih =>
    have hb : b.toNat < 256 := b.toNat_lt
    have hdiv : (b.toNat + 256 * leNat bs) / 256 = leNat bs := by omega
    have hmod : UInt8.ofNat (b.toNat + 256 * leNat bs) = b := by
      apply UInt8.toNat_inj.mp
      rw [UInt8.toNat_ofNat']
      omega
    rw [List.length_cons, leBytes, leNat, hdiv, hmod, ih]

/-! ## Words of a fixed width -/

/-- The memory image of a `w`-bit word: `w / 8` bytes. -/
def bytesOf {w : ℕ} (v : BitVec w) : List Byte := leBytes (w / 8) v.toNat

/-- The `w`-bit word a memory image holds. -/
def wordOf (w : ℕ) (bs : List Byte) : BitVec w := BitVec.ofNat w (leNat bs)

@[simp] theorem length_bytesOf {w : ℕ} (v : BitVec w) : (bytesOf v).length = w / 8 :=
  length_leBytes _ _

theorem wordOf_bytesOf {w : ℕ} (hw : 8 ∣ w) (v : BitVec w) : wordOf w (bytesOf v) = v := by
  obtain ⟨k, rfl⟩ := hw
  have hpow : 256 ^ (8 * k / 8) = 2 ^ (8 * k) := by
    rw [Nat.mul_div_cancel_left _ (by norm_num), pow_mul]; norm_num
  rw [wordOf, bytesOf, leNat_leBytes, hpow, Nat.mod_eq_of_lt v.isLt, BitVec.ofNat_toNat,
    BitVec.setWidth_eq]

/-- A 32-bit word read as a signed `int`. -/
def intOf (bs : List Byte) : ℤ := (wordOf 32 bs).toInt

theorem intOf_bytesOf (v : BitVec 32) : intOf (bytesOf v) = v.toInt := by
  rw [intOf, wordOf_bytesOf (by decide)]

/-- A non-negative `int` survives being written as four bytes. -/
theorem intOf_ofNat {n : ℕ} (hn : n < 2 ^ 31) : intOf (bytesOf (BitVec.ofNat 32 n)) = n := by
  rw [intOf_bytesOf, BitVec.toInt_ofNat', Int.bmod_eq_of_le] <;> push_cast <;> omega

/-- An `int` computed with two's complement wrap-around. -/
def wrap32 (x : ℤ) : ℤ := (BitVec.ofInt 32 x).toInt

theorem wrap32_of_lt {x : ℤ} (h0 : 0 ≤ x) (h1 : x < 2 ^ 31) : wrap32 x = x := by
  rw [wrap32, BitVec.toInt_ofInt, Int.bmod_eq_of_le] <;> push_cast <;> omega

end CompatSuva.Common
