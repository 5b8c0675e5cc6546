import CompatSuva.Mem.Refinement

/-!
# The shifts of `mem_hash`

`mem_hash` (`mem.c` lines 804–815) adds up the byte at `p_ukey` shifted right by 0, 8, … up to
`len * 8`. The byte is promoted to an `int` of 32 bits, and a shift by 32 or more of that is
undefined. `len * 8` is an `unsigned int`.

* `memHashRun`: the loop as it stands, with the counts of its shifts; `memHashRun_memHash` says that
  it computes the `memHash` of the tables;
* `memHashRun_shifts_iff`, `memHashRun_same_iff`: when all shifts are defined, and when the bucket
  does not depend on what the compiler makes of those that are not;
* `hashType_same`, `hashPtr_differs`: the 4-byte types and the 8-byte pointers;
* `memHash_defined_iff`: the keys on which the function is defined.
-/

namespace CompatSuva.Mem

open CompatSuva.Common

/-! ## Model -/

/-- The variable `hash`, and the counts of the shifts so far. -/
structure HashRun where
  hash : BitVec 32
  shifts : List ℕ

/-- `hash % MEM_HASH_SIZE`. -/
def HashRun.bucket (r : HashRun) : ℕ := r.hash.toNat % memHashSize

variable (wide : Byte → ℕ → BitVec 32)

/-- `for(i = 0u; i < len * 8; i += 8) hash += (*p_ukey >> i);` (lines 811–812), with `first` the
    byte at `p_ukey` and `bound` for `len * 8`. -/
def memHashLoop (first : Byte) (bound : BitVec 32) : ℕ → BitVec 32 → HashRun → Option HashRun
  | 0, _, _ => none
  | fuel + 1, i, r =>
    if i < bound then
      memHashLoop first bound fuel (i + 8)
        ⟨r.hash + shiftRight wide first i.toNat, r.shifts ++ [i.toNat]⟩
    else some r

/-- `mem_hash(p_key, len)` up to the last line, with `key` the bytes at `p_key`. -/
def memHashRun (key : List Byte) (len : BitVec 32) : Option HashRun :=
  memHashLoop wide (key.headD 0) (len * 8) ((len * 8).toNat + 1) 0 ⟨0, []⟩

/-- Every shift is by less than 32, the result is a bucket, and it is the same one whatever the
    compiler makes of undefined shifts. -/
structure Defined (key : List Byte) (len : BitVec 32) : Prop where
  shifts : ∀ wide r, memHashRun wide key len = some r → ∀ i ∈ r.shifts, i < 32
  bucket : ∀ wide, ∃ r, memHashRun wide key len = some r ∧ r.bucket < memHashSize
  same : ∀ wide wide', (memHashRun wide key len).map HashRun.bucket =
    (memHashRun wide' key len).map HashRun.bucket

/-! ## The loop -/

/-- The variable `hash` after `n` rounds. -/
def hashSum (first : Byte) (n : ℕ) : BitVec 32 :=
  (List.range n).foldl (fun hash k => hash + shiftRight wide first (8 * k)) 0

/-- Loop state after `n` rounds. -/
def HashRun.after (first : Byte) (n : ℕ) : HashRun :=
  ⟨hashSum wide first n, (List.range n).map (8 * ·)⟩

variable {wide}

theorem hashSum_succ (first : Byte) (n : ℕ) :
    hashSum wide first (n + 1) = hashSum wide first n + shiftRight wide first (8 * n) := by
  unfold hashSum
  rw [List.range_succ, List.foldl_append]
  rfl

theorem HashRun.after_succ (first : Byte) (n : ℕ) :
    HashRun.after wide first (n + 1) =
      ⟨(HashRun.after wide first n).hash + shiftRight wide first (8 * n),
        (HashRun.after wide first n).shifts ++ [8 * n]⟩ := by
  unfold HashRun.after
  rw [hashSum_succ, List.range_succ, List.map_append, List.map_singleton]

/-- `m` rounds are left after `k` rounds. -/
theorem memHashLoop_eq (wide : Byte → ℕ → BitVec 32) (first : Byte) {k m : ℕ}
    (hbound : 8 * (k + m) < 2 ^ 32) {fuel : ℕ} (hfuel : m < fuel) :
    memHashLoop wide first (BitVec.ofNat 32 (8 * (k + m))) fuel (BitVec.ofNat 32 (8 * k))
        (HashRun.after wide first k) =
      some (HashRun.after wide first (k + m)) := by
  have hend : (BitVec.ofNat 32 (8 * (k + m))).toNat = 8 * (k + m) := by
    rw [BitVec.toNat_ofNat, Nat.mod_eq_of_lt hbound]
  have hk : (BitVec.ofNat 32 (8 * k)).toNat = 8 * k := by
    rw [BitVec.toNat_ofNat, Nat.mod_eq_of_lt (by omega)]
  induction m generalizing k fuel with
  | zero =>
    obtain ⟨f, rfl⟩ := Nat.exists_eq_add_one_of_ne_zero (Nat.ne_zero_of_lt hfuel)
    have hstop : ¬ BitVec.ofNat 32 (8 * k) < BitVec.ofNat 32 (8 * (k + 0)) := by
      rw [BitVec.lt_def]
      omega
    rw [memHashLoop, if_neg hstop]
    rfl
  | succ m ih =>
    obtain ⟨f, rfl⟩ := Nat.exists_eq_add_one_of_ne_zero (Nat.ne_zero_of_lt hfuel)
    have hround : BitVec.ofNat 32 (8 * k) < BitVec.ofNat 32 (8 * (k + (m + 1))) := by
      rw [BitVec.lt_def]
      omega
    have hnext : BitVec.ofNat 32 (8 * k) + 8 = BitVec.ofNat 32 (8 * (k + 1)) := by
      rw [Nat.mul_add, BitVec.ofNat_add]
      rfl
    have hsum : k + (m + 1) = k + 1 + m := by omega
    have hrest : (BitVec.ofNat 32 (8 * (k + 1))).toNat = 8 * (k + 1) := by
      rw [BitVec.toNat_ofNat, Nat.mod_eq_of_lt (by omega)]
    rw [memHashLoop, if_pos hround, hnext, hk, ← HashRun.after_succ]
    rw [hsum] at hbound hend ⊢
    exact ih hbound (by omega) hend hrest

/-- The number of rounds: `len`, but `len * 8` is taken modulo `2³²`. -/
def rounds (len : BitVec 32) : ℕ := len.toNat % 2 ^ 29

/-- The loop ends, after that number of rounds. -/
theorem memHashRun_eq (wide : Byte → ℕ → BitVec 32) (key : List Byte) (len : BitVec 32) :
    memHashRun wide key len = some (HashRun.after wide (key.headD 0) (rounds len)) := by
  have hlen : len * 8 = BitVec.ofNat 32 (8 * (0 + rounds len)) := by
    apply BitVec.eq_of_toNat_eq
    rw [BitVec.toNat_mul, BitVec.toNat_ofNat]
    unfold rounds
    show len.toNat * 8 % 2 ^ 32 = _
    omega
  have hbound : 8 * (0 + rounds len) < 2 ^ 32 := by
    unfold rounds
    omega
  have hfuel : rounds len < (BitVec.ofNat 32 (8 * (0 + rounds len))).toNat + 1 := by
    rw [BitVec.toNat_ofNat, Nat.mod_eq_of_lt hbound]
    omega
  have hloop := memHashLoop_eq wide (key.headD 0) hbound hfuel
  unfold memHashRun
  rw [hlen]
  rw [Nat.zero_add] at hloop ⊢
  exact hloop

/-- It computes the bucket of the tables. -/
theorem memHashRun_memHash (wide : Byte → ℕ → BitVec 32) {key : List Byte} {len : BitVec 32}
    (hlen : len.toNat = key.length) (hkey : key.length < 2 ^ 29) :
    (memHashRun wide key len).map HashRun.bucket = some (memHash wide key).val := by
  have hrounds : rounds len = key.length := by
    unfold rounds
    rw [hlen, Nat.mod_eq_of_lt hkey]
  rw [memHashRun_eq, hrounds]
  rfl

/-! ## Shifts by 32 or more -/

/-- All shifts are defined for up to four rounds. -/
theorem memHashRun_shifts_iff (wide : Byte → ℕ → BitVec 32) (key : List Byte) (len : BitVec 32) :
    (∀ r, memHashRun wide key len = some r → ∀ i ∈ r.shifts, i < 32) ↔ rounds len ≤ 4 := by
  rw [memHashRun_eq]
  constructor
  · intro h
    by_contra hmany
    have hfifth : 8 * 4 ∈ (HashRun.after wide (key.headD 0) (rounds len)).shifts :=
      List.mem_map_of_mem (List.mem_range.mpr (by omega))
    have hlt := h _ rfl _ hfifth
    omega
  · intro hfew r hr i hi
    obtain rfl := Option.some.inj hr
    obtain ⟨k, hk, rfl⟩ := List.mem_map.mp hi
    rw [List.mem_range] at hk
    omega

theorem shiftRight_lt {i : ℕ} (h : i < 32) (wide wide' : Byte → ℕ → BitVec 32) (b : Byte) :
    shiftRight wide b i = shiftRight wide' b i := by
  unfold shiftRight
  rw [if_pos h, if_pos h]

theorem shiftRight_ge {i : ℕ} (h : 32 ≤ i) (wide : Byte → ℕ → BitVec 32) (b : Byte) :
    shiftRight wide b i = wide b i :=
  if_neg (by omega)

/-- Up to four rounds do not see `wide`. -/
theorem hashSum_eq {n : ℕ} (h : n ≤ 4) (wide wide' : Byte → ℕ → BitVec 32) (first : Byte) :
    hashSum wide first n = hashSum wide' first n := by
  induction n with
  | zero => rfl
  | succ n ih =>
    rw [hashSum_succ, hashSum_succ, ih (by omega), shiftRight_lt (by omega) wide wide']

/-- Nothing is left of the byte. -/
def wideZero : Byte → ℕ → BitVec 32 := fun _ _ => 0

/-- The same, but for a shift by 32. -/
def wideOne : Byte → ℕ → BitVec 32 := fun _ i => if i = 32 then 1 else 0

/-- From the fifth round on the two differ by one. -/
theorem hashSum_wideOne (first : Byte) {n : ℕ} (h : 4 < n) :
    hashSum wideOne first n = hashSum wideZero first n + 1 := by
  induction n, h using Nat.le_induction with
  | base =>
    have hfour := hashSum_eq (Nat.le_refl 4) wideOne wideZero first
    have hone : shiftRight wideOne first 32 = 1 := rfl
    have hzero : shiftRight wideZero first 32 = 0#32 := rfl
    rw [Nat.succ_eq_add_one, hashSum_succ _ 4, hashSum_succ _ 4, hfour, hone, hzero,
      BitVec.add_zero]
  | succ n hn ih =>
    have hone : wideOne first (8 * n) = 0#32 := if_neg (by omega)
    have hzero : wideZero first (8 * n) = 0#32 := rfl
    rw [hashSum_succ, hashSum_succ, ih, shiftRight_ge (by omega), shiftRight_ge (by omega), hone,
      hzero, BitVec.add_zero, BitVec.add_zero]

theorem bucket_wideOne (first : Byte) {n : ℕ} (h : 4 < n) :
    (HashRun.after wideOne first n).bucket ≠ (HashRun.after wideZero first n).bucket := by
  intro hsame
  unfold HashRun.bucket HashRun.after at hsame
  have hone : (1 : BitVec 32).toNat = 1 := rfl
  have hsum := congrArg BitVec.toNat (hashSum_wideOne first h)
  rw [BitVec.toNat_add, hone] at hsum
  show False
  unfold memHashSize at hsame
  dsimp only at hsame
  omega

/-- The bucket does not depend on `wide` exactly if all shifts are defined. -/
theorem memHashRun_same_iff (key : List Byte) (len : BitVec 32) :
    (∀ wide wide', (memHashRun wide key len).map HashRun.bucket =
      (memHashRun wide' key len).map HashRun.bucket) ↔ rounds len ≤ 4 := by
  constructor
  · intro h
    by_contra hmany
    have hsame := h wideOne wideZero
    rw [memHashRun_eq, memHashRun_eq, Option.map_some, Option.map_some, Option.some.injEq] at hsame
    exact bucket_wideOne (key.headD 0) (by omega) hsame
  · intro hfew wide wide'
    rw [memHashRun_eq, memHashRun_eq, Option.map_some, Option.map_some]
    unfold HashRun.bucket HashRun.after
    rw [hashSum_eq hfew wide wide']

/-! ## Types and pointers -/

/-- The bucket of a type is the same everywhere. -/
theorem hashType_same (wide wide' : Byte → ℕ → BitVec 32) (type : BitVec 32) :
    hashType wide type = hashType wide' type := by
  apply Fin.ext
  show (hashSum wide _ _).toNat % memHashSize = (hashSum wide' _ _).toNat % memHashSize
  rw [length_bytesOf, hashSum_eq (Nat.le_refl 4) wide wide']

/-- That of a pointer is not: for each of them there are two answers. -/
theorem hashPtr_differs (p : Addr) : hashPtr wideOne p ≠ hashPtr wideZero p := by
  intro h
  have hmany : 4 < (leBytes 8 p).length := by
    rw [length_leBytes]
    omega
  exact bucket_wideOne _ hmany (congrArg Fin.val h)

/-- `mem_hash` is defined exactly for keys of at most four bytes, with the length modulo `2²⁹`. -/
theorem memHash_defined_iff {key : List Byte} {len : BitVec 32} (hlen : len.toNat = key.length) :
    Defined key len ↔ key.length % 2 ^ 29 ≤ 4 := by
  have hrounds : rounds len = key.length % 2 ^ 29 := by
    unfold rounds
    rw [hlen]
  rw [← hrounds]
  constructor
  · intro h
    exact (memHashRun_same_iff key len).mp h.same
  · intro hfew
    refine ⟨fun wide => (memHashRun_shifts_iff wide key len).mpr hfew, fun wide => ?_,
      (memHashRun_same_iff key len).mpr hfew⟩
    exact ⟨_, memHashRun_eq wide key len, Nat.mod_lt _ (by decide)⟩

/-- A type. -/
theorem memHash_defined_type : Defined (bytesOf (2 : BitVec 32)) 4 :=
  (memHash_defined_iff rfl).mpr (by decide)

/-- A pointer: the fifth shift is by 32. -/
theorem memHash_shifts_32 : ¬ ∀ (key : List Byte) (len : BitVec 32),
    len.toNat = key.length → Defined key len := by
  intro hall
  have hdef := hall (leBytes 8 48) 8 rfl
  have hshift := hdef.shifts wideX86 _ (memHashRun_eq wideX86 _ _) 32
    (List.mem_map_of_mem (List.mem_range.mpr (show 4 < rounds 8 by decide)))
  exact absurd hshift (by decide)

end CompatSuva.Mem
