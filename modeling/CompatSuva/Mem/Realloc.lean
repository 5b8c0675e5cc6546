import CompatSuva.Mem.Sizes

/-!
# What `mem_realloc` preserves

`mem_realloc` relies on the size recorded of the block twice: the zero-fill starts there, and
an entry whose `realloc` failed is to describe the old block still.

* `getElem?_reallocBytes`: the block after a call, byte by byte;
* `preserves_iff`: in which cases the call keeps the data and the table;
* `preserves_of_sizes`: it does while recorded sizes are right and `realloc` does not free the
  block.
-/

namespace CompatSuva.Mem

open CompatSuva.Common

variable (wide : Byte → ℕ → BitVec 32)

/-- `mem_realloc` of the entry `x`, whose block holds `old`, keeps data and table. On success
    the block at the new address holds the old bytes, and zeros from there on, and `x` alone
    has a new address and size; on NULL the table is unchanged, and the block is live and of
    the size recorded. -/
def Preserves (s : MemState) (x : Addr × MemList) (old : List Byte) (newSize : BitVec 32)
    (r : Realloc) : Prop :=
  ∃ (q : Addr) (s' : MemState), memRealloc wide s x.2.pPtr newSize r = some (q, s') ∧
    (q ≠ 0 → s'.info = s.info ∧
      (∀ y, s'.list.HasEntry y ↔
        y = (x.1, { x.2 with pPtr := q, size := newSize }) ∨ s.list.HasEntry y ∧ y ≠ x) ∧
      ∃ bytes, s'.blocks.get q = some bytes ∧ bytes.length = newSize.toNat ∧
        ∀ i < newSize.toNat, bytes[i]? = some ((old[i]?).getD 0)) ∧
    (q = 0 → s'.list = s.list ∧ s'.info = s.info ∧
      ∃ bytes, s'.blocks.get x.2.pPtr = some bytes ∧ bytes.length = x.2.size.toNat)

/-- The recorded size does no harm to the call. If `realloc` fails, it must be right; if it
    succeeds, no byte of the block behind it that is kept may be other than 0, and `realloc`
    may leave no byte other than 0 behind the block and in front of it. -/
def SizeHarmless (e : MemList) (old : List Byte) (newSize : BitVec 32) : Realloc → Prop
  | .failed => old.length = e.size.toNat
  | .freed => False
  | .moved _ junk => ∀ i < newSize.toNat,
      (e.size.toNat ≤ i → i < old.length → old[i]? = some 0) ∧
        (old.length ≤ i → i < e.size.toNat → junk i = 0)

/-! ## The block -/

theorem getElem?_resized (old : List Byte) (junk : ℕ → Byte) {n i : ℕ} (h : i < n) :
    (resized old junk n)[i]? = some ((old[i]?).getD (junk i)) := by
  simp [resized, h]

/-- Byte `i` after `realloc` and the zero-fill. -/
theorem getElem?_reallocBytes (old : List Byte) (size newSize : BitVec 32) (junk : ℕ → Byte)
    {i : ℕ} (h : i < newSize.toNat) :
    (reallocBytes old size newSize junk)[i]? =
      some (if size.toNat ≤ i then 0 else (old[i]?).getD (junk i)) := by
  have hlen : (resized old junk newSize.toNat).length = newSize.toNat := by simp [resized]
  unfold reallocBytes
  by_cases hlt : size < newSize
  · have hlt' : size.toNat < newSize.toNat := hlt
    rw [if_pos hlt]
    show (zeroFrom size.toNat (resized old junk newSize.toNat))[i]? = _
    rw [zeroFrom, hlen]
    have htake : ((resized old junk newSize.toNat).take size.toNat).length = size.toNat := by
      rw [List.length_take, hlen]
      omega
    by_cases hi : size.toNat ≤ i
    · rw [if_pos hi, List.getElem?_append_right (by omega), htake, List.getElem?_replicate,
        if_pos (by omega)]
    · rw [if_neg hi, List.getElem?_append_left (by omega), List.getElem?_take_of_lt (by omega),
        getElem?_resized old junk h]
  · have hle : newSize.toNat ≤ size.toNat := Nat.le_of_not_lt hlt
    rw [if_neg hlt, if_neg (show ¬ size.toNat ≤ i by omega)]
    exact getElem?_resized old junk h

/-- The block holds what it should exactly when the recorded size does no harm. -/
theorem reallocBytes_iff (e : MemList) (old : List Byte) (newSize : BitVec 32) (q : Addr)
    (junk : ℕ → Byte) :
    (∀ i < newSize.toNat,
        (reallocBytes old e.size newSize junk)[i]? = some ((old[i]?).getD 0)) ↔
      SizeHarmless e old newSize (.moved q junk) := by
  refine forall₂_congr fun i hi => ?_
  rw [getElem?_reallocBytes old e.size newSize junk hi, Option.some.injEq]
  by_cases hsize : e.size.toNat ≤ i
  · rw [if_pos hsize]
    by_cases hold : i < old.length
    · rw [List.getElem?_eq_getElem hold, Option.getD_some, Option.some.injEq]
      constructor
      · intro h0
        exact ⟨fun _ _ => h0.symm, fun hle => absurd hle (by omega)⟩
      · intro h
        exact (h.1 hsize hold).symm
    · rw [List.getElem?_eq_none (by omega), Option.getD_none]
      exact iff_of_true rfl ⟨fun _ hlt => absurd hlt hold, fun _ hlt => absurd hlt (by omega)⟩
  · rw [if_neg hsize]
    by_cases hold : i < old.length
    · rw [List.getElem?_eq_getElem hold, Option.getD_some, Option.getD_some]
      exact iff_of_true rfl ⟨fun hle => absurd hle hsize, fun hle => absurd hle (by omega)⟩
    · rw [List.getElem?_eq_none (by omega), Option.getD_none, Option.getD_none]
      constructor
      · intro h0
        exact ⟨fun hle => absurd hle hsize, fun _ _ => h0⟩
      · intro h
        exact h.2 (by omega) (by omega)

/-! ## The call -/

variable {wide} {s : MemState}

/-- A call of `mem_realloc`, in any state with the table invariant. -/
theorem TableInv.preserves_iff (hinv : TableInv wide s) {x : Addr × MemList}
    (hx : s.list.HasEntry x) (hst : x.2.stored = false) {old : List Byte}
    (hold : s.blocks.get x.2.pPtr = some old) (newSize : BitVec 32) {r : Realloc}
    (hr : (Op.realloc x.2.pPtr newSize r).Fresh s) :
    Preserves wide s x old newSize r ↔ SizeHarmless x.2 old newSize r := by
  have hq : ∀ q junk, r = .moved q junk →
      q ≠ 0 ∧ (q = x.2.pPtr ∨ ∀ y, s.list.HasEntry y → y.2.pPtr ≠ q) := by
    rintro q junk rfl
    exact hr
  unfold Preserves
  rcases memRealloc_cases hinv x.2.pPtr newSize hq with
    ⟨hrun, hcase⟩ | ⟨hrun, rfl, -⟩ | ⟨e, q, junk, list, rfl, he, hep, -, hrun, -, hentry⟩
  · obtain rfl : r = .failed := by
      rcases hcase with hno | ⟨y, hy, hyp, hstored | hfailed⟩
      · exact absurd rfl (hno x hx)
      · rw [hinv.list.eq_of_key hy hx hyp, hst] at hstored
        exact absurd hstored (by simp)
      · exact hfailed
    constructor
    · rintro ⟨q, s', hrun', -, hnull⟩
      obtain ⟨rfl, rfl⟩ := Prod.mk.inj (Option.some.inj (hrun.symm.trans hrun'))
      obtain ⟨-, -, bytes, hbytes, hlen⟩ := hnull rfl
      rw [hold] at hbytes
      rwa [← Option.some.inj hbytes] at hlen
    · intro hlen
      exact ⟨0, s, hrun, fun hne => absurd rfl hne, fun _ => ⟨rfl, rfl, old, hold, hlen⟩⟩
  · -- the block is gone, and the entry still refers to it
    refine iff_of_false ?_ id
    rintro ⟨q, s', hrun', -, hnull⟩
    obtain ⟨rfl, rfl⟩ := Prod.mk.inj (Option.some.inj (hrun.symm.trans hrun'))
    obtain ⟨-, -, bytes, hbytes, -⟩ := hnull rfl
    simp at hbytes
  · obtain rfl := hinv.list.eq_of_key he hx hep
    obtain ⟨hq0, -⟩ := hq q junk rfl
    rw [hold, Option.getD_some] at hrun
    rw [← reallocBytes_iff e.2 old newSize q junk]
    constructor
    · rintro ⟨q', s', hrun', hok, -⟩
      obtain ⟨rfl, rfl⟩ := Prod.mk.inj (Option.some.inj (hrun.symm.trans hrun'))
      obtain ⟨-, -, bytes, hbytes, -, hcontents⟩ := hok hq0
      obtain rfl := Option.some.inj ((Heap.get_set _ _ _).symm.trans hbytes)
      exact hcontents
    · intro hcontents
      refine ⟨q, _, hrun, fun _ => ⟨rfl, fun y => ?_, _, Heap.get_set _ _ _,
        length_reallocBytes _ _ _ _, hcontents⟩, fun h0 => absurd h0 hq0⟩
      rw [hentry]
      refine or_congr_right (and_congr_right fun hy => ?_)
      constructor
      · rintro hne rfl
        exact hne rfl
      · intro hne hkey
        exact hne (hinv.list.eq_of_key hy hx hkey)

/-- While recorded sizes are right and `realloc` does not free the block, nothing is lost. -/
theorem preserves_of_sizes (hinv : TableInv wide s) (hsizes : Sizes s) {x : Addr × MemList}
    (hx : s.list.HasEntry x) (hst : x.2.stored = false) (newSize : BitVec 32) {r : Realloc}
    (hr : (Op.realloc x.2.pPtr newSize r).Fresh s) (hfreed : r ≠ .freed) :
    ∃ old, s.blocks.get x.2.pPtr = some old ∧ Preserves wide s x old newSize r := by
  obtain ⟨old, hold, hlen⟩ := hsizes x hx hst
  refine ⟨old, hold, (hinv.preserves_iff hx hst hold newSize hr).mpr ?_⟩
  cases r with
  | failed => exact hlen
  | freed => exact absurd rfl hfreed
  | moved q junk =>
    intro i _
    exact ⟨fun hle hlt => absurd hle (by omega), fun hle hlt => absurd hle (by omega)⟩

/-- After any calls from `mem_init`, `mem_realloc` of a block keeps data and table exactly when
    the size recorded of it does no harm. -/
theorem memRealloc_preserves_iff {ops : List Op} (hops : AllFresh wide memInit ops)
    (hrun : run wide memInit ops = some s) {x : Addr × MemList} (hx : s.list.HasEntry x)
    (hst : x.2.stored = false) {old : List Byte} (hold : s.blocks.get x.2.pPtr = some old)
    (newSize : BitVec 32) {r : Realloc} (hr : (Op.realloc x.2.pPtr newSize r).Fresh s) :
    Preserves wide s x old newSize r ↔ SizeHarmless x.2 old newSize r := by
  obtain ⟨s', hrun', href⟩ := run_refines refines_memInit hops
  obtain rfl := Option.some.inj (hrun.symm.trans hrun')
  exact href.inv.preserves_iff hx hst hold newSize hr

/-- The entry of a block of four bytes, and of an array of three such elements. -/
def fourEntry : Addr × MemList := (32, ⟨48, 4, false, 16⟩)

/-- A block of four bytes grows in place. -/
theorem memRealloc_preserves_iff_four :
    ∃ s, run wideX86 memInit [.addType 1 [97] 16, .alloc 1 4 32 48] = some s ∧
      Preserves wideX86 s fourEntry [0, 0, 0, 0] 8 (.moved 48 fun _ => 5) := by
  have hfresh : AllFresh wideX86 memInit [.addType 1 [97] 16, .alloc 1 4 32 48] :=
    allFresh_addType (fun _ => Iff.rfl) fun _ => trivial
  refine ⟨_, rfl, (memRealloc_preserves_iff hfresh rfl ?_ rfl rfl 8 ?_).mpr ?_⟩
  · exact @HashTable.hasEntry_of_head _ _ _ (hashPtr wideX86 48) 32 _ rfl (by decide) rfl
  · exact ⟨by decide, Or.inl rfl⟩
  · intro i _
    constructor
    · intro hle hlt
      exact absurd hlt (Nat.not_lt_of_le hle)
    · intro hle hlt
      exact absurd hlt (Nat.not_lt_of_le hle)

/-- An array of three elements of four bytes, filled with 7, is recorded with four bytes: when
    it grows, the last eight are zeroed. When it shrinks to nothing, its entry stays, without a
    block. -/
theorem memRealloc_loses :
    AllFresh wideX86 memInit [.addType 1 [97] 16, .calloc 1 3 4 32 48,
      .write 48 (List.replicate 12 7)] ∧
    ∃ s s' s'', run wideX86 memInit [.addType 1 [97] 16, .calloc 1 3 4 32 48,
        .write 48 (List.replicate 12 7)] = some s ∧
      s.list.HasEntry fourEntry ∧ s.blocks.get 48 = some (List.replicate 12 7) ∧
      memRealloc wideX86 s 48 16 (.moved 48 fun _ => 0) = some (48, s') ∧
      s'.blocks.get 48 = some (List.replicate 4 7 ++ List.replicate 12 0) ∧
      ¬ Preserves wideX86 s fourEntry (List.replicate 12 7) 16 (.moved 48 fun _ => 0) ∧
      memRealloc wideX86 s 48 0 .freed = some (0, s'') ∧
      s''.list.HasEntry fourEntry ∧ s''.blocks.get 48 = none ∧
      ¬ Preserves wideX86 s fourEntry (List.replicate 12 7) 0 .freed := by
  have hentry : ∀ s : MemState, s.list.head (hashPtr wideX86 48) = 32 →
      s.list.cells.get 32 = some ⟨fourEntry.2, 0⟩ → s.list.HasEntry fourEntry := fun s hhead =>
    HashTable.hasEntry_of_head hhead (by decide)
  refine ⟨allFresh_addType (fun _ => Iff.rfl) fun _ => ⟨trivial, fun _ _ => trivial⟩, _, _, _, rfl,
    hentry _ rfl rfl, rfl, rfl, rfl, ?_, rfl, hentry _ rfl rfl, rfl, ?_⟩
  · rintro ⟨q, t, hrun, hok, -⟩
    obtain ⟨rfl, rfl⟩ := Prod.mk.inj (Option.some.inj hrun)
    obtain ⟨-, -, bytes, hbytes, -, hcontents⟩ := hok (by decide)
    obtain rfl : List.replicate 4 7 ++ List.replicate 12 0 = bytes := Option.some.inj hbytes
    exact absurd (hcontents 4 (by decide)) (by decide)
  · rintro ⟨q, t, hrun, -, hnull⟩
    obtain ⟨rfl, rfl⟩ := Prod.mk.inj (Option.some.inj hrun)
    obtain ⟨-, -, bytes, hbytes, -⟩ := hnull rfl
    exact absurd hbytes (by simp [fourEntry])

end CompatSuva.Mem
