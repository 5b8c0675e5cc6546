import CompatSuva.Mem.Refinement

/-!
# `mem_find_ptr` and a plain search

`mem_find_ptr` (`mem.c` lines 818–850) looks for a pointer in its bucket. If it is not there, all
buckets are gone through, for an entry that is chained where it does not belong. The `break` there
leaves the loop over one bucket, and the loop over the buckets goes on, so that what is found in one
bucket is overwritten by what the next one has.

Nothing is assumed of where the entries are: the table has any content.

* `memFindPtr_eq`: the result, from the bucket of the pointer and the last bucket;
* `linearSearch`: what the function is for, one bucket after the other up to the first entry;
* `TableInv.memFindPtr_agrees`: the two agree on a table in order;
* `memFindPtr_agrees_iff`: for which contents of the table they do.
-/

namespace CompatSuva.Mem

open CompatSuva.Common

/-! ## Contents of the table -/

/-- The buckets of `t` are the lists `L`, whatever pointers there are in them. -/
def Chained (t : HashTable memHashSize MemList) (L : Fin memHashSize → List (Addr × MemList)) :
    Prop := ∀ i, IsChain t.cells (t.head i) (L i)

variable (L : Fin memHashSize → List (Addr × MemList)) (p : Addr)

/-- The first entry with the pointer in a bucket. -/
def bucketSearch (i : Fin memHashSize) : Option (Addr × MemList) :=
  (L i).find? fun x => x.2.pPtr = p

/-- A bucket has an entry with the pointer. -/
def InBucket (i : Fin memHashSize) : Prop := ∃ x ∈ L i, x.2.pPtr = p

/-- A plain search, through one bucket after the other. -/
def linearSearch : Option (Addr × MemList) :=
  (List.finRange memHashSize).findSome? (bucketSearch L p)

/-- `pMemList[MEM_HASH_SIZE - 1]`, which the loop over the buckets comes to last. -/
def lastBucket : Fin memHashSize := ⟨memHashSize - 1, by decide⟩

/-- `pMemList[0]`. -/
def firstBucket : Fin memHashSize := ⟨0, by decide⟩

/-- `r` is an entry with the pointer exactly if the plain search finds one. -/
def Agrees (r : Option (Addr × MemList)) : Prop :=
  (∃ x, r = some x ∧ (∃ i, x ∈ L i) ∧ x.2.pPtr = p) ↔ ∃ x, linearSearch L p = some x

variable {L p}

theorem bucketSearch_some {i : Fin memHashSize} {x : Addr × MemList}
    (h : bucketSearch L p i = some x) : x ∈ L i ∧ x.2.pPtr = p := by
  unfold bucketSearch at h
  exact ⟨List.mem_of_find?_eq_some h, by simpa using List.find?_some h⟩

theorem bucketSearch_none {i : Fin memHashSize} (h : ¬ InBucket L p i) :
    bucketSearch L p i = none := by
  apply List.find?_eq_none.mpr
  intro x hx hp
  exact h ⟨x, hx, by simpa using hp⟩

theorem inBucket_iff {i : Fin memHashSize} : InBucket L p i ↔ ∃ x, bucketSearch L p i = some x := by
  constructor
  · intro h
    cases hsearch : bucketSearch L p i with
    | some x => exact ⟨x, rfl⟩
    | none =>
      obtain ⟨x, hx, hp⟩ := h
      have hne := List.find?_eq_none.mp hsearch x hx
      simp [hp] at hne
  · rintro ⟨x, hx⟩
    exact ⟨x, bucketSearch_some hx⟩

/-- The plain search finds an entry exactly if some bucket has one. -/
theorem linearSearch_iff : (∃ x, linearSearch L p = some x) ↔ ∃ i, InBucket L p i := by
  constructor
  · rintro ⟨x, hx⟩
    obtain ⟨i, -, hi⟩ := List.exists_of_findSome?_eq_some hx
    exact ⟨i, inBucket_iff.mpr ⟨x, hi⟩⟩
  · rintro ⟨i, hi⟩
    apply Option.isSome_iff_exists.mp
    rw [linearSearch, List.findSome?_isSome_iff]
    obtain ⟨x, hx⟩ := inBucket_iff.mp hi
    exact ⟨i, List.mem_finRange i, by rw [hx]; rfl⟩

/-! ## The search -/

variable {wide : Byte → ℕ → BitVec 32} {s : MemState}

/-- A loop that goes on after it has found something has the result of its last round. -/
theorem foldlM_overwrite {ι α : Type} (f : ι → Option α) (is : List ι) (last : ι) (a : α)
    (hf : ∀ i ∈ is, (f i).isSome) : (is ++ [last]).foldlM (fun _ i => f i) a = f last := by
  induction is generalizing a with
  | nil =>
    rw [List.nil_append, List.foldlM_cons]
    exact bind_pure (f last)
  | cons i is ih =>
    obtain ⟨b, hb⟩ := Option.isSome_iff_exists.mp (hf i List.mem_cons_self)
    rw [List.cons_append, List.foldlM_cons, hb]
    exact ih b fun j hj => hf j (List.mem_cons_of_mem i hj)

theorem finRange_last :
    ∃ is : List (Fin memHashSize), List.finRange memHashSize = is ++ [lastBucket] :=
  ⟨(List.finRange (memHashSize - 1)).map Fin.castSucc, List.finRange_succ_last⟩

/-- The search ends in the bucket of the pointer, or with what the last bucket has. -/
theorem memFindPtr_eq (h : Chained s.list L) (p : Addr) :
    memFindPtr wide s p =
      some ((bucketSearch L p (hashPtr wide p)).or (bucketSearch L p lastBucket)) := by
  have hseek : ∀ i, seek (fun b : MemList => b.pPtr = p) s.list.cells (s.list.head i) =
      some (bucketSearch L p i) := fun i => (h i).seek _
  have hfind : s.list.find MemList.pPtr (hashPtr wide) p =
      some (bucketSearch L p (hashPtr wide p)) := hseek _
  rw [memFindPtr, hfind]
  cases hsearch : bucketSearch L p (hashPtr wide p) with
  | some x => rfl
  | none =>
    obtain ⟨is, his⟩ := finRange_last
    simp only [hseek, his]
    exact foldlM_overwrite _ is lastBucket none fun i _ => rfl

/-- What comes of the two buckets is right if there is no entry, or one in them. -/
theorem agrees_or_iff {own last : Fin memHashSize} :
    Agrees L p ((bucketSearch L p own).or (bucketSearch L p last)) ↔
      (∀ i, ¬ InBucket L p i) ∨ InBucket L p own ∨ InBucket L p last := by
  have hsome : (∃ x, (bucketSearch L p own).or (bucketSearch L p last) = some x) ↔
      InBucket L p own ∨ InBucket L p last := by
    rw [← Option.isSome_iff_exists, Option.isSome_or, Bool.or_eq_true, Option.isSome_iff_exists,
      Option.isSome_iff_exists, ← inBucket_iff, ← inBucket_iff]
  have hentry : ∀ x, (bucketSearch L p own).or (bucketSearch L p last) = some x →
      (∃ i, x ∈ L i) ∧ x.2.pPtr = p := by
    intro x hx
    rcases Option.or_eq_some_iff.mp hx with hown | ⟨-, hlast⟩
    · exact ⟨⟨own, (bucketSearch_some hown).1⟩, (bucketSearch_some hown).2⟩
    · exact ⟨⟨last, (bucketSearch_some hlast).1⟩, (bucketSearch_some hlast).2⟩
  unfold Agrees
  rw [linearSearch_iff]
  constructor
  · intro hagrees
    by_cases hin : ∃ i, InBucket L p i
    · obtain ⟨x, hx, -⟩ := hagrees.mpr hin
      exact Or.inr (hsome.mp ⟨x, hx⟩)
    · exact Or.inl (not_exists.mp hin)
  · intro hcond
    constructor
    · rintro ⟨x, -, ⟨i, hx⟩, hp⟩
      exact ⟨i, x, hx, hp⟩
    · intro hin
      obtain ⟨x, hx⟩ := hsome.mpr (hcond.resolve_left (not_forall_not.mpr hin))
      exact ⟨x, hx, hentry x hx⟩

/-- In a table in order every entry is in the bucket of its pointer, and nothing is missed. -/
theorem TableInv.memFindPtr_agrees (h : TableInv wide s) (p : Addr) :
    ∃ L, Chained s.list L ∧ ∃ r, memFindPtr wide s p = some r ∧ Agrees L p r := by
  obtain ⟨L, hL⟩ := h.list
  refine ⟨L, hL.chain, _, memFindPtr_eq hL.chain p, agrees_or_iff.mpr ?_⟩
  by_cases hin : ∃ i, InBucket L p i
  · right
    left
    obtain ⟨i, x, hx, rfl⟩ := hin
    rw [hL.bucket i x hx]
    exact ⟨x, hx, rfl⟩
  · exact Or.inl (not_exists.mp hin)

/-- `mem_find_ptr` agrees with the plain search exactly if there is no entry with the pointer, or
    one in its bucket, or one in the last bucket. -/
theorem memFindPtr_agrees_iff (h : Chained s.list L) (p : Addr) :
    ((∃ x, linearSearch L p = some x) ↔ ∃ i, InBucket L p i) ∧
      ((∃ r, memFindPtr wide s p = some r ∧ Agrees L p r) ↔
        (∀ i, ¬ InBucket L p i) ∨ InBucket L p (hashPtr wide p) ∨ InBucket L p lastBucket) := by
  refine ⟨linearSearch_iff, ?_⟩
  rw [memFindPtr_eq h p, ← agrees_or_iff]
  constructor
  · rintro ⟨r, hr, hagrees⟩
    obtain rfl := Option.some.inj hr
    exact hagrees
  · intro hagrees
    exact ⟨_, rfl, hagrees⟩

/-! ## An entry in a bucket -/

/-- The block at 48 is tracked, in bucket `i`. -/
def trackedIn (i : Fin memHashSize) : MemState :=
  { memInit with list :=
    ⟨Heap.empty.set 32 ⟨⟨48, 4, false, 16⟩, 0⟩, Function.update (fun _ => 0) i 32⟩ }

/-- Its content. -/
def oneEntry (i : Fin memHashSize) : Fin memHashSize → List (Addr × MemList) :=
  Function.update (fun _ => []) i [(32, ⟨48, 4, false, 16⟩)]

theorem chained_trackedIn (i : Fin memHashSize) : Chained (trackedIn i).list (oneEntry i) := by
  intro j
  unfold trackedIn oneEntry
  by_cases hj : j = i
  · subst hj
    simp only [Function.update_self]
    exact ⟨rfl, by decide, 0, rfl, rfl⟩
  · simp only [Function.update_of_ne hj]
    rfl

theorem inBucket_oneEntry {i j : Fin memHashSize} : InBucket (oneEntry i) 48 j ↔ j = i := by
  unfold InBucket oneEntry
  by_cases hj : j = i
  · simp [hj]
  · simp [hj]

/-- In its own bucket. -/
theorem memFindPtr_agrees_own :
    ∃ r, memFindPtr wideX86 (trackedIn (hashPtr wideX86 48)) 48 = some r ∧
      Agrees (oneEntry (hashPtr wideX86 48)) 48 r :=
  (memFindPtr_agrees_iff (chained_trackedIn _) 48).2.mpr
    (Or.inr (Or.inl (inBucket_oneEntry.mpr rfl)))

/-- In another one. -/
theorem memFindPtr_misses : ¬ ∀ (wide : Byte → ℕ → BitVec 32) (s : MemState)
    (L : Fin memHashSize → List (Addr × MemList)), Chained s.list L →
      ∀ p, ∃ r, memFindPtr wide s p = some r ∧ Agrees L p r := by
  intro hall
  obtain ⟨r, hr, hagrees⟩ :=
    hall wideX86 (trackedIn firstBucket) (oneEntry firstBucket) (chained_trackedIn firstBucket) 48
  rw [memFindPtr_eq (chained_trackedIn firstBucket) 48] at hr
  obtain rfl := Option.some.inj hr
  have hown : ¬ InBucket (oneEntry firstBucket) 48 (hashPtr wideX86 48) := by
    rw [inBucket_oneEntry]
    decide
  have hlast : ¬ InBucket (oneEntry firstBucket) 48 lastBucket := by
    rw [inBucket_oneEntry]
    decide
  obtain ⟨x, hx, -⟩ := hagrees.mpr (linearSearch_iff.mpr ⟨firstBucket, inBucket_oneEntry.mpr rfl⟩)
  rw [bucketSearch_none hown, bucketSearch_none hlast] at hx
  cases hx

end CompatSuva.Mem
