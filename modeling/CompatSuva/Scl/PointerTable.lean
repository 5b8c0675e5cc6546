import CompatSuva.Mem.Invariant
import CompatSuva.Scl.Reader

/-!
# The pointer table of a string array

For an `SCL_STRING_A`, `scl_get_value` asks `mem_alloc` for `sizeof(char *) * *array_len`
bytes, and stores one pointer for each string in the block. The product is a `size_t`;
the parameter of `mem_alloc` is an `unsigned int`.

* `stringALoop_stores`: the entries of the table that are written;
* `stringTable_iff`: they lie in the block for fewer than `2^29` strings, and for no
  larger count.
-/

namespace CompatSuva.Scl

open CompatSuva.Common CompatSuva.Mem

/-! ## The entries written -/

/-- The entries of pointer tables among the accesses, in turn. -/
def tableStores (log : List Access) : List ℕ :=
  log.filterMap fun a =>
    match a with
    | .table index _ => some index
    | .payload _ _ => none

theorem tableStores_append (log log' : List Access) :
    tableStores (log ++ log') = tableStores log ++ tableStores log' := List.filterMap_append

/-- The loop stores one pointer after the other, as many as the count says. -/
theorem stringALoop_stores (cap k : ℕ) {conn : InConn} {n : ℕ} (hp : conn.pdata = some n)
    (ptrs : List (Option ℤ)) :
    ∃ conn' ptrs', stringALoopOn .plain cap k conn ptrs = some (conn', ptrs') ∧
      conn'.pdata = some n ∧
      tableStores conn'.log =
        tableStores conn.log ++ (List.range k).map fun i => ptrs.length + i := by
  induction k generalizing conn ptrs with
  | zero => exact ⟨conn, ptrs, rfl, hp, by simp⟩
  | succ k ih =>
    -- the connection after the length field of this string
    let conn₁ : InConn := { conn with
      mem := store conn.mem conn.cursor [0, 0, 0, 0]
      cursor := conn.cursor + sclLenLen
      log := conn.log ++ [.payload conn.cursor 4] ++ [.payload conn.cursor 4] ++
        [.table ptrs.length cap] }
    have hlog : tableStores conn₁.log = tableStores conn.log ++ [ptrs.length] := by
      simp only [conn₁, tableStores_append, List.append_assoc]
      rfl
    have hrange : ∀ p : Option ℤ, ((List.range (k + 1)).map fun i => ptrs.length + i) =
        ptrs.length :: (List.range k).map fun i => (ptrs ++ [p]).length + i := by
      intro p
      rw [List.range_succ_eq_map, List.map_cons, List.map_map, Nat.add_zero]
      congr 1
      apply List.map_congr_left
      intro i _
      simp only [Function.comp_apply, List.length_append, List.length_singleton]
      omega
    have hstep : stringALoopOn .plain cap (k + 1) conn ptrs =
        if intOf (load conn.mem conn.cursor 4) = 0
          then stringALoopOn .plain cap k conn₁ (ptrs ++ [none])
        else stringALoopOn .plain cap k (conn₁.advance (intOf (load conn.mem conn.cursor 4)))
          (ptrs ++ [some conn₁.cursor]) := by
      rw [stringALoopOn, InConn.readIntOn_plain, InConn.readInt_eq]
      simp only [InConn.write, InConn.advance, hp, Option.map_some, Option.bind_eq_bind,
        Option.bind_some, conn₁]
      rfl
    rw [hstep]
    split_ifs with h0
    · obtain ⟨conn', ptrs', hrun, hp', hstores⟩ := @ih conn₁ hp (ptrs ++ [none])
      refine ⟨conn', ptrs', hrun, hp', ?_⟩
      rw [hstores, hlog, hrange none, List.append_assoc, List.singleton_append]
    · obtain ⟨conn', ptrs', hrun, hp', hstores⟩ :=
        @ih (conn₁.advance (intOf (load conn.mem conn.cursor 4))) hp (ptrs ++ [some conn₁.cursor])
      refine ⟨conn', ptrs', hrun, hp', ?_⟩
      have hlog' : tableStores (conn₁.advance (intOf (load conn.mem conn.cursor 4))).log =
          tableStores conn.log ++ [ptrs.length] := hlog
      rw [hstores, hlog', hrange (some conn₁.cursor), List.append_assoc, List.singleton_append]

/-- The `SCL_STRING_A` case, behind the count. -/
theorem getStrings_stores {conn : InConn} {n : ℕ} (hp : conn.pdata = some n) (c : ℕ) :
    ∃ ret conn', getStringsOn .plain conn c true = some (ret, conn') ∧
      tableStores conn'.log = tableStores conn.log ++ List.range c := by
  obtain ⟨conn', ptrs', hrun, hp', hstores⟩ :=
    stringALoop_stores ((BitVec.ofInt 32 (8 * (c : ℤ))).toNat / 8) c hp []
  have hstores' : tableStores (conn'.log ++ [.payload conn'.cursor 1]) =
      tableStores conn.log ++ List.range c := by
    rw [tableStores_append, hstores]
    simp [tableStores]
  refine ⟨.table conn'.tables.length, { conn' with
    mem := store conn'.mem conn'.cursor [0]
    cursor := conn'.cursor + 1
    tables := conn'.tables ++ [ptrs']
    log := conn'.log ++ [.payload conn'.cursor 1] }, ?_, hstores'⟩
  rw [getStringsOn, if_neg (by simp), Int.toNat_natCast]
  simp only [hrun, Option.bind_eq_bind, Option.bind_some, InConn.write, hp', InConn.advance,
    if_true]
  rfl

/-- `scl_get_value` for an `SCL_STRING_A` with a count that is not negative. -/
theorem sclGetValue_stores {conn : InConn} {n c : ℕ} (hp : conn.pdata = some n)
    (hc : intOf (load conn.mem conn.cursor 4) = c) :
    ∃ ret conn', sclGetValue conn .stringA true true = some (ret, some (c : ℤ), conn') ∧
      tableStores conn'.log = tableStores conn.log ++ List.range c := by
  let conn₁ : InConn := { conn with
    pdata := some n
    cursor := conn.cursor + sclLenLen
    log := conn.log ++ [.payload conn.cursor 4] }
  have hp₁ : conn₁.pdata = some n := rfl
  obtain ⟨ret, conn', hrun, hstores⟩ := getStrings_stores hp₁ c
  have hlog : tableStores conn₁.log = tableStores conn.log := by
    simp only [conn₁, tableStores_append]
    exact List.append_nil _
  refine ⟨ret, conn', ?_, by rw [hstores, hlog]⟩
  simp only [sclGetValue, sclGetValueOn, SclType.isComplex, InConn.readIntOn_plain,
    InConn.readInt_eq, hp, Option.map_some, Option.bind_eq_bind, Option.bind_some, InConn.advance,
    and_self, if_true, hc]
  show (getStringsOn .plain conn₁ c true).bind _ = _
  rw [hrun]
  rfl

/-! ## The block -/

/-- What `scl_get_value` passes to `mem_alloc`: `sizeof(char *) * *array_len`, cut to an
    `unsigned int`. -/
def tableSize (arrayLen : ℤ) : BitVec 32 := BitVec.ofInt 32 (8 * arrayLen)

theorem toNat_tableSize (c : ℕ) : (tableSize c).toNat = 8 * c % 2 ^ 32 := by
  have hcast : (8 * (c : ℤ)) = ((8 * c : ℕ) : ℤ) := by
    push_cast
    rfl
  rw [tableSize, hcast, BitVec.ofInt_natCast, BitVec.toNat_ofNat]

/-- The product fits exactly for fewer than `2^29` pointers. -/
theorem le_tableSize_iff (c : ℕ) : 8 * c ≤ (tableSize c).toNat ↔ c < 2 ^ 29 := by
  rw [toNat_tableSize]
  omega

variable {wide : Byte → ℕ → BitVec 32} {s s' : MemState} {type : BitVec 32} {node blk p : Addr}

/-- When `mem_alloc` succeeds, the block has the size it was asked for. -/
theorem length_block (size : BitVec 32) (halloc : memAlloc wide s type size node blk = some (p, s'))
    (hp : p ≠ 0) : ∃ block, s'.blocks.get p = some block ∧ block.length = size.toNat := by
  unfold memAlloc memTrack at halloc
  rw [Option.bind_eq_bind, Option.bind_eq_some_iff] at halloc
  obtain ⟨found, -, halloc⟩ := halloc
  have hfail : ∀ {r : Addr × MemState}, some (0, s) = some r → r.1 = 0 := by
    intro r hr
    rw [← Option.some.inj hr]
  cases found with
  | none => exact absurd (hfail halloc) hp
  | some pInfo =>
    simp only at halloc
    split_ifs at halloc with hn hb
    · exact absurd (hfail halloc) hp
    · exact absurd (hfail halloc) hp
    · rw [Option.some.injEq, Prod.mk.injEq] at halloc
      obtain ⟨rfl, rfl⟩ := halloc
      exact ⟨_, Heap.get_set _ _ _, List.length_replicate⟩

/-- For every count read off the wire that is not negative: when `mem_alloc` succeeds,
    its block has room for the pointers, and every store of a pointer lies in it,
    exactly for counts below `2^29`. -/
theorem stringTable_iff {conn : InConn} {n c : ℕ} (hpdata : conn.pdata = some n)
    (hc : intOf (load conn.mem conn.cursor 4) = c)
    (halloc : memAlloc wide s type (tableSize c) node blk = some (p, s')) (hp : p ≠ 0) :
    ∃ block ret conn' stores, s'.blocks.get p = some block ∧
      sclGetValue conn .stringA true true = some (ret, some (c : ℤ), conn') ∧
      tableStores conn'.log = tableStores conn.log ++ stores ∧
      ((8 * c ≤ block.length ∧ ∀ index ∈ stores, 8 * (index + 1) ≤ block.length) ↔ c < 2 ^ 29) := by
  obtain ⟨block, hblock, hlen⟩ := length_block _ halloc hp
  obtain ⟨ret, conn', hrun, hstores⟩ := sclGetValue_stores hpdata hc
  refine ⟨block, ret, conn', List.range c, hblock, hrun, hstores, ?_⟩
  rw [← le_tableSize_iff, ← hlen]
  constructor
  · intro h
    exact h.1
  · intro h
    refine ⟨h, fun index hindex => ?_⟩
    rw [List.mem_range] at hindex
    omega

/-! ## A count of `2^29` -/

/-- A memory manager with one type has given out a block. -/
theorem allocated (wide : Byte → ℕ → BitVec 32) (size : BitVec 32) :
    ∃ s s' : MemState, memAlloc wide s 5 size 16 32 = some (32, s') := by
  have hnode : memInit.info.cells.get 16 = none := rfl
  rcases memAddType_cases (tableInv_memInit wide) 5 [] hnode with
    ⟨r, -, hfail⟩ | ⟨info, -, hinv, -, -, -, hentry⟩
  · rcases hfail with h0 | h0 | ⟨x, hx, -⟩
    · exact absurd h0 (by decide)
    · exact absurd h0 (by decide)
    · exact absurd hx (HashTable.hasEntry_empty x)
  · have hlist : memInit.list.cells.get 16 = none := rfl
    have hblk : ∀ x, memInit.list.HasEntry x → x.2.pPtr ≠ 32 := by
      intro x hx
      exact absurd hx (HashTable.hasEntry_empty x)
    rcases memTrack_cases hinv 5 size size.toNat hlist hblk with
      ⟨-, hfail⟩ | ⟨i, list, hrun, -⟩
    · rcases hfail with h0 | h0 | hno
      · exact absurd h0 (by decide)
      · exact absurd h0 (by decide)
      · exact absurd rfl (hno _ ((hentry _).mpr (Or.inl rfl)))
    · exact ⟨_, _, hrun⟩

/-- A connection with a packet that starts with this word. -/
def InConn.withWord (v : BitVec 32) : InConn :=
  { InConn.opened with pdata := some 4, mem := store (fun _ => 0) 0 (bytesOf v) }

theorem intOf_withWord {c : ℕ} (hc : c < 2 ^ 31) :
    intOf (load (InConn.withWord (BitVec.ofNat 32 c)).mem
      (InConn.withWord (BitVec.ofNat 32 c)).cursor 4) = c := by
  have hload : load (store (fun _ => 0) 0 (bytesOf (BitVec.ofNat 32 c))) 0 4 =
      bytesOf (BitVec.ofNat 32 c) := (holds_store _ _ _).load (by simp)
  show intOf (load (store (fun _ => 0) 0 (bytesOf (BitVec.ofNat 32 c))) 0 4) = c
  rw [hload]
  exact intOf_ofNat hc

/-- Two strings: the table has room for them. -/
theorem stringTable_iff_two : ∃ (s s' : MemState) (block : List Byte) (ret : Ret) (conn' : InConn)
    (stores : List ℕ), memAlloc (fun _ _ => 0) s 5 (tableSize 2) 16 32 = some (32, s') ∧
      s'.blocks.get 32 = some block ∧
      sclGetValue (.withWord 2) .stringA true true = some (ret, some 2, conn') ∧
      8 * 2 ≤ block.length ∧ ∀ index ∈ stores, 8 * (index + 1) ≤ block.length := by
  obtain ⟨s, s', halloc⟩ := allocated (fun _ _ => 0) (tableSize 2)
  obtain ⟨block, ret, conn', stores, hblock, hrun, -, hiff⟩ :=
    stringTable_iff rfl (intOf_withWord (c := 2) (by decide)) halloc (by decide)
  obtain ⟨hroom, hstores⟩ := hiff.mpr (by decide)
  exact ⟨s, s', block, ret, conn', stores, halloc, hblock, hrun, hroom, hstores⟩

/-- `2^29` strings: `mem_alloc` is asked for no bytes, and gives a block of none. -/
theorem stringTable_empty : ∃ (s s' : MemState) (ret : Ret) (conn' : InConn),
    memAlloc (fun _ _ => 0) s 5 (tableSize (2 ^ 29)) 16 32 = some (32, s') ∧
      s'.blocks.get 32 = some [] ∧
      sclGetValue (.withWord (2 ^ 29)) .stringA true true = some (ret, some (2 ^ 29), conn') ∧
      tableStores conn'.log = List.range (2 ^ 29) ∧ ¬ 8 * 2 ^ 29 ≤ ([] : List Byte).length := by
  obtain ⟨s, s', halloc⟩ := allocated (fun _ _ => 0) (tableSize (2 ^ 29))
  obtain ⟨block, hblock, hlen⟩ := length_block _ halloc (by decide)
  have hzero : (tableSize (2 ^ 29)).toNat = 0 := by decide
  rw [hzero] at hlen
  obtain rfl := List.eq_nil_of_length_eq_zero hlen
  have hword : intOf (load (InConn.withWord (BitVec.ofNat 32 (2 ^ 29))).mem
      (InConn.withWord (BitVec.ofNat 32 (2 ^ 29))).cursor 4) = (2 ^ 29 : ℕ) :=
    intOf_withWord (by decide)
  obtain ⟨ret, conn', hrun, hstores⟩ := sclGetValue_stores rfl hword
  refine ⟨s, s', ret, conn', halloc, hblock, ?_, ?_, by simp⟩
  · have hcast : (((2 ^ 29 : ℕ) : ℤ)) = 2 ^ 29 := by norm_num
    rw [hcast] at hrun
    exact hrun
  · have hlog : ∀ v, tableStores (InConn.withWord v).log = [] := fun _ => rfl
    rw [hstores, hlog, List.nil_append]

end CompatSuva.Scl
