import CompatSuva.Mem.Table

/-!
# The invariant of the memory tables

`TableInv s` says that both tables are well formed and linked up: the `p_info`
of every tracked pointer is a registered type. Each function of the manager has
one lemma, `mem…_cases`, that lists the ways it can return in a state with the
invariant and what the tables then are; none of them can fail on a dangling
link.

* `TableInv.findPtr`, `TableInv.findType`: what the two searches return;
* `memTrack_cases`, `memRealloc_cases`, `memStore_cases`, `memFree_cases`,
  `memAddType_cases`, `memDelType_cases`, `memCbFree_cases`;
* `memFreeAll_spec`: `mem_free_all`, for any property that `mem_free` and
  `mem_del_type` preserve.
-/

namespace CompatSuva.Mem

open CompatSuva.Common

variable (wide : Byte → ℕ → BitVec 32)

/-- The invariant of the two tables. -/
structure TableInv (s : MemState) : Prop where
  list : HashTable.WF MemList.pPtr (hashPtr wide) s.list
  info : HashTable.WF MemInfo.type (hashType wide) s.info
  ptr_ne : ∀ x, s.list.HasEntry x → x.2.pPtr ≠ 0
  type_ne : ∀ x, s.info.HasEntry x → x.2.type ≠ 0
  registered : ∀ x, s.list.HasEntry x → ∃ i, s.info.HasEntry (x.2.pInfo, i)

/-- The pointer of an entry whose type is `type`. -/
def MemState.OfType (s : MemState) (e : MemList) (type : BitVec 32) : Prop :=
  ∃ i, s.info.HasEntry (e.pInfo, i) ∧ i.type = type

theorem tableInv_memInit : TableInv wide memInit where
  list := HashTable.wf_empty
  info := HashTable.wf_empty
  ptr_ne x hx := absurd hx (HashTable.hasEntry_empty x)
  type_ne x hx := absurd hx (HashTable.hasEntry_empty x)
  registered x hx := absurd hx (HashTable.hasEntry_empty x)

variable {wide} {s : MemState}

/-- The cell at a registered `p_info`. -/
theorem hasEntry_get {n : ℕ} {β : Type} {t : HashTable n β} {a : Addr} {b : β}
    (h : t.HasEntry (a, b)) : (t.cells.get a).map Node.data = some b := by
  obtain ⟨-, q, hq⟩ := h.get
  simp [hq]

theorem TableInv.ofType_unique (h : TableInv wide s) {e : MemList} {t t' : BitVec 32}
    (ht : s.OfType e t) (ht' : s.OfType e t') : t = t' := by
  obtain ⟨i, hi, rfl⟩ := ht
  obtain ⟨j, hj, rfl⟩ := ht'
  rw [Prod.mk.inj (h.info.eq_of_addr hi hj rfl) |>.2]

/-! ## Searching -/

theorem TableInv.findType (h : TableInv wide s) (type : BitVec 32) :
    (∃ x, memFindType wide s type = some (some x) ∧ s.info.HasEntry x ∧ x.2.type = type) ∨
      (memFindType wide s type = some none ∧ ∀ x, s.info.HasEntry x → x.2.type ≠ type) :=
  h.info.find type

/-- The scan over all buckets finds nothing when the pointer's own bucket held
    nothing, since every entry is in its bucket. -/
theorem TableInv.findPtr (h : TableInv wide s) (p : Addr) :
    (∃ x, memFindPtr wide s p = some (some x) ∧ s.list.HasEntry x ∧ x.2.pPtr = p) ∨
      (memFindPtr wide s p = some none ∧ ∀ x, s.list.HasEntry x → x.2.pPtr ≠ p) := by
  rcases h.list.find p with ⟨x, hrun, hx, hp⟩ | ⟨hrun, hno⟩
  · exact Or.inl ⟨x, by rw [memFindPtr, hrun], hx, hp⟩
  · refine Or.inr ⟨?_, hno⟩
    rw [memFindPtr, hrun]
    have hscan : ∀ i, seek (fun b : MemList => b.pPtr = p) s.list.cells (s.list.head i) =
        some none := by
      intro i
      obtain ⟨l, hc, -⟩ := h.list.acyclic i
      rw [hc.seek, List.find?_eq_none.mpr]
      intro x hx
      simpa using hno x ⟨i, l, hc, hx⟩
    simp only [hscan]
    generalize List.finRange memHashSize = is
    induction is with
    | nil => rfl
    | cons i is ih => exact ih

/-- The invariant after the pointers have changed. -/
theorem TableInv.setList (h : TableInv wide s) {list : HashTable memHashSize MemList}
    (hwf : HashTable.WF MemList.pPtr (hashPtr wide) list)
    (hentry : ∀ x, list.HasEntry x → x.2.pPtr ≠ 0 ∧ ∃ i, s.info.HasEntry (x.2.pInfo, i))
    (blocks : Heap (List Byte)) (log : List MemEvent) :
    TableInv wide ⟨list, s.info, blocks, log⟩ where
  list := hwf
  info := h.info
  ptr_ne x hx := (hentry x hx).1
  type_ne := h.type_ne
  registered x hx := (hentry x hx).2

/-! ## Memory types -/

/-- `mem_add_type` refuses, or registers a type that was not registered. -/
theorem memAddType_cases (h : TableInv wide s) (type : BitVec 32) (name : List Byte) {node : Addr}
    (hnode : s.info.cells.get node = none) :
    (∃ r, memAddType wide s type name node = some (r, s) ∧
        (type = 0 ∨ node = 0 ∨ ∃ x, s.info.HasEntry x ∧ x.2.type = type)) ∨
      ∃ info, memAddType wide s type name node = some (memResOk, { s with info := info }) ∧
        TableInv wide { s with info := info } ∧ type ≠ 0 ∧ node ≠ 0 ∧
        (∀ x, s.info.HasEntry x → x.2.type ≠ type) ∧
        ∀ x, info.HasEntry x ↔
          x = (node, ⟨type, name.take (memMaxName - 1), none⟩) ∨ s.info.HasEntry x := by
  unfold memAddType
  rcases h.findType type with ⟨x, hrun, hx, hxt⟩ | ⟨hrun, hno⟩
  · have ht : type ≠ 0 := hxt ▸ h.type_ne x hx
    rw [hrun]
    simp only [Option.bind_eq_bind, Option.bind_some, if_neg ht, Option.isSome_some, if_true]
    exact Or.inl ⟨memResExists, rfl, Or.inr (Or.inr ⟨x, hx, hxt⟩)⟩
  rw [hrun]
  simp only [Option.bind_eq_bind, Option.bind_some, Option.isSome_none, Bool.false_eq_true,
    if_false]
  split_ifs with ht hn
  · exact Or.inl ⟨memResBadType, rfl, Or.inl ht⟩
  · exact Or.inl ⟨memResSysCall, rfl, Or.inr (Or.inl hn)⟩
  · obtain ⟨hwf, hentry⟩ := h.info.push (b := ⟨type, name.take (memMaxName - 1), none⟩) hn
      (fun x hx => hx.ne_of_get_eq_none hnode) hno
    refine Or.inr ⟨_, rfl, ⟨h.list, hwf, h.ptr_ne, ?_, ?_⟩, ht, hn, hno, hentry⟩
    · intro x hx
      rcases (hentry x).mp hx with rfl | hx
      · exact ht
      · exact h.type_ne x hx
    · intro x hx
      obtain ⟨i, hi⟩ := h.registered x hx
      exact ⟨i, (hentry _).mpr (Or.inr hi)⟩

/-- The in-use scan finds out whether a tracked pointer has the type. -/
theorem TableInv.inUse (h : TableInv wide s) (type : BitVec 32) :
    ∃ b, inUse s type = some b ∧ (b = true ↔ ∃ x, s.list.HasEntry x ∧ s.OfType x.2 type) := by
  have hfold : ∀ (l : List (Addr × MemList)) (found : Bool), (∀ x ∈ l, s.list.HasEntry x) →
      ∃ b, l.foldlM (fun found x => if found then some true
          else (s.info.cells.get x.2.pInfo).map fun i => decide (i.data.type = type)) found =
            some b ∧
        (b = true ↔ found = true ∨ ∃ x ∈ l, s.OfType x.2 type) := by
    intro l
    induction l with
    | nil => intro found _; exact ⟨found, rfl, by simp⟩
    | cons x l ih =>
      intro found hl
      obtain ⟨i, hi⟩ := h.registered x (hl x (by simp))
      obtain ⟨-, q, hq⟩ := hi.get
      have hiff : s.OfType x.2 type ↔ i.type = type :=
        ⟨fun ⟨j, hj, hjt⟩ => (Prod.mk.inj (h.info.eq_of_addr hi hj rfl)).2 ▸ hjt,
          fun hit => ⟨i, hi, hit⟩⟩
      obtain ⟨b, hrun, hb⟩ := ih (found || decide (i.type = type)) fun y hy => hl y (by simp [hy])
      refine ⟨b, ?_, ?_⟩
      · rw [List.foldlM_cons, ← hrun]
        cases found <;> simp [hq]
      · rw [hb]
        simp [hiff, or_assoc]
  obtain ⟨L, hL⟩ := h.list
  obtain ⟨b, hrun, hb⟩ := hfold ((List.finRange memHashSize).flatMap L) false fun x hx => by
    obtain ⟨i, -, hi⟩ := List.mem_flatMap.mp hx
    exact hL.hasEntry_iff.mpr ⟨i, hi⟩
  refine ⟨b, by rw [Mem.inUse, hL.sweep_const]; exact hrun, ?_⟩
  rw [hb]
  simp only [Bool.false_eq_true, false_or, List.mem_flatMap, List.mem_finRange, true_and,
    hL.hasEntry_iff]

/-- `mem_del_type` refuses, or takes out a type no tracked pointer has. -/
theorem memDelType_cases (h : TableInv wide s) (type : BitVec 32) :
    (∃ r, memDelType wide s type = some (r, s) ∧
        ((∀ x, s.info.HasEntry x → x.2.type ≠ type) ∨
          ∃ x, s.list.HasEntry x ∧ s.OfType x.2 type)) ∨
      ∃ info, memDelType wide s type = some (memResOk, { s with info := info }) ∧
        TableInv wide { s with info := info } ∧
        (∀ x, s.list.HasEntry x → ¬ s.OfType x.2 type) ∧
        (∀ x, info.HasEntry x ↔ s.info.HasEntry x ∧ x.2.type ≠ type) ∧
        ∀ L, HashTable.Rep MemInfo.type (hashType wide) s.info L →
          HashTable.Rep MemInfo.type (hashType wide) info
            fun i => (L i).filter fun x => x.2.type ≠ type := by
  unfold memDelType
  rcases h.findType type with ⟨x, hrun, hx, hxt⟩ | ⟨hrun, hno⟩
  · rw [hrun]
    subst hxt
    obtain ⟨b, huse, hb⟩ := h.inUse x.2.type
    obtain ⟨info, hrem, hwf, hentry, hrep⟩ := h.info.remove_free hx
    simp only [Option.bind_eq_bind, Option.bind_some, huse, hrem]
    split_ifs with hused
    · exact Or.inl ⟨memResInUse, rfl, Or.inr (hb.mp hused)⟩
    · have hfree : ∀ y, s.list.HasEntry y → ¬ s.OfType y.2 x.2.type :=
        fun y hy hty => hused (hb.mpr ⟨y, hy, hty⟩)
      refine Or.inr ⟨_, rfl, ⟨h.list, hwf, h.ptr_ne, fun y hy => h.type_ne y ((hentry y).mp hy).1,
        fun y hy => ?_⟩, hfree, hentry, hrep⟩
      obtain ⟨i, hi⟩ := h.registered y hy
      exact ⟨i, (hentry _).mpr ⟨hi, fun hit => hfree y hy ⟨i, hi, hit⟩⟩⟩
  · rw [hrun]
    exact Or.inl ⟨memResExists, rfl, Or.inl hno⟩

/-- `mem_cb_free` does nothing, or sets the callback of a registered type. -/
theorem memCbFree_cases (h : TableInv wide s) (type : BitVec 32) (handler : Option Callback) :
    (memCbFree wide s type handler = some s ∧ ∀ x, s.info.HasEntry x → x.2.type ≠ type) ∨
      ∃ x info, memCbFree wide s type handler = some { s with info := info } ∧
        TableInv wide { s with info := info } ∧ s.info.HasEntry x ∧ x.2.type = type ∧
        ∀ y, info.HasEntry y ↔ ∃ z, s.info.HasEntry z ∧
          y = if z.1 = x.1 then (z.1, { z.2 with cbFree := handler }) else z := by
  unfold memCbFree
  rcases h.findType type with ⟨x, hrun, hx, hxt⟩ | ⟨hrun, hno⟩
  · rw [hrun]
    obtain ⟨hwf, hentry⟩ := h.info.setData x.1 (f := fun i => { i with cbFree := handler })
      fun _ _ _ => rfl
    refine Or.inr ⟨x, _, rfl, ⟨h.list, hwf, h.ptr_ne, ?_, ?_⟩, hx, hxt, hentry⟩
    · intro y hy
      obtain ⟨z, hz, rfl⟩ := (hentry y).mp hy
      have := h.type_ne z hz
      split_ifs <;> exact this
    · intro y hy
      obtain ⟨i, hi⟩ := h.registered y hy
      by_cases hyx : y.2.pInfo = x.1
      · exact ⟨{ i with cbFree := handler }, (hentry _).mpr ⟨_, hi, by simp [hyx]⟩⟩
      · exact ⟨i, (hentry _).mpr ⟨_, hi, by simp [hyx]⟩⟩
  · rw [hrun]
    exact Or.inl ⟨rfl, hno⟩

/-! ## Pointers -/

/-- What a new entry `e` at `node` makes of the list of pointers. -/
theorem TableInv.push (h : TableInv wide s) {node : Addr} {e : MemList} (hn : node ≠ 0)
    (hnode : s.list.cells.get node = none) (hp : e.pPtr ≠ 0)
    (hnew : ∀ x, s.list.HasEntry x → x.2.pPtr ≠ e.pPtr) {i : MemInfo}
    (hi : s.info.HasEntry (e.pInfo, i)) (blocks : Heap (List Byte)) (log : List MemEvent) :
    TableInv wide ⟨HashTable.push MemList.pPtr (hashPtr wide) node e s.list, s.info, blocks, log⟩ ∧
      ∀ x, (HashTable.push MemList.pPtr (hashPtr wide) node e s.list).HasEntry x ↔
        x = (node, e) ∨ s.list.HasEntry x := by
  obtain ⟨hwf, hentry⟩ := h.list.push hn (fun x hx => hx.ne_of_get_eq_none hnode) hnew
  refine ⟨h.setList hwf (fun x hx => ?_) blocks log, hentry⟩
  rcases (hentry x).mp hx with rfl | hx
  · exact ⟨hp, i, hi⟩
  · exact ⟨h.ptr_ne x hx, h.registered x hx⟩

/-- `mem_alloc` and `mem_calloc` return NULL and change nothing, or track the
    block under its type. -/
theorem memTrack_cases (h : TableInv wide s) (type size : BitVec 32) (bytes : ℕ) {node blk : Addr}
    (hnode : s.list.cells.get node = none) (hblk : ∀ x, s.list.HasEntry x → x.2.pPtr ≠ blk) :
    (memTrack wide s type size bytes node blk = some (0, s) ∧
        (node = 0 ∨ blk = 0 ∨ ∀ x, s.info.HasEntry x → x.2.type ≠ type)) ∨
      ∃ i list, memTrack wide s type size bytes node blk =
          some (blk, ⟨list, s.info, s.blocks.set blk (List.replicate bytes 0), s.log⟩) ∧
        (∀ blocks log, TableInv wide ⟨list, s.info, blocks, log⟩) ∧
        node ≠ 0 ∧ blk ≠ 0 ∧ s.info.HasEntry i ∧ i.2.type = type ∧
        ∀ x, list.HasEntry x ↔ x = (node, ⟨blk, size, false, i.1⟩) ∨ s.list.HasEntry x := by
  unfold memTrack
  rcases h.findType type with ⟨i, hrun, hi, hit⟩ | ⟨hrun, hno⟩
  · rw [hrun]
    simp only [Option.bind_eq_bind, Option.bind_some]
    split_ifs with hn hb
    · exact Or.inl ⟨rfl, Or.inl hn⟩
    · exact Or.inl ⟨rfl, Or.inr (Or.inl hb)⟩
    · have hpush := fun blocks log =>
        h.push (e := ⟨blk, size, false, i.1⟩) hn hnode hb hblk hi blocks log
      exact Or.inr ⟨i, _, rfl, fun blocks log => (hpush blocks log).1, hn, hb, hi, hit,
        (hpush s.blocks s.log).2⟩
  · rw [hrun]
    exact Or.inl ⟨rfl, Or.inr (Or.inr hno)⟩

/-- `mem_store` refuses, or tracks the pointer under its type. -/
theorem memStore_cases (h : TableInv wide s) (p : Addr) (type size : BitVec 32) {node : Addr}
    (hnode : s.list.cells.get node = none) :
    (∃ r, memStore wide s p type size node = some (r, s) ∧
        (p = 0 ∨ node = 0 ∨ (∃ x, s.list.HasEntry x ∧ x.2.pPtr = p) ∨
          ∀ x, s.info.HasEntry x → x.2.type ≠ type)) ∨
      ∃ i list, memStore wide s p type size node =
          some (memResOk, ⟨list, s.info, s.blocks, s.log⟩) ∧
        (∀ blocks log, TableInv wide ⟨list, s.info, blocks, log⟩) ∧
        p ≠ 0 ∧ node ≠ 0 ∧ (∀ x, s.list.HasEntry x → x.2.pPtr ≠ p) ∧
        s.info.HasEntry i ∧ i.2.type = type ∧
        ∀ x, list.HasEntry x ↔ x = (node, ⟨p, size, true, i.1⟩) ∨ s.list.HasEntry x := by
  unfold memStore
  by_cases hp : p = 0
  · rcases h.findType type with ⟨i, hrun, -, -⟩ | ⟨hrun, -⟩ <;>
      rcases h.findPtr p with ⟨x, hrun', -, -⟩ | ⟨hrun', -⟩ <;>
      · simp only [hrun, hrun', Option.bind_eq_bind, Option.bind_some, if_pos hp]
        exact Or.inl ⟨memResIsNull, rfl, Or.inl hp⟩
  rcases h.findPtr p with ⟨x, hrun', hx, hxp⟩ | ⟨hrun', hno'⟩
  · rcases h.findType type with ⟨i, hrun, -, -⟩ | ⟨hrun, -⟩ <;>
      · simp only [hrun, hrun', Option.bind_eq_bind, Option.bind_some, if_neg hp,
          Option.isSome_some, if_true]
        exact Or.inl ⟨memResExists, rfl, Or.inr (Or.inr (Or.inl ⟨x, hx, hxp⟩))⟩
  rcases h.findType type with ⟨i, hrun, hi, hit⟩ | ⟨hrun, hno⟩
  · simp only [hrun, hrun', Option.bind_eq_bind, Option.bind_some, if_neg hp,
      Option.isSome_none, Bool.false_eq_true, if_false]
    split_ifs with hn
    · exact Or.inl ⟨memResSysCall, rfl, Or.inr (Or.inl hn)⟩
    · have hpush := fun blocks log =>
        h.push (e := ⟨p, size, true, i.1⟩) hn hnode hp hno' hi blocks log
      exact Or.inr ⟨i, _, rfl, fun blocks log => (hpush blocks log).1, hp, hn, hno', hi, hit,
        (hpush s.blocks s.log).2⟩
  · simp only [hrun, hrun', Option.bind_eq_bind, Option.bind_some, if_neg hp,
      Option.isSome_none, Bool.false_eq_true, if_false]
    exact Or.inl ⟨memResExists, rfl, Or.inr (Or.inr (Or.inr hno))⟩

/-- Moving an entry to the bucket of its new address. -/
theorem TableInv.rehash (h : TableInv wide s) {e : Addr × MemList} (he : s.list.HasEntry e)
    {q : Addr} (hq : q = e.2.pPtr ∨ ∀ x, s.list.HasEntry x → x.2.pPtr ≠ q) :
    ∃ list, rehash wide s.list e q = some list ∧
      HashTable.WF MemList.pPtr (hashPtr wide) list ∧
      ∀ x, list.HasEntry x ↔
        x = (e.1, { e.2 with pPtr := q }) ∨ s.list.HasEntry x ∧ x.2.pPtr ≠ e.2.pPtr := by
  unfold Mem.rehash
  split_ifs with hsame
  · subst hsame
    refine ⟨s.list, rfl, h.list, fun x => ⟨fun hx => ?_, ?_⟩⟩
    · by_cases hxe : x.2.pPtr = e.2.pPtr
      · exact Or.inl (h.list.eq_of_key hx he hxe)
      · exact Or.inr ⟨hx, hxe⟩
    · rintro (rfl | ⟨hx, -⟩)
      · exact he
      · exact hx
  · have hfresh := hq.resolve_left hsame
    obtain ⟨list, hrem, hwf, hentry, -⟩ := h.list.remove e.2.pPtr
    obtain ⟨hwf', hentry'⟩ := hwf.push (a := e.1) (b := { e.2 with pPtr := q }) he.get.1
      (fun x hx hxe => ((hentry x).mp hx).2
        (h.list.eq_of_addr ((hentry x).mp hx).1 he hxe ▸ rfl))
      (fun x hx => hfresh x ((hentry x).mp hx).1)
    exact ⟨_, by rw [hrem]; rfl, hwf', fun x => by rw [hentry', hentry]⟩

/-- `mem_realloc` returns NULL (and the block is untouched, or freed), or the
    entry now has the new address and size. -/
theorem memRealloc_cases (h : TableInv wide s) (p : Addr) (newSize : BitVec 32) {r : Realloc}
    (hq : ∀ q junk, r = .moved q junk → q ≠ 0 ∧ (q = p ∨ ∀ x, s.list.HasEntry x → x.2.pPtr ≠ q)) :
    (memRealloc wide s p newSize r = some (0, s) ∧
        ((∀ x, s.list.HasEntry x → x.2.pPtr ≠ p) ∨
          (∃ x, s.list.HasEntry x ∧ x.2.pPtr = p ∧ (x.2.stored = true ∨ r = .failed)))) ∨
      (memRealloc wide s p newSize r = some (0, { s with blocks := s.blocks.free p }) ∧ r = .freed ∧
        ∃ x, s.list.HasEntry x ∧ x.2.pPtr = p ∧ x.2.stored = false) ∨
      ∃ e q junk list, r = .moved q junk ∧ s.list.HasEntry e ∧ e.2.pPtr = p ∧ e.2.stored = false ∧
        memRealloc wide s p newSize r = some (q, ⟨list, s.info, (s.blocks.free p).set q
          (reallocBytes ((s.blocks.get p).getD []) e.2.size newSize junk), s.log⟩) ∧
        (∀ blocks log, TableInv wide ⟨list, s.info, blocks, log⟩) ∧
        ∀ x, list.HasEntry x ↔ x = (e.1, { e.2 with pPtr := q, size := newSize }) ∨
          s.list.HasEntry x ∧ x.2.pPtr ≠ p := by
  unfold memRealloc
  rcases h.findPtr p with ⟨e, hrun, he, hp⟩ | ⟨hrun, hno⟩
  · rw [hrun]
    simp only [Option.bind_eq_bind, Option.bind_some]
    split_ifs with hst
    · exact Or.inl ⟨rfl, Or.inr ⟨e, he, hp, Or.inl hst⟩⟩
    cases r with
    | failed => exact Or.inl ⟨rfl, Or.inr ⟨e, he, hp, Or.inr rfl⟩⟩
    | freed => exact Or.inr (Or.inl ⟨rfl, rfl, e, he, hp, by simpa using hst⟩)
    | moved q junk =>
      obtain ⟨hq0, hq⟩ := hq q junk rfl
      subst hp
      obtain ⟨list, hre, hwf, hentry⟩ := h.rehash he hq
      obtain ⟨hwf', hentry'⟩ := hwf.setData e.1 (f := fun x => { x with size := newSize })
        fun _ _ _ => rfl
      have hiff : ∀ x, (list.setData e.1 fun x => { x with size := newSize }).HasEntry x ↔
          x = (e.1, { e.2 with pPtr := q, size := newSize }) ∨
            s.list.HasEntry x ∧ x.2.pPtr ≠ e.2.pPtr := by
        intro x
        have hother : ∀ y, s.list.HasEntry y → y.2.pPtr ≠ e.2.pPtr → y.1 ≠ e.1 :=
          fun y hy hyp hye => hyp (h.list.eq_of_addr hy he hye ▸ rfl)
        rw [hentry']
        constructor
        · rintro ⟨y, hy, rfl⟩
          rcases (hentry y).mp hy with rfl | ⟨hy, hyp⟩
          · simp
          · rw [if_neg (hother y hy hyp)]
            exact Or.inr ⟨hy, hyp⟩
        · rintro (rfl | ⟨hx, hxp⟩)
          · exact ⟨_, (hentry _).mpr (Or.inl rfl), by simp⟩
          · exact ⟨x, (hentry _).mpr (Or.inr ⟨hx, hxp⟩), by rw [if_neg (hother x hx hxp)]⟩
      simp only [hre, Option.bind_some]
      refine Or.inr (Or.inr ⟨e, q, junk, _, rfl, he, rfl, by simpa using hst, rfl,
        h.setList hwf' fun x hx => ?_, hiff⟩)
      rcases (hiff x).mp hx with rfl | ⟨hx, -⟩
      · exact ⟨hq0, h.registered e he⟩
      · exact ⟨h.ptr_ne x hx, h.registered x hx⟩
  · rw [hrun]
    exact Or.inl ⟨rfl, Or.inl hno⟩

/-- `dispose` does not touch the tables. -/
theorem dispose_eq (s : MemState) (p : Addr) (e : MemList) (i : MemInfo) :
    (dispose s p e i).list = s.list ∧ (dispose s p e i).info = s.info := by
  unfold dispose release
  cases i.cbFree with
  | some cb => exact ⟨rfl, rfl⟩
  | none =>
    cases e.stored with
    | true => exact ⟨rfl, rfl⟩
    | false => cases s.blocks.get p <;> exact ⟨rfl, rfl⟩

/-- Nor does it look at the list of pointers. -/
theorem dispose_setList (s : MemState) (list : HashTable memHashSize MemList) (p : Addr)
    (e : MemList) (i : MemInfo) :
    dispose { s with list := list } p e i = { dispose s p e i with list := list } := by
  unfold dispose release
  cases i.cbFree with
  | some cb => rfl
  | none =>
    cases e.stored with
    | true => rfl
    | false => cases s.blocks.get p <;> simp

/-- `mem_free` does nothing, or disposes of the pointer and takes it out. The
    buckets are given too, for the walk of `mem_free_all`. -/
theorem memFree_cases (h : TableInv wide s) (p : Addr) :
    (memFree wide s p = some s ∧ ∀ x, s.list.HasEntry x → x.2.pPtr ≠ p) ∨
      ∃ e i list, memFree wide s p = some ⟨list, s.info, (dispose s p e.2 i).blocks,
          (dispose s p e.2 i).log⟩ ∧
        (∀ blocks log, TableInv wide ⟨list, s.info, blocks, log⟩) ∧
        s.list.HasEntry e ∧ e.2.pPtr = p ∧ s.info.HasEntry (e.2.pInfo, i) ∧
        (∀ x, list.HasEntry x ↔ s.list.HasEntry x ∧ x.2.pPtr ≠ p) ∧
        ∀ L, HashTable.Rep MemList.pPtr (hashPtr wide) s.list L →
          HashTable.Rep MemList.pPtr (hashPtr wide) list
            fun i => (L i).filter fun x => x.2.pPtr ≠ p := by
  unfold memFree
  rcases h.findPtr p with ⟨e, hrun, he, hp⟩ | ⟨hrun, hno⟩
  · rw [hrun]
    obtain ⟨i, hi⟩ := h.registered e he
    obtain ⟨-, q, hq⟩ := hi.get
    subst hp
    obtain ⟨list, hrem, hwf, hentry, hrep⟩ := h.list.remove_free he
    simp only [Option.bind_eq_bind, Option.bind_some, hrem, hq, dispose_setList,
      (dispose_eq s _ e.2 i).2]
    refine Or.inr ⟨e, i, _, rfl, h.setList hwf fun x hx => ?_, he, rfl, hi, hentry, hrep⟩
    have hx := ((hentry x).mp hx).1
    exact ⟨h.ptr_ne x hx, h.registered x hx⟩
  · rw [hrun]
    exact Or.inl ⟨rfl, hno⟩

/-! ## Releasing everything -/

/-- When no pointer is tracked any more, the second loop of `mem_free_all` deletes every type. -/
theorem TableInv.delTypes {P : MemState → Prop}
    (hdel : ∀ s t r s', TableInv wide s → P s → memDelType wide s t = some (r, s') → P s')
    (h : TableInv wide s) (hP : P s) (hno : ∀ x, ¬ s.list.HasEntry x) :
    ∃ s', HashTable.sweep MemState.info (delType wide) s = some s' ∧ TableInv wide s' ∧ P s' ∧
      (∀ x, ¬ s'.list.HasEntry x) ∧ ∀ x, ¬ s'.info.HasEntry x := by
  obtain ⟨L, hL⟩ := h.info
  obtain ⟨s', hrun, ⟨h', hP', hno'⟩, hL'⟩ := HashTable.Rep.sweep MemState.info (delType wide)
    (fun s' => TableInv wide s' ∧ P s' ∧ ∀ x, ¬ s'.list.HasEntry x) (fun _ => true)
    (by
      rintro s' L' i x ⟨h', hP', hno⟩ hL' hx
      have hx' := hL'.hasEntry_iff.mpr ⟨i, hx⟩
      rcases memDelType_cases h' x.2.type with ⟨r, hrun, hcase⟩ | ⟨info, hrun, h'', -, -, hrep⟩
      · rcases hcase with hno' | ⟨y, hy, -⟩
        · exact absurd rfl (hno' x hx')
        · exact absurd hy (hno y)
      · refine ⟨_, by rw [delType, hrun]; rfl, ⟨h'', hdel _ _ _ _ h' hP' hrun, hno⟩, ?_⟩
        simpa [HashTable.afterBody] using hrep L' hL')
    ⟨h, hP, hno⟩ hL
  refine ⟨s', hrun, h', hP', hno', fun x hx => ?_⟩
  obtain ⟨i, hi⟩ := hL'.hasEntry_iff.mp hx
  simp at hi

/-- `mem_free_all` takes out the pointers of the type, or all pointers and all
    types, and keeps whatever `mem_free` and `mem_del_type` keep. -/
theorem memFreeAll_spec {P : MemState → Prop}
    (hfree : ∀ s p s', TableInv wide s → P s → memFree wide s p = some s' → P s')
    (hdel : ∀ s t r s', TableInv wide s → P s → memDelType wide s t = some (r, s') → P s')
    (h : TableInv wide s) (hP : P s) (type : BitVec 32) :
    ∃ s', memFreeAll wide s type = some s' ∧ TableInv wide s' ∧ P s' ∧
      (∀ x, s'.list.HasEntry x ↔ s.list.HasEntry x ∧ type ≠ 0 ∧ ¬ s.OfType x.2 type) ∧
      ∀ x, s'.info.HasEntry x ↔ s.info.HasEntry x ∧ type ≠ 0 := by
  obtain ⟨L, hL⟩ := h.list
  -- the first loop keeps the types, so what it drops can be read off the initial state
  obtain ⟨s₁, hrun₁, ⟨h₁, hP₁, hinfo₁⟩, hL₁⟩ := HashTable.Rep.sweep MemState.list
    (freeOfType wide type) (fun s' => TableInv wide s' ∧ P s' ∧ s'.info = s.info)
    (fun e => decide (type = 0 ∨
      (s.info.cells.get e.pInfo).map (fun i => i.data.type) = some type))
    (by
      rintro s' L' i x ⟨h', hP', hinfo⟩ hL' hx
      have hx' := hL'.hasEntry_iff.mpr ⟨i, hx⟩
      obtain ⟨i, hi⟩ := h'.registered x hx'
      obtain ⟨-, q, hq⟩ := hi.get
      simp only [freeOfType, HashTable.afterBody, ← hinfo, hq, Option.map_some,
        Option.bind_eq_bind, Option.bind_some, Option.some.injEq, decide_eq_true_eq]
      split_ifs with hd
      · rcases memFree_cases h' x.2.pPtr with ⟨-, hno⟩ | ⟨e, i, list, hrun, h'', -, -, -, -, hrep⟩
        · exact absurd rfl (hno x hx')
        · exact ⟨_, hrun, ⟨h'' _ _, hfree _ _ _ h' hP' hrun, rfl⟩, hrep L' hL'⟩
      · exact ⟨s', rfl, ⟨h', hP', rfl⟩, hL'⟩)
    ⟨h, hP, rfl⟩ hL
  have hlist₁ : ∀ x, s₁.list.HasEntry x ↔ s.list.HasEntry x ∧ type ≠ 0 ∧ ¬ s.OfType x.2 type := by
    intro x
    rw [hL₁.hasEntry_iff, hL.hasEntry_iff, ← exists_and_right]
    refine exists_congr fun i => ?_
    rw [List.mem_filter]
    refine and_congr_right fun hx => ?_
    obtain ⟨j, hj⟩ := h.registered x (hL.hasEntry_iff.mpr ⟨i, hx⟩)
    have hiff : s.OfType x.2 type ↔ j.type = type :=
      ⟨fun hty => (h.ofType_unique hty ⟨j, hj, rfl⟩).symm, fun hjt => ⟨j, hj, hjt⟩⟩
    obtain ⟨-, q, hq⟩ := hj.get
    simp [hq, hiff]
  unfold memFreeAll
  rw [hrun₁]
  simp only [Option.bind_eq_bind, Option.bind_some]
  split_ifs with ht
  · exact ⟨s₁, rfl, h₁, hP₁, hlist₁, fun x => by
      rw [hinfo₁]
      exact ⟨fun hx => ⟨hx, ht⟩, And.left⟩⟩
  · have ht : type = 0 := by simpa using ht
    obtain ⟨s₂, hrun₂, h₂, hP₂, hlist₂, hinfo₂⟩ :=
      h₁.delTypes hdel hP₁ fun x hx => ((hlist₁ x).mp hx).2.1 ht
    refine ⟨s₂, hrun₂, h₂, hP₂, fun x => ?_, fun x => ?_⟩
    · simp [hlist₂ x, ht]
    · simp [hinfo₂ x, ht]

end CompatSuva.Mem
