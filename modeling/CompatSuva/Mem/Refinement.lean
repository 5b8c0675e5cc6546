import CompatSuva.Mem.Invariant

/-!
# The memory tables implement a registry

`Registry` is what the two tables stand for: a map from pointers to what is
recorded of them, and a map from type ids to their names and callbacks.
`Refines s A` says that the tables `s` satisfy `TableInv` and hold exactly the
entries of `A`.

* `step_refines`: every call, with any outcome of the allocator, acts on the
  tables as `Registry.step` acts on the maps;
* `run_refines`: so does every sequence of calls from `mem_init`;
* `memTables_reachable`: what this says about the chains and the two searches.

The allocator is assumed to return new addresses, `Op.Fresh`.
-/

namespace CompatSuva.Mem

open CompatSuva.Common

/-! ## The registry -/

/-- What is recorded of a pointer. -/
structure Tracked where
  size : BitVec 32
  stored : Bool
  type : BitVec 32

/-- What is recorded of a type. -/
structure Kind where
  name : List Byte
  cbFree : Option Callback

/-- The pointers tracked and the types registered: those that have been added
    and not yet removed. -/
structure Registry where
  ptrs : Addr → Option Tracked
  types : BitVec 32 → Option Kind

namespace Registry

/-- Nothing is tracked or registered. -/
def empty : Registry := ⟨fun _ => none, fun _ => none⟩

/-- Some pointer has the type. -/
def InUse (A : Registry) (type : BitVec 32) : Prop := ∃ p e, A.ptrs p = some e ∧ e.type = type

/-- Record `e` of the pointer `p`, or nothing any more. -/
def setPtr (A : Registry) (p : Addr) (e : Option Tracked) : Registry :=
  ⟨Function.update A.ptrs p e, A.types⟩

/-- Record `k` of the type `type`, or nothing any more. -/
def setType (A : Registry) (type : BitVec 32) (k : Option Kind) : Registry :=
  ⟨A.ptrs, Function.update A.types type k⟩

/-- Track `p`, unless it is null, there is no node for it or its type is unknown. -/
def track (A : Registry) (node p : Addr) (e : Tracked) : Registry :=
  if node ≠ 0 ∧ p ≠ 0 ∧ (A.types e.type).isSome then A.setPtr p (some e) else A

open Classical in
/-- What a call does to the registry. -/
noncomputable def step (A : Registry) : Op → Registry
  | .addType type name node =>
    if type ≠ 0 ∧ node ≠ 0 ∧ A.types type = none then
      A.setType type (some ⟨name.take (memMaxName - 1), none⟩)
    else A
  | .delType type =>
    if A.InUse type then A else A.setType type none
  | .alloc type size node blk => A.track node blk ⟨size, false, type⟩
  | .calloc type _ size node blk => A.track node blk ⟨size, false, type⟩
  | .realloc p newSize (.moved q _) =>
    match A.ptrs p with
    | some ⟨_, false, type⟩ =>
      (A.setPtr p none).setPtr q (some ⟨newSize, false, type⟩)
    | _ => A
  | .realloc _ _ _ => A
  | .store p type size node =>
    if A.ptrs p = none then A.track node p ⟨size, true, type⟩ else A
  | .free p => A.setPtr p none
  | .freeAll type =>
    if type = 0 then empty
    else { A with ptrs := fun p => (A.ptrs p).filter fun e => e.type ≠ type }
  | .cbFree type handler =>
    A.setType type ((A.types type).map fun k => { k with cbFree := handler })
  | .write _ _ => A

/-- What a sequence of calls makes of the empty registry. -/
noncomputable def after (ops : List Op) : Registry := ops.foldl step empty

end Registry

/-! ## The refinement relation -/

/-- The tables hold the pointer `p` with the data `e`. -/
def MemState.Tracks (s : MemState) (p : Addr) (e : Tracked) : Prop :=
  ∃ x, s.list.HasEntry x ∧ x.2.pPtr = p ∧ x.2.size = e.size ∧ x.2.stored = e.stored ∧
    s.OfType x.2 e.type

/-- The tables hold the type `type` with the data `k`. -/
def MemState.Knows (s : MemState) (type : BitVec 32) (k : Kind) : Prop :=
  ∃ x, s.info.HasEntry x ∧ x.2.type = type ∧ x.2.name = k.name ∧ x.2.cbFree = k.cbFree

variable (wide : Byte → ℕ → BitVec 32)

/-- The tables satisfy their invariant and hold exactly the entries of `A`. -/
structure Refines (s : MemState) (A : Registry) : Prop where
  inv : TableInv wide s
  ptrs : ∀ p e, A.ptrs p = some e ↔ s.Tracks p e
  types : ∀ type k, A.types type = some k ↔ s.Knows type k

/-- The addresses the allocator returns in this call are new: a node is not a
    live node, and a block is not a tracked pointer, unless `realloc` has left it
    where it was. NULL is always possible. -/
def Op.Fresh (s : MemState) : Op → Prop
  | .addType _ _ node => s.info.cells.get node = none
  | .alloc _ _ node blk | .calloc _ _ _ node blk =>
    s.list.cells.get node = none ∧ ∀ x, s.list.HasEntry x → x.2.pPtr ≠ blk
  | .realloc p _ (.moved q _) => q ≠ 0 ∧ (q = p ∨ ∀ x, s.list.HasEntry x → x.2.pPtr ≠ q)
  | .store _ _ _ node => s.list.cells.get node = none
  | _ => True

/-- Every call of the sequence meets `C` in the state it is made in. -/
def Meets (C : MemState → Op → Prop) : MemState → List Op → Prop
  | _, [] => True
  | s, op :: ops => C s op ∧ ∀ s', step wide s op = some s' → Meets C s' ops

/-- Every call of the sequence finds the allocator returning new addresses. -/
def AllFresh : MemState → List Op → Prop := Meets wide fun s op => op.Fresh s

variable {wide} {s s' : MemState} {A : Registry}

namespace Refines

theorem ptrs_eq_none (h : Refines wide s A) (p : Addr) :
    A.ptrs p = none ↔ ∀ x, s.list.HasEntry x → x.2.pPtr ≠ p := by
  constructor
  · rintro hnone x hx rfl
    obtain ⟨i, hi⟩ := h.inv.registered x hx
    have := (h.ptrs x.2.pPtr ⟨x.2.size, x.2.stored, i.type⟩).mpr
      ⟨x, hx, rfl, rfl, rfl, i, hi, rfl⟩
    simp [hnone] at this
  · intro hno
    cases he : A.ptrs p with
    | none => rfl
    | some e =>
      obtain ⟨x, hx, hp, -⟩ := (h.ptrs p e).mp he
      exact absurd hp (hno x hx)

theorem types_eq_none (h : Refines wide s A) (type : BitVec 32) :
    A.types type = none ↔ ∀ x, s.info.HasEntry x → x.2.type ≠ type := by
  constructor
  · rintro hnone x hx rfl
    have := (h.types x.2.type ⟨x.2.name, x.2.cbFree⟩).mpr ⟨x, hx, rfl, rfl, rfl⟩
    simp [hnone] at this
  · intro hno
    cases hk : A.types type with
    | none => rfl
    | some k =>
      obtain ⟨x, hx, ht, -⟩ := (h.types type k).mp hk
      exact absurd ht (hno x hx)

/-- The registry's record of an entry of the tables. -/
theorem ptrs_of_hasEntry (h : Refines wide s A) {x : Addr × MemList} (hx : s.list.HasEntry x) :
    ∃ type, s.OfType x.2 type ∧ A.ptrs x.2.pPtr = some ⟨x.2.size, x.2.stored, type⟩ := by
  obtain ⟨i, hi⟩ := h.inv.registered x hx
  exact ⟨i.type, ⟨i, hi, rfl⟩, (h.ptrs _ _).mpr ⟨x, hx, rfl, rfl, rfl, i, hi, rfl⟩⟩

theorem types_isSome (h : Refines wide s A) {x : Addr × MemInfo} (hx : s.info.HasEntry x) :
    A.types x.2.type = some ⟨x.2.name, x.2.cbFree⟩ := (h.types _ _).mpr ⟨x, hx, rfl, rfl, rfl⟩

theorem inUse_iff (h : Refines wide s A) (type : BitVec 32) :
    A.InUse type ↔ ∃ x, s.list.HasEntry x ∧ s.OfType x.2 type := by
  constructor
  · rintro ⟨p, e, he, rfl⟩
    obtain ⟨x, hx, -, -, -, hty⟩ := (h.ptrs p e).mp he
    exact ⟨x, hx, hty⟩
  · rintro ⟨x, hx, hty⟩
    exact ⟨x.2.pPtr, ⟨x.2.size, x.2.stored, type⟩, (h.ptrs _ _).mpr ⟨x, hx, rfl, rfl, rfl, hty⟩,
      rfl⟩

/-- A new or replaced pointer: `e` is now recorded of `p`, what was recorded of
    `p` and of `drop` is gone. -/
theorem setPtr (h : Refines wide s A) {list : HashTable memHashSize MemList}
    {blocks : Heap (List Byte)} {log : List MemEvent} {drop : Addr}
    (hinv : TableInv wide ⟨list, s.info, blocks, log⟩) {x : Addr × MemList} {type : BitVec 32}
    (hty : s.OfType x.2 type) (hnew : ∀ y, s.list.HasEntry y → y.2.pPtr = x.2.pPtr →
      y.2.pPtr = drop) (hentry : ∀ y, list.HasEntry y ↔ y = x ∨ s.list.HasEntry y ∧
      y.2.pPtr ≠ drop) :
    Refines wide ⟨list, s.info, blocks, log⟩
      ((A.setPtr drop none).setPtr x.2.pPtr (some ⟨x.2.size, x.2.stored, type⟩)) where
  inv := hinv
  types := h.types
  ptrs p e := by
    simp only [Registry.setPtr]
    by_cases hp : p = x.2.pPtr
    · subst hp
      rw [Function.update_self, Option.some.injEq]
      constructor
      · rintro rfl
        exact ⟨x, (hentry x).mpr (Or.inl rfl), rfl, rfl, rfl, hty⟩
      · rintro ⟨y, hy, hyp, hsize, hstored, hyty⟩
        rcases (hentry y).mp hy with rfl | ⟨hy, hyd⟩
        · have := h.inv.ofType_unique hty hyty
          cases e
          simp_all
        · exact absurd (hnew y hy hyp) hyd
    · rw [Function.update_of_ne hp]
      by_cases hd : p = drop
      · subst hd
        rw [Function.update_self]
        refine ⟨fun h => by simp at h, ?_⟩
        rintro ⟨y, hy, rfl, -⟩
        rcases (hentry y).mp hy with rfl | ⟨-, hyd⟩
        · exact absurd rfl hp
        · exact absurd rfl hyd
      · rw [Function.update_of_ne hd, h.ptrs]
        constructor
        · rintro ⟨y, hy, rfl, hrest⟩
          exact ⟨y, (hentry y).mpr (Or.inr ⟨hy, hd⟩), rfl, hrest⟩
        · rintro ⟨y, hy, rfl, hrest⟩
          rcases (hentry y).mp hy with rfl | ⟨hy, -⟩
          · exact absurd rfl hp
          · exact ⟨y, hy, rfl, hrest⟩

/-- A change of the types that keeps the type of every tracked pointer. -/
theorem setInfo (h : Refines wide s A) {info : HashTable memHashSize MemInfo}
    (hinv : TableInv wide { s with info := info }) {types : BitVec 32 → Option Kind}
    (hty : ∀ x, s.list.HasEntry x → ∀ type, s.OfType x.2 type →
      MemState.OfType { s with info := info } x.2 type)
    (htypes : ∀ type k, types type = some k ↔ MemState.Knows { s with info := info } type k) :
    Refines wide { s with info := info } { A with types := types } where
  inv := hinv
  types := htypes
  ptrs p e := by
    rw [h.ptrs]
    constructor
    · rintro ⟨x, hx, hp, hsize, hstored, ht⟩
      exact ⟨x, hx, hp, hsize, hstored, hty x hx _ ht⟩
    · rintro ⟨x, hx, hp, hsize, hstored, ht⟩
      obtain ⟨i, hi⟩ := h.inv.registered x hx
      have := hinv.ofType_unique ht (hty x hx i.type ⟨i, hi, rfl⟩)
      exact ⟨x, hx, hp, hsize, hstored, i, hi, this.symm⟩

/-- A call that leaves the tables alone, whatever it does to the blocks. -/
theorem setBlocks (h : Refines wide s A) (blocks : Heap (List Byte)) (log : List MemEvent) :
    Refines wide { s with blocks := blocks, log := log } A where
  inv := ⟨h.inv.list, h.inv.info, h.inv.ptr_ne, h.inv.type_ne, h.inv.registered⟩
  ptrs := h.ptrs
  types := h.types

end Refines

theorem Registry.setPtr_setPtr (A : Registry) (p : Addr) (e e' : Option Tracked) :
    (A.setPtr p e).setPtr p e' = A.setPtr p e' := by
  simp [Registry.setPtr]

theorem Registry.setPtr_self (A : Registry) {p : Addr} {e : Option Tracked} (h : A.ptrs p = e) :
    A.setPtr p e = A := by
  subst h
  simp [Registry.setPtr]

theorem refines_memInit : Refines wide memInit Registry.empty where
  inv := tableInv_memInit wide
  ptrs p e := ⟨fun h => by simp [Registry.empty] at h,
    fun ⟨x, hx, _⟩ => absurd hx (HashTable.hasEntry_empty x)⟩
  types type k := ⟨fun h => by simp [Registry.empty] at h,
    fun ⟨x, hx, _⟩ => absurd hx (HashTable.hasEntry_empty x)⟩

/-! ## One call -/

theorem memTrack_refines (h : Refines wide s A) (type size : BitVec 32) (bytes : ℕ)
    {node blk : Addr} (hnode : s.list.cells.get node = none)
    (hblk : ∀ x, s.list.HasEntry x → x.2.pPtr ≠ blk) :
    ∃ r s', memTrack wide s type size bytes node blk = some (r, s') ∧
      Refines wide s' (A.track node blk ⟨size, false, type⟩) := by
  rcases memTrack_cases h.inv type size bytes hnode hblk with
    ⟨hrun, hfail⟩ | ⟨i, list, hrun, hinv, hn, hb, hi, hit, hentry⟩
  · refine ⟨_, _, hrun, ?_⟩
    rw [Registry.track, if_neg]
    · exact h
    · rintro ⟨hn, hb, hty⟩
      rcases hfail with hn0 | hb0 | hno
      · exact hn hn0
      · exact hb hb0
      · simp [(h.types_eq_none type).mpr hno] at hty
  · subst hit
    refine ⟨_, _, hrun, ?_⟩
    rw [Registry.track, if_pos ⟨hn, hb, by simp [h.types_isSome hi]⟩, ← A.setPtr_setPtr blk none]
    exact h.setPtr (x := (node, ⟨blk, size, false, i.1⟩)) (hinv _ _) ⟨i.2, hi, rfl⟩
      (fun y hy hyp => absurd hyp (hblk y hy)) fun y =>
        (hentry y).trans (or_congr_right (iff_self_and.mpr (hblk y)))

theorem memStore_refines (h : Refines wide s A) (p : Addr) (type size : BitVec 32) {node : Addr}
    (hnode : s.list.cells.get node = none) :
    ∃ r s', memStore wide s p type size node = some (r, s') ∧
      Refines wide s' (A.step (.store p type size node)) := by
  simp only [Registry.step]
  rcases memStore_cases h.inv p type size hnode with
    ⟨r, hrun, hfail⟩ | ⟨i, list, hrun, hinv, hp, hn, hno, hi, hit, hentry⟩
  · refine ⟨_, _, hrun, ?_⟩
    split_ifs with hnone
    · rw [Registry.track, if_neg]
      · exact h
      · rintro ⟨hn, hp, hty⟩
        rcases hfail with hp0 | hn0 | ⟨x, hx, hxp⟩ | hno
        · exact hp hp0
        · exact hn hn0
        · exact (h.ptrs_eq_none p).mp hnone x hx hxp
        · simp [(h.types_eq_none type).mpr hno] at hty
    · exact h
  · subst hit
    refine ⟨_, _, hrun, ?_⟩
    rw [if_pos ((h.ptrs_eq_none p).mpr hno), Registry.track,
      if_pos ⟨hn, hp, by simp [h.types_isSome hi]⟩, ← A.setPtr_setPtr p none]
    exact h.setPtr (x := (node, ⟨p, size, true, i.1⟩)) (hinv _ _) ⟨i.2, hi, rfl⟩
      (fun y hy hyp => absurd hyp (hno y hy)) fun y =>
        (hentry y).trans (or_congr_right (iff_self_and.mpr (hno y)))

theorem memRealloc_refines (h : Refines wide s A) (p : Addr) (newSize : BitVec 32) {r : Realloc}
    (hr : (Op.realloc p newSize r).Fresh s) :
    ∃ q s', memRealloc wide s p newSize r = some (q, s') ∧
      Refines wide s' (A.step (.realloc p newSize r)) := by
  have hq : ∀ q junk, r = .moved q junk →
      q ≠ 0 ∧ (q = p ∨ ∀ x, s.list.HasEntry x → x.2.pPtr ≠ q) := by
    rintro q junk rfl
    exact hr
  rcases memRealloc_cases h.inv p newSize hq with
    ⟨hrun, hfail⟩ | ⟨hrun, rfl, -⟩ | ⟨e, q, junk, list, rfl, he, rfl, hst, hrun, hinv, hentry⟩
  · refine ⟨_, _, hrun, ?_⟩
    cases r with
    | failed => exact h
    | freed => exact h
    | moved q junk =>
      simp only [Registry.step]
      rcases hfail with hno | ⟨x, hx, rfl, hst | hst⟩
      · rw [(h.ptrs_eq_none p).mpr hno]
        exact h
      · obtain ⟨type, -, hA⟩ := h.ptrs_of_hasEntry hx
        rw [hA, hst]
        exact h
      · simp at hst
  · exact ⟨_, _, hrun, h.setBlocks _ _⟩
  · refine ⟨_, _, hrun, ?_⟩
    obtain ⟨type, hty, hA⟩ := h.ptrs_of_hasEntry he
    simp only [Registry.step, hA, hst]
    have hnew : ∀ y, s.list.HasEntry y → y.2.pPtr = q → y.2.pPtr = e.2.pPtr := fun y hy hyp =>
      (hq q junk rfl).2.elim hyp.trans fun hno => absurd hyp (hno y hy)
    have hrep := fun blocks => h.setPtr (x := (e.1, { e.2 with pPtr := q, size := newSize }))
      (hinv blocks s.log) hty hnew hentry
    simp only [hst] at hrep
    exact hrep _

theorem memFree_refines (h : Refines wide s A) (p : Addr) :
    ∃ s', memFree wide s p = some s' ∧ Refines wide s' (A.setPtr p none) := by
  rcases memFree_cases h.inv p with
    ⟨hrun, hno⟩ | ⟨e, i, list, hrun, hinv, he, rfl, hi, hentry, -⟩
  · exact ⟨s, hrun, (A.setPtr_self ((h.ptrs_eq_none p).mpr hno)).symm ▸ h⟩
  · refine ⟨_, hrun, hinv _ _, fun q e' => ?_, h.types⟩
    simp only [Registry.setPtr]
    by_cases hq : q = e.2.pPtr
    · subst hq
      rw [Function.update_self]
      refine ⟨fun h => by simp at h, ?_⟩
      rintro ⟨x, hx, hxp, -⟩
      exact absurd hxp ((hentry x).mp hx).2
    · rw [Function.update_of_ne hq, h.ptrs]
      constructor
      · rintro ⟨x, hx, rfl, hrest⟩
        exact ⟨x, (hentry x).mpr ⟨hx, hq⟩, rfl, hrest⟩
      · rintro ⟨x, hx, hrest⟩
        exact ⟨x, ((hentry x).mp hx).1, hrest⟩

theorem memAddType_refines (h : Refines wide s A) (type : BitVec 32) (name : List Byte)
    {node : Addr} (hnode : s.info.cells.get node = none) :
    ∃ r s', memAddType wide s type name node = some (r, s') ∧
      Refines wide s' (A.step (.addType type name node)) := by
  simp only [Registry.step]
  rcases memAddType_cases h.inv type name hnode with
    ⟨r, hrun, hfail⟩ | ⟨info, hrun, hinv, ht, hn, hno, hentry⟩
  · refine ⟨_, _, hrun, ?_⟩
    rw [if_neg]
    · exact h
    · rintro ⟨ht, hn, hnone⟩
      rcases hfail with ht0 | hn0 | ⟨x, hx, hxt⟩
      · exact ht ht0
      · exact hn hn0
      · exact (h.types_eq_none type).mp hnone x hx hxt
  · refine ⟨_, _, hrun, ?_⟩
    rw [if_pos ⟨ht, hn, (h.types_eq_none type).mpr hno⟩]
    refine h.setInfo hinv ?_ fun t k => ?_
    · rintro x hx t ⟨i, hi, hit⟩
      exact ⟨i, (hentry _).mpr (Or.inr hi), hit⟩
    · by_cases htt : t = type
      · subst htt
        rw [Function.update_self, Option.some.injEq]
        constructor
        · rintro rfl
          exact ⟨_, (hentry _).mpr (Or.inl rfl), rfl, rfl, rfl⟩
        · rintro ⟨x, hx, hxt, hname, hcb⟩
          rcases (hentry x).mp hx with rfl | hx
          · cases k
            simp_all
          · exact absurd hxt (hno x hx)
      · rw [Function.update_of_ne htt, h.types]
        constructor
        · rintro ⟨x, hx, hrest⟩
          exact ⟨x, (hentry x).mpr (Or.inr hx), hrest⟩
        · rintro ⟨x, hx, rfl, hrest⟩
          rcases (hentry x).mp hx with rfl | hx
          · exact absurd rfl htt
          · exact ⟨x, hx, rfl, hrest⟩

theorem memDelType_refines (h : Refines wide s A) (type : BitVec 32) :
    ∃ r s', memDelType wide s type = some (r, s') ∧ Refines wide s' (A.step (.delType type)) := by
  simp only [Registry.step]
  rcases memDelType_cases h.inv type with
    ⟨r, hrun, hfail⟩ | ⟨info, hrun, hinv, hfree, hentry, -⟩
  · refine ⟨_, _, hrun, ?_⟩
    split_ifs with huse
    · exact h
    · have hno := hfail.resolve_right fun hin => huse ((h.inUse_iff type).mpr hin)
      have : A.setType type none = A := by
        rw [Registry.setType, ← (h.types_eq_none type).mpr hno, Function.update_eq_self]
      exact this.symm ▸ h
  · refine ⟨_, _, hrun, ?_⟩
    rw [if_neg fun huse => ((h.inUse_iff type).mp huse).elim fun x hx => hfree x hx.1 hx.2]
    refine h.setInfo hinv ?_ fun t k => ?_
    · rintro x hx t ⟨i, hi, rfl⟩
      exact ⟨i, (hentry _).mpr ⟨hi, fun hit => hfree x hx ⟨i, hi, hit⟩⟩, rfl⟩
    · by_cases htt : t = type
      · subst htt
        rw [Function.update_self]
        refine ⟨fun h => by simp at h, ?_⟩
        rintro ⟨x, hx, hxt, -⟩
        exact absurd hxt ((hentry x).mp hx).2
      · rw [Function.update_of_ne htt, h.types]
        constructor
        · rintro ⟨x, hx, rfl, hrest⟩
          exact ⟨x, (hentry x).mpr ⟨hx, htt⟩, rfl, hrest⟩
        · rintro ⟨x, hx, hrest⟩
          exact ⟨x, ((hentry x).mp hx).1, hrest⟩

theorem memCbFree_refines (h : Refines wide s A) (type : BitVec 32) (handler : Option Callback) :
    ∃ s', memCbFree wide s type handler = some s' ∧
      Refines wide s' (A.step (.cbFree type handler)) := by
  simp only [Registry.step]
  rcases memCbFree_cases h.inv type handler with
    ⟨hrun, hno⟩ | ⟨x, info, hrun, hinv, hx, rfl, hentry⟩
  · refine ⟨s, hrun, ?_⟩
    have : A.setType type ((A.types type).map fun k => { k with cbFree := handler }) = A := by
      rw [Registry.setType, (h.types_eq_none type).mpr hno, Option.map_none,
        ← (h.types_eq_none type).mpr hno, Function.update_eq_self]
    exact this.symm ▸ h
  · refine ⟨_, hrun, h.setInfo hinv ?_ fun t k => ?_⟩
    · rintro y hy t ⟨i, hi, hit⟩
      by_cases hyx : y.2.pInfo = x.1
      · exact ⟨{ i with cbFree := handler }, (hentry _).mpr ⟨_, hi, by simp [hyx]⟩, hit⟩
      · exact ⟨i, (hentry _).mpr ⟨_, hi, by simp [hyx]⟩, hit⟩
    · by_cases htt : t = x.2.type
      · subst htt
        rw [Function.update_self, h.types_isSome hx, Option.map_some, Option.some.injEq]
        constructor
        · rintro rfl
          exact ⟨(x.1, { x.2 with cbFree := handler }), (hentry _).mpr ⟨x, hx, by simp⟩, rfl, rfl,
            rfl⟩
        · rintro ⟨y, hy, hyt, hname, hcb⟩
          obtain ⟨z, hz, rfl⟩ := (hentry y).mp hy
          have hzx : z = x := h.inv.info.eq_of_key hz hx (by rw [← hyt]; split_ifs <;> rfl)
          subst hzx
          cases k
          simp_all
      · rw [Function.update_of_ne htt, h.types]
        have hne : ∀ z, s.info.HasEntry z → z.2.type = t → z.1 ≠ x.1 := fun z hz hzt hzx =>
          htt (hzt ▸ congrArg (fun w => w.2.type) (h.inv.info.eq_of_addr hz hx hzx))
        constructor
        · rintro ⟨z, hz, hzt, hrest⟩
          exact ⟨z, (hentry z).mpr ⟨z, hz, by rw [if_neg (hne z hz hzt)]⟩, hzt, hrest⟩
        · rintro ⟨y, hy, hyt, hrest⟩
          obtain ⟨z, hz, rfl⟩ := (hentry y).mp hy
          have hzx := hne z hz (by rw [← hyt]; split_ifs <;> rfl)
          rw [if_neg hzx] at hyt hrest
          exact ⟨z, hz, hyt, hrest⟩

theorem memFreeAll_refines (h : Refines wide s A) (type : BitVec 32) :
    ∃ s', memFreeAll wide s type = some s' ∧ Refines wide s' (A.step (.freeAll type)) := by
  obtain ⟨s', hrun, hinv, -, hlist, hinfo⟩ := memFreeAll_spec (P := fun _ => True)
    (fun _ _ _ _ _ _ => trivial) (fun _ _ _ _ _ _ _ => trivial) h.inv trivial type
  refine ⟨s', hrun, ?_⟩
  simp only [Registry.step]
  split_ifs with ht
  · refine ⟨hinv, fun p e => ⟨fun h => by simp [Registry.empty] at h, ?_⟩,
      fun t k => ⟨fun h => by simp [Registry.empty] at h, ?_⟩⟩
    · rintro ⟨x, hx, -⟩
      exact absurd ht ((hlist x).mp hx).2.1
    · rintro ⟨x, hx, -⟩
      exact absurd ht ((hinfo x).mp hx).2
  · have hinfo' : ∀ x, s'.info.HasEntry x ↔ s.info.HasEntry x :=
      fun x => (hinfo x).trans (and_iff_left ht)
    have hty : ∀ e t, s'.OfType e t ↔ s.OfType e t := fun e t =>
      exists_congr fun i => and_congr_left fun _ => hinfo' _
    refine ⟨hinv, fun p e => ?_, fun t k => ?_⟩
    · rw [Option.filter_eq_some_iff, h.ptrs]
      constructor
      · rintro ⟨⟨x, hx, hp, hsize, hst, hxt⟩, he⟩
        refine ⟨x, (hlist x).mpr ⟨hx, ht, fun hxt' => ?_⟩, hp, hsize, hst, (hty _ _).mpr hxt⟩
        simp [h.inv.ofType_unique hxt hxt'] at he
      · rintro ⟨x, hx, hp, hsize, hst, hxt⟩
        obtain ⟨hx, -, hno⟩ := (hlist x).mp hx
        have hxt := (hty _ _).mp hxt
        refine ⟨⟨x, hx, hp, hsize, hst, hxt⟩, ?_⟩
        simpa using fun he : e.type = type => hno (he ▸ hxt)
    · rw [h.types]
      exact exists_congr fun x => and_congr_left fun _ => (hinfo' x).symm

/-- Every call acts on the tables as it does on the registry. -/
theorem step_refines (h : Refines wide s A) {op : Op} (hop : op.Fresh s) :
    ∃ s', step wide s op = some s' ∧ Refines wide s' (A.step op) := by
  have hmap : ∀ {α : Type} {o : Option (α × MemState)} {B : Registry},
      (∃ r s', o = some (r, s') ∧ Refines wide s' B) →
      ∃ s', o.map Prod.snd = some s' ∧ Refines wide s' B := by
    rintro α o B ⟨r, s', rfl, hs'⟩
    exact ⟨s', rfl, hs'⟩
  cases op with
  | addType type name node => exact hmap (memAddType_refines h type name hop)
  | delType type => exact hmap (memDelType_refines h type)
  | alloc type size node blk => exact hmap (memTrack_refines h type size _ hop.1 hop.2)
  | calloc type members size node blk => exact hmap (memTrack_refines h type size _ hop.1 hop.2)
  | realloc p newSize r => exact hmap (memRealloc_refines h p newSize hop)
  | store p type size node => exact hmap (memStore_refines h p type size hop)
  | free p => exact memFree_refines h p
  | freeAll type => exact memFreeAll_refines h type
  | cbFree type handler => exact memCbFree_refines h type handler
  | write p bytes =>
    refine ⟨fill s p bytes, rfl, ?_⟩
    unfold fill
    split
    · exact h
    · split_ifs
      · exact h.setBlocks _ s.log
      · exact h

/-! ## Runs -/

/-- Every sequence of calls acts on the tables as it does on the registry. -/
theorem run_refines (h : Refines wide s A) {ops : List Op} (hops : AllFresh wide s ops) :
    ∃ s', run wide s ops = some s' ∧ Refines wide s' (ops.foldl Registry.step A) := by
  induction ops generalizing s A with
  | nil => exact ⟨s, rfl, h⟩
  | cons op ops ih =>
    obtain ⟨s₁, hstep, h₁⟩ := step_refines h hops.1
    obtain ⟨s₂, hrun, h₂⟩ := ih h₁ (hops.2 s₁ hstep)
    refine ⟨s₂, ?_, h₂⟩
    rw [run, List.foldlM_cons, hstep]
    exact hrun

/-- After any sequence of calls from `mem_init`, whatever the allocator does:
    every chain is finite and acyclic and holds the entries of its bucket, no
    pointer and no type occurs twice, type 0 is not registered, every `p_info` is
    registered, and the searches find what the registry holds. -/
theorem memTables_reachable {ops : List Op} (hops : AllFresh wide memInit ops) :
    ∃ s, run wide memInit ops = some s ∧
      (∀ i, ∃ l, IsChain s.list.cells (s.list.head i) l ∧ (l.map Prod.fst).Nodup ∧
        ∀ x ∈ l, hashPtr wide x.2.pPtr = i) ∧
      (∀ i, ∃ l, IsChain s.info.cells (s.info.head i) l ∧ (l.map Prod.fst).Nodup ∧
        ∀ x ∈ l, hashType wide x.2.type = i) ∧
      (∀ x y, s.list.HasEntry x → s.list.HasEntry y → x.2.pPtr = y.2.pPtr → x = y) ∧
      (∀ x y, s.info.HasEntry x → s.info.HasEntry y → x.2.type = y.2.type → x = y) ∧
      (∀ x, s.info.HasEntry x → x.2.type ≠ 0) ∧
      (∀ x, s.list.HasEntry x → ∃ i, s.info.HasEntry (x.2.pInfo, i)) ∧
      (∀ p, ∃ r, memFindPtr wide s p = some r ∧
        (r.isSome ↔ ((Registry.after ops).ptrs p).isSome) ∧
        ∀ x, r = some x → s.list.HasEntry x ∧ x.2.pPtr = p) ∧
      ∀ type, ∃ r, memFindType wide s type = some r ∧
        (r.isSome ↔ ((Registry.after ops).types type).isSome) ∧
        ∀ x, r = some x → s.info.HasEntry x ∧ x.2.type = type := by
  obtain ⟨s, hrun, h⟩ := run_refines refines_memInit hops
  have hinv := h.inv
  refine ⟨s, hrun, fun i => ?_, fun i => ?_, fun x y => hinv.list.eq_of_key,
    fun x y => hinv.info.eq_of_key, hinv.type_ne, hinv.registered, fun p => ?_, fun type => ?_⟩
  · obtain ⟨l, hc, hnd⟩ := hinv.list.acyclic i
    exact ⟨l, hc, hnd, fun x hx => hinv.list.bucket hc hx⟩
  · obtain ⟨l, hc, hnd⟩ := hinv.info.acyclic i
    exact ⟨l, hc, hnd, fun x hx => hinv.info.bucket hc hx⟩
  · rcases hinv.findPtr p with ⟨x, hfind, hx, hxp⟩ | ⟨hfind, hno⟩
    · obtain ⟨type, -, hA⟩ := h.ptrs_of_hasEntry hx
      refine ⟨some x, hfind, ?_, ?_⟩
      · rw [← hxp, Registry.after, hA]
        simp
      · rintro y ⟨⟩
        exact ⟨hx, hxp⟩
    · exact ⟨none, hfind, by simp [Registry.after, (h.ptrs_eq_none p).mpr hno], by simp⟩
  · rcases hinv.findType type with ⟨x, hfind, hx, hxt⟩ | ⟨hfind, hno⟩
    · refine ⟨some x, hfind, ?_, ?_⟩
      · rw [← hxt, Registry.after, h.types_isSome hx]
        simp
      · rintro y ⟨⟩
        exact ⟨hx, hxt⟩
    · exact ⟨none, hfind, by simp [Registry.after, (h.types_eq_none type).mpr hno], by simp⟩

/-- What x86 computes for `b >> i` with `i ≥ 32`: the count is taken modulo 32. -/
def wideX86 (b : Byte) (i : ℕ) : BitVec 32 := BitVec.ofNat 32 (b.toNat >>> (i % 32))

/-- `mem_add_type` does not touch the pointers. -/
theorem step_addType_list (h : TableInv wide s) {type : BitVec 32} {name : List Byte} {node : Addr}
    (hnode : s.info.cells.get node = none)
    (hrun : step wide s (.addType type name node) = some s') : s'.list = s.list := by
  rcases memAddType_cases h type name hnode with ⟨r, hrun', -⟩ | ⟨info, hrun', -⟩
  all_goals
    simp only [step, hrun', Option.map_some, Option.some.injEq] at hrun
    rw [← hrun]

/-- After the first type has been added, any node and any block are new. -/
theorem allFresh_addType {type : BitVec 32} {name : List Byte} {node node' blk : Addr} {op : Op}
    {ops : List Op} (hop : ∀ s, op.Fresh s ↔
      s.list.cells.get node' = none ∧ ∀ x, s.list.HasEntry x → x.2.pPtr ≠ blk)
    (hops : ∀ s, AllFresh wide s ops) :
    AllFresh wide memInit (.addType type name node :: op :: ops) := by
  refine ⟨rfl, fun s₁ h₁ => ⟨(hop s₁).mpr ?_, fun s₂ _ => hops s₂⟩⟩
  rw [step_addType_list (tableInv_memInit wide) rfl h₁]
  exact ⟨rfl, fun x hx => absurd hx (HashTable.hasEntry_empty x)⟩

/-- One type, one block of four bytes, released again. -/
theorem memTables_reachable_one :
    ∃ s, run wideX86 memInit [.addType 1 [97] 16, .alloc 1 4 32 48, .free 48] = some s ∧
      ∀ x, s.info.HasEntry x → x.2.type ≠ 0 := by
  have hfresh : AllFresh wideX86 memInit [.addType 1 [97] 16, .alloc 1 4 32 48, .free 48] :=
    allFresh_addType (fun _ => Iff.rfl) fun _ => ⟨trivial, fun _ _ => trivial⟩
  obtain ⟨s, hrun, -, -, -, -, hne, -⟩ := memTables_reachable hfresh
  exact ⟨s, hrun, hne⟩

end CompatSuva.Mem
