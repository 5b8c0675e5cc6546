import CompatSuva.Mem.Refinement

/-!
# Allocations that find unused memory

The functions of `mem.c` take the results of their `malloc` calls as arguments.
Here a `malloc` that succeeds is a function of the state, with a proof that the
address is not null and not in use (`Malloc`), so that a run of any length can be
given the outcomes of its allocations beforehand.

* `allocWith`, `addTypeWith`: `mem_alloc` and `mem_add_type` with such outcomes;
* `allocWith_refines`, `addTypeWith_refines`: what they do to the registry;
* `tracked_iff`: `mem_find_ptr` finds the pointers that are tracked.
-/

namespace CompatSuva.Mem

open CompatSuva.Common

/-- No table cell lies at `a`, and no tracked block starts there. -/
def Unused (s : MemState) (a : Addr) : Prop :=
  s.list.cells.get a = none ∧ s.info.cells.get a = none ∧
    ∀ x, s.list.HasEntry x → x.2.pPtr ≠ a

/-- What a `malloc` that succeeds returns, whatever the tables then hold. -/
structure Malloc where
  addr : MemState → Addr
  ne_zero : ∀ s, addr s ≠ 0
  unused : ∀ s, Unused s (addr s)

variable (wide : Byte → ℕ → BitVec 32)

/-- `mem_alloc`, with the list entry and the block that `malloc` returns; `none`
    when one of the two calls fails. -/
def allocWith (s : MemState) (type size : BitVec 32) : Option (Malloc × Malloc) →
    Option (Addr × MemState)
  | none => memAlloc wide s type size 0 0
  | some (node, blk) => memAlloc wide s type size (node.addr s) (blk.addr s)

/-- `mem_add_type`, with what `malloc` returns. -/
def addTypeWith (s : MemState) (type : BitVec 32) (name : List Byte) :
    Option Malloc → Option (ℤ × MemState)
  | none => memAddType wide s type name 0
  | some node => memAddType wide s type name (node.addr s)

/-- `mem_find_ptr` finds the pointer. -/
def tracked (s : MemState) (p : Addr) : Bool :=
  match memFindPtr wide s p with
  | some (some _) => true
  | _ => false

variable {wide} {s s' : MemState} {A : Registry}

/-- The null pointer is not tracked. -/
theorem ptrs_zero (h : Refines wide s A) : A.ptrs 0 = none := by
  apply (h.ptrs_eq_none 0).mpr
  exact h.inv.ptr_ne

theorem tracked_iff (h : Refines wide s A) (p : Addr) :
    tracked wide s p = true ↔ (A.ptrs p).isSome := by
  unfold tracked
  rcases h.inv.findPtr p with ⟨x, hrun, hx, hp⟩ | ⟨hrun, hno⟩
  · obtain ⟨type, -, hptr⟩ := h.ptrs_of_hasEntry hx
    rw [hp] at hptr
    simp [hrun, hptr]
  · have hnone : A.ptrs p = none := (h.ptrs_eq_none p).mpr hno
    simp [hrun, hnone]

/-- `mem_alloc` returns NULL and changes nothing, or tracks a block that was not
    tracked. -/
theorem allocWith_refines (h : Refines wide s A) (type size : BitVec 32)
    (m : Option (Malloc × Malloc)) :
    (allocWith wide s type size m = some (0, s) ∧ (m = none ∨ A.types type = none)) ∨
      ∃ a s', allocWith wide s type size m = some (a, s') ∧ a ≠ 0 ∧ m ≠ none ∧
        A.ptrs a = none ∧ (A.types type).isSome ∧
        Refines wide s' (A.setPtr a (some ⟨size, false, type⟩)) := by
  cases m with
  | none =>
    refine Or.inl ⟨?_, Or.inl rfl⟩
    show memTrack wide s type size size.toNat 0 0 = some (0, s)
    unfold memTrack
    rcases h.inv.findType type with ⟨x, hrun, -⟩ | ⟨hrun, -⟩ <;> rw [hrun] <;> rfl
  | some r =>
    obtain ⟨node, blk⟩ := r
    have hnode : node.addr s ≠ 0 := node.ne_zero s
    have hblk : blk.addr s ≠ 0 := blk.ne_zero s
    obtain ⟨-, -, hfresh⟩ := blk.unused s
    obtain ⟨a, s', hrun, href⟩ :=
      memTrack_refines h type size size.toNat (node.unused s).1 hfresh
    unfold Registry.track at href
    by_cases htype : (A.types type).isSome
    · rw [if_pos ⟨hnode, hblk, htype⟩] at href
      refine Or.inr ⟨a, s', hrun, ?_⟩
      have ha : a = blk.addr s := by
        rcases memTrack_cases h.inv type size size.toNat (node.unused s).1 hfresh with
          ⟨-, hfail⟩ | ⟨i, list, hrun', -⟩
        · obtain ⟨k, hk⟩ := Option.isSome_iff_exists.mp htype
          obtain ⟨x, hx, hxt, -⟩ := (h.types type k).mp hk
          rcases hfail with h0 | h0 | h0
          · exact absurd h0 hnode
          · exact absurd h0 hblk
          · exact absurd hxt (h0 x hx)
        · rw [hrun] at hrun'
          exact (Prod.mk.inj (Option.some.inj hrun')).1
      subst ha
      exact ⟨hblk, by simp, (h.ptrs_eq_none _).mpr hfresh, htype, href⟩
    · have hnone : A.types type = none := Option.not_isSome_iff_eq_none.mp htype
      refine Or.inl ⟨?_, Or.inr hnone⟩
      have hno := (h.types_eq_none type).mp hnone
      show memTrack wide s type size size.toNat (node.addr s) (blk.addr s) = some (0, s)
      unfold memTrack
      rcases h.inv.findType type with ⟨x, -, hx, hxt⟩ | ⟨hfind, -⟩
      · exact absurd hxt (hno x hx)
      · rw [hfind]
        rfl

/-- `mem_add_type` refuses with a negative code, or registers the type. -/
theorem addTypeWith_refines (h : Refines wide s A) (type : BitVec 32) (name : List Byte)
    (m : Option Malloc) :
    (∃ r, addTypeWith wide s type name m = some (r, s) ∧ r < 0) ∨
      ∃ s', addTypeWith wide s type name m = some (memResOk, s') ∧ type ≠ 0 ∧
        A.types type = none ∧
        Refines wide s' (A.setType type (some ⟨name.take (memMaxName - 1), none⟩)) := by
  cases m with
  | none =>
    refine Or.inl ?_
    show ∃ r, memAddType wide s type name 0 = some (r, s) ∧ r < 0
    unfold memAddType
    rcases h.inv.findType type with ⟨x, hrun, -⟩ | ⟨hrun, -⟩
    all_goals
      rw [hrun]
      simp only [Option.bind_eq_bind, Option.bind_some]
      split_ifs <;> exact ⟨_, rfl, by decide⟩
  | some node =>
    have hnode : node.addr s ≠ 0 := node.ne_zero s
    obtain ⟨-, hfresh, -⟩ := node.unused s
    obtain ⟨r, s', hrun, href⟩ := memAddType_refines h type name hfresh
    unfold Registry.step at href
    by_cases hnew : type ≠ 0 ∧ A.types type = none
    · simp only [if_pos (show type ≠ 0 ∧ node.addr s ≠ 0 ∧ A.types type = none from
        ⟨hnew.1, hnode, hnew.2⟩)] at href
      have hok : memAddType wide s type name (node.addr s) = some (memResOk, s') := by
        rcases memAddType_cases h.inv type name hfresh with ⟨-, -, hfail⟩ | ⟨info, hrun', -⟩
        · have hno := (h.types_eq_none type).mp hnew.2
          rcases hfail with h0 | h0 | ⟨x, hx, hxt⟩
          · exact absurd h0 hnew.1
          · exact absurd h0 hnode
          · exact absurd hxt (hno x hx)
        · rw [hrun] at hrun'
          rw [hrun, (Prod.mk.inj (Option.some.inj hrun')).1]
      exact Or.inr ⟨s', hok, hnew.1, hnew.2, href⟩
    · refine Or.inl ?_
      show ∃ r, memAddType wide s type name (node.addr s) = some (r, s) ∧ r < 0
      unfold memAddType
      rcases h.inv.findType type with ⟨x, hfind, hx, hxt⟩ | ⟨hfind, hno⟩
      · rw [hfind]
        simp only [Option.bind_eq_bind, Option.bind_some, Option.isSome_some, if_true]
        split_ifs <;> exact ⟨_, rfl, by decide⟩
      · have hzero : type = 0 := by
          by_contra hne
          exact hnew ⟨hne, (h.types_eq_none type).mpr hno⟩
        rw [hfind]
        simp only [Option.bind_eq_bind, Option.bind_some, if_pos hzero]
        exact ⟨_, rfl, by decide⟩

/-! ## A concrete allocator -/

/-- The largest of some addresses. -/
def maxAddr (l : List Addr) : Addr := l.foldr max 0

theorem le_maxAddr {l : List Addr} {a : Addr} (h : a ∈ l) : a ≤ maxAddr l := by
  induction l with
  | nil => simp at h
  | cons b l ih =>
    show a ≤ max b (maxAddr l)
    rcases List.mem_cons.mp h with rfl | h
    · exact le_max_left _ _
    · exact (ih h).trans (le_max_right _ _)

/-- The addresses in use: the cells of both tables and the tracked blocks. -/
def usedAddrs (s : MemState) : List Addr :=
  s.list.cells.cells.keys ++ s.info.cells.cells.keys ++
    s.list.cells.cells.keys.filterMap fun a => (s.list.cells.get a).map fun c => c.data.pPtr

theorem mem_keys_of_get {α : Type} {h : Heap α} {a : Addr} (hne : h.get a ≠ none) :
    a ∈ h.cells.keys := by
  have hsome : (AList.lookup a h.cells).isSome := Option.isSome_iff_ne_none.mpr hne
  exact AList.mem_keys.mp (AList.lookup_isSome.mp hsome)

/-- Nothing in use lies above `maxAddr`. -/
theorem unused_above (s : MemState) {a : Addr} (h : ∀ b ∈ usedAddrs s, b < a) : Unused s a := by
  refine ⟨?_, ?_, ?_⟩
  · by_contra hne
    apply lt_irrefl a
    apply h
    exact List.mem_append_left _ (List.mem_append_left _ (mem_keys_of_get hne))
  · by_contra hne
    apply lt_irrefl a
    apply h
    exact List.mem_append_left _ (List.mem_append_right _ (mem_keys_of_get hne))
  · intro x hx
    obtain ⟨-, q, hq⟩ := hx.get
    have hmem : x.1 ∈ s.list.cells.cells.keys := mem_keys_of_get (by simp [hq])
    apply ne_of_lt
    apply h
    apply List.mem_append_right
    exact List.mem_filterMap.mpr ⟨x.1, hmem, by simp [hq]⟩

/-- Memory `k + 1` addresses above everything in use. -/
def Malloc.above (k : ℕ) : Malloc where
  addr s := maxAddr (usedAddrs s) + (k + 1)
  ne_zero _ := Nat.succ_ne_zero _
  unused s := unused_above s fun _ hb =>
    Nat.lt_of_le_of_lt (le_maxAddr hb) (Nat.lt_add_of_pos_right (Nat.succ_pos k))

end CompatSuva.Mem
