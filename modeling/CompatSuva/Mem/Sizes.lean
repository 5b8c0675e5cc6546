import CompatSuva.Mem.Refinement

/-!
# Size accounting

The size recorded of a pointer is what three later calls rely on: the total of
`mem_get_size`, the wipe of `mem_free` and the zero-fill of `mem_realloc`.
`SizesOk s` says that they may: the recorded size of every block is its length.

It holds in every state of a run exactly as long as two things do not happen:

* `mem_calloc` tracks an array of `members * size ≠ size` bytes (it records
  `size`);
* `realloc` frees a block on `mem_realloc(p, 0)`, returning NULL (the entry stays,
  with its old size).

`sizesOk_iff` is this equivalence; `calloc_records_size` is a run on which the
wipe is incomplete.
-/

namespace CompatSuva.Mem

open CompatSuva.Common

variable (wide : Byte → ℕ → BitVec 32)

/-! ## What the recorded sizes are for -/

/-- The bytes an entry stands for: those of its block, or those its owner has
    said a stored pointer has. -/
def MemState.extent (s : MemState) (e : MemList) : ℕ :=
  if e.stored then e.size.toNat else ((s.blocks.get e.pPtr).getD []).length

/-- The recorded size of every block is its length; so `mem_get_size` is the sum
    of the lengths, and `mem_free` clears whole blocks, as it has always done. -/
structure SizesOk (s : MemState) : Prop where
  size : ∀ x, s.list.HasEntry x → x.2.stored = false →
    ∃ bytes, s.blocks.get x.2.pPtr = some bytes ∧ bytes.length = x.2.size.toNat
  total : ∀ type, ∃ l : List (Addr × MemList), l.Nodup ∧
    (∀ x, x ∈ l ↔ s.list.HasEntry x ∧ s.OfType x.2 type) ∧
    memGetSize s type = some (BitVec.ofNat 32 (l.map fun x => s.extent x.2).sum)
  wiped : ∀ x, s.list.HasEntry x → x.2.stored = false →
    ∃ bytes s', s.blocks.get x.2.pPtr = some bytes ∧ memFree wide s x.2.pPtr = some s' ∧
      s'.log = s.log ++ [.released x.2.pPtr (List.replicate bytes.length 0)]
  log : ∀ ev ∈ s.log, ∃ p k, ev = .released p (List.replicate k 0)

/-- The call does not make a recorded size wrong: a `mem_calloc` that tracks an
    array has `members * size = size`, and no `realloc` of a tracked block frees
    it. -/
def Op.Sized (s : MemState) : Op → Prop
  | .calloc type members size node blk =>
    members.toNat * size.toNat = size.toNat ∨ node = 0 ∨ blk = 0 ∨
      ∀ x, s.info.HasEntry x → x.2.type ≠ type
  | .realloc p _ .freed => ∀ x, s.list.HasEntry x → x.2.pPtr = p → x.2.stored = true
  | _ => True

/-- `P` in every state the sequence of calls goes through. -/
def Along (P : MemState → Prop) : MemState → List Op → Prop
  | s, [] => P s
  | s, op :: ops => P s ∧ ∀ s', step wide s op = some s' → Along P s' ops

variable {wide} {s s' : MemState}

/-! ## The invariant -/

/-- The recorded size of every block is its length. -/
def Sizes (s : MemState) : Prop :=
  ∀ x, s.list.HasEntry x → x.2.stored = false →
    ∃ bytes, s.blocks.get x.2.pPtr = some bytes ∧ bytes.length = x.2.size.toNat

/-- Recorded sizes are right, no callback is set, and only zeros were released. -/
structure SizeInv (s : MemState) : Prop where
  size : Sizes s
  noCallback : ∀ i, s.info.HasEntry i → i.2.cbFree = none
  log : ∀ ev ∈ s.log, ∃ p k, ev = MemEvent.released p (List.replicate k 0)

theorem sizeInv_memInit : SizeInv memInit where
  size x hx := absurd hx (HashTable.hasEntry_empty x)
  noCallback x hx := absurd hx (HashTable.hasEntry_empty x)
  log ev hev := by simp [memInit] at hev

theorem cleared_of_length (bytes : List Byte) :
    cleared bytes.length bytes = List.replicate bytes.length 0 := by
  simp [cleared]

/-- Disposing of an entry whose recorded size is right. -/
theorem SizeInv.dispose (h : SizeInv s) {x : Addr × MemList} (hx : s.list.HasEntry x)
    {i : MemInfo} (hi : i.cbFree = none) :
    (x.2.stored = true ∧ dispose s x.2.pPtr x.2 i = s) ∨
      (x.2.stored = false ∧ ∃ bytes, s.blocks.get x.2.pPtr = some bytes ∧
        dispose s x.2.pPtr x.2 i = { s with
          blocks := s.blocks.free x.2.pPtr
          log := s.log ++ [.released x.2.pPtr (List.replicate bytes.length 0)] }) := by
  cases hst : x.2.stored with
  | true => exact Or.inl ⟨rfl, by simp [Mem.dispose, hi, hst]⟩
  | false =>
    obtain ⟨bytes, hb, hlen⟩ := h.size x hx hst
    refine Or.inr ⟨rfl, bytes, hb, ?_⟩
    simp [Mem.dispose, hi, hst, release, hb, ← hlen, cleared_of_length]

theorem memFree_sizeInv (hinv : TableInv wide s) (h : SizeInv s) {p : Addr}
    (hrun : memFree wide s p = some s') : SizeInv s' := by
  rcases memFree_cases hinv p with ⟨hrun', -⟩ | ⟨e, i, list, hrun', -, he, rfl, hi, hentry, -⟩
  · exact Option.some.inj (hrun'.symm.trans hrun) ▸ h
  · obtain rfl := Option.some.inj (hrun'.symm.trans hrun)
    rcases h.dispose he (h.noCallback _ hi) with ⟨hst, hd⟩ | ⟨hst, bytes, hb, hd⟩
    · rw [hd]
      exact ⟨fun x hx => h.size x ((hentry x).mp hx).1, h.noCallback, h.log⟩
    · rw [hd]
      refine ⟨fun x hx hxs => ?_, h.noCallback, fun ev hev => ?_⟩
      · obtain ⟨hx, hxp⟩ := (hentry x).mp hx
        simp only [Heap.get_free_ne _ hxp]
        exact h.size x hx hxs
      · rcases List.mem_append.mp hev with hev | hev
        · exact h.log ev hev
        · exact ⟨_, _, List.mem_singleton.mp hev⟩

theorem memDelType_sizeInv (hinv : TableInv wide s) (h : SizeInv s) {type : BitVec 32} {r : ℤ}
    (hrun : memDelType wide s type = some (r, s')) : SizeInv s' := by
  rcases memDelType_cases hinv type with ⟨r', hrun', -⟩ | ⟨info, hrun', -, -, hentry, -⟩
  · obtain ⟨-, rfl⟩ := Prod.mk.inj (Option.some.inj (hrun'.symm.trans hrun))
    exact h
  · obtain ⟨-, rfl⟩ := Prod.mk.inj (Option.some.inj (hrun'.symm.trans hrun))
    exact ⟨h.size, fun i hi => h.noCallback i ((hentry i).mp hi).1, h.log⟩

theorem memAddType_sizeInv (hinv : TableInv wide s) (h : SizeInv s) {type : BitVec 32}
    {name : List Byte} {node : Addr} (hnode : s.info.cells.get node = none) {r : ℤ}
    (hrun : memAddType wide s type name node = some (r, s')) : SizeInv s' := by
  rcases memAddType_cases hinv type name hnode with
    ⟨r', hrun', -⟩ | ⟨info, hrun', -, -, -, -, hentry⟩
  · obtain ⟨-, rfl⟩ := Prod.mk.inj (Option.some.inj (hrun'.symm.trans hrun))
    exact h
  · obtain ⟨-, rfl⟩ := Prod.mk.inj (Option.some.inj (hrun'.symm.trans hrun))
    refine ⟨h.size, fun i hi => ?_, h.log⟩
    rcases (hentry i).mp hi with rfl | hi
    · rfl
    · exact h.noCallback i hi

/-- Tracking a block of the recorded size. -/
theorem memTrack_sizeInv (hinv : TableInv wide s) (h : SizeInv s) {type size : BitVec 32}
    {bytes : ℕ} {node blk : Addr} (hnode : s.list.cells.get node = none)
    (hblk : ∀ x, s.list.HasEntry x → x.2.pPtr ≠ blk)
    (hsize : bytes = size.toNat ∨ node = 0 ∨ blk = 0 ∨ ∀ x, s.info.HasEntry x → x.2.type ≠ type)
    {r : Addr} (hrun : memTrack wide s type size bytes node blk = some (r, s')) : SizeInv s' := by
  rcases memTrack_cases hinv type size bytes hnode hblk with
    ⟨hrun', -⟩ | ⟨i, list, hrun', -, hn, hb, hi, rfl, hentry⟩
  · obtain ⟨-, rfl⟩ := Prod.mk.inj (Option.some.inj (hrun'.symm.trans hrun))
    exact h
  · obtain ⟨-, rfl⟩ := Prod.mk.inj (Option.some.inj (hrun'.symm.trans hrun))
    have hlen : bytes = size.toNat :=
      hsize.resolve_right fun hfail => hfail.elim hn fun hfail => hfail.elim hb fun hno =>
        hno i hi rfl
    refine ⟨fun x hx hst => ?_, h.noCallback, h.log⟩
    rcases (hentry x).mp hx with rfl | hx
    · exact ⟨_, Heap.get_set _ _ _, by rw [List.length_replicate, hlen]⟩
    · simp only [Heap.get_set_ne _ _ (hblk x hx)]
      exact h.size x hx hst

@[simp] theorem length_reallocBytes (old : List Byte) (size newSize : BitVec 32) (junk : ℕ → Byte) :
    (reallocBytes old size newSize junk).length = newSize.toNat := by
  have hresized : (resized old junk newSize.toNat).length = newSize.toNat := by simp [resized]
  unfold reallocBytes
  split_ifs with hlt
  · simp only [zeroFrom, List.length_append, List.length_take, List.length_replicate, hresized]
    omega
  · exact hresized

/-- A `realloc` that does not free a block of the library. -/
theorem memRealloc_sizeInv (hinv : TableInv wide s) (h : SizeInv s) {p : Addr} {newSize : BitVec 32}
    {r : Realloc} (hfresh : (Op.realloc p newSize r).Fresh s)
    (hsized : (Op.realloc p newSize r).Sized s) {q : Addr}
    (hrun : memRealloc wide s p newSize r = some (q, s')) : SizeInv s' := by
  have hq : ∀ q junk, r = .moved q junk →
      q ≠ 0 ∧ (q = p ∨ ∀ x, s.list.HasEntry x → x.2.pPtr ≠ q) := by
    rintro q junk rfl
    exact hfresh
  rcases memRealloc_cases hinv p newSize hq with
    ⟨hrun', -⟩ | ⟨-, rfl, x, hx, hxp, hst⟩ | ⟨e, q, junk, list, rfl, he, rfl, hst, hrun', -, hentry⟩
  · obtain ⟨-, rfl⟩ := Prod.mk.inj (Option.some.inj (hrun'.symm.trans hrun))
    exact h
  · simp [hsized x hx hxp] at hst
  · obtain ⟨-, rfl⟩ := Prod.mk.inj (Option.some.inj (hrun'.symm.trans hrun))
    refine ⟨fun x hx hst => ?_, h.noCallback, h.log⟩
    rcases (hentry x).mp hx with rfl | ⟨hx, hxp⟩
    · exact ⟨_, Heap.get_set _ _ _, length_reallocBytes _ _ _ _⟩
    · have hxq : x.2.pPtr ≠ q := (hq q junk rfl).2.elim (fun hqe => hqe ▸ hxp) fun hno => hno x hx
      simp only [Heap.get_set_ne _ _ hxq, Heap.get_free_ne _ hxp]
      exact h.size x hx hst

/-- A block that is stored has no size to be right. -/
theorem memStore_sizeInv (hinv : TableInv wide s) (h : SizeInv s) {p : Addr} {type size : BitVec 32}
    {node : Addr} (hnode : s.list.cells.get node = none) {r : ℤ}
    (hrun : memStore wide s p type size node = some (r, s')) : SizeInv s' := by
  rcases memStore_cases hinv p type size hnode with
    ⟨r', hrun', -⟩ | ⟨i, list, hrun', -, -, -, -, -, -, hentry⟩
  · obtain ⟨-, rfl⟩ := Prod.mk.inj (Option.some.inj (hrun'.symm.trans hrun))
    exact h
  · obtain ⟨-, rfl⟩ := Prod.mk.inj (Option.some.inj (hrun'.symm.trans hrun))
    refine ⟨fun x hx hst => ?_, h.noCallback, h.log⟩
    rcases (hentry x).mp hx with rfl | hx
    · simp at hst
    · exact h.size x hx hst

/-- Writing leaves a block as long as it is. -/
theorem SizeInv.fill (h : SizeInv s) (p : Addr) (bytes : List Byte) :
    SizeInv (Mem.fill s p bytes) := by
  unfold Mem.fill
  cases hp : s.blocks.get p with
  | none => exact h
  | some old =>
    simp only
    split_ifs with hlen
    · refine ⟨fun x hx hst => ?_, h.noCallback, h.log⟩
      obtain ⟨b, hb, hbl⟩ := h.size x hx hst
      by_cases hxp : x.2.pPtr = p
      · subst hxp
        obtain rfl := Option.some.inj (hp.symm.trans hb)
        exact ⟨bytes, Heap.get_set _ _ _, hlen ▸ hbl⟩
      · exact ⟨b, by rw [Heap.get_set_ne _ _ hxp, hb], hbl⟩
    · exact h

/-- A call that is `Sized` keeps the recorded sizes right. -/
theorem step_sizeInv (hinv : TableInv wide s) (h : SizeInv s) {op : Op} (hfresh : op.Fresh s)
    (hsized : op.Sized s) (hcb : ∀ type handler, op ≠ .cbFree type handler)
    (hrun : step wide s op = some s') : SizeInv s' := by
  have hmap : ∀ {α : Type} {o : Option (α × MemState)}, o.map Prod.snd = some s' →
      ∃ r, o = some (r, s') := by
    intro α o ho
    obtain ⟨⟨r, t⟩, ht, rfl⟩ := Option.map_eq_some_iff.mp ho
    exact ⟨r, ht⟩
  cases op with
  | addType type name node =>
    obtain ⟨r, hrun⟩ := hmap hrun
    exact memAddType_sizeInv hinv h hfresh hrun
  | delType type =>
    obtain ⟨r, hrun⟩ := hmap hrun
    exact memDelType_sizeInv hinv h hrun
  | alloc type size node blk =>
    obtain ⟨r, hrun⟩ := hmap hrun
    exact memTrack_sizeInv hinv h hfresh.1 hfresh.2 (Or.inl rfl) hrun
  | calloc type members size node blk =>
    obtain ⟨r, hrun⟩ := hmap hrun
    exact memTrack_sizeInv hinv h hfresh.1 hfresh.2 hsized hrun
  | realloc p newSize r =>
    obtain ⟨q, hrun⟩ := hmap hrun
    exact memRealloc_sizeInv hinv h hfresh hsized hrun
  | store p type size node =>
    obtain ⟨r, hrun⟩ := hmap hrun
    exact memStore_sizeInv hinv h hfresh hrun
  | free p => exact memFree_sizeInv hinv h hrun
  | freeAll type =>
    obtain ⟨t, hrun', -, ht, -⟩ := memFreeAll_spec (P := SizeInv)
      (fun _ _ _ hinv h hrun => memFree_sizeInv hinv h hrun)
      (fun _ _ _ _ hinv h hrun => memDelType_sizeInv hinv h hrun) hinv h type
    exact Option.some.inj (hrun'.symm.trans hrun) ▸ ht
  | cbFree type handler => exact absurd rfl (hcb type handler)
  | write p bytes =>
    obtain rfl := Option.some.inj hrun
    exact h.fill p bytes

/-- A call that is not `Sized` makes a recorded size wrong. -/
theorem step_not_sizes (hinv : TableInv wide s) {op : Op} (hfresh : op.Fresh s)
    (hsized : ¬ op.Sized s) : ∃ s', step wide s op = some s' ∧ ¬ Sizes s' := by
  cases op with
  | calloc type members size node blk =>
    simp only [Op.Sized, not_or] at hsized
    obtain ⟨hlen, hn, hb, hty⟩ := hsized
    rcases memTrack_cases hinv type size (members.toNat * size.toNat) hfresh.1 hfresh.2 with
      ⟨-, hfail⟩ | ⟨i, list, hrun, -, -, -, -, -, hentry⟩
    · exact absurd hfail (by tauto)
    · refine ⟨_, by rw [step, memCalloc, hrun]; rfl, fun hs => ?_⟩
      obtain ⟨bytes, hbytes, hlen'⟩ := hs _ ((hentry _).mpr (Or.inl rfl)) rfl
      simp only [Heap.get_set, Option.some.injEq] at hbytes
      subst hbytes
      exact hlen (by simpa using hlen')
  | realloc p newSize r =>
    cases r with
    | failed => exact absurd trivial hsized
    | moved q junk => exact absurd trivial hsized
    | freed =>
      simp only [Op.Sized, not_forall] at hsized
      obtain ⟨x, hx, rfl, hst⟩ := hsized
      rcases memRealloc_cases hinv x.2.pPtr newSize (r := .freed) (by simp) with
        ⟨-, hno | ⟨y, hy, hyp, hbad⟩⟩ | ⟨hrun, -, -⟩ | ⟨e, q, junk, list, hr, -⟩
      · exact absurd rfl (hno x hx)
      · rw [hinv.list.eq_of_key hy hx hyp] at hbad
        simp [hst] at hbad
      · refine ⟨_, by rw [step, hrun]; rfl, fun hs => ?_⟩
        obtain ⟨bytes, hbytes, -⟩ := hs x hx (by simpa using hst)
        simp at hbytes
      · exact absurd hr (by simp)
  | _ => exact absurd trivial hsized

/-! ## What the invariant gives -/

/-- The total of `mem_get_size`, as a sum over the entries of the type. -/
theorem TableInv.memGetSize (h : TableInv wide s) (type : BitVec 32) :
    ∃ l : List (Addr × MemList), l.Nodup ∧
      (∀ x, x ∈ l ↔ s.list.HasEntry x ∧ s.OfType x.2 type) ∧
      memGetSize s type = some (BitVec.ofNat 32 (l.map fun x => x.2.size.toNat).sum) := by
  have hty : ∀ x, s.list.HasEntry x → (s.OfType x.2 type ↔
      (s.info.cells.get x.2.pInfo).map (fun i => i.data.type) = some type) := by
    intro x hx
    obtain ⟨i, hi⟩ := h.registered x hx
    obtain ⟨-, q, hq⟩ := hi.get
    rw [hq]
    exact ⟨fun ht => by simp [h.ofType_unique ht ⟨i, hi, rfl⟩],
      fun ht => ⟨i, hi, by simpa using ht⟩⟩
  obtain ⟨L, hL⟩ := h.list
  have hmem : ∀ x, x ∈ (List.finRange memHashSize).flatMap L ↔ s.list.HasEntry x := by
    intro x
    rw [hL.hasEntry_iff]
    simp
  have hfold : ∀ (l : List (Addr × MemList)) (total : BitVec 32), (∀ x ∈ l, s.list.HasEntry x) →
      l.foldlM (fun total x => (s.info.cells.get x.2.pInfo).map fun i =>
          if i.data.type = type then total + x.2.size else total) total =
        some (total + BitVec.ofNat 32 ((l.filter fun x =>
          (s.info.cells.get x.2.pInfo).map (fun i => i.data.type) = some type).map
            fun x => x.2.size.toNat).sum) := by
    intro l
    induction l with
    | nil => intro total _; simp
    | cons x l ih =>
      intro total hl
      obtain ⟨i, hi⟩ := h.registered x (hl x (by simp))
      obtain ⟨-, q, hq⟩ := hi.get
      rw [List.foldlM_cons, hq]
      simp only [Option.map_some, Option.bind_eq_bind, Option.bind_some]
      rw [ih _ fun y hy => hl y (by simp [hy])]
      by_cases hit : i.type = type
      · rw [List.filter_cons_of_pos (by simp [hq, hit])]
        simp [hit, BitVec.ofNat_add, add_assoc]
      · rw [List.filter_cons_of_neg (by simp [hq, hit])]
        simp [hit]
  refine ⟨((List.finRange memHashSize).flatMap L).filter fun x =>
    (s.info.cells.get x.2.pInfo).map (fun i => i.data.type) = some type, ?_, fun x => ?_, ?_⟩
  · refine List.Nodup.filter _ (List.nodup_flatMap.mpr ⟨fun i _ => ?_, ?_⟩)
    · exact List.Nodup.of_map _ (hL.keys i)
    · refine (List.nodup_finRange _).pairwise_of_forall_ne fun i _ j _ hij x hxi hxj => hij ?_
      rw [← hL.bucket i x hxi, hL.bucket j x hxj]
  · rw [List.mem_filter, hmem]
    exact and_congr_right fun hx => by simpa using (hty x hx).symm
  · rw [Mem.memGetSize, hL.sweep_const, hfold _ _ fun x hx => (hmem x).mp hx]
    simp

theorem sizesOk_of_sizeInv (hinv : TableInv wide s) (h : SizeInv s) : SizesOk wide s where
  size := h.size
  total type := by
    obtain ⟨l, hnd, hmem, htotal⟩ := hinv.memGetSize type
    have hextent : (l.map fun x => x.2.size.toNat) = l.map fun x => s.extent x.2 := by
      refine List.map_congr_left fun x hx => ?_
      obtain ⟨hx, -⟩ := (hmem x).mp hx
      cases hst : x.2.stored with
      | true => simp [MemState.extent, hst]
      | false =>
        obtain ⟨bytes, hb, hlen⟩ := h.size x hx hst
        simp [MemState.extent, hst, hb, hlen]
    exact ⟨l, hnd, hmem, by rw [htotal, hextent]⟩
  wiped x hx hst := by
    rcases memFree_cases hinv x.2.pPtr with ⟨-, hno⟩ | ⟨e, i, list, hrun, -, he, hep, hi, -, -⟩
    · exact absurd rfl (hno x hx)
    · obtain rfl := hinv.list.eq_of_key he hx hep
      rcases h.dispose he (h.noCallback _ hi) with ⟨hst', -⟩ | ⟨-, bytes, hb, hd⟩
      · simp [hst] at hst'
      · exact ⟨bytes, _, hb, hrun, by rw [hd]⟩
  log := h.log

/-- From a state that accounts for its sizes, the accounting stays right exactly when every call is
    `Sized`. -/
theorem along_sizesOk_iff {ops : List Op} {s : MemState} {A : Registry} (href : Refines wide s A)
    (hsize : SizeInv s) (hfresh : AllFresh wide s ops)
    (hcb : ∀ type handler, Op.cbFree type handler ∉ ops) :
    Along wide (SizesOk wide) s ops ↔ Meets wide (fun s op => op.Sized s) s ops := by
  induction ops generalizing s A with
  | nil => exact ⟨fun _ => trivial, fun _ => sizesOk_of_sizeInv href.inv hsize⟩
  | cons op ops ih =>
    obtain ⟨s', hstep, href'⟩ := step_refines href hfresh.1
    have hop : ∀ type handler, op ≠ .cbFree type handler := fun type handler heq =>
      hcb type handler (by simp [heq])
    have hrest : op.Sized s → (Along wide (SizesOk wide) s' ops ↔
        Meets wide (fun s op => op.Sized s) s' ops) := fun hsized =>
      ih href' (step_sizeInv href.inv hsize hfresh.1 hsized hop hstep) (hfresh.2 s' hstep)
        fun type handler hmem => hcb type handler (by simp [hmem])
    constructor
    · rintro ⟨-, halong⟩
      have hsized : op.Sized s := by
        by_contra hbad
        obtain ⟨t, ht, hnot⟩ := step_not_sizes href.inv hfresh.1 hbad
        have hok : SizesOk wide t := by
          cases ops with
          | nil => exact halong t ht
          | cons _ _ => exact (halong t ht).1
        exact hnot hok.size
      refine ⟨hsized, fun t ht => ?_⟩
      obtain rfl := Option.some.inj (hstep.symm.trans ht)
      exact (hrest hsized).mp (halong _ hstep)
    · rintro ⟨hsized, hmeets⟩
      refine ⟨sizesOk_of_sizeInv href.inv hsize, fun t ht => ?_⟩
      obtain rfl := Option.some.inj (hstep.symm.trans ht)
      exact (hrest hsized).mpr (hmeets _ hstep)

/-- In a run without free callbacks, the size accounting is right in every state
    reached exactly when every call is `Sized`. -/
theorem sizesOk_iff {ops : List Op} (hfresh : AllFresh wide memInit ops)
    (hcb : ∀ type handler, Op.cbFree type handler ∉ ops) :
    Along wide (SizesOk wide) memInit ops ↔ Meets wide (fun s op => op.Sized s) memInit ops :=
  along_sizesOk_iff refines_memInit sizeInv_memInit hfresh hcb

/-- An array of one element is accounted for, and its block is wiped. -/
theorem sizesOk_one : Along wideX86 (SizesOk wideX86) memInit
    [.addType 1 [97] 16, .calloc 1 1 4 32 48, .free 48] := by
  have hfresh : AllFresh wideX86 memInit [.addType 1 [97] 16, .calloc 1 1 4 32 48, .free 48] :=
    allFresh_addType (fun _ => Iff.rfl) fun _ => ⟨trivial, fun _ _ => trivial⟩
  exact (sizesOk_iff hfresh (by simp)).mpr
    ⟨trivial, fun _ _ => ⟨Or.inl rfl, fun _ _ => ⟨trivial, fun _ _ => trivial⟩⟩⟩

/-- An array of three elements of four bytes is recorded with four bytes: when
    it is freed, the last eight keep what the program wrote there. -/
theorem calloc_records_size :
    AllFresh wideX86 memInit [.addType 1 [97] 16, .calloc 1 3 4 32 48,
      .write 48 (List.replicate 12 7)] ∧
    ∃ s s', run wideX86 memInit [.addType 1 [97] 16, .calloc 1 3 4 32 48,
        .write 48 (List.replicate 12 7)] = some s ∧ ¬ SizesOk wideX86 s ∧
      memFindPtr wideX86 s 48 = some (some (32, ⟨48, 4, false, 16⟩)) ∧
      s.blocks.get 48 = some (List.replicate 12 7) ∧
      memFree wideX86 s 48 = some s' ∧
      s'.log = [.released 48 (List.replicate 4 0 ++ List.replicate 8 7)] := by
  refine ⟨allFresh_addType (fun _ => Iff.rfl) fun _ => ⟨trivial, fun _ _ => trivial⟩, _, _, rfl,
    fun hok => ?_, rfl, rfl, rfl, rfl⟩
  obtain ⟨bytes, hget, hlen⟩ := hok.size (32, ⟨48, 4, false, 16⟩)
    ⟨hashPtr wideX86 48, [_], ⟨rfl, by decide, 0, rfl, rfl⟩, List.mem_singleton.mpr rfl⟩ rfl
  obtain rfl : List.replicate 12 7 = bytes := Option.some.inj hget
  simp at hlen

end CompatSuva.Mem
