import CompatSuva.Mem.Sizes

/-!
# What `mem_free_all` releases

`Released s l s'` is an account of what happened between two states: the entries of the list
`l`, and no others, have been taken out, each was disposed of once, in that order, and nothing
else changed. One call of `mem_free` has such an account, and accounts compose.

* `Released.trans`: composition;
* `memFree_released`: the account of one call;
* `freesAll_iff`: `mem_free_all` gives every block of the type to its callback or to `free`,
  once, exactly when the blocks that `free` is to get are live and no shorter than recorded.

The callbacks here do not touch the tables.
-/

namespace CompatSuva.Mem

open CompatSuva.Common

variable (wide : Byte → ℕ → BitVec 32)

/-! ## Disposing of one entry -/

/-- The type of an entry, found by its `p_info`. -/
def MemState.kind (s : MemState) (e : MemList) : Option MemInfo :=
  (s.info.cells.get e.pInfo).map Node.data

/-- `mem_free` calls `free` on the block of the entry. -/
def MemState.Frees (s : MemState) (e : MemList) : Prop :=
  ∃ i, s.kind e = some i ∧ i.cbFree = none ∧ e.stored = false

/-- What the entry calls for: its type's callback, or `free` of the cleared block, or
    nothing. -/
def MemState.due (s : MemState) (e : MemList) : List MemEvent :=
  match s.kind e with
  | none => []
  | some i =>
    match i.cbFree with
    | some cb => [.callback cb i.type e.pPtr e.size]
    | none =>
      if e.stored then []
      else [.released e.pPtr (cleared e.size.toNat ((s.blocks.get e.pPtr).getD []))]

/-- What is done for it. -/
def MemState.done (s : MemState) (e : MemList) : List MemEvent :=
  match s.kind e with
  | none => []
  | some i => (dispose { s with log := [] } e.pPtr e i).log

/-- If the block of the entry goes to `free`, it is live and no shorter than recorded. -/
def MemState.Intact (s : MemState) (e : MemList) : Prop :=
  s.Frees e → ∃ bytes, s.blocks.get e.pPtr = some bytes ∧ e.size.toNat ≤ bytes.length

variable {wide} {s s' s'' : MemState} {e : MemList} {i : MemInfo} {l l' : List (Addr × MemList)}

theorem dispose_log (s : MemState) (e : MemList) (i : MemInfo) :
    (dispose s e.pPtr e i).log = s.log ++ (dispose { s with log := [] } e.pPtr e i).log := by
  unfold dispose release
  cases i.cbFree with
  | some cb => rfl
  | none =>
    cases e.stored with
    | true => exact (List.append_nil _).symm
    | false =>
      cases s.blocks.get e.pPtr with
      | none => rfl
      | some bytes => simp only [Bool.false_eq_true, if_false, List.nil_append, List.append_assoc]

theorem dispose_blocks (h : s.kind e = some i) (p : Addr) :
    ((s.Frees e ∧ p = e.pPtr) ∧ (dispose s e.pPtr e i).blocks.get p = none) ∨
      ¬ (s.Frees e ∧ p = e.pPtr) ∧ (dispose s e.pPtr e i).blocks.get p = s.blocks.get p := by
  have hfrees : s.Frees e ↔ i.cbFree = none ∧ e.stored = false := by
    constructor
    · rintro ⟨j, hj, hcb⟩
      rw [h] at hj
      exact Option.some.inj hj ▸ hcb
    · intro hcb
      exact ⟨i, h, hcb⟩
  rw [hfrees]
  unfold dispose release
  cases hcb : i.cbFree with
  | some cb => exact Or.inr ⟨by simp, rfl⟩
  | none =>
    cases hst : e.stored with
    | true => exact Or.inr ⟨by simp, rfl⟩
    | false =>
      by_cases hp : p = e.pPtr
      · subst hp
        refine Or.inl ⟨⟨⟨rfl, rfl⟩, rfl⟩, ?_⟩
        cases hb : s.blocks.get e.pPtr with
        | none => simpa using hb
        | some bytes => simp
      · refine Or.inr ⟨fun hne => hp hne.2, ?_⟩
        cases s.blocks.get e.pPtr with
        | none => rfl
        | some bytes => simpa using Heap.get_free_ne _ hp

/-- What is due is done, if the block is intact. -/
theorem MemState.Intact.done_eq (h : s.Intact e) : s.done e = s.due e := by
  unfold MemState.done MemState.due
  cases hk : s.kind e with
  | none => rfl
  | some i =>
    simp only [dispose, release]
    cases hcb : i.cbFree with
    | some cb => rfl
    | none =>
      cases hst : e.stored with
      | true => rfl
      | false =>
        obtain ⟨bytes, hb, hlen⟩ := h ⟨i, hk, hcb, hst⟩
        simp [hb, Nat.not_lt_of_le hlen]

/-- If it is not, `mem_free` writes where it should not. -/
theorem wild_mem_done (h : ¬ s.Intact e) : ∃ p size, MemEvent.wild p size ∈ s.done e := by
  rw [MemState.Intact, Classical.not_imp] at h
  obtain ⟨⟨i, hk, hcb, hst⟩, hno⟩ := h
  refine ⟨e.pPtr, e.size, ?_⟩
  rw [MemState.done, hk]
  cases hb : s.blocks.get e.pPtr with
  | none => simp [dispose, release, hcb, hst, hb]
  | some bytes =>
    have hlt : bytes.length < e.size.toNat := by
      by_contra hge
      exact hno ⟨bytes, hb, Nat.le_of_not_lt hge⟩
    simp [dispose, release, hcb, hst, hb, hlt]

theorem wild_not_mem_due (s : MemState) (e : MemList) (p : Addr) (size : BitVec 32) :
    MemEvent.wild p size ∉ s.due e := by
  unfold MemState.due
  cases s.kind e with
  | none => simp
  | some i =>
    cases hcb : i.cbFree with
    | some cb => simp [hcb]
    | none => cases e.stored <;> simp [hcb]

/-! ## Accounts -/

/-- From `s` to `s'` the entries `l` have been taken out and disposed of. -/
structure Released (s : MemState) (l : List (Addr × MemList)) (s' : MemState) : Prop where
  nodup : l.Nodup
  mem : ∀ x ∈ l, s.list.HasEntry x
  entries : ∀ x, s'.list.HasEntry x ↔ s.list.HasEntry x ∧ x ∉ l
  kinds : ∀ x, s'.list.HasEntry x → s'.kind x.2 = s.kind x.2
  log : s'.log = s.log ++ l.flatMap fun x => s.done x.2
  gone : ∀ x ∈ l, s.Frees x.2 → s'.blocks.get x.2.pPtr = none
  kept : ∀ p, (∀ x ∈ l, s.Frees x.2 → x.2.pPtr ≠ p) → s'.blocks.get p = s.blocks.get p

theorem Released.refl (s : MemState) : Released s [] s where
  nodup := List.nodup_nil
  mem _ hx := absurd hx List.not_mem_nil
  entries _ := (and_iff_left List.not_mem_nil).symm
  kinds _ _ := rfl
  log := (List.append_nil _).symm
  gone _ hx := absurd hx List.not_mem_nil
  kept _ _ := rfl

theorem frees_congr (hk : s'.kind e = s.kind e) : s'.Frees e ↔ s.Frees e := by
  unfold MemState.Frees
  rw [hk]

theorem done_congr (hk : s'.kind e = s.kind e)
    (hb : s'.blocks.get e.pPtr = s.blocks.get e.pPtr) : s'.done e = s.done e := by
  unfold MemState.done
  rw [hk]
  cases s.kind e with
  | none => rfl
  | some i => simp only [dispose, release, hb]; split <;> (try split) <;> (try split) <;> rfl

/-- An entry that has stayed owns what it did. -/
theorem Released.blocks_eq (h : Released s l s') (hinv : TableInv wide s) {x : Addr × MemList}
    (hx : s'.list.HasEntry x) : s'.blocks.get x.2.pPtr = s.blocks.get x.2.pPtr := by
  obtain ⟨hx, hl⟩ := (h.entries x).mp hx
  refine h.kept _ fun y hy _ hkey => hl ?_
  rwa [hinv.list.eq_of_key hx (h.mem y hy) hkey.symm]

/-- Accounts compose. -/
theorem Released.trans (h : Released s l s') (h' : Released s' l' s'') (hinv : TableInv wide s) :
    Released s (l ++ l') s'' where
  nodup := by
    refine h.nodup.append h'.nodup fun x hx hx' => ?_
    exact ((h.entries x).mp (h'.mem x hx')).2 hx
  mem x hx := by
    obtain hx | hx := List.mem_append.mp hx
    · exact h.mem x hx
    · exact ((h.entries x).mp (h'.mem x hx)).1
  entries x := by
    rw [h'.entries, h.entries, List.mem_append, not_or, and_assoc]
  kinds x hx := (h'.kinds x hx).trans (h.kinds x ((h'.entries x).mp hx).1)
  log := by
    have hdone : ∀ x ∈ l', s'.done x.2 = s.done x.2 := fun x hx =>
      done_congr (h.kinds x (h'.mem x hx)) (h.blocks_eq hinv (h'.mem x hx))
    rw [h'.log, h.log, List.flatMap_append, List.append_assoc, List.flatMap_congr hdone]
  gone x hx hf := by
    obtain hx | hx := List.mem_append.mp hx
    · rw [h'.kept _ fun y hy _ hkey => ?_, h.gone x hx hf]
      -- `y` is still an entry after `x` has gone, so its pointer is another one
      obtain ⟨hys, hyl⟩ := (h.entries y).mp (h'.mem y hy)
      rw [hinv.list.eq_of_key hys (h.mem x hx) hkey] at hyl
      exact hyl hx
    · exact h'.gone x hx ((frees_congr (h.kinds x (h'.mem x hx))).mpr hf)
  kept p hp := by
    rw [h'.kept p fun x hx hf => ?_, h.kept p fun x hx => hp x (List.mem_append_left _ hx)]
    exact hp x (List.mem_append_right _ hx) ((frees_congr (h.kinds x (h'.mem x hx))).mp hf)

/-- If the log has only what is due, the blocks were intact. -/
theorem Released.intact_of_log (h : Released s l s')
    (hlog : s'.log = s.log ++ l'.flatMap fun x => s.due x.2) : ∀ x ∈ l, s.Intact x.2 := by
  intro x hx
  by_contra hbad
  obtain ⟨p, size, hwild⟩ := wild_mem_done hbad
  -- the write is in the log, but it is due for no entry
  have hsame := List.append_cancel_left (h.log.symm.trans hlog)
  have hin : MemEvent.wild p size ∈ l.flatMap fun x => s.done x.2 :=
    List.mem_flatMap.mpr ⟨x, hx, hwild⟩
  rw [hsame] at hin
  obtain ⟨y, -, hy⟩ := List.mem_flatMap.mp hin
  exact wild_not_mem_due s y.2 p size hy

theorem Released.log_of_intact (h : Released s l s') (hintact : ∀ x ∈ l, s.Intact x.2) :
    s'.log = s.log ++ l.flatMap fun x => s.due x.2 := by
  rw [h.log, List.flatMap_congr fun x hx => (hintact x hx).done_eq]

/-- A change that leaves entries, blocks and log as they are, and the types in use. -/
theorem Released.setInfo (h : Released s l s') {info : HashTable memHashSize MemInfo}
    (hkinds : ∀ x, s'.list.HasEntry x → MemState.kind { s' with info := info } x.2 = s'.kind x.2) :
    Released s l { s' with info := info } where
  nodup := h.nodup
  mem := h.mem
  entries := h.entries
  kinds x hx := (hkinds x hx).trans (h.kinds x hx)
  log := h.log
  gone := h.gone
  kept := h.kept

/-- The account of disposing of one entry that has been taken out. -/
theorem released_single (hinv : TableInv wide s) {x : Addr × MemList} (hx : s.list.HasEntry x)
    (hk : s.kind x.2 = some i) {list : HashTable memHashSize MemList}
    (hentry : ∀ y, list.HasEntry y ↔ s.list.HasEntry y ∧ y.2.pPtr ≠ x.2.pPtr) :
    Released s [x] ⟨list, s.info, (dispose s x.2.pPtr x.2 i).blocks,
      (dispose s x.2.pPtr x.2 i).log⟩ where
  nodup := List.nodup_singleton x
  mem y hy := List.mem_singleton.mp hy ▸ hx
  entries y := by
    rw [hentry, List.mem_singleton]
    refine and_congr_right fun hy => not_congr ?_
    exact ⟨hinv.list.eq_of_key hy hx, fun h => h ▸ rfl⟩
  kinds _ _ := rfl
  log := by rw [dispose_log, List.flatMap_singleton, MemState.done, hk]
  gone y hy hf := by
    rw [List.mem_singleton.mp hy] at hf ⊢
    rcases dispose_blocks hk x.2.pPtr with ⟨-, hb⟩ | ⟨hno, -⟩
    · exact hb
    · exact absurd ⟨hf, rfl⟩ hno
  kept p hp := by
    rcases dispose_blocks hk p with ⟨⟨hf, rfl⟩, -⟩ | ⟨-, hb⟩
    · exact absurd rfl (hp x (List.mem_singleton.mpr rfl) hf)
    · exact hb

/-- The account of `mem_free`. -/
theorem memFree_released (hinv : TableInv wide s) (p : Addr) :
    ∃ l s', memFree wide s p = some s' ∧ Released s l s' := by
  rcases memFree_cases hinv p with ⟨hrun, -⟩ | ⟨x, i, list, hrun, -, hx, rfl, hi, hentry, -⟩
  · exact ⟨[], s, hrun, Released.refl s⟩
  · exact ⟨[x], _, hrun, released_single hinv hx (hasEntry_get hi) hentry⟩

/-- Deleting a type that is not in use keeps the account. -/
theorem Released.delType (h : Released s l s') (hinv : TableInv wide s') {type : BitVec 32} {r : ℤ}
    (hrun : memDelType wide s' type = some (r, s'')) : Released s l s'' := by
  rcases memDelType_cases hinv type with ⟨r', hrun', -⟩ | ⟨info, hrun', -, hunused, hentry, -⟩
  · obtain ⟨-, rfl⟩ := Prod.mk.inj (Option.some.inj (hrun'.symm.trans hrun))
    exact h
  · obtain ⟨-, rfl⟩ := Prod.mk.inj (Option.some.inj (hrun'.symm.trans hrun))
    refine h.setInfo fun x hx => ?_
    obtain ⟨i, hi⟩ := hinv.registered x hx
    have hi' : info.HasEntry (x.2.pInfo, i) :=
      (hentry _).mpr ⟨hi, fun hty => hunused x hx ⟨i, hi, hty⟩⟩
    exact (hasEntry_get hi').trans (hasEntry_get hi).symm

/-! ## `mem_free_all` -/

/-- `mem_free_all` of `type` reaches the entry: it has that type, or `type` is 0. -/
def MemState.Reached (s : MemState) (type : BitVec 32) (e : MemList) : Prop :=
  type = 0 ∨ s.OfType e type

variable (wide) in
/-- `mem_free_all` takes out the entries of the type and no others, and gives the block of
    each to its callback or to `free`, once; the other blocks, entries and types stay. With
    type 0, both tables are empty in the end. -/
def FreesAll (s : MemState) (type : BitVec 32) : Prop :=
  ∃ (s' : MemState) (l : List (Addr × MemList)), memFreeAll wide s type = some s' ∧ l.Nodup ∧
    (∀ x, x ∈ l ↔ s.list.HasEntry x ∧ s.Reached type x.2) ∧
    (s'.log = s.log ++ l.flatMap fun x => s.due x.2) ∧
    (∀ x, s'.list.HasEntry x ↔ s.list.HasEntry x ∧ x ∉ l) ∧
    (∀ x ∈ l, s.Frees x.2 → s'.blocks.get x.2.pPtr = none) ∧
    (∀ p, (∀ x ∈ l, s.Frees x.2 → x.2.pPtr ≠ p) → s'.blocks.get p = s.blocks.get p) ∧
    (type ≠ 0 → ∀ x, s'.info.HasEntry x ↔ s.info.HasEntry x) ∧
    (type = 0 → (∀ i, s'.list.head i = 0) ∧ ∀ i, s'.info.head i = 0)

/-- The heads of a table without entries. -/
theorem head_eq_zero {n : ℕ} {β κ : Type} {key : β → κ} {hash : κ → Fin n} {t : HashTable n β}
    (h : HashTable.WF key hash t) (hno : ∀ x, ¬ t.HasEntry x) (i : Fin n) : t.head i = 0 := by
  obtain ⟨l, hc, -⟩ := h.acyclic i
  cases l with
  | nil => exact hc
  | cons x l => exact absurd ⟨i, x :: l, hc, List.mem_cons_self⟩ (hno x)

/-- What `mem_free_all` does, whatever the blocks are. -/
theorem memFreeAll_released (hinv : TableInv wide s) (type : BitVec 32) :
    ∃ l s', memFreeAll wide s type = some s' ∧ TableInv wide s' ∧ Released s l s' ∧
      (∀ x, x ∈ l ↔ s.list.HasEntry x ∧ s.Reached type x.2) ∧
      ∀ x, s'.info.HasEntry x ↔ s.info.HasEntry x ∧ type ≠ 0 := by
  obtain ⟨s', hrun, hinv', ⟨l, hl⟩, hlist, hinfo⟩ :=
    @memFreeAll_spec wide s (fun t => ∃ l, Released s l t)
      (by
        rintro t p t' ht ⟨l, hl⟩ hrun
        obtain ⟨l', t'', hrun', hl'⟩ := memFree_released ht p
        obtain rfl := Option.some.inj (hrun'.symm.trans hrun)
        exact ⟨l ++ l', hl.trans hl' hinv⟩)
      (by
        rintro t type r t' ht ⟨l, hl⟩ hrun
        exact ⟨l, hl.delType ht hrun⟩)
      hinv ⟨[], Released.refl s⟩ type
  refine ⟨l, s', hrun, hinv', hl, fun x => ?_, hinfo⟩
  have hx := (hl.entries x).symm.trans (hlist x)
  unfold MemState.Reached
  by_cases hs : s.list.HasEntry x
  · simp only [hs, true_and] at hx ⊢
    rw [← not_iff_not, hx, not_or]
  · exact iff_of_false (fun hmem => hs (hl.mem x hmem)) fun h => hs h.1

/-- In any state with the table invariant. -/
theorem TableInv.freesAll_iff (hinv : TableInv wide s) (type : BitVec 32) :
    FreesAll wide s type ↔ ∀ x, s.list.HasEntry x → s.Reached type x.2 → s.Intact x.2 := by
  obtain ⟨l, s', hrun, hinv', hl, hmem, hinfo⟩ := memFreeAll_released hinv type
  constructor
  · rintro ⟨t, l', hrun', -, hmem', hlog, -⟩ x hx hreach
    obtain rfl := Option.some.inj (hrun.symm.trans hrun')
    exact hl.intact_of_log hlog x ((hmem x).mpr ⟨hx, hreach⟩)
  · intro hintact
    have hlog := hl.log_of_intact fun x hx => hintact x (hl.mem x hx) ((hmem x).mp hx).2
    refine ⟨s', l, hrun, hl.nodup, hmem, hlog, hl.entries, hl.gone, hl.kept, fun htype x => ?_,
      fun htype => ⟨?_, ?_⟩⟩
    · rw [hinfo, and_iff_left htype]
    · refine head_eq_zero hinv'.list fun x hx => ?_
      obtain ⟨hx, hno⟩ := (hl.entries x).mp hx
      exact hno ((hmem x).mpr ⟨hx, Or.inl htype⟩)
    · exact head_eq_zero hinv'.info fun x hx => ((hinfo x).mp hx).2 htype

/-! ## Addresses given once -/

/-- Types are registered and given callbacks, and blocks are allocated, at addresses that the
    allocator gives once: those in `infos`, `nodes` and `blks` are taken. -/
def GivenOnce (infos nodes blks : List Addr) : List Op → Prop
  | [] => True
  | .addType _ _ node :: ops => node ∉ infos ∧ GivenOnce (node :: infos) nodes blks ops
  | .cbFree _ _ :: ops => GivenOnce infos nodes blks ops
  | .alloc _ _ node blk :: ops =>
    node ∉ nodes ∧ blk ∉ blks ∧ GivenOnce infos (node :: nodes) (blk :: blks) ops
  | _ :: _ => False

/-- The addresses in use are among those taken, and the blocks have what is recorded of them. -/
structure TakenFrom (infos nodes blks : List Addr) (s : MemState) : Prop where
  infos : ∀ a ∉ infos, s.info.cells.get a = none
  nodes : ∀ a ∉ nodes, s.list.cells.get a = none
  blks : ∀ x, s.list.HasEntry x → x.2.pPtr ∈ blks
  whole : ∀ x, s.list.HasEntry x →
    ∃ bytes, s.blocks.get x.2.pPtr = some bytes ∧ x.2.size.toNat ≤ bytes.length

theorem takenFrom_memInit : TakenFrom [] [] [] memInit where
  infos _ _ := rfl
  nodes _ _ := rfl
  blks x hx := absurd hx (HashTable.hasEntry_empty x)
  whole x hx := absurd hx (HashTable.hasEntry_empty x)

variable {infos nodes blks : List Addr}

theorem TakenFrom.intact (h : TakenFrom infos nodes blks s) {x : Addr × MemList}
    (hx : s.list.HasEntry x) : s.Intact x.2 := fun _ => h.whole x hx

theorem TakenFrom.addType (h : TakenFrom infos nodes blks s) {type : BitVec 32} {name : List Byte}
    {node : Addr} (hrun : step wide s (.addType type name node) = some s') :
    TakenFrom (node :: infos) nodes blks s' := by
  have hmore : TakenFrom (node :: infos) nodes blks s :=
    ⟨fun a ha => h.infos a fun hmem => ha (List.mem_cons_of_mem _ hmem), h.nodes, h.blks, h.whole⟩
  simp only [step, memAddType] at hrun
  cases hfound : memFindType wide s type with
  | none => simp [hfound] at hrun
  | some found =>
    simp only [hfound, Option.bind_eq_bind, Option.bind_some] at hrun
    split_ifs at hrun
    · exact Option.some.inj hrun ▸ hmore
    · exact Option.some.inj hrun ▸ hmore
    · exact Option.some.inj hrun ▸ hmore
    · rw [← Option.some.inj hrun]
      refine ⟨fun a ha => ?_, h.nodes, h.blks, h.whole⟩
      rw [List.mem_cons, not_or] at ha
      exact (Heap.get_set_ne _ _ ha.1).trans (h.infos a ha.2)

theorem TakenFrom.cbFree (h : TakenFrom infos nodes blks s) {type : BitVec 32}
    {handler : Option Callback} (hrun : step wide s (.cbFree type handler) = some s') :
    TakenFrom infos nodes blks s' := by
  simp only [step, memCbFree] at hrun
  cases hfound : memFindType wide s type with
  | none => simp [hfound] at hrun
  | some found =>
    cases found with
    | none =>
      simp only [hfound, Option.bind_eq_bind, Option.bind_some] at hrun
      exact Option.some.inj hrun ▸ h
    | some pInfo =>
      simp only [hfound, Option.bind_eq_bind, Option.bind_some] at hrun
      rw [← Option.some.inj hrun]
      refine ⟨fun a ha => ?_, h.nodes, h.blks, h.whole⟩
      unfold HashTable.setData
      cases hcell : s.info.cells.get pInfo.1 with
      | none => exact h.infos a ha
      | some c =>
        have hne : a ≠ pInfo.1 := by
          rintro rfl
          rw [h.infos _ ha] at hcell
          exact absurd hcell (by simp)
        exact (Heap.get_set_ne _ _ hne).trans (h.infos a ha)

theorem memTrack_get {type size : BitVec 32} {bytes : ℕ} {node blk r a : Addr} (ha : a ≠ node)
    (hrun : memTrack wide s type size bytes node blk = some (r, s')) :
    s'.list.cells.get a = s.list.cells.get a := by
  unfold memTrack at hrun
  cases hfound : memFindType wide s type with
  | none => simp [hfound] at hrun
  | some found =>
    cases found with
    | none =>
      simp only [hfound, Option.bind_eq_bind, Option.bind_some] at hrun
      exact (Prod.mk.inj (Option.some.inj hrun)).2 ▸ rfl
    | some pInfo =>
      simp only [hfound, Option.bind_eq_bind, Option.bind_some] at hrun
      split_ifs at hrun
      · exact (Prod.mk.inj (Option.some.inj hrun)).2 ▸ rfl
      · exact (Prod.mk.inj (Option.some.inj hrun)).2 ▸ rfl
      · rw [← (Prod.mk.inj (Option.some.inj hrun)).2]
        exact Heap.get_set_ne _ _ ha

theorem TakenFrom.alloc (h : TakenFrom infos nodes blks s) (hinv : TableInv wide s)
    {type size : BitVec 32} {node blk : Addr} (hnode : node ∉ nodes) (hblk : blk ∉ blks)
    (hrun : step wide s (.alloc type size node blk) = some s') :
    TakenFrom infos (node :: nodes) (blk :: blks) s' := by
  have hnew : ∀ x, s.list.HasEntry x → x.2.pPtr ≠ blk := fun x hx hxb => hblk (hxb ▸ h.blks x hx)
  obtain ⟨hsame, -⟩ | ⟨i, list, hrun', -, hn, hb, hi, -, hentry⟩ :=
    memTrack_cases hinv type size size.toNat (h.nodes node hnode) hnew
  · simp only [step, memAlloc, hsame, Option.map_some, Option.some.injEq] at hrun
    rw [← hrun]
    exact ⟨h.infos, fun a ha => h.nodes a fun hmem => ha (List.mem_cons_of_mem _ hmem),
      fun x hx => List.mem_cons_of_mem _ (h.blks x hx), h.whole⟩
  · simp only [step, memAlloc, hrun', Option.map_some, Option.some.injEq] at hrun
    subst hrun
    refine ⟨h.infos, fun a ha => ?_, fun x hx => ?_, fun x hx => ?_⟩
    · rw [List.mem_cons, not_or] at ha
      exact (memTrack_get ha.1 hrun').trans (h.nodes a ha.2)
    · obtain rfl | hx := (hentry x).mp hx
      · exact List.mem_cons_self
      · exact List.mem_cons_of_mem _ (h.blks x hx)
    · obtain rfl | hx := (hentry x).mp hx
      · exact ⟨_, Heap.get_set _ _ _, by simp⟩
      · obtain ⟨bytes, hget, hlen⟩ := h.whole x hx
        exact ⟨bytes, (Heap.get_set_ne _ _ (hnew x hx)).trans hget, hlen⟩

/-- Such calls find the allocator returning new addresses, and leave whole blocks. -/
theorem GivenOnce.run {ops : List Op} {A : Registry} (hops : GivenOnce infos nodes blks ops)
    (href : Refines wide s A) (h : TakenFrom infos nodes blks s) :
    AllFresh wide s ops ∧ ∀ s', run wide s ops = some s' →
      ∀ x, s'.list.HasEntry x → s'.Intact x.2 := by
  induction ops generalizing infos nodes blks s A with
  | nil => exact ⟨trivial, fun s' hrun x hx => by
      rw [← Option.some.inj hrun] at hx ⊢
      exact h.intact hx⟩
  | cons op ops ih =>
    have hfirst : op.Fresh s ∧ ∀ s₁, step wide s op = some s₁ →
        ∃ infos' nodes' blks', TakenFrom infos' nodes' blks' s₁ ∧
          GivenOnce infos' nodes' blks' ops := by
      cases op with
      | addType type name node =>
        exact ⟨h.infos node hops.1, fun s₁ hrun => ⟨_, _, _, h.addType hrun, hops.2⟩⟩
      | cbFree type handler => exact ⟨trivial, fun s₁ hrun => ⟨_, _, _, h.cbFree hrun, hops⟩⟩
      | alloc type size node blk =>
        obtain ⟨hnode, hblk, hrest⟩ := hops
        refine ⟨⟨h.nodes node hnode, fun x hx hxb => hblk (hxb ▸ h.blks x hx)⟩, fun s₁ hrun => ?_⟩
        exact ⟨_, _, _, h.alloc href.inv hnode hblk hrun, hrest⟩
      | delType | calloc | realloc | store | free | freeAll | write => exact hops.elim
    obtain ⟨hfresh, hnext⟩ := hfirst
    obtain ⟨s₁, hstep, href₁⟩ := step_refines href hfresh
    obtain ⟨infos', nodes', blks', h₁, hops₁⟩ := hnext s₁ hstep
    obtain ⟨hall, hwhole⟩ := ih hops₁ href₁ h₁
    refine ⟨⟨hfresh, fun s₂ h₂ => Option.some.inj (hstep.symm.trans h₂) ▸ hall⟩, fun s' hrun => ?_⟩
    rw [Mem.run, List.foldlM_cons, hstep] at hrun
    exact hwhole s' hrun

/-! ## Any calls -/

/-- After any calls from `mem_init`, with callbacks that do not touch the tables. -/
theorem memFreeAll_freesAll_iff {ops : List Op} (hops : AllFresh wide memInit ops)
    (hrun : run wide memInit ops = some s) (type : BitVec 32) :
    FreesAll wide s type ↔ ∀ x, s.list.HasEntry x → s.Reached type x.2 → s.Intact x.2 := by
  obtain ⟨s', hrun', href⟩ := run_refines refines_memInit hops
  obtain rfl := Option.some.inj (hrun.symm.trans hrun')
  exact href.inv.freesAll_iff type

/-- Two types, and blocks of four, eight and sixteen bytes of them. -/
def threeOfTwo : List Op :=
  [.addType 1 [97] 16, .addType 2 [98] 160, .alloc 1 4 32 48, .alloc 2 8 64 304, .alloc 1 16 80 112]

/-- They are released by type, and all together. -/
theorem memFreeAll_freesAll_iff_three : ∃ s, run wideX86 memInit threeOfTwo = some s ∧
    FreesAll wideX86 s 1 ∧ FreesAll wideX86 s 2 ∧ FreesAll wideX86 s 0 := by
  have hops : GivenOnce [] [] [] threeOfTwo := by simp [GivenOnce, threeOfTwo]
  have hinit : Refines wideX86 memInit Registry.empty := refines_memInit
  obtain ⟨hfresh, hwhole⟩ := hops.run hinit takenFrom_memInit
  obtain ⟨s, hrun, -⟩ := run_refines refines_memInit hfresh
  have hintact := hwhole s hrun
  exact ⟨s, hrun, (memFreeAll_freesAll_iff hfresh hrun 1).mpr fun x hx _ => hintact x hx,
    (memFreeAll_freesAll_iff hfresh hrun 2).mpr fun x hx _ => hintact x hx,
    (memFreeAll_freesAll_iff hfresh hrun 0).mpr fun x hx _ => hintact x hx⟩

/-- `mem_realloc(p, 0)` has freed the block, but the entry is still there:
    `mem_free_all` clears and frees the block again. -/
theorem memFreeAll_frees_again :
    AllFresh wideX86 memInit [.addType 1 [97] 16, .alloc 1 4 32 48, .realloc 48 0 .freed] ∧
    ∃ s s', run wideX86 memInit [.addType 1 [97] 16, .alloc 1 4 32 48, .realloc 48 0 .freed] =
        some s ∧ s.blocks.get 48 = none ∧ memFreeAll wideX86 s 0 = some s' ∧
      .wild 48 4 ∈ s'.log ∧ ¬ FreesAll wideX86 s 0 := by
  have hfresh : AllFresh wideX86 memInit [.addType 1 [97] 16, .alloc 1 4 32 48,
      .realloc 48 0 .freed] :=
    allFresh_addType (fun _ => Iff.rfl) fun _ => ⟨trivial, fun _ _ => trivial⟩
  obtain ⟨s, hrun, href⟩ := run_refines refines_memInit hfresh
  obtain ⟨l, s', hall, -, hl, hmem, -⟩ := memFreeAll_released href.inv 0
  have hx : s.list.HasEntry (32, ⟨48, 4, false, 16⟩) := by
    obtain rfl := Option.some.inj hrun
    exact @HashTable.hasEntry_of_head _ _ _ (hashPtr wideX86 48) 32 _ rfl (by decide) rfl
  refine ⟨hfresh, s, s', hrun, ?_⟩
  obtain rfl := Option.some.inj hrun
  refine ⟨rfl, hall, ?_, fun hfrees => ?_⟩
  · rw [hl.log]
    exact List.mem_append_right _ (List.mem_flatMap.mpr
      ⟨_, (hmem _).mpr ⟨hx, Or.inl rfl⟩, List.mem_singleton.mpr rfl⟩)
  · obtain ⟨bytes, hbytes, -⟩ := (href.inv.freesAll_iff 0).mp hfrees _ hx (Or.inl rfl)
      ⟨_, rfl, rfl, rfl⟩
    exact absurd hbytes (by simp)

end CompatSuva.Mem
