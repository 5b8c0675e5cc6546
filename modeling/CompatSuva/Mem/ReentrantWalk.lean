import CompatSuva.Mem.Reentrant

/-!
# `mem_free_all` with callbacks that call `mem_free`

The first loop of `mem_free_all` reads the link of an entry and then calls `mem_free`, whose
callbacks may free further entries. Everything works as long as the entry that was linked is
not among them.

* `memFreeAllWith_spec`: then exactly the entries reached from those of the type are freed;
  otherwise the loop goes on at an entry that has been released, and the model returns nothing;
* `reentrant_iff`: `mem_free` and `mem_free_all` in every state that calls can reach.
-/

namespace CompatSuva.Mem

open CompatSuva.Common

variable (wide : Byte → ℕ → BitVec 32) (frees : Destructor)

/-! ## The first loop -/

/-- `mem_free_all` frees the entry `x`, if it comes to it, and with it `y`. -/
def MemState.Kills (s : MemState) (type : BitVec 32) (x y : Addr × MemList) : Prop :=
  s.list.HasEntry x ∧ s.Reached type x.2 ∧ s.Takes frees x.2.pPtr y.2.pPtr

/-- No callback called from the loop of `mem_free_all` frees the entry the loop goes on with. -/
def Spares (s : MemState) (type : BitVec 32) : Prop :=
  ∀ L, HashTable.Rep MemList.pPtr (hashPtr wide) s.list L →
    HashTable.SparesEvery (s.Kills frees type) L

variable {wide frees} {s s' : MemState} {type : BitVec 32} {l : List (Addr × MemList)}

theorem kills_trans (x y z : Addr × MemList) (h : s.Kills frees type x y)
    (h' : s.Kills frees type y z) : s.Kills frees type x z :=
  ⟨h.1, h.2.1, h.2.2.trans h'.2.2⟩

variable (wide frees) in
/-- Behind the entries `seen`: what they kill has been freed. -/
def Passed (s : MemState) (type : BitVec 32) (seen : List (Addr × MemList)) (s' : MemState) :
    Prop :=
  ∃ l, Freed wide s l s' ∧
    ∀ x, x ∈ l ↔ s.list.HasEntry x ∧ ¬ HashTable.Left (s.Kills frees type) seen x

theorem Passed.skip {seen : List (Addr × MemList)} {x : Addr × MemList}
    (h : Passed wide frees s type seen s') (hx : ¬ HashTable.Left (s.Kills frees type) seen x) :
    Passed wide frees s type (seen ++ [x]) s' := by
  unfold Passed
  rw [HashTable.left_of_not_left kills_trans hx]
  exact h

/-- The buckets behind the entries `seen`. -/
theorem Passed.rep {seen : List (Addr × MemList)} (h : Passed wide frees s type seen s')
    {L : Fin memHashSize → List (Addr × MemList)}
    (hL : HashTable.Rep MemList.pPtr (hashPtr wide) s.list L) :
    HashTable.Rep MemList.pPtr (hashPtr wide) s'.list
      (HashTable.bucketsLeft (s.Kills frees type) L seen) := by
  obtain ⟨l, hl, hmem⟩ := h
  have heq : HashTable.bucketsLeft (s.Kills frees type) L seen =
      fun i => (L i).filter fun x => x ∉ l := by
    funext i
    refine List.filter_congr fun x hx => decide_eq_decide.mpr ?_
    rw [hmem, and_iff_right (hL.hasEntry_iff.mpr ⟨i, hx⟩), not_not]
  rw [heq]
  exact hl.rep L hL

/-- The body of the loop. -/
theorem freeOfTypeWith_body (hinv : TableInv wide s) {L : Fin memHashSize → List (Addr × MemList)}
    (hL : HashTable.Rep MemList.pPtr (hashPtr wide) s.list L) :
    HashTable.Body MemList.pPtr (hashPtr wide) (s.Kills frees type) MemState.list
      (freeOfTypeWith wide frees type) (Passed wide frees s type) L := by
  rintro s' seen i x hpassed - hx hleft
  obtain ⟨l, hl, hmem⟩ := id hpassed
  have hxs : s.list.HasEntry x := hL.hasEntry_iff.mpr ⟨i, hx⟩
  have hxl : x ∉ l := fun h => ((hmem x).mp h).2 hleft
  have hx' : s'.list.HasEntry x := (hl.released.entries x).mpr ⟨hxs, hxl⟩
  obtain ⟨j, hj⟩ := hl.inv.registered x hx'
  obtain ⟨-, q, hq⟩ := hj.get
  have hreach : s.Reached type x.2 ↔ type = 0 ∨ j.type = type := by
    rw [hl.info] at hj
    refine or_congr_right ⟨fun hty => ?_, fun hty => ⟨j, hj, hty⟩⟩
    exact (hinv.ofType_unique hty ⟨j, hj, rfl⟩).symm
  simp only [freeOfTypeWith, hq, Option.bind_eq_bind, Option.bind_some]
  by_cases hr : s.Reached type x.2
  · rw [if_pos (hreach.mp hr)]
    obtain ⟨s'', l', hrun, hl', hdead, hmem'⟩ :=
      @memFreeWith_spec wide frees s'.list.cells.size s' x.2.pPtr hl.inv s'.atMost_size
    have hclosed : ∀ y ∈ l, ∀ z, s.list.HasEntry z → s.Takes frees y.2.pPtr z.2.pPtr → z ∈ l := by
      intro y hy z hz hyz
      refine (hmem z).mpr ⟨hz, fun hleft => ((hmem y).mp hy).2 fun w hw hwy => ?_⟩
      exact hleft w hw ⟨hwy.1, hwy.2.1, hwy.2.2.trans hyz⟩
    have htakes : ∀ y, s.list.HasEntry y →
        (s'.Takes frees x.2.pPtr y.2.pPtr ↔ s.Kills frees type x y ∧ y ∉ l) := by
      intro y hy
      rw [hl.released.takes_of_closed hinv hclosed, mem_ptrsOf_iff hinv hl.released.mem hy]
      exact and_congr_left fun _ => ⟨fun h => ⟨hxs, hr, h⟩, fun h => h.2.2⟩
    have hpassed' : Passed wide frees s type (seen ++ [x]) s'' := by
      refine ⟨l ++ l', hl.trans hl' hinv, fun y => ?_⟩
      rw [List.mem_append, hmem', hl.released.entries, HashTable.left_append_singleton, not_and_or,
        not_not]
      by_cases hy : s.list.HasEntry y
      · simp only [hy, true_and, htakes y hy, hmem y]
        by_cases hly : HashTable.Left (s.Kills frees type) seen y
        · simp [hly]
        · simp [hly]
      · refine iff_of_false ?_ fun h => hy h.1
        rintro (h | h)
        · exact hy (hl.released.mem y h)
        · exact hy h.1.1
    refine ⟨s'', hrun, hpassed', hpassed'.rep hL, fun y hy hlefty hkill => ?_⟩
    have hys : s.list.HasEntry y := hL.hasEntry_iff.mpr ⟨i, hy⟩
    have hyl : y ∉ l := fun h => ((hmem y).mp h).2 hlefty
    exact hdead y ((hmem' y).mpr
      ⟨(hl.released.entries y).mpr ⟨hys, hyl⟩, (htakes y hys).mpr ⟨hkill, hyl⟩⟩)
  · rw [if_neg fun h => hr (hreach.mpr h)]
    have hkills : ∀ y, ¬ s.Kills frees type x y := fun y h => hr h.2.1
    have hpassed' : Passed wide frees s type (seen ++ [x]) s' := by
      refine ⟨l, hl, fun y => ?_⟩
      rw [hmem, HashTable.left_append_singleton, and_iff_left (hkills y)]
    exact ⟨s', rfl, hpassed', hpassed'.rep hL, fun y _ _ hkill => absurd hkill (hkills y)⟩

/-- What `mem_free_all` does: if a callback frees the entry the loop goes on with, the loop
    comes to a released entry; otherwise everything reached has been freed. -/
theorem memFreeAllWith_spec (hinv : TableInv wide s) (type : BitVec 32) :
    (Spares wide frees s type → ∃ s' l, memFreeAllWith wide frees s type = some s' ∧
      TableInv wide s' ∧ Released s l s' ∧
      (∀ x, x ∈ l ↔ s.list.HasEntry x ∧ ∃ z, s.Kills frees type z x) ∧
      ∀ x, s'.info.HasEntry x ↔ s.info.HasEntry x ∧ type ≠ 0) ∧
    (¬ Spares wide frees s type → memFreeAllWith wide frees s type = none) := by
  obtain ⟨L, hL⟩ := id hinv.list
  have hspares : Spares wide frees s type ↔ HashTable.SparesEvery (s.Kills frees type) L := by
    refine ⟨fun h => h L hL, fun h L' hL' => ?_⟩
    have hLL : L' = L := funext fun i => (hL'.chain i).unique (hL.chain i)
    exact hLL.symm ▸ h
  obtain ⟨hgood, hbad⟩ := HashTable.Rep.sweep_walk (freeOfTypeWith_body hinv hL)
    kills_trans (fun _ _ _ hx h => Passed.skip h hx)
    (⟨[], Freed.refl hinv, by simp⟩ : Passed wide frees s type [] s) hL
  rw [hspares]
  refine ⟨fun h => ?_, fun h => by rw [memFreeAllWith, hbad h]; rfl⟩
  obtain ⟨s₁, hrun₁, ⟨l, hl, hmem⟩, -⟩ := hgood h
  have hmem' : ∀ x, x ∈ l ↔ s.list.HasEntry x ∧ ∃ z, s.Kills frees type z x := by
    intro x
    rw [hmem]
    unfold HashTable.Left
    push Not
    apply and_congr_right
    intro _
    constructor
    · rintro ⟨z, -, hz⟩
      exact ⟨z, hz⟩
    · rintro ⟨z, hz⟩
      obtain ⟨i, hi⟩ := hL.hasEntry_iff.mp hz.1
      exact ⟨z, List.mem_flatMap.mpr ⟨i, List.mem_finRange i, hi⟩, hz⟩
  rw [memFreeAllWith, hrun₁]
  simp only [Option.bind_eq_bind, Option.bind_some]
  split_ifs with htype
  · refine ⟨s₁, l, rfl, hl.inv, hl.released, hmem', fun x => ?_⟩
    rw [hl.info, and_iff_left htype]
  · have htype : type = 0 := by simpa using htype
    -- every entry is freed, if not by another one, then by itself
    have hnone : ∀ x, ¬ s₁.list.HasEntry x := by
      intro x hx
      obtain ⟨hx, hxl⟩ := (hl.released.entries x).mp hx
      exact hxl ((hmem' x).mpr ⟨hx, x, hx, Or.inl htype, Reaches.refl (HasEntry.mem_ptrs hx)⟩)
    obtain ⟨s₂, hrun₂, hinv₂, hl₂, -, hinfo₂⟩ :=
      @TableInv.delTypes wide s₁ (fun t => Released s l t)
      (fun _ _ _ _ ht hlt hrun => hlt.delType ht hrun) hl.inv hl.released hnone
    refine ⟨s₂, l, hrun₂, hinv₂, hl₂, hmem', fun x => ?_⟩
    exact iff_of_false (hinfo₂ x) fun h => h.2 htype

/-! ## Runs -/

open Classical in
/-- A relation with at most one value is the graph of a partial function. -/
theorem exists_graph {α β : Type} {R : α → β → Prop} (h : ∀ a b b', R a b → R a b' → b = b') :
    ∃ f : α → Option β, ∀ a b, f a = some b ↔ R a b := by
  refine ⟨fun a => if ha : ∃ b, R a b then some ha.choose else none, fun a b => ?_⟩
  show (if ha : ∃ b, R a b then some ha.choose else none) = some b ↔ R a b
  by_cases ha : ∃ b, R a b
  · rw [dif_pos ha, Option.some.injEq]
    constructor
    · rintro rfl
      exact ha.choose_spec
    · intro hb
      exact h a _ _ ha.choose_spec hb
  · rw [dif_neg ha]
    exact iff_of_false (by simp) fun hb => ha ⟨b, hb⟩

/-- What the tables hold, as a registry. -/
theorem TableInv.exists_refines (h : TableInv wide s) : ∃ A, Refines wide s A := by
  obtain ⟨ptrs, hptrs⟩ : ∃ f : Addr → Option Tracked, ∀ p e, f p = some e ↔ s.Tracks p e := by
    refine exists_graph ?_
    rintro p ⟨a, b, c⟩ ⟨a', b', c'⟩ ⟨x, hx, hp, hsize, hst, hty⟩ ⟨y, hy, hp', hsize', hst', hty'⟩
    obtain rfl := h.list.eq_of_key hx hy (hp.trans hp'.symm)
    rw [Tracked.mk.injEq]
    exact ⟨hsize.symm.trans hsize', hst.symm.trans hst', h.ofType_unique hty hty'⟩
  obtain ⟨types, htypes⟩ : ∃ f : BitVec 32 → Option Kind, ∀ t k, f t = some k ↔ s.Knows t k := by
    refine exists_graph ?_
    rintro t ⟨a, b⟩ ⟨a', b'⟩ ⟨x, hx, ht, hname, hcb⟩ ⟨y, hy, ht', hname', hcb'⟩
    obtain rfl := h.info.eq_of_key hx hy (ht.trans ht'.symm)
    rw [Kind.mk.injEq]
    exact ⟨hname.symm.trans hname', hcb.symm.trans hcb'⟩
  exact ⟨⟨ptrs, types⟩, h, hptrs, htypes⟩

variable (wide) in
/-- The tables that calls can lead to from `mem_init`, where each call of `mem_free` and
    `mem_free_all` may have callbacks that call `mem_free`. -/
inductive Reachable : MemState → Prop
  | init : Reachable memInit
  | step {s s' : MemState} {op : Op} : Reachable s → op.Fresh s → step wide s op = some s' →
      Reachable s'
  | free {s s' : MemState} {frees : Destructor} {p : Addr} : Reachable s →
      memFreeNested wide frees s p = some s' → Reachable s'
  | freeAll {s s' : MemState} {frees : Destructor} {type : BitVec 32} : Reachable s →
      memFreeAllWith wide frees s type = some s' → Reachable s'

theorem Reachable.tableInv (h : Reachable wide s) : TableInv wide s := by
  induction h with
  | init => exact tableInv_memInit wide
  | step _ hfresh hrun ih =>
    obtain ⟨A, hA⟩ := ih.exists_refines
    obtain ⟨t, hrun', ht⟩ := step_refines hA hfresh
    exact Option.some.inj (hrun'.symm.trans hrun) ▸ ht.inv
  | @free s s' frees p _ hrun ih =>
    obtain ⟨t, l, hrun', ht, -⟩ := @memFreeWith_spec wide frees _ s p ih s.atMost_size
    exact Option.some.inj (hrun'.symm.trans hrun) ▸ ht.inv
  | @freeAll s s' frees type _ hrun ih =>
    obtain ⟨hgood, hbad⟩ := @memFreeAllWith_spec wide frees s ih type
    by_cases hspares : Spares wide frees s type
    · obtain ⟨t, l, hrun', ht, -⟩ := hgood hspares
      exact Option.some.inj (hrun'.symm.trans hrun) ▸ ht
    · exact absurd ((hbad hspares).symm.trans hrun) (by simp)

theorem Reachable.run (h : Reachable wide s) {ops : List Op} (hops : AllFresh wide s ops)
    (hrun : run wide s ops = some s') : Reachable wide s' := by
  induction ops generalizing s with
  | nil => exact Option.some.inj hrun ▸ h
  | cons op ops ih =>
    rw [Mem.run, List.foldlM_cons] at hrun
    cases hstep : Mem.step wide s op with
    | none =>
      rw [hstep] at hrun
      exact absurd hrun (by simp)
    | some t =>
      rw [hstep] at hrun
      exact ih (.step h hops.1 hstep) (hops.2 t hstep) hrun

/-! ## Freeing once -/

variable (wide) in
/-- A call that is to free the entries with `P` returns, so that it has come to live entries
    only, keeps the table invariant, and gives the block of each of them to its callback or to
    `free`, once; the other entries and blocks stay. -/
def FreesOnce (s : MemState) (P : Addr × MemList → Prop) (r : Option MemState) : Prop :=
  ∃ (s' : MemState) (l : List (Addr × MemList)), r = some s' ∧ TableInv wide s' ∧ l.Nodup ∧
    (∀ x, x ∈ l ↔ s.list.HasEntry x ∧ P x) ∧
    (s'.log = s.log ++ l.flatMap fun x => s.due x.2) ∧
    (∀ x, s'.list.HasEntry x ↔ s.list.HasEntry x ∧ x ∉ l) ∧
    (∀ x ∈ l, s.Frees x.2 → s'.blocks.get x.2.pPtr = none) ∧
    ∀ p, (∀ x ∈ l, s.Frees x.2 → x.2.pPtr ≠ p) → s'.blocks.get p = s.blocks.get p

/-- What an account says about a call. -/
theorem Released.freesOnce_iff (h : Released s l s') (hinv : TableInv wide s')
    {P : Addr × MemList → Prop} (hmem : ∀ x, x ∈ l ↔ s.list.HasEntry x ∧ P x) :
    FreesOnce wide s P (some s') ↔ ∀ x, s.list.HasEntry x → P x → s.Intact x.2 := by
  constructor
  · rintro ⟨t, l', ht, -, -, -, hlog, -⟩ x hx hP
    obtain rfl := Option.some.inj ht
    exact h.intact_of_log hlog x ((hmem x).mpr ⟨hx, hP⟩)
  · intro hintact
    have hlog := h.log_of_intact fun x hx => hintact x (h.mem x hx) ((hmem x).mp hx).2
    exact ⟨s', l, rfl, hinv, h.nodup, hmem, hlog, h.entries, h.gone, h.kept⟩

/-- Callbacks that call `mem_free`, in every state that calls can reach. `mem_free` works
    whenever the blocks it is to free are intact; `mem_free_all` must in addition not lose the
    entry its loop goes on with. -/
theorem reentrant_iff (hs : Reachable wide s) (frees : Destructor) :
    (∀ p, FreesOnce wide s (fun x => s.Takes frees p x.2.pPtr) (memFreeNested wide frees s p) ↔
      ∀ x, s.list.HasEntry x → s.Takes frees p x.2.pPtr → s.Intact x.2) ∧
    ∀ type, FreesOnce wide s (fun x => ∃ z, s.Kills frees type z x)
        (memFreeAllWith wide frees s type) ↔
      Spares wide frees s type ∧
        ∀ x, s.list.HasEntry x → (∃ z, s.Kills frees type z x) → s.Intact x.2 := by
  have hinv := hs.tableInv
  refine ⟨fun p => ?_, fun type => ?_⟩
  · obtain ⟨s', l, hrun, hl, -, hmem⟩ := @memFreeWith_spec wide frees _ s p hinv s.atMost_size
    rw [memFreeNested, hrun]
    exact hl.released.freesOnce_iff hl.inv hmem
  · obtain ⟨hgood, hbad⟩ := @memFreeAllWith_spec wide frees s hinv type
    by_cases hspares : Spares wide frees s type
    · obtain ⟨s', l, hrun, hinv', hl, hmem, -⟩ := hgood hspares
      rw [hrun, and_iff_right hspares]
      exact hl.freesOnce_iff hinv' hmem
    · rw [hbad hspares]
      refine iff_of_false ?_ fun h => hspares h.1
      rintro ⟨s', l, hnone, -⟩
      exact absurd hnone (by simp)

/-- A type with a free callback, two blocks in one bucket and a third in a later one. -/
def threeBlocks : List Op :=
  [.addType 1 [97] 16, .cbFree 1 (some 7), .alloc 1 4 32 48, .alloc 1 4 64 304, .alloc 1 4 80 64]

/-- The callback frees the block at `q` when it is called for the one at `p`. -/
def freesFor (p q : Addr) : Destructor := fun _ _ p' _ => if p' = p then [q] else []

theorem takes_freesFor {p q a b : Addr} (h : s.Takes (freesFor p q) a b) :
    a = b ∨ a = p ∧ b = q := by
  have hpasses : ∀ {a b}, s.Passes (freesFor p q) a b → a = p ∧ b = q := by
    rintro a b ⟨x, i, cb, -, -, -, -, hq⟩
    unfold freesFor at hq
    split_ifs at hq with ha
    · exact ⟨ha, List.mem_singleton.mp hq⟩
    · exact absurd hq List.not_mem_nil
  obtain ⟨-, hpath⟩ := h
  induction hpath with
  | refl => exact Or.inl rfl
  | tail _ hstep ih =>
    obtain ⟨rfl, rfl⟩ := hpasses hstep.1
    obtain rfl | ⟨rfl, -⟩ := ih
    · exact Or.inr ⟨rfl, rfl⟩
    · exact Or.inr ⟨rfl, rfl⟩

/-- The callback for the block at 304 frees the one at 64, in `mem_free` and in `mem_free_all`. -/
theorem reentrant_iff_three : ∃ s, run wideX86 memInit threeBlocks = some s ∧
    s.Takes (freesFor 304 64) 304 64 ∧
    FreesOnce wideX86 s (fun x => s.Takes (freesFor 304 64) 304 x.2.pPtr)
      (memFreeNested wideX86 (freesFor 304 64) s 304) ∧
    FreesOnce wideX86 s (fun x => ∃ z, s.Kills (freesFor 304 64) 0 z x)
      (memFreeAllWith wideX86 (freesFor 304 64) s 0) := by
  have hops : GivenOnce [] [] [] threeBlocks := by simp [GivenOnce, threeBlocks]
  have hinit : Refines wideX86 memInit Registry.empty := refines_memInit
  obtain ⟨hfresh, hwhole⟩ := hops.run hinit takenFrom_memInit
  obtain ⟨s, hrun, href⟩ := run_refines refines_memInit hfresh
  have hintact := hwhole s hrun
  have hiff := reentrant_iff (Reachable.init.run hfresh hrun) (freesFor 304 64)
  refine ⟨s, hrun, ?_, (hiff.1 304).mpr fun x hx _ => hintact x hx,
    (hiff.2 0).mpr ⟨fun L hL => ?_, fun x hx _ => hintact x hx⟩⟩
  · obtain ⟨L, hL⟩ := href.inv.list
    have hbucket : L (hashPtr wideX86 304) =
        [(64, ⟨304, 4, false, 16⟩), (32, ⟨48, 4, false, 16⟩)] := by
      refine (hL.chain _).unique ?_
      obtain rfl := Option.some.inj hrun
      exact ⟨rfl, by decide, 32, rfl, rfl, by decide, 0, rfl, rfl⟩
    have hbucket' : L (hashPtr wideX86 64) = [(80, ⟨64, 4, false, 16⟩)] := by
      refine (hL.chain _).unique ?_
      obtain rfl := Option.some.inj hrun
      exact ⟨rfl, by decide, 0, rfl, rfl⟩
    have hx : s.list.HasEntry (64, ⟨304, 4, false, 16⟩) :=
      hL.hasEntry_iff.mpr ⟨_, by rw [hbucket]; exact List.mem_cons_self⟩
    have hy : s.list.HasEntry (80, ⟨64, 4, false, 16⟩) :=
      hL.hasEntry_iff.mpr ⟨_, by rw [hbucket']; exact List.mem_cons_self⟩
    have hkind : s.kind ⟨304, 4, false, 16⟩ = some ⟨1, [97], some 7⟩ := by
      obtain rfl := Option.some.inj hrun
      rfl
    refine (Reaches.refl (HasEntry.mem_ptrs hx)).tail ?_ (HasEntry.mem_ptrs hy)
    exact ⟨_, _, 7, hx, rfl, hkind, rfl, List.mem_singleton_self 64⟩
  · refine HashTable.sparesEvery_of_apart (fun i => (hL.keys i).of_map _) ?_
    rintro i x hx y hy ⟨-, -, htakes⟩
    obtain hsame | ⟨hxp, hyp⟩ := takes_freesFor htakes
    · exact href.inv.list.eq_of_key (hL.hasEntry_iff.mpr ⟨i, hx⟩)
        (hL.hasEntry_iff.mpr ⟨i, hy⟩) hsame
    · have hi := (hL.bucket i x hx).trans (hL.bucket i y hy).symm
      rw [hxp, hyp] at hi
      exact absurd hi (by decide)

/-- A type with a free callback that frees the block at 48 when it is called for the one at
    304. Both are in one bucket, the one at 304 in front. -/
def twoBlocks : List Op :=
  [.addType 1 [97] 16, .cbFree 1 (some 7), .alloc 1 4 32 48, .alloc 1 4 64 304]

theorem allFresh_twoBlocks : AllFresh wideX86 memInit twoBlocks := by
  have hops : GivenOnce [] [] [] twoBlocks := by simp [GivenOnce, twoBlocks]
  exact (hops.run refines_memInit takenFrom_memInit).1

/-- `mem_free_all` goes on at the entry of the block at 48 after the callback has freed it. -/
theorem memFreeAllWith_dangles :
    AllFresh wideX86 memInit twoBlocks ∧
    ∃ s, run wideX86 memInit twoBlocks = some s ∧
      memFreeAllWith wideX86 (fun _ _ p _ => if p = 304 then [48] else []) s 0 = none ∧
      ¬ FreesOnce wideX86 s
        (fun x => ∃ z, s.Kills (fun _ _ p _ => if p = 304 then [48] else []) 0 z x)
        (memFreeAllWith wideX86 (fun _ _ p _ => if p = 304 then [48] else []) s 0) := by
  obtain ⟨s, hrun, href⟩ := run_refines refines_memInit allFresh_twoBlocks
  have hnone : memFreeAllWith wideX86 (fun _ _ p _ => if p = 304 then [48] else []) s 0 = none := by
    refine (memFreeAllWith_spec href.inv 0).2 fun hspares => ?_
    obtain ⟨L, hL⟩ := href.inv.list
    obtain ⟨seen, hseen, hnext⟩ := (hspares L hL).bucket (hashPtr wideX86 48)
    have hbucket : L (hashPtr wideX86 48) =
        [(64, ⟨304, 4, false, 16⟩), (32, ⟨48, 4, false, 16⟩)] := by
      refine (hL.chain (hashPtr wideX86 48)).unique ?_
      obtain rfl := Option.some.inj hrun
      exact ⟨rfl, by decide, 32, rfl, rfl, by decide, 0, rfl, rfl⟩
    have hempty : seen = [] := by
      refine List.eq_nil_iff_forall_not_mem.mpr fun z hz => ?_
      obtain ⟨j, hj, hzj⟩ := hseen z hz
      have hc := hL.chain j
      have hhead : s.list.head j = 0 := by
        obtain rfl := Option.some.inj hrun
        show Function.update (Function.update (fun _ => (0 : Addr)) (hashPtr wideX86 48) 32)
          (hashPtr wideX86 304) 64 j = 0
        rw [show hashPtr wideX86 304 = hashPtr wideX86 48 by decide, Function.update_of_ne hj,
          Function.update_of_ne hj]
      rw [hhead] at hc
      rw [hc.eq_nil] at hzj
      exact List.not_mem_nil hzj
    rw [hbucket, hempty] at hnext
    have hx : s.list.HasEntry (64, ⟨304, 4, false, 16⟩) :=
      hL.hasEntry_iff.mpr ⟨hashPtr wideX86 48, by simp [hbucket]⟩
    have hy : s.list.HasEntry (32, ⟨48, 4, false, 16⟩) :=
      hL.hasEntry_iff.mpr ⟨hashPtr wideX86 48, by simp [hbucket]⟩
    have hkind : s.kind ⟨304, 4, false, 16⟩ = some ⟨1, [97], some 7⟩ := by
      obtain rfl := Option.some.inj hrun
      rfl
    refine hnext.1 (HashTable.left_nil _) [] _ [] rfl (by simp) (HashTable.left_nil _)
      ⟨hx, Or.inl rfl, (Reaches.refl (HasEntry.mem_ptrs hx)).tail ?_ (HasEntry.mem_ptrs hy)⟩
    exact ⟨_, _, 7, hx, rfl, hkind, rfl, by simp⟩
  refine ⟨allFresh_twoBlocks, s, hrun, hnone, ?_⟩
  rw [hnone]
  rintro ⟨s', l, hsome, -⟩
  exact absurd hsome (by simp)

end CompatSuva.Mem
