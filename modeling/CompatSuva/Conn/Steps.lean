import CompatSuva.Conn.Invariant

/-!
# The steps on a connection

One lemma for each function that works on an open connection: it returns, keeps
the invariant and has a stated effect on the tracked blocks.

* `setOpcode_spec`, `queueValue_spec`, `writeOut_spec`: the writing side. Only
  `queueValue_null` finds an element that is not live: `out_cur_ele` is null since
  an allocation has failed;
* `readPacket_spec`, `getValue_spec`, `getAdditionalPacketMem_spec`: the reading side.
-/

namespace CompatSuva.Conn

open CompatSuva.Common CompatSuva.Scl
open CompatSuva.Mem (Malloc Registry Tracked)

variable {wide : Byte → ℕ → BitVec 32} {p p' : Process} {A A' : Registry} {c : Addr}
variable {conn : SuvaConn} {l : List (Addr × SclEle)}

/-! ## Writing -/

/-- A field of the writing side changes that is no pointer to an element. -/
theorem setOut_spec (h : Inv wide p A) {out : OutConn}
    (hstart : out.outEleQueue = (p.writer.conns c).outEleQueue)
    (hcur : out.outCurEle = (p.writer.conns c).outCurEle) : Inv wide (p.setOut c out) A := by
  refine h.update h.mem rfl rfl (fun _ _ he => Or.inl ⟨he, rfl⟩) h.heap ?_ ?_
  · intro c' conn' hc'
    exact ⟨conn', hc', rfl, rfl, rfl, (h.conns c' conn' hc').1, rfl⟩
  · intro c' conn' hc'
    obtain ⟨l, hl⟩ := h.queue c' conn' hc'
    by_cases hcc : c' = c
    · subst hcc
      exact ⟨l, hl.frame (by simpa using hstart) (by simpa using hcur) (fun _ _ _ => rfl)
        fun _ => Iff.rfl⟩
    · have hsame := p.setOut_conns_ne out hcc
      exact ⟨l, hl.frame (by rw [hsame]) (by rw [hsame]) (fun _ _ _ => rfl) fun _ => Iff.rfl⟩

theorem setOut_effect (p : Process) (A : Registry) (c : Addr) (out : OutConn)
    (made freed : Maker → Prop) : Effect made freed p A (p.setOut c out) A :=
  ⟨List.prefix_refl _, fun _ _ he _ => ⟨he, rfl⟩, fun _ _ he => Or.inl ⟨he, rfl⟩,
    fun _ conn hc _ => ⟨conn, hc, rfl⟩⟩

theorem setOpcode_spec (h : Inv wide p A) (hc : p.conns.get c = some conn) (opcode : BitVec 32) :
    ∃ p', p.setOpcode wide c opcode = .ok p' ∧ Inv wide p' A ∧
      (∀ made freed, Effect made freed p A p' A) ∧ p'.conns = p.conns ∧
      (p'.writer.conns c).outCurEle = (p.writer.conns c).outCurEle := by
  refine ⟨p.setOut c { p.writer.conns c with outPacketOpcode := opcode }, ?_, setOut_spec h rfl rfl,
    setOut_effect p A c _, rfl, by simp⟩
  simp only [Process.setOpcode, h.conn_ok hc, ok_bind]

/-- What `scl_queue_value` does to the elements: the one at `out_cur_ele` is filled
    and linked to the new one. -/
theorem sclQueueValue_spec (w : Writer Addr) {c cur : Addr} {ele : Node SclEle}
    (hcur : (w.conns c).outCurEle = cur) (hele : w.heap.get cur = some ele) (val : Obj)
    (type : SclType) (arrayLen : ℤ) {core : Addr} (hne : core ≠ cur) :
    ∃ w', sclQueueValue w c val type arrayLen core = some w' ∧
      w'.heap.get cur = some ⟨⟨val, type, arrayLen⟩, core⟩ ∧
      (core ≠ 0 → w'.heap.get core = some ⟨SclEle.zero, 0⟩) ∧
      (∀ a, a ≠ cur → core = 0 ∨ a ≠ core → w'.heap.get a = w.heap.get a) ∧
      (w'.conns c).outEleQueue = (w.conns c).outEleQueue ∧ (w'.conns c).outCurEle = core ∧
      ∀ c', c' ≠ c → w'.conns c' = w.conns c' := by
  subst hcur
  unfold sclQueueValue sclAllocEle
  simp only [hele, Option.bind_eq_bind, Option.bind_some]
  by_cases hcore : core = 0
  · subst hcore
    simp only [if_true, Heap.get_set, Option.bind_some]
    refine ⟨_, rfl, Heap.get_set _ _ _, fun h => absurd rfl h, ?_, ?_, ?_, ?_⟩
    · intro a ha _
      rw [Heap.get_set_ne _ _ ha, Heap.get_set_ne _ _ ha]
    · simp
    · simp
    · intro c' hc'
      simp [Function.update_of_ne hc']
  · simp only [if_neg hcore, Heap.get_set_ne _ _ hne.symm, Heap.get_set, Option.bind_some]
    refine ⟨_, rfl, Heap.get_set _ _ _, fun _ => ?_, ?_, ?_, ?_, ?_⟩
    · rw [Heap.get_set_ne _ _ hne, Heap.get_set]
    · intro a ha hor
      have hac : a ≠ core := hor.resolve_left hcore
      rw [Heap.get_set_ne _ _ ha, Heap.get_set_ne _ _ hac, Heap.get_set_ne _ _ ha]
    · simp
    · simp
    · intro c' hc'
      simp [Function.update_of_ne hc']

/-- `scl_queue_value` on a connection whose `out_cur_ele` is null. -/
theorem queueValue_null (h : Inv wide p A) (hc : p.conns.get c = some conn)
    (hcur : (p.writer.conns c).outCurEle = 0) (q : Queued) (m : Option (Malloc × Malloc)) :
    p.queueValue wide c q m = .error (.element 0) := by
  have hnone := h.heap_none (Mem.ptrs_zero h.mem)
  simp only [Process.queueValue, h.conn_ok hc, ok_bind, hcur, Process.element, hnone, error_bind]

/-- The queue after `scl_queue_value`, with `core` the new element or null. -/
theorem Queue.queued {n : ℕ} {l' : List (Addr × SclEle)} {cur core : Addr} {z ele : SclEle}
    {type : BitVec 32} (h : Queue p A c n (l' ++ [(cur, z)]))
    (hal : Allocated p A (.element n) type core p' A') (hzero : A'.ptrs 0 = none)
    (hfresh : core ≠ 0 → p.writer.heap.get core = none) {w' : Writer Addr}
    (hfill : w'.heap.get cur = some ⟨ele, core⟩)
    (hnew : core ≠ 0 → w'.heap.get core = some ⟨SclEle.zero, 0⟩)
    (hother : ∀ a, a ≠ cur → core = 0 ∨ a ≠ core → w'.heap.get a = p.writer.heap.get a)
    (hstart : (w'.conns c).outEleQueue = (p.writer.conns c).outEleQueue)
    (hcur : (w'.conns c).outCurEle = core) :
    ∃ l, Queue { p' with writer := w' } A' c n l := by
  have hmem : ∀ a, a ∈ (l' ++ [(cur, z)]).map Prod.fst →
      (A'.ptrs a).isSome ∧ p'.maker a = some (.element n) := by
    intro a ha
    obtain ⟨hptr, hmk⟩ := (h.mem_iff a).mp ha
    obtain ⟨hp, hk⟩ := hal.old a hptr
    exact ⟨hp ▸ hptr, hk.trans hmk⟩
  have hnow : ∀ a, (A'.ptrs a).isSome ∧ p'.maker a = some (.element n) →
      a ∈ (l' ++ [(cur, z)]).map Prod.fst ∨ a = core := by
    intro a ha
    obtain ⟨e, he⟩ := Option.isSome_iff_exists.mp ha.1
    rcases hal.now a e he with ⟨he₀, hk⟩ | ⟨hcore, -, -⟩
    · exact Or.inl ((h.mem_iff a).mpr ⟨by simp [he₀], hk ▸ ha.2⟩)
    · exact Or.inr hcore
  by_cases hcore : core = 0
  · subst hcore
    refine ⟨l' ++ [(cur, ele)], by simp, ?_, ?_, Or.inl hcur⟩
    · rw [hstart]
      exact h.chain.setLast hfill fun a ha => hother a ha (Or.inl rfl)
    · intro a
      have hsame : (l' ++ [(cur, ele)]).map Prod.fst = (l' ++ [(cur, z)]).map Prod.fst := by simp
      rw [hsame]
      refine ⟨hmem a, fun ha => (hnow a ha).resolve_right ?_⟩
      rintro rfl
      simp [hzero] at ha
  · refine ⟨l' ++ [(cur, ele)] ++ [(core, SclEle.zero)], by simp, ?_, ?_,
      Or.inr ⟨_, _, by rw [hcur]⟩⟩
    · rw [hstart]
      exact h.chain.snoc hcore (hfresh hcore) hfill (hnew hcore) fun a ha hac =>
        hother a ha (Or.inr hac)
    · intro a
      have hsplit : a ∈ (l' ++ [(cur, ele)] ++ [(core, SclEle.zero)]).map Prod.fst ↔
          a ∈ (l' ++ [(cur, z)]).map Prod.fst ∨ a = core := by
        simp [or_assoc]
      rw [hsplit]
      refine ⟨?_, hnow a⟩
      rintro (ha | rfl)
      · exact hmem a ha
      · exact ⟨(hal.fresh hcore).2.1, (hal.fresh hcore).2.2⟩

/-- `scl_queue_value` fills the last element and appends a new one, unless
    `mem_alloc` fails. -/
theorem queueValue_spec (h : Inv wide p A) (hc : p.conns.get c = some conn)
    (hcur : (p.writer.conns c).outCurEle ≠ 0) (q : Queued) (m : Option (Malloc × Malloc)) :
    ∃ p' A', p.queueValue wide c q m = .ok p' ∧ Inv wide p' A' ∧
      Effect (· = .element conn.number) (fun _ => False) p A p' A' ∧ p'.conns = p.conns ∧
      ((p'.writer.conns c).outCurEle = 0 ↔ m = none) := by
  obtain ⟨-, -, hget⟩ := h.conns c conn hc
  have ht : (Maker.element conn.number).type p.ids = some conn.outMemId := by
    simp [Maker.type, hget]
  obtain ⟨l, hl⟩ := h.queue c conn hc
  obtain ⟨l', z, rfl⟩ := hl.cur.resolve_left hcur
  obtain ⟨-, hele⟩ := hl.chain.get_last
  generalize hcurdef : (p.writer.conns c).outCurEle = cur at hcur hele hl
  obtain ⟨hcurptr, hcurmk⟩ := (hl.mem_iff cur).mp (by simp)
  obtain ⟨core, p₁, A₁, halloc, href, hal, hm⟩ :=
    memAlloc_spec h.mem conn.outMemId sclEleSize m (.element conn.number)
  have hreg : A.types conn.outMemId ≠ none := Option.isSome_iff_ne_none.mp (h.types_isSome ht)
  have hne : core ≠ cur := by
    rintro rfl
    simp [(hal.fresh hcur).1] at hcurptr
  have hcur₁ : (p₁.writer.conns c).outCurEle = cur := by rw [hal.writer, hcurdef]
  have hele₁ : p₁.writer.heap.get cur = some ⟨z, 0⟩ := by rw [hal.writer, hele]
  obtain ⟨w', hrun, hfill, hnew, hother, hstart', hcur', hconns'⟩ :=
    sclQueueValue_spec p₁.writer hcur₁ hele₁ q.object q.value.type q.arrayLen hne
  rw [hal.writer] at hother hstart' hconns'
  refine ⟨{ p₁ with writer := w' }, A₁, ?_, ?_, ?_, hal.conns, by simp [hcur', hm, hreg]⟩
  · simp only [Process.queueValue, h.conn_ok hc, ok_bind, hcurdef, element_ok h.mem hcurptr hele,
      halloc, hrun, orFault_some]
  · refine hal.inv h href ht w' ?_ ?_
    · intro b hb
      by_cases hbcur : b = cur
      · exact Or.inl (by simp [hbcur, hele])
      by_cases hbcore : core = 0 ∨ b ≠ core
      · exact Or.inl (hother b hbcur hbcore ▸ hb)
      · obtain ⟨hcore, rfl⟩ : core ≠ 0 ∧ b = core := by simpa using hbcore
        exact Or.inr ⟨(hal.fresh hcore).2.1, _, (hal.fresh hcore).2.2⟩
    · intro c' conn' hc'
      by_cases hcc : c' = c
      · subst hcc
        rw [hc] at hc'
        obtain rfl := Option.some.inj hc'
        exact hl.queued hal (Mem.ptrs_zero href)
          (fun hcore => h.heap_none (hal.fresh hcore).1) hfill
          hnew hother hstart' hcur'
      · have hn : conn.number ≠ conn'.number := fun hn => hcc (h.unique c c' _ _ hc hc' hn).symm
        obtain ⟨l, hl'⟩ := h.queue c' conn' hc'
        refine ⟨l, hl'.frame (by simp only [hconns' c' hcc]) (by simp only [hconns' c' hcc]) ?_
          (hal.elements (by simpa using hn))⟩
        intro b hptr hmk
        apply hother b
        · rintro rfl
          rw [hcurmk] at hmk
          exact hn (by simpa using hmk)
        · by_contra hcore
          obtain ⟨hcore, rfl⟩ : core ≠ 0 ∧ b = core := by simpa using hcore
          simp [(hal.fresh hcore).1] at hptr
  · exact ⟨hal.effect.ids, hal.effect.kept, hal.effect.new, hal.effect.conns⟩

/-- Writing leaves the queue of a connection where it is. -/
theorem foldl_fwrite_ends (bufs : List (List Byte)) (out : OutConn) :
    (bufs.foldl OutConn.fwrite out).outEleQueue = out.outEleQueue ∧
      (bufs.foldl OutConn.fwrite out).outCurEle = out.outCurEle := by
  induction bufs generalizing out with
  | nil => exact ⟨rfl, rfl⟩
  | cons buf bufs ih => exact ih (out.fwrite buf)

/-- The loop of `scl_write_out` releases the elements up to the last one. -/
theorem writeOutLoop_spec {cur t : Addr} {z : SclEle} (hmem : Mem.Refines wide p.mem A)
    (hchain : IsChain p.writer.heap cur (l ++ [(t, z)]))
    (hptrs : ∀ a ∈ (l ++ [(t, z)]).map Prod.fst, (A.ptrs a).isSome) {fuel : ℕ}
    (hfuel : l.length < fuel) :
    ∃ p' A', p.writeOutLoop wide fuel c cur = .ok (p', t) ∧ Mem.Refines wide p'.mem A' ∧
      Released p A (l.map Prod.fst) p' A' ∧
      (∀ c', c' ≠ c → p'.writer.conns c' = p.writer.conns c') ∧
      (p'.writer.conns c).outCurEle = (p.writer.conns c).outCurEle := by
  have hnd := hchain.nodup
  induction l generalizing p A cur fuel with
  | nil =>
    obtain ⟨f, rfl⟩ := Nat.exists_eq_add_one_of_ne_zero (Nat.ne_zero_of_lt hfuel)
    obtain ⟨rfl, -, q, hq, hq0⟩ := hchain
    obtain rfl : q = 0 := hq0
    refine ⟨p, A, ?_, hmem, ⟨rfl, rfl, rfl, by simp, fun _ _ => ⟨rfl, rfl, rfl⟩⟩,
      fun _ _ => rfl, rfl⟩
    unfold Process.writeOutLoop
    rw [element_ok hmem (hptrs cur (by simp)) hq]
    simp
  | cons x l ih =>
    obtain ⟨f, rfl⟩ := Nat.exists_eq_add_one_of_ne_zero (Nat.ne_zero_of_lt hfuel)
    obtain ⟨rfl, -, q, hq, hrest⟩ := hchain
    have hq0 : q ≠ 0 := by
      rintro rfl
      simpa using hrest.eq_nil
    rw [List.cons_append, List.map_cons, List.nodup_cons] at hnd
    obtain ⟨hx, hnd⟩ := hnd
    generalize hout : (sclWriteValue x.2.object x.2.type x.2.arrayLen).foldl OutConn.fwrite
      (p.writer.conns c) = out
    obtain ⟨p₁, A₁, hfree, hmem₁, hrel₁, hout₁, -⟩ := memFree_spec (p := p.setOut c out) hmem x.1
    have hsame : ∀ a ∈ (l ++ [(t, z)]).map Prod.fst, A₁.ptrs a = A.ptrs a ∧
        p₁.writer.heap.get a = p.writer.heap.get a := by
      intro a ha
      obtain ⟨hp, hh, -⟩ := hrel₁.same a fun hax => hx (List.mem_singleton.mp hax ▸ ha)
      exact ⟨hp, hh⟩
    have hrest₁ : IsChain p₁.writer.heap q (l ++ [(t, z)]) :=
      hrest.congr fun y hy => (hsame y.1 (List.mem_map_of_mem hy)).2
    have hptrs₁ : ∀ a ∈ (l ++ [(t, z)]).map Prod.fst, (A₁.ptrs a).isSome := by
      intro a ha
      rw [(hsame a ha).1]
      exact hptrs a (List.mem_cons_of_mem _ ha)
    obtain ⟨p', A', hrun, hmem', hrel, hother, hcur⟩ :=
      ih hmem₁ hrest₁ hptrs₁ (show l.length < f by simp at hfuel; omega) hnd
    refine ⟨p', A', ?_, hmem', ?_, ?_, ?_⟩
    · unfold Process.writeOutLoop
      rw [element_ok hmem (hptrs x.1 (by simp)) hq]
      simp only [ok_bind, if_neg hq0, hout, hfree, hrun]
    · exact Released.cons ⟨hrel₁.types, hrel₁.ids, hrel₁.maker, hrel₁.gone, hrel₁.same⟩ hrel
    · intro c' hc'
      rw [hother c' hc', hout₁]
      exact p.setOut_conns_ne out hc'
    · rw [hcur, hout₁, Process.setOut_conns_self, ← hout]
      exact (foldl_fwrite_ends _ _).2

/-- The elements of a queue that are left when all but the last have been released. -/
theorem Released.elements_last {n : ℕ} {t : Addr} {z : SclEle}
    (hrel : Released p A (l.map Prod.fst) p' A') (hl : Queue p A c n (l ++ [(t, z)])) (a : Addr) :
    (A'.ptrs a).isSome ∧ p'.maker a = some (.element n) ↔ a = t := by
  have hfst : ∀ a, a ∈ (l ++ [(t, z)]).map Prod.fst ↔ a ∈ l.map Prod.fst ∨ a = t := by
    intro a
    simp
  rw [hrel.maker]
  constructor
  · intro ha
    obtain ⟨e, he⟩ := Option.isSome_iff_exists.mp ha.1
    obtain ⟨he₀, hal⟩ := hrel.ptrs he
    exact ((hfst a).mp ((hl.mem_iff a).mpr ⟨by simp [he₀], ha.2⟩)).resolve_left hal
  · rintro rfl
    obtain ⟨hptr, hk⟩ := (hl.mem_iff a).mp ((hfst a).mpr (Or.inr rfl))
    exact ⟨(hrel.same a hl.chain.last_not_mem).1 ▸ hptr, hk⟩

/-- The queue that is left is its last element. -/
theorem Released.queue_last {n : ℕ} {t : Addr} {z : SclEle}
    (hrel : Released p A (l.map Prod.fst) p' A') (hl : Queue p A c n (l ++ [(t, z)]))
    (hstart : (p'.writer.conns c).outEleQueue = t)
    (hcur : (p'.writer.conns c).outCurEle = (p.writer.conns c).outCurEle) :
    Queue p' A' c n [(t, z)] := by
  obtain ⟨ht0, hheap⟩ := hl.chain.get_last
  refine ⟨by simp, ?_, ?_, ?_⟩
  · rw [hstart]
    exact ⟨rfl, ht0, 0, (hrel.same t hl.chain.last_not_mem).2.1.trans hheap, rfl⟩
  · intro a
    rw [List.map_singleton, List.mem_singleton]
    exact (hrel.elements_last hl a).symm
  · rw [hcur]
    apply hl.cur.imp_right
    rintro ⟨l', z', heq⟩
    obtain ⟨-, hlast⟩ := List.append_inj' heq rfl
    exact ⟨[], z', hlast⟩

/-- `scl_write_out` releases all elements of the queue but the last. -/
theorem writeOut_spec (h : Inv wide p A) (hc : p.conns.get c = some conn) :
    ∃ p' A', p.writeOut wide c = .ok p' ∧ Inv wide p' A' ∧
      Effect (fun _ => False) (· = .element conn.number) p A p' A' ∧
      p'.conns.get c = some conn ∧
      (p'.writer.conns c).outCurEle = (p.writer.conns c).outCurEle ∧
      ∀ a, (A'.ptrs a).isSome ∧ p'.maker a = some (.element conn.number) ↔
        a = (p'.writer.conns c).outEleQueue := by
  obtain ⟨l, hl⟩ := h.queue c conn hc
  obtain ⟨l, ⟨t, z⟩, rfl⟩ : ∃ l₀ x, l = l₀ ++ [x] :=
    ⟨l.dropLast, l.getLast hl.ne_nil, (List.dropLast_append_getLast hl.ne_nil).symm⟩
  have hmk : ∀ a ∈ l.map Prod.fst, p.maker a = some (.element conn.number) := by
    intro a ha
    exact ((hl.mem_iff a).mp (by simpa using Or.inl (by simpa using ha))).2
  -- the header goes out first
  have hends := foldl_fwrite_ends (p.writer.conns c).header (p.writer.conns c)
  generalize hout : (p.writer.conns c).header.foldl OutConn.fwrite (p.writer.conns c) = out at hends
  have hfuel : l.length < p.writer.heap.size + 1 := by
    have := hl.chain.length_le_size
    simp at this
    omega
  obtain ⟨p₁, A₁, hrun, hmem, hrel, hother, hcur⟩ :=
    writeOutLoop_spec (p := p.setOut c out) (c := c)
    h.mem (hl.chain : IsChain p.writer.heap _ _) (fun a ha => ((hl.mem_iff a).mp ha).1) hfuel
  rw [Process.setOut_conns_self, hends.2] at hcur
  generalize hout' : ({ p₁.writer.conns c with outEleQueue := t, outPacketLen := 0 } : OutConn) =
    out'
  have hcur' : out'.outCurEle = (p.writer.conns c).outCurEle := by rw [← hout', hcur]
  have hstart' : out'.outEleQueue = t := by rw [← hout']
  -- the last element is the queue that is left
  generalize hp' : ({ p₁.setOut c out' with
    writer := { (p₁.setOut c out').writer with curEle := t } } : Process) = p'
  have hself : p'.writer.conns c = out' := by
    rw [← hp']
    exact p₁.setOut_conns_self c out'
  have hrel' : Released p A (l.map Prod.fst) p' A₁ := by
    rw [← hp']
    exact ⟨hrel.types, hrel.ids, hrel.maker, hrel.gone, hrel.same⟩
  have hleft : Queue p' A₁ c conn.number [(t, z)] :=
    hrel'.queue_last hl (by rw [hself, hstart']) (by rw [hself, hcur'])
  have heff : Effect (fun _ => False) (· = .element conn.number) p A p' A₁ :=
    hrel'.effect h fun a ha => ⟨_, hmk a ha, rfl⟩
  have hcL : c ∉ l.map Prod.fst := by
    intro hcL
    have hk := (h.conns c conn hc).2.1
    rw [hmk c hcL] at hk
    simp at hk
  refine ⟨p', A₁, ?_, hrel'.inv h ?_ ?_, heff, (hrel'.same c hcL).2.2.trans hc,
    by rw [hself, hcur'], ?_⟩
  · simp only [Process.writeOut, h.conn_ok hc, ok_bind, hout, Process.setOut_conns_self, hends.1]
    show (Process.writeOutLoop wide (p.writer.heap.size + 1) (p.setOut c out) c _ >>= _) = _
    rw [hrun]
    simp only [ok_bind, hout', hp']
  · rw [← hp']
    exact hmem
  · intro c' conn' hc'
    have hc₀ : p.conns.get c' = some conn' := by
      by_cases hcL : c' ∈ l.map Prod.fst
      · simp [(hrel'.gone c' hcL).2.2] at hc'
      · exact (hrel'.same c' hcL).2.2 ▸ hc'
    by_cases hcc : c' = c
    · subst hcc
      rw [hc] at hc₀
      obtain rfl := Option.some.inj hc₀
      exact ⟨_, hleft⟩
    · have hn : conn.number ≠ conn'.number := fun hn => hcc (h.unique c c' _ _ hc hc₀ hn).symm
      obtain ⟨l', hl'⟩ := h.queue c' conn' hc₀
      have hsame : p'.writer.conns c' = p.writer.conns c' := by
        rw [← hp']
        exact (p₁.setOut_conns_ne out' hcc).trans
          ((hother c' hcc).trans (p.setOut_conns_ne out hcc))
      refine ⟨l', hrel'.queue hl' (fun a ha => ?_) (by rw [hsame]) (by rw [hsame])⟩
      rw [hmk a ha]
      simpa using hn
  · rw [hself, hstart']
    exact hrel'.elements_last hl

/-! ## Reading -/

/-- The reader of a connection moves on. -/
theorem setConn_spec (h : Inv wide p A) (hc : p.conns.get c = some conn) (reader : InConn)
    (evs : List ReadEvent) :
    Inv wide { p with conns := p.conns.set c { conn with reader := reader, evs := evs } } A ∧
      ∀ made freed, Effect made freed p A
        { p with conns := p.conns.set c { conn with reader := reader, evs := evs } } A := by
  have hget : ∀ c' conn',
      (p.conns.set c { conn with reader := reader, evs := evs }).get c' = some conn' →
      ∃ conn₀, p.conns.get c' = some conn₀ ∧ conn'.number = conn₀.number ∧
        conn'.inMemId = conn₀.inMemId ∧ conn'.outMemId = conn₀.outMemId := by
    intro c' conn' hc'
    by_cases hcc : c' = c
    · subst hcc
      rw [Heap.get_set] at hc'
      obtain rfl := Option.some.inj hc'
      exact ⟨conn, hc, rfl, rfl, rfl⟩
    · rw [Heap.get_set_ne _ _ hcc] at hc'
      exact ⟨conn', hc', rfl, rfl, rfl⟩
  constructor
  · refine h.update h.mem rfl rfl (fun _ _ he => Or.inl ⟨he, rfl⟩) h.heap ?_ ?_
    · intro c' conn' hc'
      obtain ⟨conn₀, hc₀, hnum, hin, hout⟩ := hget c' conn' hc'
      exact ⟨conn₀, hc₀, hnum, hin, hout, (h.conns c' conn₀ hc₀).1, rfl⟩
    · intro c' conn' hc'
      obtain ⟨conn₀, hc₀, hnum, -⟩ := hget c' conn' hc'
      obtain ⟨l, hl⟩ := h.queue c' conn₀ hc₀
      rw [hnum]
      exact ⟨l, hl.frame rfl rfl (fun _ _ _ => rfl) fun _ => Iff.rfl⟩
  · intro made freed
    refine ⟨List.prefix_refl _, fun _ _ he _ => ⟨he, rfl⟩, fun _ _ he => Or.inl ⟨he, rfl⟩, ?_⟩
    intro c' conn' hc' _
    by_cases hcc : c' = c
    · subst hcc
      rw [hc] at hc'
      obtain rfl := Option.some.inj hc'
      exact ⟨_, Heap.get_set _ _ _, rfl⟩
    · exact ⟨conn', (Heap.get_set_ne _ _ hcc).trans hc', rfl⟩

/-- The memory of a packet is released and the new block is the connection's. -/
theorem newPacket_spec (h : Inv wide p A) (hc : p.conns.get c = some conn) (header : List Byte)
    (m : Option (Malloc × Malloc)) :
    ∃ a p' A', p.newPacket wide c header m = .ok (a, p') ∧ Inv wide p' A' ∧
      Effect (Maker.Reads conn.number) (Maker.Reads conn.number) p A p' A' ∧
      p'.conns = p.conns ∧ p'.writer = p.writer ∧ (a = 0 ↔ m = none) := by
  obtain ⟨p₁, A₁, hfree, h₁, heff₁, hconns₁, hwriter₁, -⟩ := freePacketMem_spec h hc
  have hc₁ : p₁.conns.get c = some conn := hconns₁ ▸ hc
  obtain ⟨-, -, hget⟩ := h₁.conns c conn hc₁
  have ht : (Maker.packet conn.number).type p₁.ids = some conn.inMemId := by
    simp [Maker.type, hget]
  obtain ⟨a, p₂, A₂, halloc, h₂, hal, hm⟩ := alloc_spec h₁ ht (by simp) (headerWord header 3) m
  refine ⟨a, p₂, A₂, ?_, h₂, ?_, hal.conns.trans hconns₁, hal.writer.trans hwriter₁, hm⟩
  · simp only [Process.newPacket, h.conn_ok hc, ok_bind, hfree, halloc]
  · have heff₂ : Effect (Maker.Reads conn.number) (Maker.Reads conn.number) p₁ A₁ p₂ A₂ :=
      hal.effect.mono (fun mk hmk => Or.inl hmk) (fun _ hf => hf.elim)
    exact (heff₁.mono (fun _ hf => hf.elim) fun _ hmk => hmk).trans heff₂

/-- `scl_read_packet` replaces the memory of the last packet, if the process is still there
    behind its reads. -/
theorem readPacket_spec (h : Inv wide p A) (hc : p.conns.get c = some conn)
    (m : Option (Malloc × Malloc)) (junk : Memory) :
    ∃ p₁ A₁ alloc, Inv wide p₁ A₁ ∧
      Effect (Maker.Reads conn.number) (Maker.Reads conn.number) p A p₁ A₁ ∧
      p₁.writer = p.writer ∧ p₁.conns = p.conns ∧
      (∀ header, sclRead headerLen conn.evs = some header → header.ret = headerLen → m ≠ none →
        alloc = true) ∧
      p.readPacket wide c m junk =
        orFault .other (sclReadPacket conn.reader alloc junk conn.evs) >>= fun r =>
          .ok (r.1, { p₁ with
            conns := p₁.conns.set c { conn with reader := r.2.1, evs := r.2.2 } }) := by
  cases hread : sclRead headerLen conn.evs with
  | none =>
    refine ⟨p, A, true, h, Effect.refl, rfl, rfl, fun _ _ _ _ => rfl, ?_⟩
    simp only [Process.readPacket, h.conn_ok hc, ok_bind, hread, sclReadPacket_of_none hread,
      orFault_none, error_bind]
  | some header =>
    by_cases hheader : header.ret = headerLen
    · obtain ⟨a, p₁, A₁, hnew, h₁, heff₁, hconns₁, hwriter₁, hm⟩ :=
        newPacket_spec h hc header.got m
      refine ⟨p₁, A₁, decide (a ≠ 0), h₁, heff₁, hwriter₁, hconns₁, fun _ _ _ hmn => ?_, ?_⟩
      · simpa [hm] using hmn
      · simp only [Process.readPacket, h.conn_ok hc, ok_bind, hread, orFault_some, if_pos hheader,
          hnew]
    · refine ⟨p, A, decide ((0 : Addr) ≠ 0), h, Effect.refl, rfl, rfl, ?_, ?_⟩
      · rintro _ ⟨⟩ hok
        exact absurd hok hheader
      · simp only [Process.readPacket, h.conn_ok hc, ok_bind, hread, orFault_some, if_neg hheader]

/-- `scl_get_value` may allocate the pointers of a string array. -/
theorem getValue_spec (h : Inv wide p A) (hc : p.conns.get c = some conn) (type : SclType)
    (withLen : Bool) (m : Option (Malloc × Malloc)) :
    ∃ p₁ A₁ table, Inv wide p₁ A₁ ∧
      Effect (Maker.Reads conn.number) (Maker.Reads conn.number) p A p₁ A₁ ∧
      p₁.writer = p.writer ∧ p₁.conns = p.conns ∧
      p.getValue wide c type withLen m =
        orFault .other (sclGetValue conn.reader type withLen table) >>= fun r =>
          .ok (r.1, { p₁ with conns := p₁.conns.set c { conn with reader := r.2.2 } }) := by
  by_cases hA : type = .stringA ∧ withLen = true
  · obtain ⟨-, -, hget⟩ := h.conns c conn hc
    have ht : (Maker.pointers conn.number).type p.ids = some conn.inMemId := by
      simp [Maker.type, hget]
    obtain ⟨a, p₁, A₁, halloc, h₁, hal, -⟩ := alloc_spec h ht (by simp)
      (BitVec.ofInt 32 (8 * intOf (load conn.reader.mem conn.reader.cursor 4))) m
    refine ⟨p₁, A₁, decide (a ≠ 0), h₁, ?_, hal.writer, hal.conns, ?_⟩
    · exact hal.effect.mono (fun mk hmk => Or.inr hmk) fun _ hf => hf.elim
    · simp only [Process.getValue, h.conn_ok hc, ok_bind, if_pos hA, Process.newTable, halloc]
  · refine ⟨p, A, decide ((0 : Addr) ≠ 0), h, Effect.refl, rfl, rfl, ?_⟩
    simp only [Process.getValue, h.conn_ok hc, ok_bind, if_neg hA]

/-- `get_additional_packet_mem` allocates a block that nothing releases. -/
theorem getAdditionalPacketMem_spec (h : Inv wide p A) (hc : p.conns.get c = some conn)
    (size : BitVec 32) (m : Option (Malloc × Malloc)) :
    ∃ a p' A', p.getAdditionalPacketMem wide c size m = .ok (a, p') ∧ Inv wide p' A' ∧
      Allocated p A (.additional conn.number) conn.outMemId a p' A' ∧ (a = 0 ↔ m = none) := by
  obtain ⟨-, -, hget⟩ := h.conns c conn hc
  have ht : (Maker.additional conn.number).type p.ids = some conn.outMemId := by
    simp [Maker.type, hget]
  obtain ⟨a, p₁, A₁, halloc, h₁, hal, hm⟩ := alloc_spec h ht (by simp) size m
  refine ⟨a, p₁, A₁, ?_, h₁, hal, hm⟩
  simp only [Process.getAdditionalPacketMem, h.conn_ok hc, ok_bind, halloc]

end CompatSuva.Conn
