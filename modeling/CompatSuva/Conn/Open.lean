import CompatSuva.Conn.Requests

/-!
# Opening a connection

What `open_suva_conn` does to a process, whichever of its steps fails.

* `Unchanged`: a clean-up that leaves everything tracked as it was;
* `addTypeLoop_spec`: the id loops end with an id that was not registered;
* `Registered`, `Joined`: a connection with its struct and ids, and with its first element;
* `setUp_spec`, `Joined.inv`: the new connection joins the invariant;
* `handshake_spec`: the exchange with `suvad` leaves an element of the new queue
  behind, whether it succeeds or not;
* `openSuvaConn_spec`: all of it. A failure before the memory ids are set up
  (`Opening.Early`) leaves the tracked blocks as they were and no socket.
-/

namespace CompatSuva.Conn

open CompatSuva.Common CompatSuva.Scl
open CompatSuva.Mem (Malloc MemState Registry Tracked)

variable {wide : Byte → ℕ → BitVec 32} {p p' p₁ : Process} {A A' A₁ : Registry} {c core : Addr}
variable {E : Fault → Prop}

/-- What `open_suva_conn` allocates and releases for connection `n`. -/
def Maker.Opens (n : ℕ) (mk : Maker) : Prop := mk = .conn n ∨ mk.Passing n

/-- The blocks there are belong to connections that have been set up. -/
theorem Inv.not_opens (h : Inv wide p A) {a : Addr} {e : Tracked} (he : A.ptrs a = some e)
    {mk : Maker} (hmk : p.maker a = some mk) : ¬ mk.Opens p.ids.length := by
  obtain ⟨mk', hmk', ht⟩ := h.typed a e he
  rw [hmk] at hmk'
  obtain rfl := Option.some.inj hmk'
  rintro (rfl | rfl | rfl | rfl)
  all_goals simp [Maker.type] at ht

/-! ## What is left alone -/

/-- What is tracked in `(p', A')` is what is tracked in `(p, A)`. -/
structure Unchanged (p : Process) (A : Registry) (p' : Process) (A' : Registry) : Prop where
  types : A'.types = A.types
  ids : p'.ids = p.ids
  ptrs : A'.ptrs = A.ptrs
  maker : ∀ b, (A.ptrs b).isSome → p'.maker b = p.maker b
  heap : ∀ b, p'.writer.heap.get b = p.writer.heap.get b
  conns : ∀ b, p'.conns.get b = p.conns.get b
  out : p'.writer.conns = p.writer.conns

namespace Unchanged

theorem queue (h : Unchanged p A p' A') {n : ℕ} {l : List (Addr × SclEle)} (hl : Queue p A c n l) :
    Queue p' A' c n l := by
  refine hl.frame (by rw [h.out]) (by rw [h.out]) (fun b _ _ => h.heap b) fun b => ?_
  rw [h.ptrs]
  constructor
  · intro hb
    exact ⟨hb.1, (h.maker b hb.1).symm.trans hb.2⟩
  · intro hb
    exact ⟨hb.1, (h.maker b hb.1).trans hb.2⟩

theorem inv (h : Unchanged p A p' A') (hp : Inv wide p A) (hmem : Mem.Refines wide p'.mem A') :
    Inv wide p' A' := by
  refine hp.update hmem h.types h.ids ?_ ?_ ?_ ?_
  · intro b e he
    rw [h.ptrs] at he
    exact Or.inl ⟨he, h.maker b (by simp [he])⟩
  · intro b hb
    rw [h.heap] at hb
    obtain ⟨hptr, m, hk⟩ := hp.heap b hb
    rw [h.ptrs, h.maker b hptr]
    exact ⟨hptr, m, hk⟩
  · intro c' conn hc'
    rw [h.conns] at hc'
    obtain ⟨hptr, -, -⟩ := hp.conns c' conn hc'
    rw [h.ptrs]
    exact ⟨conn, hc', rfl, rfl, rfl, hptr, h.maker c' hptr⟩
  · intro c' conn hc'
    rw [h.conns] at hc'
    obtain ⟨l, hl⟩ := hp.queue c' conn hc'
    exact ⟨l, h.queue hl⟩

theorem effect (h : Unchanged p A p' A') (made freed : Maker → Prop) :
    Effect made freed p A p' A' where
  ids := by
    rw [h.ids]
  kept b e he _ := by
    rw [h.ptrs]
    exact ⟨he, h.maker b (by simp [he])⟩
  new b e he := by
    rw [h.ptrs] at he
    exact Or.inl ⟨he, h.maker b (by simp [he])⟩
  conns c' conn hc' _ := ⟨conn, (h.conns c').trans hc', rfl⟩

end Unchanged

/-- A block that is allocated and released again leaves nothing. -/
theorem Allocated.released (h : Inv wide p A) {mk : Maker} {t : BitVec 32}
    (hal : Allocated p A mk t c p₁ A₁) (hrel : Released p₁ A₁ [c] p' A')
    (hout : p'.writer.conns = p₁.writer.conns) : Unchanged p A p' A' := by
  have hnone : A.ptrs c = none := by
    by_cases hc : c = 0
    · rw [hc]
      exact Mem.ptrs_zero h.mem
    · exact (hal.fresh hc).1
  refine ⟨hrel.types.trans hal.types, hrel.ids.trans hal.ids, funext fun b => ?_, ?_, ?_, ?_,
    hout.trans (congrArg Writer.conns hal.writer)⟩
  · by_cases hbc : b ∈ [c]
    · rw [(hrel.gone b hbc).1, List.mem_singleton.mp hbc, hnone]
    · rw [(hrel.same b hbc).1]
      cases he : A.ptrs b with
      | some e => rw [(hal.old b (by simp [he])).1, he]
      | none =>
        by_contra hne
        obtain ⟨e, he₁⟩ := Option.ne_none_iff_exists'.mp hne
        rcases hal.now b e he₁ with ⟨he₀, -⟩ | ⟨rfl, -⟩
        · simp [he] at he₀
        · simp at hbc
  · intro b hb
    exact (congrFun hrel.maker b).trans (hal.old b hb).2
  · intro b
    by_cases hbc : b ∈ [c]
    · rw [(hrel.gone b hbc).2.1, List.mem_singleton.mp hbc, h.heap_none hnone]
    · rw [(hrel.same b hbc).2.1, hal.writer]
  · intro b
    by_cases hbc : b ∈ [c]
    · rw [(hrel.gone b hbc).2.2, List.mem_singleton.mp hbc, h.conns_none hnone]
    · rw [(hrel.same b hbc).2.2, hal.conns]

/-! ## Memory ids -/

/-- The loop ends with an id that was not registered, and registers it. -/
theorem addTypeLoop_spec (name : List Byte) (ms : List (Option Malloc)) {s : MemState}
    (h : Mem.Refines wide s A) (id counter : BitVec 32) (hE : E .other) :
    Post E (fun r => r.1 ≠ 0 ∧ A.types r.1 = none ∧
      ∃ k, Mem.Refines wide r.2.2 (A.setType r.1 (some k)))
      (addTypeLoop wide name ms s id counter) := by
  induction ms generalizing id counter with
  | nil => exact hE
  | cons m ms ih =>
    unfold addTypeLoop
    rcases Mem.addTypeWith_refines h id name m with ⟨r, hrun, hr⟩ | ⟨s', hrun, hid, hnone, href⟩
    · simp only [hrun, orFault_some, ok_bind, if_pos hr]
      exact ih (counter + 1) (counter + 1)
    · simp only [hrun, orFault_some, ok_bind, Mem.memResOk, lt_self_iff_false, if_false]
      exact ⟨hid, hnone, _, href⟩

/-! ## The connection joins -/

/-- The state `(p, A)` with a connection set up: its struct at `c`, its first element
    at `core`, its memory ids `inId` and `outId`. -/
structure Joined (p : Process) (A : Registry) (c core : Addr) (inId outId : BitVec 32) (fd : ℕ)
    (o : Opening) (p' : Process) (A' : Registry) : Prop where
  ids : p'.ids = p.ids ++ [(inId, outId)]
  registered : ∀ t, (A.types t).isSome ∨ t = inId ∨ t = outId → (A'.types t).isSome
  conn_type : (A.types suvaConnType).isSome
  inId_new : inId ≠ 0 ∧ A.types inId = none
  outId_new : outId ≠ 0 ∧ A.types outId = none ∧ outId ≠ inId
  old : ∀ b, (A.ptrs b).isSome → A'.ptrs b = A.ptrs b ∧ p'.maker b = p.maker b
  now : ∀ b e, A'.ptrs b = some e → A.ptrs b = some e ∧ p'.maker b = p.maker b ∨
    b = c ∧ e.type = suvaConnType ∨ b = core ∧ e.type = outId
  struct : A.ptrs c = none ∧ (A'.ptrs c).isSome ∧ p'.maker c = some (.conn p.ids.length)
  first : A.ptrs core = none ∧ core ≠ 0 ∧ (A'.ptrs core).isSome ∧
    p'.maker core = some (.element p.ids.length)
  conns : p'.conns = p.conns.set c ⟨fd, inId, outId, InConn.opened, o.evs, p.ids.length⟩
  heap : p'.writer.heap = p.writer.heap.set core ⟨SclEle.zero, 0⟩
  out : p'.writer.conns = Function.update p.writer.conns c (OutConn.opened core 0 o.sched)

namespace Joined

variable {inId outId : BitVec 32} {fd : ℕ} {o : Opening}

/-- The connection that has joined. -/
theorem get_conns (h : Joined p A c core inId outId fd o p' A') :
    p'.conns.get c = some ⟨fd, inId, outId, InConn.opened, o.evs, p.ids.length⟩ := by
  rw [h.conns]
  exact Heap.get_set _ _ _

/-- The other connections are as they were. -/
theorem get_conns_ne (h : Joined p A c core inId outId fd o p' A') {c' : Addr} (hne : c' ≠ c) :
    p'.conns.get c' = p.conns.get c' := by
  rw [h.conns]
  exact Heap.get_set_ne _ _ hne

/-- The connections set up before. -/
theorem number_lt (h : Inv wide p A) {conn : SuvaConn} (hc : p.conns.get c = some conn) :
    conn.number < p.ids.length :=
  (List.getElem?_eq_some_iff.mp (h.conns c conn hc).2.2).1

theorem allIds (h : Joined p A c core inId outId fd o p' A') :
    p'.allIds = p.allIds ++ [inId, outId] := by
  unfold Process.allIds
  rw [h.ids, List.flatMap_append]
  rfl

/-- The queue of the new connection is its first element. -/
theorem queue (h : Joined p A c core inId outId fd o p' A') (hp : Inv wide p A) :
    Queue p' A' c p.ids.length [(core, SclEle.zero)] where
  ne_nil := by simp
  chain := by
    rw [h.out, h.heap, Function.update_self]
    exact ⟨rfl, h.first.2.1, 0, Heap.get_set _ _ _, rfl⟩
  mem_iff a := by
    rw [List.map_singleton, List.mem_singleton]
    constructor
    · rintro rfl
      exact ⟨h.first.2.2.1, h.first.2.2.2⟩
    · intro ha
      obtain ⟨e, he⟩ := Option.isSome_iff_exists.mp ha.1
      rcases h.now a e he with ⟨he₀, hk⟩ | ⟨rfl, -⟩ | ⟨rfl, -⟩
      · exact absurd (Or.inr (Or.inl rfl)) (hp.not_opens he₀ (hk ▸ ha.2))
      · rw [h.struct.2.2] at ha
        simp at ha
      · rfl
  cur := by
    rw [h.out, Function.update_self]
    exact Or.inr ⟨[], SclEle.zero, rfl⟩

/-- The number of the new connection is none of the others'. -/
theorem number_ne (h : Joined p A c core inId outId fd o p' A') (hp : Inv wide p A) {c' : Addr}
    {conn conn' : SuvaConn} (hc : p'.conns.get c = some conn) (hc' : p'.conns.get c' = some conn')
    (hne : c' ≠ c) : conn.number ≠ conn'.number := by
  rw [h.get_conns] at hc
  rw [h.get_conns_ne hne] at hc'
  obtain rfl := Option.some.inj hc
  exact (number_lt hp hc').ne'

/-- The elements of the others are the ones they had. -/
theorem elements (h : Joined p A c core inId outId fd o p' A') {n : ℕ} (hn : n < p.ids.length)
    (a : Addr) : (A'.ptrs a).isSome ∧ p'.maker a = some (.element n) ↔
      (A.ptrs a).isSome ∧ p.maker a = some (.element n) := by
  constructor
  · intro ha
    obtain ⟨e, he⟩ := Option.isSome_iff_exists.mp ha.1
    rcases h.now a e he with ⟨he₀, hk⟩ | ⟨rfl, -⟩ | ⟨rfl, -⟩
    · exact ⟨by simp [he₀], hk ▸ ha.2⟩
    · rw [h.struct.2.2] at ha
      simp at ha
    · rw [h.first.2.2.2] at ha
      have := ha.2
      simp at this
      omega
  · intro ha
    obtain ⟨hp', hk'⟩ := h.old a ha.1
    exact ⟨hp' ▸ ha.1, hk'.trans ha.2⟩

/-- The queues of the others are as they were. -/
theorem queue_ne (h : Joined p A c core inId outId fd o p' A') {c' : Addr} (hne : c' ≠ c) {n : ℕ}
    (hn : n < p.ids.length) {l : List (Addr × SclEle)} (hl : Queue p A c' n l) :
    Queue p' A' c' n l := by
  have hsame : p'.writer.conns c' = p.writer.conns c' := by
    rw [h.out, Function.update_of_ne hne]
  refine hl.frame (by rw [hsame]) (by rw [hsame]) ?_ (h.elements hn)
  intro a hptr hk
  rw [h.heap]
  apply Heap.get_set_ne
  rintro rfl
  simp [h.first.1] at hptr

/-- The new connection joins the invariant. -/
theorem inv (h : Joined p A c core inId outId fd o p' A') (hp : Inv wide p A)
    (hmem : Mem.Refines wide p'.mem A') : Inv wide p' A' where
  mem := hmem
  typed a e he := by
    rw [h.ids]
    rcases h.now a e he with ⟨he₀, hk⟩ | ⟨rfl, ht⟩ | ⟨rfl, ht⟩
    · obtain ⟨mk, hmk, ht⟩ := hp.typed a e he₀
      exact ⟨mk, hk.trans hmk, Maker.type_append ht _⟩
    · exact ⟨_, h.struct.2.2, by simp [Maker.type, ht]⟩
    · exact ⟨_, h.first.2.2.2, by simp [Maker.type, ht]⟩
  conn_type _ := h.registered _ (Or.inl h.conn_type)
  known id hid := by
    have hne : ∀ t, A.types t = none → t ≠ suvaConnType := by
      rintro t ht rfl
      simpa [ht] using h.conn_type
    rw [h.allIds] at hid
    rcases List.mem_append.mp hid with hid | hid
    · obtain ⟨hreg, h0, hty⟩ := hp.known id hid
      exact ⟨h.registered id (Or.inl hreg), h0, hty⟩
    · rcases List.mem_pair.mp hid with rfl | rfl
      · exact ⟨h.registered _ (Or.inr (Or.inl rfl)), h.inId_new.1, hne _ h.inId_new.2⟩
      · exact ⟨h.registered _ (Or.inr (Or.inr rfl)), h.outId_new.1, hne _ h.outId_new.2.1⟩
  nodup := by
    rw [h.allIds, List.nodup_append]
    refine ⟨hp.nodup, by simpa using h.outId_new.2.2.symm, ?_⟩
    rintro id hid t ht rfl
    have hreg := (hp.known id hid).1
    rcases List.mem_pair.mp ht with rfl | rfl
    · simp [h.inId_new.2] at hreg
    · simp [h.outId_new.2.1] at hreg
  heap a ha := by
    rw [h.heap] at ha
    by_cases hac : a = core
    · rw [hac]
      exact ⟨h.first.2.2.1, _, h.first.2.2.2⟩
    · rw [Heap.get_set_ne _ _ hac] at ha
      obtain ⟨hptr, n, hk⟩ := hp.heap a ha
      obtain ⟨hp', hk'⟩ := h.old a hptr
      exact ⟨hp' ▸ hptr, n, hk'.trans hk⟩
  conns c' conn' hc' := by
    by_cases hcc : c' = c
    · subst hcc
      rw [h.get_conns] at hc'
      obtain rfl := Option.some.inj hc'
      refine ⟨h.struct.2.1, h.struct.2.2, ?_⟩
      rw [h.ids]
      simp
    · rw [h.get_conns_ne hcc] at hc'
      obtain ⟨hptr, hk, hget⟩ := hp.conns c' conn' hc'
      obtain ⟨hp', hk'⟩ := h.old c' hptr
      refine ⟨hp' ▸ hptr, hk'.trans hk, ?_⟩
      rw [h.ids, List.getElem?_append_left (number_lt hp hc'), hget]
  unique c₁ c₂ conn₁ conn₂ hc₁ hc₂ hn := by
    by_cases h₁ : c₁ = c <;> by_cases h₂ : c₂ = c
    · rw [h₁, h₂]
    · rw [h₁] at hc₁
      exact absurd hn (h.number_ne hp hc₁ hc₂ h₂)
    · rw [h₂] at hc₂
      exact absurd hn.symm (h.number_ne hp hc₂ hc₁ h₁)
    · rw [h.get_conns_ne h₁] at hc₁
      rw [h.get_conns_ne h₂] at hc₂
      exact hp.unique c₁ c₂ conn₁ conn₂ hc₁ hc₂ hn
  queue c' conn' hc' := by
    by_cases hcc : c' = c
    · subst hcc
      rw [h.get_conns] at hc'
      obtain rfl := Option.some.inj hc'
      exact ⟨_, h.queue hp⟩
    · rw [h.get_conns_ne hcc] at hc'
      obtain ⟨l, hl⟩ := hp.queue c' conn' hc'
      exact ⟨l, h.queue_ne hcc (number_lt hp hc') hl⟩

theorem effect (h : Joined p A c core inId outId fd o p' A') (hp : Inv wide p A) :
    Effect (Maker.Opens p.ids.length) (fun _ => False) p A p' A' where
  ids := by
    rw [h.ids]
    exact List.prefix_append _ _
  kept a e he _ := by
    obtain ⟨hp', hk'⟩ := h.old a (by simp [he])
    exact ⟨hp'.trans he, hk'⟩
  new a e he := by
    rcases h.now a e he with hold | ⟨rfl, -⟩ | ⟨rfl, -⟩
    · exact Or.inl hold
    · exact Or.inr ⟨_, h.struct.2.2, Or.inl rfl⟩
    · exact Or.inr ⟨_, h.first.2.2.2, Or.inr (Or.inl rfl)⟩
  conns c' conn' hc' _ := by
    have hne : c' ≠ c := by
      rintro rfl
      have := (hp.conns c' conn' hc').1
      simp [h.struct.1] at this
    exact ⟨conn', (h.get_conns_ne hne).trans hc', rfl⟩

end Joined

/-- The state `(p, A)` with the struct of a connection at `c` and with its memory ids,
    before it has its first element. -/
structure Registered (p : Process) (A : Registry) (c : Addr) (inId outId : BitVec 32) (fd : ℕ)
    (o : Opening) (p' : Process) (A' : Registry) : Prop where
  ids : p'.ids = p.ids ++ [(inId, outId)]
  registered : ∀ t, (A.types t).isSome ∨ t = inId ∨ t = outId → (A'.types t).isSome
  inId_new : inId ≠ 0 ∧ A.types inId = none
  outId_new : outId ≠ 0 ∧ A.types outId = none ∧ outId ≠ inId
  old : ∀ b, (A.ptrs b).isSome → A'.ptrs b = A.ptrs b ∧ p'.maker b = p.maker b
  now : ∀ b e, A'.ptrs b = some e → A.ptrs b = some e ∧ p'.maker b = p.maker b ∨
    b = c ∧ e.type = suvaConnType
  struct : A.ptrs c = none ∧ (A'.ptrs c).isSome ∧ p'.maker c = some (.conn p.ids.length)
  conns : p'.conns = p.conns.set c ⟨fd, inId, outId, InConn.opened, o.evs, p.ids.length⟩
  writer : p'.writer = p.writer

/-- The ids are added to a process with the struct. -/
theorem Allocated.registered {inId outId : BitVec 32} {k : Mem.Kind}
    (hal : Allocated p A (.conn p.ids.length) suvaConnType c p₁ A₁) (hc : c ≠ 0)
    (hin : inId ≠ 0 ∧ A₁.types inId = none)
    (hout : outId ≠ 0 ∧ (A₁.setType inId (some k)).types outId = none) (k' : Mem.Kind)
    (mem : MemState) (inMemId outMemId : BitVec 32) (fd : ℕ) (o : Opening) :
    Registered p A c inId outId fd o
      { p₁ with
        mem := mem
        inMemId := inMemId
        outMemId := outMemId
        ids := p₁.ids ++ [(inId, outId)]
        conns := p₁.conns.set c ⟨fd, inId, outId, InConn.opened, o.evs, p₁.ids.length⟩ }
      ((A₁.setType inId (some k)).setType outId (some k')) := by
  obtain ⟨hin0, hin⟩ := hin
  obtain ⟨hout0, hout⟩ := hout
  rw [hal.types] at hin
  have hne : outId ≠ inId := by
    rintro rfl
    simp [Registry.setType] at hout
  have hout₀ : A.types outId = none := by
    simpa [Registry.setType, Function.update_of_ne hne, hal.types] using hout
  refine ⟨?_, ?_, ⟨hin0, hin⟩, ⟨hout0, hout₀, hne⟩, hal.old, ?_, hal.fresh hc, ?_, hal.writer⟩
  · show p₁.ids ++ _ = _
    rw [hal.ids]
  · intro t ht
    simp only [Registry.setType, hal.types, Function.update_apply]
    split_ifs with h₁ h₂
    · rfl
    · rfl
    · exact ht.resolve_right (by simp [h₁, h₂])
  · intro b e he
    rcases hal.now b e he with hold | ⟨rfl, -, ht⟩
    · exact Or.inl hold
    · exact Or.inr ⟨rfl, ht⟩
  · show p₁.conns.set c _ = _
    rw [hal.conns, hal.ids]

/-- With a first element, the connection has joined. -/
theorem Registered.joined {inId outId : BitVec 32} {fd : ℕ} {o : Opening}
    (h : Registered p A c inId outId fd o p₁ A₁) (hreg : (A.types suvaConnType).isSome)
    (hal : Allocated p₁ A₁ (.element p.ids.length) outId core p' A') (hcore : core ≠ 0) :
    Joined p A c core inId outId fd o
      { p' with writer := { p'.writer with
        heap := p'.writer.heap.set core ⟨SclEle.zero, 0⟩
        conns := Function.update p'.writer.conns c (OutConn.opened core 0 o.sched) } } A' := by
  obtain ⟨hfnone, hfsome, hfmk⟩ := hal.fresh hcore
  have hold : ∀ b, (A.ptrs b).isSome → A'.ptrs b = A.ptrs b ∧ p'.maker b = p.maker b := by
    intro b hb
    obtain ⟨hp₁, hk₁⟩ := h.old b hb
    obtain ⟨hp', hk'⟩ := hal.old b (hp₁ ▸ hb)
    exact ⟨hp'.trans hp₁, hk'.trans hk₁⟩
  refine ⟨?_, ?_, hreg, h.inId_new, h.outId_new, hold, ?_, ?_, ⟨?_, hcore, hfsome, hfmk⟩, ?_, ?_,
    ?_⟩
  · rw [hal.ids, h.ids]
  · intro t ht
    rw [hal.types]
    exact h.registered t ht
  · intro b e he
    rcases hal.now b e he with ⟨he₁, hk₁⟩ | ⟨rfl, -, ht⟩
    · rcases h.now b e he₁ with ⟨he₀, hk₀⟩ | hstruct
      · exact Or.inl ⟨he₀, hk₁.trans hk₀⟩
      · exact Or.inr (Or.inl hstruct)
    · exact Or.inr (Or.inr ⟨rfl, ht⟩)
  · obtain ⟨hcnone, hcsome, hcmk⟩ := h.struct
    obtain ⟨hp', hk'⟩ := hal.old c hcsome
    exact ⟨hcnone, hp' ▸ hcsome, hk'.trans hcmk⟩
  · by_contra hlive
    obtain ⟨hp₁, -⟩ := h.old core (Option.isSome_iff_ne_none.mpr hlive)
    rw [hp₁] at hfnone
    exact hlive hfnone
  · rw [hal.conns, h.conns]
  · rw [hal.writer, h.writer]
  · rw [hal.writer, h.writer]

/-- The set-up after the struct has been allocated: the connection joins, or there is
    no memory for its first element. -/
theorem setUp_spec (h : Inv wide p A) (hmem : Mem.Refines wide p₁.mem A₁)
    (hal : Allocated p A (.conn p.ids.length) suvaConnType c p₁ A₁) (hc : c ≠ 0)
    (hreg : (A.types suvaConnType).isSome) (fd : ℕ) (o : Opening) (hE : E .other) :
    Post E (fun p' =>
      (o.sentinel = none ∧ (∃ conn, p'.conn wide c = .ok conn) ∧ p'.writer.heap.get 0 = none ∧
        (p'.writer.conns c).outCurEle = 0) ∨
      o.sentinel ≠ none ∧ ∃ core inId outId A', Joined p A c core inId outId fd o p' A' ∧
        Mem.Refines wide p'.mem A') (p₁.setUp wide c fd o) := by
  unfold Process.setUp
  apply Post.bind (addTypeLoop_spec _ o.inTypes hmem 0 p₁.inMemId hE)
  rintro ⟨inId, inMemId, mem₁⟩ ⟨hin0, hin, k, href₁⟩
  apply Post.bind (addTypeLoop_spec _ o.outTypes href₁ 0 inMemId hE)
  rintro ⟨outId, outMemId, mem₂⟩ ⟨hout0, hout, k', href₂⟩
  simp only at hin0 hin href₁ hout0 hout href₂ ⊢
  have hids := hal.registered hc ⟨hin0, hin⟩ ⟨hout0, hout⟩ k' mem₂ inMemId outMemId fd o
  generalize hp₂ : ({ p₁ with
    mem := mem₂
    inMemId := inMemId
    outMemId := outMemId
    ids := p₁.ids ++ [(inId, outId)]
    conns := p₁.conns.set c ⟨fd, inId, outId, InConn.opened, o.evs, p₁.ids.length⟩ } : Process) = p₂
    at hids ⊢
  have hmem₂ : Mem.Refines wide p₂.mem ((A₁.setType inId (some k)).setType outId (some k')) := by
    rw [← hp₂]
    exact href₂
  rw [hal.ids]
  obtain ⟨core, p₃, A₃, hrun, href₃, hal₃, hcore⟩ :=
    memAlloc_spec hmem₂ outId sclEleSize o.sentinel (.element p.ids.length)
  rw [hrun, ok_bind]
  by_cases hs : o.sentinel = none
  · have hcore0 : core = 0 := hcore.mpr (Or.inl hs)
    have hget : p₃.conns.get c = some ⟨fd, inId, outId, InConn.opened, o.evs, p.ids.length⟩ := by
      rw [hal₃.conns, hids.conns]
      exact Heap.get_set _ _ _
    have hptr : (A₃.ptrs c).isSome := (hal₃.old c hids.struct.2.1).1 ▸ hids.struct.2.1
    refine Or.inl ⟨hs, ⟨_, conn_ok href₃ hptr hget⟩, ?_, ?_⟩
    · rw [if_pos hcore0, hal₃.writer, hids.writer]
      exact h.heap_none (Mem.ptrs_zero h.mem)
    · simp [OutConn.opened, hcore0]
  · have houtreg : (((A₁.setType inId (some k)).setType outId (some k')).types outId).isSome :=
      hids.registered outId (Or.inr (Or.inr rfl))
    have hcore0 : core ≠ 0 := fun h0 =>
      (hcore.mp h0).elim hs (Option.isSome_iff_ne_none.mp houtreg)
    rw [if_neg hcore0]
    exact Or.inr ⟨hs, core, inId, outId, A₃, hids.joined hreg hal₃ hcore0, href₃⟩

/-! ## The exchange with `suvad` -/

variable {p₀ : Process} {A₀ : Registry} {n : ℕ}

variable (wide) in
/-- `p` is what opening connection `n` has made of `(p₀, A₀)`, and an element of its
    queue is there. -/
def Left (n : ℕ) (p₀ : Process) (A₀ : Registry) (p : Process) : Prop :=
  ∃ A, Inv wide p A ∧ Effect (Maker.Opens n) (Maker.Opens n) p₀ A₀ p A ∧
    ∃ t, (A.ptrs t).isSome ∧ p.maker t = some (.element n)

/-- The queue of a connection has an element. -/
theorem Inv.first (h : Inv wide p A) {conn : SuvaConn} (hc : p.conns.get c = some conn) :
    ∃ t, (A.ptrs t).isSome ∧ p.maker t = some (.element conn.number) := by
  obtain ⟨l, hl⟩ := h.queue c conn hc
  obtain ⟨x, l', rfl⟩ := List.exists_cons_of_ne_nil hl.ne_nil
  exact ⟨x.1, (hl.mem_iff x.1).mp (by simp)⟩

theorem After.left (h : After wide n c p₀ A₀ p) : Left wide n p₀ A₀ p := by
  obtain ⟨A, conn, hinv, hc, rfl, heff⟩ := h
  exact ⟨A, hinv, heff.mono (fun _ hmk => Or.inr hmk) fun _ hmk => Or.inr hmk, hinv.first hc⟩

/-- Closing a descriptor does not touch the memory. -/
theorem After.close (h : After wide n c p₀ A₀ p) (fd : ℕ) : After wide n c p₀ A₀ (p.close fd) := by
  obtain ⟨A, conn, hinv, hc, hn, heff⟩ := h
  have hsame : Unchanged p A (p.close fd) A :=
    ⟨rfl, rfl, rfl, fun _ _ => rfl, fun _ => rfl, fun _ => rfl, rfl⟩
  exact ⟨A, conn, hsame.inv hinv hinv.mem, hc, hn, heff.trans (hsame.effect _ _)⟩

/-- The clean-up of a refused connection releases the struct and the packets, and not
    the queue. -/
theorem refuse_spec (h : After wide n c p₀ A₀ p) (fd : ℕ) :
    Post E (fun r => Left wide n p₀ A₀ r.2 ∧ r.1 = none) (p.refuse wide c fd) := by
  unfold Process.refuse
  apply Post.bind (freePacketMem_post (h.close fd))
  intro p₁ h₁
  obtain ⟨A₁, conn, hinv, hc, rfl, heff⟩ := h₁
  obtain ⟨hptr, hmk, -⟩ := hinv.conns c conn hc
  obtain ⟨p₂, A₂, hfree, hmem, hrel, hout, -⟩ := memFree_spec hinv.mem c
  rw [hfree]
  obtain ⟨t, htptr, htmk⟩ := hinv.first hc
  have htc : t ∉ [c] := by
    intro htc
    rw [List.mem_singleton.mp htc, hmk] at htmk
    simp at htmk
  have heff₂ : Effect (fun _ => False) (Maker.Opens conn.number) p₁ A₁ p₂ A₂ :=
    hrel.effect hinv fun a ha => ⟨_, List.mem_singleton.mp ha ▸ hmk, Or.inl rfl⟩
  refine ⟨⟨A₂, hrel.inv hinv hmem ?_, ?_, t, ?_, ?_⟩, rfl⟩
  · intro c' conn' hc'
    have hcc : c' ∉ [c] := by
      intro hcc
      simp [(hrel.gone c' hcc).2.2] at hc'
    obtain ⟨l, hl⟩ := hinv.queue c' conn' ((hrel.same c' hcc).2.2 ▸ hc')
    refine ⟨l, hrel.queue hl (fun a ha => ?_) (by rw [hout]) (by rw [hout])⟩
    rw [List.mem_singleton.mp ha, hmk]
    simp
  · exact (heff.mono (fun _ hmk => Or.inr hmk) fun _ hmk => Or.inr hmk).trans
      (heff₂.mono (fun _ hf => hf.elim) fun _ hmk => hmk)
  · rw [(hrel.same t htc).1]
    exact htptr
  · rw [hrel.maker]
    exact htmk

/-- The exchange leaves an element of the queue, whatever `suvad` answers. -/
theorem handshake_spec (h : After wide n c p₀ A₀ p) (fd : ℕ) (o : Opening) (hother : E .other)
    (hE : ¬ p.CanQueueFour c o.mallocs → E (.element 0)) :
    Post E (fun r => Left wide n p₀ A₀ r.2 ∧ ∀ c', r.1 = some c' →
      ∃ conn, r.2.conns.get c' = some conn ∧ conn.number = n) (p.handshake wide c fd o) := by
  have hrefused : ∀ p₁, After wide n c p₀ A₀ p₁ → Post E (fun r => Left wide n p₀ A₀ r.2 ∧
      ∀ c', r.1 = some c' → ∃ conn, r.2.conns.get c' = some conn ∧ conn.number = n)
      (p₁.refuse wide c fd) := by
    intro p₁ h₁
    apply Post.mono (refuse_spec h₁ fd) (fun _ h => h)
    rintro r ⟨hleft, hnone⟩
    exact ⟨hleft, fun c' hc' => by simp [hnone] at hc'⟩
  unfold Process.handshake
  apply Post.bind (setOpcode_post h sclOconn)
  rintro p₁ ⟨h₁, hcur⟩
  have hE₁ : ¬ p₁.CanQueueFour c o.mallocs → E (.element 0) := by
    unfold Process.CanQueueFour
    rw [hcur]
    exact hE
  apply Post.bind (queueFour_post h₁ _ _ _ _ o.mallocs hE₁)
  intro p₂ h₂
  apply Post.bind (writeOut_post h₂)
  intro p₃ h₃
  apply Post.bind (readPacket_post h₃ _ _ hother)
  rintro ⟨bytes, p₄⟩ h₄
  simp only
  split_ifs with hbytes
  · exact ⟨h₄.left, fun c' hc' => by simp at hc'⟩
  apply Post.bind (message_post h₄ hother)
  rintro ⟨returnNo, p₅⟩ h₅
  simp only
  split_ifs with hconnect
  · exact hrefused p₅ h₅
  apply Post.bind (readPacket_post h₅ _ _ hother)
  rintro ⟨bytes', p₆⟩ h₆
  apply Post.bind (message_post h₆ hother)
  rintro ⟨returnNo', p₇⟩ h₇
  simp only
  split_ifs with hconnected
  · exact hrefused p₇ h₇
  apply Post.bind (freePacketMem_post h₇)
  intro p₈ h₈
  refine ⟨h₈.left, ?_⟩
  rintro c' ⟨⟩
  obtain ⟨A₈, conn, -, hc, hn, -⟩ := h₈
  exact ⟨conn, hc, hn⟩

/-! ## `open_suva_conn` -/

/-- A step before the memory ids are set up fails. -/
def Opening.Early (o : Opening) : Prop :=
  o.hostFound = false ∨ o.socket = none ∨ o.connected = false ∨ o.nonBlocking = false

/-- There is memory for the elements that `open_suva_conn` fills. -/
def Opening.HasElements (o : Opening) : Prop :=
  o.sentinel ≠ none ∧ o.mallocs.element 0 ≠ none ∧ o.mallocs.element 1 ≠ none ∧
    o.mallocs.element 2 ≠ none

/-- The clean-up before the memory ids are set up: the struct is released, if there
    is one. -/
theorem release_spec (h : Inv wide p A) (hmem : Mem.Refines wide p₁.mem A₁) {mk : Maker}
    {t : BitVec 32} (hal : Allocated p A mk t c p₁ A₁) (S : Finset ℕ) :
    ∃ p' A', ({ p₁ with sockets := S } : Process).memFree wide c = .ok p' ∧
      Mem.Refines wide p'.mem A' ∧ Unchanged p A p' A' ∧ p'.sockets = S := by
  obtain ⟨p', A', hfree, hmem', hrel, hout, hsock⟩ :=
    memFree_spec (p := { p₁ with sockets := S }) hmem c
  exact ⟨p', A', hfree, hmem', (hal.setSockets S).released h hrel hout, hsock⟩

variable (wide) in
/-- What `open_suva_conn` can make of `(p, A)`: after an early failure, the tracked
    blocks are what they were and the socket is closed; otherwise there is an element
    of the new queue. -/
def Opening.Outcome (o : Opening) (p : Process) (A : Registry) (r : Option Addr × Process) : Prop :=
  ∃ A', Inv wide r.2 A' ∧
    Effect (Maker.Opens p.ids.length) (Maker.Opens p.ids.length) p A r.2 A' ∧
    (∀ c, r.1 = some c → ∃ conn, r.2.conns.get c = some conn ∧ conn.number = p.ids.length) ∧
    (o.Early ∧ r.1 = none ∧ A'.ptrs = A.ptrs ∧
        (∀ fd, o.hostFound = true → o.socket = some fd → fd ∉ r.2.sockets) ∨
      ¬ o.Early ∧ ∃ t, A.ptrs t = none ∧ (A'.ptrs t).isSome)

/-- The exits before the memory ids are set up. -/
theorem early_spec (h : Inv wide p A) (hmem : Mem.Refines wide p₁.mem A₁) {mk : Maker}
    {t : BitVec 32} (hal : Allocated p A mk t c p₁ A₁) {o : Opening} (hearly : o.Early)
    {S : Finset ℕ} (hS : ∀ fd, o.hostFound = true → o.socket = some fd → fd ∉ S) :
    Post E (o.Outcome wide p A)
      (({ p₁ with sockets := S } : Process).memFree wide c >>= fun p' =>
        Except.ok ((none : Option Addr), p')) := by
  obtain ⟨p', A', hfree, hmem', hsame, hsock⟩ := release_spec h hmem hal S
  rw [hfree]
  refine ⟨A', hsame.inv h hmem', hsame.effect _ _, fun c hc => by simp at hc,
    Or.inl ⟨hearly, rfl, hsame.ptrs, ?_⟩⟩
  rw [hsock]
  exact hS

/-- Without a first element, the first value cannot be queued. -/
theorem handshake_null {conn : SuvaConn} (hconn : p.conn wide c = .ok conn)
    (hheap : p.writer.heap.get 0 = none) (hcur : (p.writer.conns c).outCurEle = 0) (fd : ℕ)
    (o : Opening) : p.handshake wide c fd o = .error (.element 0) := by
  have hqueue : ∀ (out : OutConn) (q : Queued) (m : Option (Malloc × Malloc)), out.outCurEle = 0 →
      (p.setOut c out).queueValue wide c q m = .error (.element 0) := by
    intro out q m hout
    have hconn' : (p.setOut c out).conn wide c = .ok conn := hconn
    have helem : (p.setOut c out).element wide 0 = .error (.element 0) := by
      unfold Process.element
      rw [show (p.setOut c out).writer.heap = p.writer.heap from rfl, hheap]
    simp only [Process.queueValue, hconn', ok_bind, Process.setOut_conns_self, hout, helem,
      error_bind]
  simp only [Process.handshake, Process.setOpcode, hconn, ok_bind, Process.queueFour]
  rw [hqueue { p.writer.conns c with outPacketOpcode := sclOconn } _ _ hcur]
  rfl

/-- A connection that has joined exchanges messages with `suvad`. -/
theorem joined_spec (h : Inv wide p A) {inId outId : BitVec 32} {fd : ℕ} {o : Opening}
    (hj : Joined p A c core inId outId fd o p' A') (hmem : Mem.Refines wide p'.mem A')
    (hlate : ¬ o.Early) (hother : E .other) (hE : ¬ o.HasElements → E (.element 0)) :
    Post E (o.Outcome wide p A) (p'.handshake wide c fd o) := by
  have hinv := hj.inv h hmem
  have hcan : ¬ p'.CanQueueFour c o.mallocs → E (.element 0) := by
    intro hcan
    apply hE
    rintro ⟨-, h₀, h₁, h₂⟩
    refine hcan ⟨?_, h₀, h₁, h₂⟩
    rw [hj.out, Function.update_self]
    exact hj.first.2.1
  apply Post.mono (handshake_spec (hinv.after hj.get_conns) fd o hother hcan) (fun _ h => h)
  rintro r ⟨⟨A'', hinv', heff, t, htptr, htmk⟩, hconn⟩
  have heff' := ((hj.effect h).mono (fun _ hmk => hmk) fun _ hf => hf.elim).trans heff
  refine ⟨A'', hinv', heff', hconn, Or.inr ⟨hlate, t, ?_, htptr⟩⟩
  -- the element is none of the blocks that were there
  by_contra hne
  obtain ⟨e, he⟩ := Option.ne_none_iff_exists'.mp hne
  obtain ⟨-, hk⟩ := heff'.kept t e he fun mk hmk => h.not_opens he hmk
  exact h.not_opens he (hk.symm.trans htmk) (Or.inr (Or.inl rfl))

/-- `open_suva_conn`, when a step before the memory ids fails. -/
theorem openSuvaConn_early (h : Inv wide p A) {o : Opening} (hearly : o.Early) (hother : E .other) :
    Post E (o.Outcome wide p A) (p.openSuvaConn wide o) := by
  unfold Process.openSuvaConn
  obtain ⟨c, p₁, A₁, hrun, hmem₁, hal, -⟩ :=
    memAlloc_spec h.mem suvaConnType suvaConnSize o.conn (.conn p.ids.length)
  rw [hrun, ok_bind]
  cases hhost : o.hostFound with
  | false =>
    simp only [Bool.not_false, if_true]
    exact early_spec h hmem₁ hal hearly (by simp [hhost])
  | true =>
  simp only [Bool.not_true, Bool.false_eq_true, if_false]
  cases hsocket : o.socket with
  | none => exact early_spec h hmem₁ hal hearly (by simp [hsocket])
  | some fd =>
    simp only
    split_ifs with hc0 hconnected hnonBlocking
    · exact hother
    · exact early_spec h hmem₁ hal (S := (insert fd p₁.sockets).erase fd) hearly (by simp [hsocket])
    · exact early_spec h hmem₁ hal (S := (insert fd p₁.sockets).erase fd) hearly (by simp [hsocket])
    · simp_all [Opening.Early]

/-- `open_suva_conn`, when the steps before the memory ids succeed: the connection
    joins, or it lacks its first element. -/
theorem openSuvaConn_late (h : Inv wide p A) {o : Opening} (hlate : ¬ o.Early) (hother : E .other)
    {Q : Option Addr × Process → Prop}
    (hnull : ∀ (c : Addr) (fd : ℕ) (p₂ : Process) (conn : SuvaConn), o.sentinel = none →
      p₂.conn wide c = .ok conn → p₂.writer.heap.get 0 = none → (p₂.writer.conns c).outCurEle = 0 →
      Post E Q (p₂.handshake wide c fd o))
    (hjoined : ∀ c core inId outId fd p₂ A₂, o.sentinel ≠ none →
      Joined p A c core inId outId fd o p₂ A₂ → Mem.Refines wide p₂.mem A₂ →
      Post E Q (p₂.handshake wide c fd o)) :
    Post E Q (p.openSuvaConn wide o) := by
  obtain ⟨hhost, hsocket, hconnected, hnonBlocking⟩ := by simpa [Opening.Early] using hlate
  obtain ⟨fd, hfd⟩ := Option.ne_none_iff_exists'.mp hsocket
  unfold Process.openSuvaConn
  obtain ⟨c, p₁, A₁, hrun, hmem₁, hal, hc⟩ :=
    memAlloc_spec h.mem suvaConnType suvaConnSize o.conn (.conn p.ids.length)
  simp only [hrun, ok_bind, hhost, hfd, hconnected, hnonBlocking, Bool.not_true, Bool.false_eq_true,
    if_false]
  split_ifs with hc0
  · exact hother
  · have hreg : (A.types suvaConnType).isSome := by
      apply Option.isSome_iff_ne_none.mpr
      exact fun hnone => hc0 (hc.mpr (Or.inr hnone))
    have hmem₁' : Mem.Refines wide ({ p₁ with sockets := insert fd p₁.sockets } : Process).mem A₁ :=
      hmem₁
    apply Post.bind (setUp_spec h hmem₁' (hal.setSockets _) hc0 hreg fd o hother)
    rintro p₂ (⟨hs, ⟨conn, hconn⟩, hheap, hcur⟩ | ⟨hs, core, inId, outId, A₂, hj, hmem₂⟩)
    · exact hnull c fd p₂ conn hs hconn hheap hcur
    · exact hjoined c core inId outId fd p₂ A₂ hs hj hmem₂

/-- What `open_suva_conn` leaves, whichever of its steps fails. -/
theorem openSuvaConn_spec (h : Inv wide p A) (o : Opening) (hother : E .other)
    (hE : ¬ o.Early → ¬ o.HasElements → E (.element 0)) :
    Post E (o.Outcome wide p A) (p.openSuvaConn wide o) := by
  by_cases hearly : o.Early
  · exact openSuvaConn_early h hearly hother
  · refine openSuvaConn_late h hearly hother ?_ ?_
    · intro c fd p₂ conn hs hconn hheap hcur
      rw [handshake_null hconn hheap hcur]
      exact hE hearly fun hhas => hhas.1 hs
    · intro c core inId outId fd p₂ A₂ _ hj hmem₂
      exact joined_spec h hj hmem₂ hearly hother (hE hearly)

/-- Without memory for the elements, `open_suva_conn` does not return. -/
theorem openSuvaConn_faults (h : Inv wide p A) {o : Opening} (hlate : ¬ o.Early)
    (hhas : ¬ o.HasElements) :
    Post (fun f => f = .element 0 ∨ f = .other) (fun _ => False) (p.openSuvaConn wide o) := by
  refine openSuvaConn_late h hlate (Or.inr rfl) ?_ ?_
  · intro c fd p₂ conn _ hconn hheap hcur
    rw [handshake_null hconn hheap hcur]
    exact Or.inl rfl
  · intro c core inId outId fd p₂ A₂ hs hj hmem₂
    have hinv := hj.inv h hmem₂
    obtain ⟨p₃, hrun, hinv₃, -, hconns, hcur⟩ := setOpcode_spec hinv hj.get_conns sclOconn
    have hcan : ¬ p₃.CanQueueFour c o.mallocs := fun hcan => hhas ⟨hs, hcan.2⟩
    simp only [Process.handshake, hrun, ok_bind,
      queueFour_faults (hinv₃.after (hconns ▸ hj.get_conns)) _ _ _ _ hcan, error_bind]
    exact Or.inl rfl

end CompatSuva.Conn
