import CompatSuva.Scl.Writer

/-!
# Connections as outboxes

`Outbox` is what the writing side of the connections stands for: for each
connection, the values queued since the last packet, and the opcode of the next
one. `Refines w A` says that the elements in memory are exactly the queues of
`A`: the queue of a connection is a chain that ends in one empty element, the
chains are disjoint, there is no other element, and `out_packet_len` is the
length of the encodings of what is queued.

* `step_refines`: queueing and writing on any connection acts on the elements as
  `Outbox.step` acts on the lists, whatever connection the static `cur_ele` was
  left at;
* `writeOut_packet`: what `scl_write_out` puts on the wire;
* `writeOut_reachable`: both, after any sequence of calls on the connections.
-/

namespace CompatSuva.Scl

open CompatSuva.Common

variable {ι : Type}

/-! ## The abstract queues -/

/-- For each connection, the values queued and the opcode to send them with. -/
structure Outbox (ι : Type) where
  pending : ι → List Queued
  opcode : ι → BitVec 32

/-- The encodings of a list of queued values. -/
def payload (qs : List Queued) : List Byte := qs.flatMap fun q => q.value.enc

/-- A packet: opcode, two reserved words, the length, and the payload. -/
def packet (opcode : BitVec 32) (qs : List Queued) : List Byte :=
  bytesOf opcode ++ lenBytes 0 ++ lenBytes 0 ++ lenBytes (payload qs).length ++ payload qs

/-- The element `scl_queue_value` fills for a queued value. -/
def Queued.ele (q : Queued) : SclEle := ⟨q.object, q.value.type, q.arrayLen⟩

/-! ## The refinement relation -/

/-- The elements of a connection: those that hold values, then the empty one. -/
def Writer.nodes (w : Writer ι) (Q : ι → List (Addr × SclEle)) (c : ι) : List Addr :=
  (Q c).map Prod.fst ++ [(w.conns c).outCurEle]

/-- The elements in memory are the queues `Q`, each followed by an empty element. -/
structure Queues (w : Writer ι) (Q : ι → List (Addr × SclEle)) : Prop where
  chain : ∀ c, ∃ z, IsChain w.heap (w.conns c).outEleQueue (Q c ++ [((w.conns c).outCurEle, z)])
  disjoint : ∀ c c', c ≠ c' → ∀ a ∈ w.nodes Q c, a ∉ w.nodes Q c'
  live : ∀ a, (w.heap.get a).isSome → ∃ c, a ∈ w.nodes Q c

/-- The writer holds exactly the queues of `A`, and no write on its connections
    will fail. -/
structure Refines (w : Writer ι) (A : Outbox ι) : Prop where
  queues : ∃ Q, Queues w Q ∧ ∀ c, (Q c).map Prod.snd = (A.pending c).map Queued.ele
  len : ∀ c, (w.conns c).outPacketLen = BitVec.ofNat 32 (payload (A.pending c)).length
  opcode : ∀ c, (w.conns c).outPacketOpcode = A.opcode c
  sched : ∀ c, ∀ e ∈ (w.conns c).sched, e.Ok

variable {w : Writer ι} {A : Outbox ι} {Q : ι → List (Addr × SclEle)}

namespace Queues

theorem get_cur (h : Queues w Q) (c : ι) :
    (w.conns c).outCurEle ≠ 0 ∧ ∃ z, w.heap.get (w.conns c).outCurEle = some ⟨z, 0⟩ := by
  obtain ⟨z, hc⟩ := h.chain c
  exact ⟨hc.get_last.1, z, hc.get_last.2⟩

/-- Elements of a queue are live. -/
theorem get_node (h : Queues w Q) {c : ι} {a : Addr} (ha : a ∈ w.nodes Q c) :
    (w.heap.get a).isSome := by
  obtain ⟨z, hc⟩ := h.chain c
  have hmem : a ∈ (Q c ++ [((w.conns c).outCurEle, z)]).map Prod.fst := by
    simpa [Writer.nodes] using ha
  obtain ⟨x, hx, rfl⟩ := List.mem_map.mp hmem
  obtain ⟨-, q, hq⟩ := hc.get_mem hx
  simp [hq]

/-- The elements of a queue are unchanged where the heap is. -/
theorem chain_congr (h : Queues w Q) (c : ι) {heap : Heap (Node SclEle)}
    (heq : ∀ a ∈ w.nodes Q c, heap.get a = w.heap.get a) :
    ∃ z, IsChain heap (w.conns c).outEleQueue (Q c ++ [((w.conns c).outCurEle, z)]) := by
  obtain ⟨z, hc⟩ := h.chain c
  refine ⟨z, hc.congr fun x hx => heq x.1 ?_⟩
  have := List.mem_map_of_mem (f := Prod.fst) hx
  simpa [Writer.nodes] using this

end Queues

theorem Writer.cur_mem_nodes (w : Writer ι) (Q : ι → List (Addr × SclEle)) (c : ι) :
    (w.conns c).outCurEle ∈ w.nodes Q c := by
  simp [Writer.nodes]

variable [DecidableEq ι]

/-! ## Calls -/

/-- A call on one of the connections: setting the opcode, queueing a value (`core`
    is what `mem_alloc` returns), and writing the packet out. -/
inductive WriterOp (ι : Type) where
  | opcode (c : ι) (op : BitVec 32)
  | queue (c : ι) (q : Queued) (core : Addr)
  | writeOut (c : ι)

/-- What a call does to the queues. -/
def Outbox.step (A : Outbox ι) : WriterOp ι → Outbox ι
  | .opcode c op => { A with opcode := Function.update A.opcode c op }
  | .queue c q _ => { A with pending := Function.update A.pending c (A.pending c ++ [q]) }
  | .writeOut c => { A with pending := Function.update A.pending c [] }

/-- What a call does to the elements and the connections. -/
def Writer.step (w : Writer ι) : WriterOp ι → Option (Writer ι)
  | .opcode c op => some { w with
      conns := Function.update w.conns c { w.conns c with outPacketOpcode := op } }
  | .queue c q core => sclQueueValue w c q.object q.value.type q.arrayLen core
  | .writeOut c => sclWriteOut w c

/-- A sequence of calls. -/
def Writer.run (w : Writer ι) (ops : List (WriterOp ι)) : Option (Writer ι) :=
  ops.foldlM Writer.step w

/-- `mem_alloc` succeeds and returns an address that is not in use. -/
def WriterOp.Fresh (w : Writer ι) : WriterOp ι → Prop
  | .queue _ _ core => core ≠ 0 ∧ w.heap.get core = none
  | _ => True

/-- Every allocation of the sequence of calls succeeds. -/
def AllFresh : Writer ι → List (WriterOp ι) → Prop
  | _, [] => True
  | w, op :: ops => op.Fresh w ∧ ∀ w', w.step op = some w' → AllFresh w' ops

/-- The queues after a call on connection `c` that leaves the elements of the other
    connections alone. -/
theorem Queues.update (hQ : Queues w Q) (c : ι) (heap : Heap (Node SclEle)) (curEle : Addr)
    (conn : OutConn) (l : List (Addr × SclEle))
    (hchain : ∃ z, IsChain heap conn.outEleQueue (l ++ [(conn.outCurEle, z)]))
    (hnew : ∀ a ∈ l.map Prod.fst ++ [conn.outCurEle], a ∈ w.nodes Q c ∨ w.heap.get a = none)
    (hother : ∀ c', c' ≠ c → ∀ a ∈ w.nodes Q c', heap.get a = w.heap.get a)
    (hlive : ∀ a, (heap.get a).isSome → a ∈ l.map Prod.fst ++ [conn.outCurEle] ∨
      (w.heap.get a).isSome ∧ a ∉ w.nodes Q c) :
    Queues ⟨heap, curEle, Function.update w.conns c conn⟩ (Function.update Q c l) := by
  -- the elements of `c` are its own or new; those of the others are as before
  have hself : Writer.nodes ⟨heap, curEle, Function.update w.conns c conn⟩
      (Function.update Q c l) c = l.map Prod.fst ++ [conn.outCurEle] := by
    simp [Writer.nodes]
  have hne : ∀ c', c' ≠ c → Writer.nodes ⟨heap, curEle, Function.update w.conns c conn⟩
      (Function.update Q c l) c' = w.nodes Q c' := by
    intro c' hc
    simp [Writer.nodes, hc]
  have hapart : ∀ c', c' ≠ c → ∀ a ∈ l.map Prod.fst ++ [conn.outCurEle], a ∉ w.nodes Q c' := by
    intro c' hc a ha hmem
    rcases hnew a ha with hold | hfresh
    · exact hQ.disjoint c c' (Ne.symm hc) a hold hmem
    · have := hQ.get_node hmem
      simp [hfresh] at this
  refine ⟨fun c' => ?_, fun c₁ c₂ hcc a ha => ?_, fun a ha => ?_⟩
  · by_cases hc : c' = c
    · subst hc
      simpa using hchain
    · simpa [hc] using hQ.chain_congr c' (hother c' hc)
  · by_cases h₁ : c₁ = c
    · subst h₁
      rw [hne c₂ (Ne.symm hcc)]
      exact hapart c₂ (Ne.symm hcc) a (hself ▸ ha)
    · rw [hne c₁ h₁] at ha
      by_cases h₂ : c₂ = c
      · subst h₂
        rw [hself]
        exact fun hmem => hapart c₁ h₁ a hmem ha
      · rw [hne c₂ h₂]
        exact hQ.disjoint c₁ c₂ hcc a ha
  · rcases hlive a ha with hmem | ⟨hold, hnot⟩
    · exact ⟨c, hself.symm ▸ hmem⟩
    · obtain ⟨c', hc'⟩ := hQ.live a hold
      have hc : c' ≠ c := by
        rintro rfl
        exact hnot hc'
      exact ⟨c', (hne c' hc).symm ▸ hc'⟩

/-- Frame rule: a call on connection `c` that leaves the elements of the other
    connections alone. -/
theorem Refines.update (h : Refines w A) (hQ : Queues w Q)
    (hpending : ∀ c, (Q c).map Prod.snd = (A.pending c).map Queued.ele) (c : ι)
    (heap : Heap (Node SclEle)) (curEle : Addr) (conn : OutConn) (l : List (Addr × SclEle))
    (qs : List Queued) (hchain : ∃ z, IsChain heap conn.outEleQueue (l ++ [(conn.outCurEle, z)]))
    (hl : l.map Prod.snd = qs.map Queued.ele)
    (hnew : ∀ a ∈ l.map Prod.fst ++ [conn.outCurEle], a ∈ w.nodes Q c ∨ w.heap.get a = none)
    (hother : ∀ c', c' ≠ c → ∀ a ∈ w.nodes Q c', heap.get a = w.heap.get a)
    (hlive : ∀ a, (heap.get a).isSome → a ∈ l.map Prod.fst ++ [conn.outCurEle] ∨
      (w.heap.get a).isSome ∧ a ∉ w.nodes Q c)
    (hlen : conn.outPacketLen = BitVec.ofNat 32 (payload qs).length)
    (hsched : ∀ e ∈ conn.sched, e.Ok) :
    Refines ⟨heap, curEle, Function.update w.conns c conn⟩
      ⟨Function.update A.pending c qs, Function.update A.opcode c conn.outPacketOpcode⟩ := by
  have hqueues := hQ.update c heap curEle conn l hchain hnew hother hlive
  refine ⟨⟨Function.update Q c l, hqueues, fun c' => ?_⟩, fun c' => ?_, fun c' => ?_, fun c' => ?_⟩
  · by_cases hc : c' = c
    · subst hc
      simpa using hl
    · simpa [hc] using hpending c'
  · by_cases hc : c' = c
    · subst hc
      simpa using hlen
    · simpa [hc] using h.len c'
  · by_cases hc : c' = c
    · subst hc
      simp
    · simpa [hc] using h.opcode c'
  · by_cases hc : c' = c
    · subst hc
      simpa using hsched
    · simpa [hc] using h.sched c'

/-- The queue of connection `c` is taken off, up to its last element. -/
theorem Refines.taken (h : Refines w A) (hQ : Queues w Q)
    (hpending : ∀ c, (Q c).map Prod.snd = (A.pending c).map Queued.ele) (c : ι)
    {heap : Heap (Node SclEle)} (hfreed : ∀ a ∈ (Q c).map Prod.fst, heap.get a = none)
    (hkept : ∀ a, a ∉ (Q c).map Prod.fst → heap.get a = w.heap.get a) (curEle : Addr)
    (conn : OutConn) (hstart : conn.outEleQueue = (w.conns c).outCurEle)
    (hcur : conn.outCurEle = (w.conns c).outCurEle) (hlen : conn.outPacketLen = 0)
    (hsched : ∀ e ∈ conn.sched, e.Ok) :
    Refines ⟨heap, curEle, Function.update w.conns c conn⟩
      ⟨Function.update A.pending c [], Function.update A.opcode c conn.outPacketOpcode⟩ := by
  obtain ⟨z, hchain⟩ := hQ.chain c
  obtain ⟨hne, hget⟩ := hchain.get_last
  refine h.update hQ hpending c heap curEle conn [] [] ⟨z, ?_⟩ rfl ?_ ?_ ?_ hlen hsched
  · rw [hstart, hcur]
    exact ⟨rfl, hne, 0, (hkept _ hchain.last_not_mem).trans hget, rfl⟩
  · intro a ha
    rw [List.map_nil, List.nil_append, List.mem_singleton, hcur] at ha
    rw [ha]
    exact Or.inl (List.mem_append_right _ (List.mem_singleton.mpr rfl))
  · intro c' hc' a ha
    refine hkept a fun hmem => ?_
    exact hQ.disjoint c' c hc' a ha (List.mem_append_left _ hmem)
  · intro a ha
    by_cases hmem : a ∈ (Q c).map Prod.fst
    · simp [hfreed a hmem] at ha
    · rw [hkept a hmem] at ha
      by_cases hac : a = (w.conns c).outCurEle
      · exact Or.inl (by simp [hac, hcur])
      · exact Or.inr ⟨ha, by simpa [Writer.nodes, hac] using hmem⟩

theorem opcode_refines (h : Refines w A) (c : ι) (op : BitVec 32) :
    ∃ w', w.step (.opcode c op) = some w' ∧ Refines w' (A.step (.opcode c op)) := by
  obtain ⟨Q, hQ, hpending⟩ := h.queues
  have hup := h.update hQ hpending c w.heap w.curEle { w.conns c with outPacketOpcode := op }
    (Q c) (A.pending c) (hQ.chain c) (hpending c)
    (fun a ha => Or.inl ha) (fun _ _ _ _ => rfl)
    (fun a ha => (Decidable.em (a ∈ w.nodes Q c)).imp_right fun hn => ⟨ha, hn⟩)
    (h.len c) (h.sched c)
  rw [Function.update_eq_self] at hup
  exact ⟨_, rfl, hup⟩

/-! ## Queueing -/

/-- What `scl_queue_value` does when the empty element is live. -/
theorem sclQueueValue_eq {c : ι} {z : SclEle} {q core : Addr} (val : Obj) (type : SclType)
    (arrayLen : ℤ) (ht : w.heap.get (w.conns c).outCurEle = some ⟨z, q⟩) (hcore : core ≠ 0)
    (hne : core ≠ (w.conns c).outCurEle) :
    sclQueueValue w c val type arrayLen core = some
      { heap := ((w.heap.set (w.conns c).outCurEle ⟨⟨val, type, arrayLen⟩, q⟩).set core
          ⟨SclEle.zero, 0⟩).set (w.conns c).outCurEle ⟨⟨val, type, arrayLen⟩, core⟩
        curEle := (w.conns c).outCurEle
        conns := Function.update w.conns c { w.conns c with
          outPacketLen :=
            (w.conns c).outPacketLen + BitVec.ofInt 32 (queuedLen val type arrayLen)
          outCurEle := core } } := by
  simp [sclQueueValue, sclAllocEle, ht, hcore, Heap.get_set_ne _ _ hne.symm]

theorem queue_refines (h : Refines w A) (c : ι) (q : Queued) {core : Addr} (hcore : core ≠ 0)
    (hfresh : w.heap.get core = none) :
    ∃ w', w.step (.queue c q core) = some w' ∧ Refines w' (A.step (.queue c q core)) := by
  obtain ⟨Q, hQ, hpending⟩ := h.queues
  obtain ⟨ht0, z, ht⟩ := hQ.get_cur c
  have hne : core ≠ (w.conns c).outCurEle := by
    rintro rfl
    simp [ht] at hfresh
  refine ⟨_, sclQueueValue_eq _ _ _ ht hcore hne, ?_⟩
  -- the heap afterwards, away from the two elements written
  have hget : ∀ a, a ≠ (w.conns c).outCurEle → a ≠ core →
      (((w.heap.set (w.conns c).outCurEle ⟨q.ele, 0⟩).set core ⟨SclEle.zero, 0⟩).set
        (w.conns c).outCurEle ⟨q.ele, core⟩).get a = w.heap.get a := by
    intro a ha ha'
    rw [Heap.get_set_ne _ _ ha, Heap.get_set_ne _ _ ha', Heap.get_set_ne _ _ ha]
  obtain ⟨z', hchain⟩ := hQ.chain c
  have hup := h.update hQ hpending c _ (w.conns c).outCurEle
    { w.conns c with
      outPacketLen := (w.conns c).outPacketLen +
        BitVec.ofInt 32 (queuedLen q.object q.value.type q.arrayLen)
      outCurEle := core }
    (Q c ++ [((w.conns c).outCurEle, q.ele)]) (A.pending c ++ [q])
    ⟨SclEle.zero, hchain.snoc hcore hfresh (Heap.get_set _ _ _)
      (by rw [Heap.get_set_ne _ _ hne, Heap.get_set]) hget⟩
    (by simp [hpending c]) ?_ ?_ ?_ ?_ (h.sched c)
  · rw [h.opcode c, Function.update_eq_self] at hup
    exact hup
  · intro a ha
    rcases List.mem_append.mp ha with ha | ha
    · exact Or.inl (by simpa [Writer.nodes] using ha)
    · exact Or.inr (List.mem_singleton.mp ha ▸ hfresh)
  · intro c' hc' a ha
    refine hget a ?_ ?_
    · rintro rfl
      exact hQ.disjoint c' c hc' _ ha (w.cur_mem_nodes Q c)
    · rintro rfl
      have := hQ.get_node ha
      simp [hfresh] at this
  · intro a ha
    by_cases hac : a = core
    · exact Or.inl (by simp [hac])
    by_cases hat : a = (w.conns c).outCurEle
    · exact Or.inl (by simp [hat])
    rw [hget a hat hac] at ha
    by_cases hmem : a ∈ w.nodes Q c
    · refine Or.inl ?_
      rcases List.mem_append.mp hmem with hmem | hmem
      · simp only [List.map_append, List.append_assoc]
        exact List.mem_append_left _ hmem
      · exact absurd (List.mem_singleton.mp hmem) hat
    · exact Or.inr ⟨ha, hmem⟩
  · simp only [h.len c, queuedLen_eq q.rep, payload, List.flatMap_append, List.length_append,
      BitVec.ofInt_natCast, BitVec.ofNat_add]
    simp

/-! ## Writing -/

omit [DecidableEq ι] in
/-- Writes that do not fail append the buffers to what was written. -/
theorem foldl_fwrite (conn : OutConn) (hsched : ∀ e ∈ conn.sched, e.Ok) (bufs : List (List Byte)) :
    ∃ sched, bufs.foldl OutConn.fwrite conn =
      { conn with out := conn.out ++ bufs.flatten, sched := sched } ∧ ∀ e ∈ sched, e.Ok := by
  induction bufs generalizing conn with
  | nil => exact ⟨conn.sched, by simp, hsched⟩
  | cons buf bufs ih =>
    obtain ⟨-, hput, hrest⟩ := sclWrite_of_ok buf hsched
    have hfw : conn.fwrite buf =
        { conn with out := conn.out ++ buf, sched := (sclWrite buf conn.sched).rest } := by
      simp [OutConn.fwrite, hput]
    obtain ⟨sched, hrun, hok⟩ := ih (conn.fwrite buf) (by rw [hfw]; exact hrest)
    refine ⟨sched, ?_, hok⟩
    rw [List.foldl_cons, hrun, hfw]
    simp

/-- The buffers written for a list of elements. -/
def eleWrites (l : List (Addr × SclEle)) : List (List Byte) :=
  l.flatMap fun x => sclWriteValue x.2.object x.2.type x.2.arrayLen

omit [DecidableEq ι] in
/-- The loop of `scl_write_out` writes and frees the elements up to the empty one. -/
theorem writeOutLoop_eq {heap : Heap (Node SclEle)} {p t : Addr} {z : SclEle}
    {l : List (Addr × SclEle)} (hc : IsChain heap p (l ++ [(t, z)])) (conn : OutConn) {fuel : ℕ}
    (hf : l.length < fuel) :
    ∃ heap', writeOutLoop fuel heap conn p =
        some (heap', (eleWrites l).foldl OutConn.fwrite conn, t) ∧
      (∀ a ∈ l.map Prod.fst, heap'.get a = none) ∧
      ∀ a, a ∉ l.map Prod.fst → heap'.get a = heap.get a := by
  induction l generalizing heap p conn fuel with
  | nil =>
    obtain ⟨f, rfl⟩ := Nat.exists_eq_add_one_of_ne_zero (Nat.ne_zero_of_lt hf)
    obtain ⟨rfl, hne, q, hq, hq0⟩ := hc
    have hq0 : q = 0 := hq0
    exact ⟨heap, by simp [writeOutLoop, hq, hq0, eleWrites], by simp, by simp⟩
  | cons x l ih =>
    obtain ⟨f, rfl⟩ := Nat.exists_eq_add_one_of_ne_zero (Nat.ne_zero_of_lt hf)
    rw [List.cons_append] at hc
    obtain ⟨q, hq, hl, hl', hnot⟩ := hc.tail_free
    obtain ⟨rfl, -⟩ := hc
    have hq0 : q ≠ 0 := by
      rintro rfl
      simpa using hl.eq_nil
    obtain ⟨heap', hrun, hfreed, hkept⟩ := ih hl'
      ((sclWriteValue x.2.object x.2.type x.2.arrayLen).foldl OutConn.fwrite conn)
      (show l.length < f by simp at hf; omega)
    have hx : x.1 ∉ l.map Prod.fst := fun hmem => hnot (by
      rw [List.map_append]
      exact List.mem_append_left _ hmem)
    refine ⟨heap', ?_, Heap.free_cons hx hfreed hkept⟩
    simp [writeOutLoop, hq, hq0, hrun, eleWrites]

omit [DecidableEq ι] in
/-- The bytes written for the elements of queued values. -/
theorem flatten_eleWrites {l : List (Addr × SclEle)} {qs : List Queued}
    (hl : l.map Prod.snd = qs.map Queued.ele) (hlen : ∀ q ∈ qs, q.value.enc.length < 2 ^ 32) :
    (eleWrites l).flatten = payload qs := by
  induction qs generalizing l with
  | nil =>
    have : l = [] := by simpa using hl
    simp [this, eleWrites, payload]
  | cons q qs ih =>
    cases l with
    | nil => simp at hl
    | cons x l =>
      rw [List.map_cons, List.map_cons, List.cons.injEq] at hl
      have hrest := ih hl.2 fun q' hq' => hlen q' (by simp [hq'])
      rw [eleWrites, List.flatMap_cons, List.flatten_append, hl.1, Queued.ele,
        flatten_sclWriteValue q.rep (hlen q (by simp))]
      rw [eleWrites] at hrest
      rw [hrest, payload, payload, List.flatMap_cons]

omit [DecidableEq ι] in
theorem enc_length_le_payload {qs : List Queued} {q : Queued} (hq : q ∈ qs) :
    q.value.enc.length ≤ (payload qs).length := by
  obtain ⟨qs₁, qs₂, rfl⟩ := List.append_of_mem hq
  simp only [payload, List.flatMap_append, List.flatMap_cons, List.length_append]
  omega

/-- `scl_write_out` sends the queue as one packet, frees the elements sent and
    leaves the other connections alone. -/
theorem writeOut_packet (h : Refines w A) (c : ι) :
    ∃ w', w.step (.writeOut c) = some w' ∧ Refines w' (A.step (.writeOut c)) ∧
      (∀ c', c' ≠ c → w'.conns c' = w.conns c') ∧
      (∃ l z, IsChain w.heap (w.conns c).outEleQueue (l ++ [((w.conns c).outCurEle, z)]) ∧
        l.map Prod.snd = (A.pending c).map Queued.ele ∧ (∀ x ∈ l, w'.heap.get x.1 = none) ∧
        (∀ a, a ∉ l.map Prod.fst → w'.heap.get a = w.heap.get a)) ∧
      (w'.conns c).outEleQueue = (w.conns c).outCurEle ∧
      (w'.conns c).outCurEle = (w.conns c).outCurEle ∧ (w'.conns c).outPacketLen = 0 ∧
      ((∀ q ∈ A.pending c, q.value.enc.length < 2 ^ 32) →
        (w'.conns c).out = (w.conns c).out ++ packet (A.opcode c) (A.pending c)) := by
  obtain ⟨Q, hQ, hpending⟩ := h.queues
  obtain ⟨z, hchain⟩ := hQ.chain c
  obtain ⟨sched, hheader, hsched⟩ := foldl_fwrite _ (h.sched c) (w.conns c).header
  obtain ⟨heap', hloop, hfreed, hkept⟩ := writeOutLoop_eq hchain
    ((w.conns c).header.foldl OutConn.fwrite (w.conns c)) hchain.length_lt
  obtain ⟨sched', hwrites, hsched'⟩ := foldl_fwrite
    ((w.conns c).header.foldl OutConn.fwrite (w.conns c)) (by rw [hheader]; exact hsched)
    (eleWrites (Q c))
  rw [hwrites, hheader] at hloop
  have hstep : w.step (.writeOut c) = some
      { heap := heap'
        curEle := (w.conns c).outCurEle
        conns := Function.update w.conns c { w.conns c with
          out := (w.conns c).out ++ (w.conns c).header.flatten ++ (eleWrites (Q c)).flatten
          sched := sched'
          outEleQueue := (w.conns c).outCurEle
          outPacketLen := 0 } } := by
    rw [Writer.step, sclWriteOut, hheader]
    simp only [Option.bind_eq_bind, hloop, Option.bind_some]
  refine ⟨_, hstep, ?_, fun c' hc => by simp [hc], ⟨Q c, z, hchain, hpending c,
    fun x hx => hfreed _ (List.mem_map_of_mem hx), hkept⟩, by simp, by simp, by simp,
      fun hlen => ?_⟩
  · have htaken := h.taken hQ hpending c hfreed hkept (w.conns c).outCurEle
      { w.conns c with
        out := (w.conns c).out ++ (w.conns c).header.flatten ++ (eleWrites (Q c)).flatten
        sched := sched'
        outEleQueue := (w.conns c).outCurEle
        outPacketLen := 0 } rfl rfl rfl hsched'
    rw [h.opcode c, Function.update_eq_self] at htaken
    exact htaken
  · have hlen' : bytesOf (w.conns c).outPacketLen = lenBytes (payload (A.pending c)).length := by
      rw [h.len c, lenBytes]
    simp [OutConn.header, flatten_eleWrites (hpending c) hlen, h.opcode c, hlen', packet]

/-! ## Runs -/

/-- Every call acts on the elements as it does on the queues. -/
theorem step_refines (h : Refines w A) {op : WriterOp ι} (hop : op.Fresh w) :
    ∃ w', w.step op = some w' ∧ Refines w' (A.step op) := by
  cases op with
  | opcode c op => exact opcode_refines h c op
  | queue c q core => exact queue_refines h c q hop.1 hop.2
  | writeOut c =>
    obtain ⟨w', hstep, h', -⟩ := writeOut_packet h c
    exact ⟨w', hstep, h'⟩

/-- Every sequence of calls acts on the elements as it does on the queues. -/
theorem run_refines (h : Refines w A) {ops : List (WriterOp ι)} (hops : AllFresh w ops) :
    ∃ w', w.run ops = some w' ∧ Refines w' (ops.foldl Outbox.step A) := by
  induction ops generalizing w A with
  | nil => exact ⟨w, rfl, h⟩
  | cons op ops ih =>
    obtain ⟨w₁, hstep, h₁⟩ := step_refines h hops.1
    obtain ⟨w₂, hrun, h₂⟩ := ih h₁ (hops.2 w₁ hstep)
    refine ⟨w₂, ?_, h₂⟩
    rw [Writer.run, List.foldlM_cons, hstep]
    exact hrun

/-- The connections have just been opened: each has its own empty element
    `core c`, and there is no other element. No write will fail. -/
structure Writer.Opened (w : Writer ι) (core : ι → Addr) (opcode : ι → BitVec 32)
    (sched : ι → List WriteEvent) : Prop where
  conns : ∀ c, w.conns c = OutConn.opened (core c) (opcode c) (sched c)
  injective : Function.Injective core
  ele : ∀ c, core c ≠ 0 ∧ w.heap.get (core c) = some ⟨SclEle.zero, 0⟩
  live : ∀ a, (w.heap.get a).isSome → ∃ c, a = core c
  sched_ok : ∀ c, ∀ e ∈ sched c, e.Ok

/-- Nothing is queued. -/
def Outbox.opened (opcode : ι → BitVec 32) : Outbox ι := ⟨fun _ => [], opcode⟩

/-- What has been queued since the last packet, after a sequence of calls. -/
def Outbox.after (opcode : ι → BitVec 32) (ops : List (WriterOp ι)) : Outbox ι :=
  ops.foldl Outbox.step (Outbox.opened opcode)

omit [DecidableEq ι] in
theorem Writer.Opened.refines {core : ι → Addr} {opcode : ι → BitVec 32}
    {sched : ι → List WriteEvent} (h : w.Opened core opcode sched) :
    Refines w (Outbox.opened opcode) := by
  refine ⟨⟨fun _ => [], ⟨fun c => ⟨SclEle.zero, ?_⟩, fun c c' hcc a ha => ?_, fun a ha => ?_⟩,
    fun c => rfl⟩, fun c => ?_, fun c => ?_, fun c => ?_⟩
  · rw [h.conns c]
    exact ⟨rfl, (h.ele c).1, 0, (h.ele c).2, rfl⟩
  · simp only [Writer.nodes, h.conns, OutConn.opened, List.map_nil, List.nil_append,
      List.mem_singleton] at ha ⊢
    rintro hc
    exact hcc (h.injective (ha.symm.trans hc))
  · obtain ⟨c, rfl⟩ := h.live a ha
    exact ⟨c, by simp [Writer.nodes, h.conns, OutConn.opened]⟩
  · rw [h.conns c]
    rfl
  · rw [h.conns c]
    rfl
  · rw [h.conns c]
    exact h.sched_ok c

/-- After any sequence of calls on any number of connections, `scl_write_out` on
    `c` emits there, and only there, the values queued on `c` since its last
    packet, behind a header with their length; then the queue is one empty
    element, and the elements that held the values are freed. -/
theorem writeOut_reachable {w₀ : Writer ι} {core : ι → Addr} {opcode : ι → BitVec 32}
    {sched : ι → List WriteEvent} (h₀ : w₀.Opened core opcode sched) {ops : List (WriterOp ι)}
    (hops : AllFresh w₀ ops) (c : ι)
    (hlen : (payload ((Outbox.after opcode ops).pending c)).length < 2 ^ 32) :
    ∃ w w', w₀.run ops = some w ∧ sclWriteOut w c = some w' ∧
      (∃ len : BitVec 32,
        len.toNat = (payload ((Outbox.after opcode ops).pending c)).length ∧
        (w'.conns c).out = (w.conns c).out ++
          (bytesOf ((Outbox.after opcode ops).opcode c) ++ lenBytes 0 ++ lenBytes 0 ++
            bytesOf len) ++
          payload ((Outbox.after opcode ops).pending c)) ∧
      (∀ c', c' ≠ c → w'.conns c' = w.conns c') ∧
      (w'.conns c).outPacketLen = 0 ∧ (w'.conns c).outEleQueue = (w'.conns c).outCurEle ∧
      (∃ z, w'.heap.get (w'.conns c).outCurEle = some ⟨z, 0⟩) ∧
      ∃ l z, IsChain w.heap (w.conns c).outEleQueue (l ++ [((w.conns c).outCurEle, z)]) ∧
        l.map Prod.snd = ((Outbox.after opcode ops).pending c).map Queued.ele ∧
        ∀ x ∈ l, w'.heap.get x.1 = none := by
  obtain ⟨w, hrun, h⟩ := run_refines h₀.refines hops
  obtain ⟨w', hstep, h', hothers, ⟨l, z, hchain, hl, hfreed, -⟩, hqueue, hcur, hzero, hout⟩ :=
    writeOut_packet h c
  obtain ⟨Q', hQ', -⟩ := h'.queues
  refine ⟨w, w', hrun, hstep, ⟨_, BitVec.toNat_ofNat _ _ ▸ Nat.mod_eq_of_lt hlen, ?_⟩, hothers,
    hzero, hqueue.trans hcur.symm, (hQ'.get_cur c).2, l, z, hchain, hl, hfreed⟩
  rw [hout fun q hq => lt_of_le_of_lt (enc_length_le_payload hq) hlen]
  simp [packet, lenBytes, Outbox.after]

/-- Two connections that have just been opened. -/
def twoOpened : Writer (Fin 2) where
  heap := (Heap.empty.set 16 ⟨SclEle.zero, 0⟩).set 32 ⟨SclEle.zero, 0⟩
  curEle := 0
  conns c := OutConn.opened (16 * (c + 1)) 0 []

theorem twoOpened_opened :
    twoOpened.Opened (fun c => 16 * (c + 1)) (fun _ => 0) fun _ => [] where
  conns _ := rfl
  injective c c' hcc := Fin.ext (by simpa using hcc)
  ele c := by fin_cases c <;> exact ⟨by decide, rfl⟩
  live a ha := by
    by_cases h32 : a = 32
    · exact ⟨1, h32⟩
    by_cases h16 : a = 16
    · exact ⟨0, h16⟩
    · rw [twoOpened, Heap.get_set_ne _ _ h32, Heap.get_set_ne _ _ h16] at ha
      simp at ha
  sched_ok _ _ he := by simp at he

/-- Two values queued in a row, on whatever connections. -/
theorem allFresh_queue_queue (h : Refines w A) (c c' : ι) (q q' : Queued) (a a' : Addr)
    (ha : a ≠ 0 ∧ w.heap.get a = none) (ha' : a' ≠ 0 ∧ w.heap.get a' = none) (hne : a' ≠ a) :
    AllFresh w [.queue c q a, .queue c' q' a'] := by
  refine ⟨ha, fun w' hstep => ⟨⟨ha'.1, ?_⟩, fun _ _ => trivial⟩⟩
  obtain ⟨Q, hQ, -⟩ := h.queues
  obtain ⟨-, z, ht⟩ := hQ.get_cur c
  have hcur : ∀ b, w.heap.get b = none → b ≠ (w.conns c).outCurEle := by
    rintro b hb rfl
    simp [ht] at hb
  have hrun := sclQueueValue_eq q.object q.value.type q.arrayLen ht ha.1 (hcur a ha.2)
  rw [Writer.step, hrun] at hstep
  rw [← Option.some.inj hstep]
  simp only
  rw [Heap.get_set_ne _ _ (hcur a' ha'.2), Heap.get_set_ne _ _ hne,
    Heap.get_set_ne _ _ (hcur a' ha'.2), ha'.2]

/-- An `SCL_INT`, queued. -/
def Queued.int (v : BitVec 32) : Queued :=
  ⟨.int v, .mem (bytesOf v), 0, by simp [Value.Rep, Value.type, SclType.isComplex, Value.elems]⟩

/-- An `SCL_DATA` of `n` zero bytes, queued. -/
def Queued.zeros (n : ℕ) : Queued :=
  ⟨.data (List.replicate n 0), .mem (List.replicate n 0), n,
    ⟨fun _ => by simp [Value.count], Or.inr ⟨[], by simp [Value.elems]⟩⟩⟩

/-- Values queued in turn on two connections go out on their own. -/
theorem writeOut_reachable_two :
    ∃ w w', twoOpened.run [.queue 1 (.int 7) 48, .queue 0 (.int 8) 64] = some w ∧
      sclWriteOut w 1 = some w' ∧ (∀ c', c' ≠ 1 → w'.conns c' = w.conns c') := by
  obtain ⟨w, w', hrun, hout, -, hothers, -⟩ := writeOut_reachable twoOpened_opened
    (allFresh_queue_queue twoOpened_opened.refines 1 0 (.int 7) (.int 8) 48 64 ⟨by decide, rfl⟩
      ⟨by decide, rfl⟩ (by decide)) 1 (by decide)
  exact ⟨w, w', hrun, hout, hothers⟩

omit [DecidableEq ι] in
theorem length_payload_zeros (n : ℕ) :
    (payload [Queued.zeros n, Queued.zeros n]).length = 2 * (4 + n) := by
  simp [payload, Queued.zeros, Value.enc, Value.type, SclType.isComplex, Value.elems]
  omega

/-- The length of a packet is a 32-bit word: two blocks of `2^31 - 1` bytes each
    make a payload of `2^32 + 6` bytes, and a header that announces 6. -/
theorem writeOut_length_wraps :
    ∃ w w' qs, twoOpened.run [.queue 0 (.zeros (2 ^ 31 - 1)) 48,
      .queue 0 (.zeros (2 ^ 31 - 1)) 64] =
        some w ∧ sclWriteOut w 0 = some w' ∧
      (w'.conns 0).out = (w.conns 0).out ++
        (bytesOf (0 : BitVec 32) ++ lenBytes 0 ++ lenBytes 0 ++ bytesOf (6 : BitVec 32)) ++
        payload qs ∧
      qs = [.zeros (2 ^ 31 - 1), .zeros (2 ^ 31 - 1)] ∧ (payload qs).length = 2 ^ 32 + 6 := by
  generalize hn : 2 ^ 31 - 1 = n
  obtain ⟨w, hrun, h⟩ := run_refines twoOpened_opened.refines
    (allFresh_queue_queue twoOpened_opened.refines 0 0 (.zeros n) (.zeros n) 48 64
      ⟨by decide, rfl⟩ ⟨by decide, rfl⟩ (by decide))
  obtain ⟨w', hstep, -, -, -, -, -, -, hout⟩ := writeOut_packet h 0
  have hlen : (payload [Queued.zeros n, Queued.zeros n]).length = 2 ^ 32 + 6 := by
    rw [length_payload_zeros, ← hn]
    norm_num
  refine ⟨w, w', [.zeros n, .zeros n], hrun, hstep, ?_, rfl, hlen⟩
  rw [hout]
  · have hpacket : packet 0 [Queued.zeros n, Queued.zeros n] =
        bytesOf (0 : BitVec 32) ++ lenBytes 0 ++ lenBytes 0 ++ bytesOf (6 : BitVec 32) ++
          payload [Queued.zeros n, Queued.zeros n] := by
      have hwrap : lenBytes (2 ^ 32 + 6) = bytesOf (6 : BitVec 32) := by decide
      rw [packet, hlen, hwrap]
    rw [List.append_assoc, ← hpacket]
    rfl
  · intro q hq
    have hq : q = Queued.zeros n := by simpa [Outbox.step, Outbox.opened] using hq
    have henc : (Queued.zeros n).value.enc.length = 4 + n := by
      simp [Queued.zeros, Value.enc, Value.type, SclType.isComplex, Value.elems]
    rw [hq, henc]
    omega

end CompatSuva.Scl
