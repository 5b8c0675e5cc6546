import CompatSuva.Scl.SendFailures

/-!
# Values that find no memory

`scl_queue_value` fills the empty element at the end of the queue and adds the length
of the value; then `scl_alloc_ele`, which has no result, asks `mem_alloc` for the next
empty element. When `mem_alloc` returns NULL, the element filled is the last one, and
`out_cur_ele` is NULL.

* `sclQueueValue_null`: the state then;
* `queueValue_failure`: the next packet announces the length of the value, and does
  not hold it;
* `queueAtomic_never`: such a call reports success, and is never atomic.
-/

namespace CompatSuva.Scl

open CompatSuva.Common

variable {ι : Type} [DecidableEq ι] {w : Writer ι} {A : Outbox ι}

/-- `scl_queue_value`, with its result (line 195). -/
def queueValueRet (w : Writer ι) (c : ι) (q : Queued) (core : Addr) : Option (ℤ × Writer ι) :=
  (sclQueueValue w c q.object q.value.type q.arrayLen core).map fun w => (1, w)

/-- A call without memory for the next element fails and leaves the length, the cursor
    and the list as they were, and the next packet has the length its header says. -/
def QueueAtomic (w : Writer ι) (c : ι) (q : Queued) : Prop :=
  ∃ ret w', queueValueRet w c q 0 = some (ret, w') ∧ ret ≠ 1 ∧
    (w'.conns c).outPacketLen = (w.conns c).outPacketLen ∧
    (w'.conns c).outCurEle = (w.conns c).outCurEle ∧
    (∀ l, IsChain w.heap (w.conns c).outEleQueue l → IsChain w'.heap (w'.conns c).outEleQueue l) ∧
    ∃ (w'' : Writer ι) (opcode : BitVec 32) (body : List Byte), sclWriteOut w' c = some w'' ∧
      (w''.conns c).out = (w'.conns c).out ++
        [bytesOf opcode, lenBytes 0, lenBytes 0, lenBytes body.length].flatten ++ body

/-- What `scl_queue_value` does when `mem_alloc` returns NULL. -/
theorem sclQueueValue_null {c : ι} {z : SclEle} (q : Queued)
    (ht : w.heap.get (w.conns c).outCurEle = some ⟨z, 0⟩) :
    sclQueueValue w c q.object q.value.type q.arrayLen 0 = some
      { heap := (w.heap.set (w.conns c).outCurEle ⟨q.ele, 0⟩).set (w.conns c).outCurEle ⟨q.ele, 0⟩
        curEle := (w.conns c).outCurEle
        conns := Function.update w.conns c { w.conns c with
          outPacketLen := (w.conns c).outPacketLen + BitVec.ofNat 32 q.value.enc.length
          outCurEle := 0 } } := by
  have hlen : BitVec.ofInt 32 (queuedLen q.object q.value.type q.arrayLen) =
      BitVec.ofNat 32 q.value.enc.length := by
    rw [queuedLen_eq q.rep, BitVec.ofInt_natCast]
  simp [sclQueueValue, sclAllocEle, ht, hlen, Queued.ele]

omit [DecidableEq ι] in
/-- The value is the last of the list, where the empty element was. -/
theorem chain_of_null {l : List (Addr × SclEle)} {t p : Addr} {z : SclEle} (e : SclEle)
    (hc : IsChain w.heap p (l ++ [(t, z)])) :
    IsChain ((w.heap.set t ⟨e, 0⟩).set t ⟨e, 0⟩) p (l ++ [(t, e)]) := by
  have hcur : t ∉ l.map Prod.fst := hc.last_not_mem
  induction l generalizing p with
  | nil =>
    obtain ⟨rfl, hne, -⟩ := hc
    exact ⟨rfl, hne, 0, Heap.get_set _ _ _, rfl⟩
  | cons x l ih =>
    obtain ⟨rfl, hne, q, hq, hl⟩ := hc
    rw [List.map_cons, List.mem_cons, not_or] at hcur
    refine ⟨rfl, hne, q, ?_, ih hl hcur.2⟩
    rw [Heap.get_set_ne _ _ (Ne.symm hcur.1), Heap.get_set_ne _ _ (Ne.symm hcur.1)]
    exact hq

/-- The packet after such a call, when no write fails: its header counts the value, its
    payload ends before it. -/
theorem queueValue_failure (h : Refines w A) (c : ι) (q : Queued)
    (hlen : (payload (A.pending c)).length < 2 ^ 32) :
    ∃ w' w'', queueValueRet w c q 0 = some (1, w') ∧ sclWriteOut w' c = some w'' ∧
      (w'.conns c).out = (w.conns c).out ∧
      (w''.conns c).out = (w'.conns c).out ++
        [bytesOf (A.opcode c), lenBytes 0, lenBytes 0,
          lenBytes (payload (A.pending c ++ [q])).length].flatten ++ payload (A.pending c) := by
  obtain ⟨Q, hQ, hpending⟩ := h.queues
  obtain ⟨z, hchain⟩ := hQ.chain c
  have hqueue := sclQueueValue_null q hchain.get_last.2
  generalize hw' : Writer.mk _ _ _ = w' at hqueue
  have hconn : w'.conns c = { w.conns c with
      outPacketLen := (w.conns c).outPacketLen + BitVec.ofNat 32 q.value.enc.length
      outCurEle := 0 } := by
    rw [← hw']
    exact Function.update_self _ _ _
  have hheader : (w'.conns c).header = [bytesOf (A.opcode c), lenBytes 0, lenBytes 0,
      lenBytes (payload (A.pending c ++ [q])).length] := by
    have hsum : (payload (A.pending c ++ [q])).length =
        (payload (A.pending c)).length + q.value.enc.length := by
      simp [payload]
    rw [OutConn.header, hconn, h.opcode c, h.len c, hsum, lenBytes, lenBytes, BitVec.ofNat_add]
  have hchain' : IsChain w'.heap (w'.conns c).outEleQueue
      (Q c ++ [((w.conns c).outCurEle, q.ele)]) := by
    rw [hconn, ← hw']
    exact chain_of_null q.ele hchain
  have hsched : ∀ e ∈ (w'.conns c).sched, e.Ok := by
    rw [hconn]
    exact h.sched c
  have hout : (w'.conns c).out = (w.conns c).out := by rw [hconn]
  obtain ⟨sched, hfirst, hok⟩ := foldl_fwrite (w'.conns c) hsched (w'.conns c).header
  obtain ⟨heap', hloop, -⟩ := writeOutLoop_eq hchain'
    ((w'.conns c).header.foldl OutConn.fwrite (w'.conns c)) hchain'.length_lt
  obtain ⟨sched', hrest, -⟩ := foldl_fwrite
    ((w'.conns c).header.foldl OutConn.fwrite (w'.conns c)) (by rw [hfirst]; exact hok)
    (eleWrites (Q c))
  rw [hrest, hfirst] at hloop
  have hstep : ∃ w'', sclWriteOut w' c = some w'' ∧ (w''.conns c).out =
      (w'.conns c).out ++ (w'.conns c).header.flatten ++ (eleWrites (Q c)).flatten := by
    rw [sclWriteOut, hfirst]
    simp only [Option.bind_eq_bind, hloop, Option.bind_some]
    exact ⟨_, rfl, by simp only [Function.update_self]⟩
  obtain ⟨w'', hstep, hout'⟩ := hstep
  refine ⟨w', w'', by rw [queueValueRet, hqueue]; rfl, hstep, hout, ?_⟩
  have hshort : ∀ q ∈ A.pending c, q.value.enc.length < 2 ^ 32 := by
    intro q hq
    exact lt_of_le_of_lt (enc_length_le_payload hq) hlen
  rw [hout', hheader, flatten_eleWrites (hpending c) hshort]

/-- In every state with its queues in order, and for every value: a call without memory
    for the next element reports success, adds the length of the value and leaves
    `out_cur_ele` NULL, so it is not atomic. -/
theorem queueAtomic_never (h : Refines w.calm A) (c : ι) (q : Queued) :
    ∃ w', queueValueRet w c q 0 = some (1, w') ∧
      (w'.conns c).outPacketLen =
        (w.conns c).outPacketLen + BitVec.ofNat 32 q.value.enc.length ∧
      (w'.conns c).outCurEle = 0 ∧ (w.conns c).outCurEle ≠ 0 ∧ ¬ QueueAtomic w c q := by
  obtain ⟨Q, hQ, -⟩ := h.queues
  obtain ⟨hne, z, ht⟩ := hQ.get_cur c
  have ht : w.heap.get (w.conns c).outCurEle = some ⟨z, 0⟩ := ht
  have hqueue := sclQueueValue_null q ht
  refine ⟨_, by rw [queueValueRet, hqueue]; rfl, ?_, ?_, hne, fun hatomic => ?_⟩
  · simp only [Function.update_self]
  · simp only [Function.update_self]
  · obtain ⟨ret, w', hret, hfailed, -⟩ := hatomic
    rw [queueValueRet, hqueue] at hret
    have h1 : (1 : ℤ) = ret := congrArg Prod.fst (Option.some.inj hret)
    exact hfailed h1.symm

/-- On a connection that was just opened. -/
theorem queueAtomic_never_int :
    ∃ w', queueValueRet slowOpened 0 (.int 7) 0 = some (1, w') ∧
      (w'.conns 0).outPacketLen = (slowOpened.conns 0).outPacketLen + BitVec.ofNat 32 4 ∧
      (w'.conns 0).outCurEle = 0 ∧ (slowOpened.conns 0).outCurEle ≠ 0 ∧
      ¬ QueueAtomic slowOpened 0 (.int 7) :=
  queueAtomic_never (openedWith_opened [.again 30]).refines 0 (.int 7)

/-- The number 7 on a connection that was just opened: the next packet announces four
    bytes and has none. -/
theorem queueValue_failure_int :
    ¬ QueueAtomic twoOpened 0 (.int 7) ∧
      ∃ w' w'', queueValueRet twoOpened 0 (.int 7) 0 = some (1, w') ∧ sclWriteOut w' 0 = some w'' ∧
        (w''.conns 0).out = bytesOf (0 : BitVec 32) ++ lenBytes 0 ++ lenBytes 0 ++ lenBytes 4 := by
  obtain ⟨w', w'', hret, hout, hsame, hsent⟩ :=
    queueValue_failure twoOpened_opened.refines 0 (.int 7) (by decide)
  constructor
  · rintro ⟨ret, w₁, hret₁, hfailed, -⟩
    rw [hret] at hret₁
    have h1 : (1 : ℤ) = ret := congrArg Prod.fst (Option.some.inj hret₁)
    exact hfailed h1.symm
  · refine ⟨w', w'', hret, hout, ?_⟩
    rw [hsent, hsame]
    rfl

end CompatSuva.Scl
