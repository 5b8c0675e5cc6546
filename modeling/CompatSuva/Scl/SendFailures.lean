import CompatSuva.Scl.Outbox

/-!
# Packets whose writes fail

`scl_write_out` and `scl_write_value` call `scl_write` once for each word and each
part of a value, go on whatever it returns, and `scl_write_out` returns 1.

The outcomes of the `write()` calls are arbitrary here. `Writer.calm` forgets them,
and what has been written, so that what is known of the queues carries over.

* `foldl_fwrite_spec`: the bytes on the stream are those of the buffers exactly when
  no `write()` made for them fails;
* `run_calm`: the queues, after any sequence of calls;
* `writeOut_prefix_iff`: a packet is sent and reported as it should be exactly when
  no `write()` made for it fails.
-/

namespace CompatSuva.Scl

open CompatSuva.Common

/-! ## The writes of a buffer -/

/-- The `write()` calls for `n` bytes: the calls that are left when all of them have
    been taken; `none` when one fails, returns 0, or waits for `SCL_TIMEOUT`. -/
def takeWrites : ℕ → List WriteEvent → Option (List WriteEvent)
  | _, [] => some []
  | n, e :: evs =>
    if n = 0 then some (e :: evs)
    else
      match e with
      | .accept k => if n ≤ k + 1 then some evs else takeWrites (n - (k + 1)) evs
      | .again elapsed => if elapsed < sclTimeout then takeWrites n evs else none
      | .error => none
      | .hangUp => none

/-- The same for buffers that are written one after the other. -/
def takeAllWrites (bufs : List (List Byte)) (evs : List WriteEvent) : Option (List WriteEvent) :=
  bufs.foldlM (fun evs buf => takeWrites buf.length evs) evs

/-- `scl_write` puts a prefix of the buffer on the stream, and all of it exactly when
    no `write()` fails. -/
theorem sclWriteLoop_spec (len : ℕ) (chunk put : List Byte) (evs : List WriteEvent) :
    ∃ sent, (sclWriteLoop len chunk put evs).put = put ++ sent ∧
      match takeWrites chunk.length evs with
      | some rest => sent = chunk ∧ (sclWriteLoop len chunk put evs).rest = rest
      | none => sent.length < chunk.length := by
  induction evs generalizing chunk put with
  | nil => exact ⟨chunk, rfl, rfl, rfl⟩
  | cons e evs ih =>
    by_cases hc : chunk.length = 0
    · have hnil : chunk = [] := List.eq_nil_of_length_eq_zero hc
      have htake : takeWrites chunk.length (e :: evs) = some (e :: evs) := by
        cases e <;> rw [takeWrites, if_pos hc]
      have hloop : sclWriteLoop len chunk put (e :: evs) = ⟨wrap32 len, put, e :: evs⟩ := by
        cases e <;> rw [sclWriteLoop, if_pos hc]
      refine ⟨[], by rw [hloop, List.append_nil], ?_⟩
      rw [htake]
      exact ⟨hnil.symm, by rw [hloop]⟩
    · cases e with
      | accept k =>
        rw [sclWriteLoop, if_neg hc, takeWrites, if_neg hc]
        split_ifs with hle
        · exact ⟨chunk, rfl, rfl, rfl⟩
        · obtain ⟨sent, hput, hrest⟩ := ih (chunk.drop (k + 1)) (put ++ chunk.take (k + 1))
          rw [List.length_drop] at hrest
          refine ⟨chunk.take (k + 1) ++ sent, by rw [hput, List.append_assoc], ?_⟩
          cases htake : takeWrites (chunk.length - (k + 1)) evs with
          | some rest =>
            rw [htake] at hrest
            exact ⟨by rw [hrest.1, List.take_append_drop], hrest.2⟩
          | none =>
            rw [htake] at hrest
            simp only [List.length_append, List.length_take]
            omega
      | again elapsed =>
        rw [sclWriteLoop, if_neg hc, takeWrites, if_neg hc]
        split_ifs with hlt
        · exact ih chunk put
        · refine ⟨[], by rw [List.append_nil], ?_⟩
          show 0 < chunk.length
          omega
      | error =>
        rw [sclWriteLoop, if_neg hc, takeWrites, if_neg hc]
        refine ⟨[], by rw [List.append_nil], ?_⟩
        show 0 < chunk.length
        omega
      | hangUp =>
        rw [sclWriteLoop, if_neg hc, takeWrites, if_neg hc]
        refine ⟨[], by rw [List.append_nil], ?_⟩
        show 0 < chunk.length
        omega

/-- A connection without what has been written, and without the outcomes of `write()`. -/
def OutConn.calm (conn : OutConn) : OutConn := { conn with out := [], sched := [] }

/-- Only the stream changes. -/
theorem fwrite_calm (conn : OutConn) (data : List Byte) : (conn.fwrite data).calm = conn.calm := rfl

theorem foldl_fwrite_calm (conn : OutConn) (bufs : List (List Byte)) :
    (bufs.foldl OutConn.fwrite conn).calm = conn.calm := by
  induction bufs generalizing conn with
  | nil => rfl
  | cons buf bufs ih => rw [List.foldl_cons, ih, fwrite_calm]

/-- The bytes on the stream are those of the buffers exactly when no `write()` made
    for them fails; else some are missing. -/
theorem foldl_fwrite_spec (conn : OutConn) (bufs : List (List Byte)) :
    ∃ sent, (bufs.foldl OutConn.fwrite conn).out = conn.out ++ sent ∧
      match takeAllWrites bufs conn.sched with
      | some _ => sent = bufs.flatten
      | none => sent.length < bufs.flatten.length := by
  induction bufs generalizing conn with
  | nil => exact ⟨[], (List.append_nil _).symm, rfl⟩
  | cons buf bufs ih =>
    obtain ⟨first, hfirst, hspec⟩ := sclWriteLoop_spec buf.length buf [] conn.sched
    obtain ⟨sent, hsent, hrest⟩ := ih (conn.fwrite buf)
    have hout : (conn.fwrite buf).out = conn.out ++ first := by
      rw [OutConn.fwrite, sclWrite, hfirst, List.nil_append]
    refine ⟨first ++ sent, by rw [List.foldl_cons, hsent, hout, List.append_assoc], ?_⟩
    have hle : sent.length ≤ bufs.flatten.length := by
      cases htake : takeAllWrites bufs (conn.fwrite buf).sched with
      | some rest =>
        rw [htake] at hrest
        rw [hrest]
      | none =>
        rw [htake] at hrest
        omega
    cases htake : takeWrites buf.length conn.sched with
    | none =>
      rw [htake] at hspec
      have hnone : takeAllWrites (buf :: bufs) conn.sched = none := by
        rw [takeAllWrites, List.foldlM_cons, htake]
        rfl
      rw [hnone, List.flatten_cons, List.length_append, List.length_append]
      omega
    | some rest =>
      rw [htake] at hspec
      obtain ⟨rfl, hsched⟩ := hspec
      have hsched' : (conn.fwrite first).sched = rest := hsched
      have hall : takeAllWrites (first :: bufs) conn.sched =
          takeAllWrites bufs (conn.fwrite first).sched := by
        rw [takeAllWrites, List.foldlM_cons, htake, hsched']
        rfl
      rw [hall]
      cases hrun : takeAllWrites bufs (conn.fwrite first).sched with
      | some rest' =>
        rw [hrun] at hrest
        rw [hrest, List.flatten_cons]
      | none =>
        rw [hrun] at hrest
        rw [List.flatten_cons, List.length_append, List.length_append]
        omega

/-! ## The queues, whatever the writes do -/

variable {ι : Type} [DecidableEq ι] {w : Writer ι} {A : Outbox ι}

/-- The queues and pointers of a writer. -/
def Writer.calm (w : Writer ι) : Writer ι := { w with conns := fun c => (w.conns c).calm }

theorem calm_update (heap : Heap (Node SclEle)) (curEle : Addr) (conns : ι → OutConn) (c : ι)
    (conn : OutConn) :
    Writer.calm ⟨heap, curEle, Function.update conns c conn⟩ =
      ⟨heap, curEle, Function.update (fun c => (conns c).calm) c conn.calm⟩ := by
  have hcomp := Function.comp_update OutConn.calm conns c conn
  exact congrArg (Writer.mk heap curEle) hcomp

/-- The buffers that `scl_write_out` and `scl_write_value` pass to `scl_write`, in turn. -/
def packetWrites (opcode : BitVec 32) (qs : List Queued) : List (List Byte) :=
  [bytesOf opcode, lenBytes 0, lenBytes 0, lenBytes (payload qs).length] ++
    qs.flatMap fun q => sclWriteValue q.object q.value.type q.arrayLen

omit [DecidableEq ι] in
theorem eleWrites_eq {l : List (Addr × SclEle)} {qs : List Queued}
    (hl : l.map Prod.snd = qs.map Queued.ele) :
    eleWrites l = qs.flatMap fun q => sclWriteValue q.object q.value.type q.arrayLen := by
  have hmap : eleWrites l =
      (l.map Prod.snd).flatMap fun e => sclWriteValue e.object e.type e.arrayLen := by
    rw [eleWrites, List.flatMap_map]
  rw [hmap, hl, List.flatMap_map]
  rfl

omit [DecidableEq ι] in
/-- The buffers hold the packet. -/
theorem flatten_packetWrites (opcode : BitVec 32) {qs : List Queued}
    (hlen : (payload qs).length < 2 ^ 32) :
    (packetWrites opcode qs).flatten = packet opcode qs := by
  obtain ⟨l, hl⟩ : ∃ l : List (Addr × SclEle), l.map Prod.snd = qs.map Queued.ele :=
    ⟨qs.map fun q => (0, q.ele), by simp⟩
  have hshort : ∀ q ∈ qs, q.value.enc.length < 2 ^ 32 := by
    intro q hq
    exact lt_of_le_of_lt (enc_length_le_payload hq) hlen
  rw [packetWrites, List.flatten_append, ← eleWrites_eq hl, flatten_eleWrites hl hshort, packet]
  simp

/-- `scl_write_out` takes the queue off, and hands its buffers to `scl_write`. -/
theorem writeOut_calm (h : Refines w.calm A) (c : ι) :
    ∃ w', sclWriteOut w c = some w' ∧ Refines w'.calm (A.step (.writeOut c)) ∧
      (w'.conns c).out =
        ((packetWrites (A.opcode c) (A.pending c)).foldl OutConn.fwrite (w.conns c)).out := by
  obtain ⟨Q, hQ, hpending⟩ := h.queues
  obtain ⟨z, hchain⟩ := hQ.chain c
  have hcalm := foldl_fwrite_calm (w.conns c) (w.conns c).header
  have hqueue : ((w.conns c).header.foldl OutConn.fwrite (w.conns c)).outEleQueue =
      (w.conns c).outEleQueue := by
    have hq := congrArg OutConn.outEleQueue hcalm
    exact hq
  obtain ⟨heap', hloop, hfreed, hkept⟩ := writeOutLoop_eq hchain
    ((w.conns c).header.foldl OutConn.fwrite (w.conns c)) hchain.length_lt
  generalize hconn :
    (eleWrites (Q c)).foldl OutConn.fwrite ((w.conns c).header.foldl OutConn.fwrite (w.conns c)) =
      conn at hloop
  have hconn_calm : conn.calm = (w.conns c).calm := by
    rw [← hconn, foldl_fwrite_calm, hcalm]
  have hstep : sclWriteOut w c = some
      { heap := heap'
        curEle := (w.conns c).outCurEle
        conns := Function.update w.conns c
          { conn with outEleQueue := (w.conns c).outCurEle, outPacketLen := 0 } } := by
    have hloop' : writeOutLoop (w.heap.size + 1) w.heap
        ((w.conns c).header.foldl OutConn.fwrite (w.conns c)) (w.conns c).outEleQueue =
          some (heap', conn, (w.conns c).outCurEle) := hloop
    rw [sclWriteOut]
    simp only [hqueue, hloop', Option.bind_eq_bind, Option.bind_some]
  refine ⟨_, hstep, ?_, ?_⟩
  · rw [calm_update]
    have hfields : ({ conn with
        outEleQueue := (w.conns c).outCurEle
        outPacketLen := 0 } : OutConn).calm =
          { (w.conns c).calm with outEleQueue := (w.conns c).outCurEle, outPacketLen := 0 } := by
      rw [← hconn_calm]
      rfl
    rw [hfields]
    have htaken := h.taken hQ hpending c hfreed hkept (w.conns c).outCurEle
      { (w.conns c).calm with outEleQueue := (w.conns c).outCurEle, outPacketLen := 0 } rfl rfl rfl
      (h.sched c)
    have hop : (w.conns c).calm.outPacketOpcode = A.opcode c := h.opcode c
    rw [hop, Function.update_eq_self] at htaken
    exact htaken
  · have hheader : (w.conns c).header =
        [bytesOf (A.opcode c), lenBytes 0, lenBytes 0,
          lenBytes (payload (A.pending c)).length] := by
      have hop : (w.conns c).outPacketOpcode = A.opcode c := h.opcode c
      have hlen : (w.conns c).outPacketLen = BitVec.ofNat 32 (payload (A.pending c)).length :=
        h.len c
      rw [OutConn.header, hop, hlen]
      rfl
    rw [packetWrites, ← hheader, ← eleWrites_eq (hpending c), List.foldl_append, hconn]
    simp only [Function.update_self]

/-- One call. -/
theorem step_calm (h : Refines w.calm A) {op : WriterOp ι} (hop : op.Fresh w) :
    ∃ w', w.step op = some w' ∧ Refines w'.calm (A.step op) := by
  cases op with
  | opcode c op =>
    obtain ⟨w₁, hstep, h₁⟩ := opcode_refines h c op
    refine ⟨_, rfl, ?_⟩
    rw [← Option.some.inj hstep] at h₁
    rw [calm_update]
    exact h₁
  | queue c q core =>
    obtain ⟨Q, hQ, -⟩ := h.queues
    obtain ⟨-, z, ht⟩ := hQ.get_cur c
    have ht : w.heap.get (w.conns c).outCurEle = some ⟨z, 0⟩ := ht
    have hne : core ≠ (w.conns c).outCurEle := by
      intro heq
      rw [← heq, hop.2] at ht
      simp at ht
    obtain ⟨w₁, hstep, h₁⟩ := queue_refines h c q hop.1 hop.2
    have hcalm : w.calm.step (.queue c q core) = _ :=
      sclQueueValue_eq q.object q.value.type q.arrayLen ht hop.1 hne
    rw [hcalm] at hstep
    rw [← Option.some.inj hstep] at h₁
    refine ⟨_, sclQueueValue_eq q.object q.value.type q.arrayLen ht hop.1 hne, ?_⟩
    rw [calm_update]
    exact h₁
  | writeOut c =>
    obtain ⟨w', hstep, h', -⟩ := writeOut_calm h c
    exact ⟨w', hstep, h'⟩

/-- Every sequence of calls acts on the queues as it does when no write fails. -/
theorem run_calm (h : Refines w.calm A) {ops : List (WriterOp ι)} (hops : AllFresh w ops) :
    ∃ w', w.run ops = some w' ∧ Refines w'.calm (ops.foldl Outbox.step A) := by
  induction ops generalizing w A with
  | nil => exact ⟨w, rfl, h⟩
  | cons op ops ih =>
    obtain ⟨w₁, hstep, h₁⟩ := step_calm h hops.1
    obtain ⟨w₂, hrun, h₂⟩ := ih h₁ (hops.2 w₁ hstep)
    refine ⟨w₂, ?_, h₂⟩
    rw [Writer.run, List.foldlM_cons, hstep]
    exact hrun

/-! ## What is sent and reported -/

/-- `scl_write_out`, with its result (line 105). -/
def writeOutRet (w : Writer ι) (c : ι) : Option (ℤ × Writer ι) :=
  (sclWriteOut w c).map fun w => (1, w)

/-- Whatever has been queued, and whatever the `write()` calls do, on connections that
    were just opened: `scl_write_out` puts a prefix of the packet on the stream, and
    reports success only for all of it, exactly when no `write()` made for the packet
    fails, returns 0 or waits for `SCL_TIMEOUT`. -/
theorem writeOut_prefix_iff {w₀ : Writer ι} {core : ι → Addr} {opcode : ι → BitVec 32}
    (h₀ : w₀.calm.Opened core opcode fun _ => []) {ops : List (WriterOp ι)}
    (hops : AllFresh w₀ ops) (c : ι) :
    ∃ w ret w' sent, w₀.run ops = some w ∧ writeOutRet w c = some (ret, w') ∧
      (w'.conns c).out = (w.conns c).out ++ sent ∧
      ((sent <+: (packetWrites ((Outbox.after opcode ops).opcode c)
            ((Outbox.after opcode ops).pending c)).flatten ∧
          (ret = 1 → sent = (packetWrites ((Outbox.after opcode ops).opcode c)
            ((Outbox.after opcode ops).pending c)).flatten)) ↔
        (takeAllWrites (packetWrites ((Outbox.after opcode ops).opcode c)
          ((Outbox.after opcode ops).pending c)) (w.conns c).sched).isSome) := by
  obtain ⟨w, hrun, h⟩ := run_calm h₀.refines hops
  obtain ⟨w', hstep, -, hout⟩ := writeOut_calm h c
  obtain ⟨sent, hsent, hspec⟩ := foldl_fwrite_spec (w.conns c)
    (packetWrites ((Outbox.after opcode ops).opcode c) ((Outbox.after opcode ops).pending c))
  refine ⟨w, 1, w', sent, hrun, by rw [writeOutRet, hstep]; rfl, hout.trans hsent, ?_⟩
  cases htake : takeAllWrites (packetWrites ((Outbox.after opcode ops).opcode c)
      ((Outbox.after opcode ops).pending c)) (w.conns c).sched with
  | some rest =>
    rw [htake] at hspec
    constructor
    · intro _
      rfl
    · intro _
      exact ⟨hspec ▸ List.prefix_refl _, fun _ => hspec⟩
  | none =>
    rw [htake] at hspec
    constructor
    · intro hwhole
      have hlen := congrArg List.length (hwhole.2 rfl)
      omega
    · intro hnone
      exact absurd hnone (by simp)

/-- Two connections that were just opened, with opcode 5; the `write()` calls on connection 0 do
    as in `sched`. -/
def openedWith (sched : List WriteEvent) : Writer (Fin 2) where
  heap := twoOpened.heap
  curEle := 0
  conns c := OutConn.opened (16 * (c + 1)) 5 (if c = 0 then sched else [])

theorem openedWith_opened (sched : List WriteEvent) :
    (openedWith sched).calm.Opened (fun c => 16 * (c + 1)) (fun _ => 5) fun _ => [] where
  conns _ := rfl
  injective := twoOpened_opened.injective
  ele := twoOpened_opened.ele
  live := twoOpened_opened.live
  sched_ok _ _ he := by simp at he

/-- A queued number goes out whole, though a `write()` takes two bytes, the next must wait and
    the one after takes a single byte. -/
theorem writeOut_prefix_iff_short :
    ∃ w ret w' sent, (openedWith [.accept 1, .again 3, .accept 0]).run [.queue 0 (.int 7) 48] =
        some w ∧ writeOutRet w 0 = some (ret, w') ∧
      (w'.conns 0).out = (w.conns 0).out ++ sent ∧
      sent <+: (packetWrites 5 [.int 7]).flatten ∧
      (ret = 1 → sent = (packetWrites 5 [.int 7]).flatten) := by
  have hfresh : AllFresh (openedWith [.accept 1, .again 3, .accept 0]) [.queue 0 (.int 7) 48] :=
    ⟨⟨by decide, rfl⟩, fun _ _ => trivial⟩
  obtain ⟨w, ret, w', sent, hrun, hret, hout, hiff⟩ :=
    writeOut_prefix_iff (openedWith_opened _) hfresh 0
  have hsched : (w.conns 0).sched = [.accept 1, .again 3, .accept 0] := by
    obtain rfl := Option.some.inj hrun
    rfl
  rw [hsched] at hiff
  obtain ⟨hstart, hall⟩ := hiff.mpr (by decide)
  exact ⟨w, ret, w', sent, hrun, hret, hout, hstart, hall⟩

/-- The first `write()` on connection 0 waits for `SCL_TIMEOUT`. -/
def slowOpened : Writer (Fin 2) := openedWith [.again 30]

/-- The opcode is missing from the packet on connection 0, and success is reported. -/
theorem writeOut_hole :
    ∃ w' sent, writeOutRet slowOpened 0 = some (1, w') ∧ (w'.conns 0).out = sent ∧
      sent = lenBytes 0 ++ lenBytes 0 ++ lenBytes 0 ∧ ¬ sent <+: (packetWrites 5 []).flatten := by
  refine ⟨_, _, rfl, rfl, rfl, ?_⟩
  decide

end CompatSuva.Scl
