import CompatSuva.Scl.Decode
import CompatSuva.Scl.Outbox

/-!
# Packets sent are the packets received

* `sclReadPacket_of_arrives`: `scl_read_packet` delivers exactly the next packet
  of the stream when its bytes arrive in time;
* `run_send`: what sending a packet puts on the wire;
* `roundTrip`: packets queued and written on a connection are read and decoded
  at the other end, whatever the fragmentation of the stream.
-/

namespace CompatSuva.Scl

open CompatSuva.Common

/-! ## Reading a packet -/

/-- The connection once a whole packet has been read. -/
def InConn.received (header payload : List Byte) (junk : Memory) : InConn :=
  { InConn.newPacket header true junk with
    mem := store (InConn.newPacket header true junk).mem 0 payload }

/-- The bytes of the packet a stream starts with, as its header has it. -/
def packetLen (bs : List Byte) : ℕ := headerLen + (headerWord (bs.take headerLen) 3).toNat

/-- When a whole packet arrives in time, `scl_read_packet` delivers it. -/
theorem sclReadPacket_of_arrives (conn : InConn) (junk : Memory) {evs : List ReadEvent}
    (h : Arrives sclTimeout (packetLen (stream evs)) evs) :
    ∃ ret, sclReadPacket conn true junk evs = some (ret,
      InConn.received ((stream evs).take headerLen)
        (((stream evs).take (packetLen (stream evs))).drop headerLen) junk,
      dropBytes (packetLen (stream evs) - headerLen) (dropBytes headerLen evs)) := by
  obtain ⟨hheader, hpayload⟩ := arrives_add.mp h
  have hret : wrap32 (headerLen : ℕ) = (headerLen : ℤ) := by decide
  have hlen : packetLen (stream evs) - headerLen =
      (headerWord ((stream evs).take headerLen) 3).toNat := by
    rw [packetLen]
    omega
  have htake : ((stream evs).take (packetLen (stream evs))).drop headerLen =
      ((stream evs).drop headerLen).take
        (headerWord ((stream evs).take headerLen) 3).toNat := by
    rw [List.drop_take, hlen]
  rw [htake, hlen, sclReadPacket_of_header (sclRead_of_arrives hheader) hret]
  simp only [if_true, sclRead_of_arrives hpayload, Option.map_some, stream_dropBytes hheader]
  exact ⟨_, rfl⟩

theorem stream_after_packet {evs : List ReadEvent}
    (h : Arrives sclTimeout (packetLen (stream evs)) evs) :
    stream (dropBytes (packetLen (stream evs) - headerLen) (dropBytes headerLen evs)) =
      (stream evs).drop (packetLen (stream evs)) := by
  obtain ⟨hheader, hpayload⟩ := arrives_add.mp h
  have hlen : packetLen (stream evs) - headerLen =
      (headerWord ((stream evs).take headerLen) 3).toNat := by
    rw [packetLen]
    omega
  rw [hlen, stream_dropBytes hpayload, stream_dropBytes hheader, List.drop_drop, packetLen]

/-! ## The header of a packet -/

theorem length_packet (opcode : BitVec 32) (qs : List Queued) :
    (packet opcode qs).length = headerLen + (payload qs).length := by
  simp [packet, headerLen]
  omega

theorem headerWord_zero (opcode : BitVec 32) (qs : List Queued) (rest : List Byte) :
    headerWord ((packet opcode qs ++ rest).take headerLen) 0 = opcode := by
  have h : (((packet opcode qs ++ rest).take headerLen).drop 0).take 4 = bytesOf opcode := by
    simp [packet, headerLen, List.take_take]
  rw [headerWord_eq, Nat.mul_zero, h, wordOf_bytesOf (by decide)]

theorem headerWord_three (opcode : BitVec 32) (qs : List Queued) (rest : List Byte) :
    headerWord ((packet opcode qs ++ rest).take headerLen) 3 =
      BitVec.ofNat 32 (payload qs).length := by
  have h : (((packet opcode qs ++ rest).take headerLen).drop (4 * 3)).take 4 =
      lenBytes (payload qs).length := by
    have hpre : (bytesOf opcode ++ lenBytes 0 ++ lenBytes 0).length = 4 * 3 := by simp
    have hsplit : packet opcode qs ++ rest = (bytesOf opcode ++ lenBytes 0 ++ lenBytes 0) ++
        (lenBytes (payload qs).length ++ (payload qs ++ rest)) := by
      simp [packet]
    rw [List.drop_take, hsplit, List.drop_left' hpre, headerLen, List.take_take]
    exact List.take_left' (by simp)
  rw [headerWord_eq, h, lenBytes, wordOf_bytesOf (by decide)]

/-- A stream that starts with a packet. -/
theorem packetLen_packet (opcode : BitVec 32) {qs : List Queued}
    (hlen : (payload qs).length < 2 ^ 32)
    (rest : List Byte) :
    packetLen (packet opcode qs ++ rest) = (packet opcode qs).length := by
  rw [packetLen, headerWord_three, length_packet, BitVec.toNat_ofNat, Nat.mod_eq_of_lt hlen]

/-! ## Sessions -/

/-- One packet of a session: what the sender queues (with the results of
    `mem_alloc`), how many of its values the receiver decodes, whether it supplies
    `array_len` where it need not, and the memory around its new block. -/
structure Exchange where
  opcode : BitVec 32
  values : List (Queued × Addr)
  upTo : ℕ
  supply : Bool
  junk : Memory

namespace Exchange

/-- The values queued. -/
def queued (x : Exchange) : List Queued := x.values.map Prod.fst

/-- The values decoded. -/
def decoded (x : Exchange) : List Queued := x.queued.take x.upTo

/-- The sender's calls on connection `c`. -/
def sendOps {ι : Type} (c : ι) (x : Exchange) : List (WriterOp ι) :=
  (.opcode c x.opcode :: x.values.map fun v => .queue c v.1 v.2) ++ [.writeOut c]

/-- The receiver's calls of `scl_get_value`. -/
def requests (x : Exchange) : List Request :=
  x.decoded.map fun q => (q.value.type, q.value.type.isComplex || x.supply)

end Exchange

/-- What the receiver has after a packet: the opcode, the results of its calls and
    the connection. -/
structure Received where
  opcode : BitVec 32
  rets : List (Ret × Option ℤ)
  conn : InConn

/-- The receiver: read each packet and decode its values. -/
def receive : InConn → List ReadEvent → List Exchange → Option (List Received × List ReadEvent)
  | _, evs, [] => some ([], evs)
  | conn, evs, x :: xs => do
    let (_, conn, evs) ← sclReadPacket conn true x.junk evs
    let opcode := conn.inPacketOpcode
    let (rets, conn) ← getValues conn x.requests
    let (rs, evs) ← receive conn evs xs
    some (⟨opcode, rets, conn⟩ :: rs, evs)

/-- The packet received is the packet sent: the opcode is that of the packet, each
    call has returned the value it asked for, all of them read right in the end,
    and the cursor stands behind the last one. -/
structure Exchange.Faithful (x : Exchange) (r : Received) : Prop where
  opcode : r.opcode = x.opcode
  pdata : r.conn.pdata = some (payload x.queued).length
  cursor : r.conn.cursor = (payload x.decoded).length
  values : List.Forall₂
    (fun q a => q.value.norm.Reads r.conn.mem r.conn.tables 0 r.conn.cursor a.1 a.2)
    x.decoded r.rets

theorem payload_append (qs qs' : List Queued) :
    payload (qs ++ qs') = payload qs ++ payload qs' := by
  simp [payload]

theorem payload_eq (qs : List Queued) :
    payload qs = (qs.map Queued.value).flatMap Value.enc := by
  rw [payload, List.flatMap_map]

/-- One packet. -/
theorem receive_packet {x : Exchange} {evs : List ReadEvent} {rest : List Byte}
    (hlen : (payload x.queued).length < 2 ^ 31)
    (hstream : stream evs = packet x.opcode x.queued ++ rest)
    (htimely : ∀ e ∈ evs, e.Timely sclTimeout) (conn : InConn) :
    ∃ ret conn₁ evs' rets conn₂, sclReadPacket conn true x.junk evs = some (ret, conn₁, evs') ∧
      stream evs' = rest ∧ (∀ e ∈ evs', e.Timely sclTimeout) ∧
      getValues conn₁ x.requests = some (rets, conn₂) ∧
      x.Faithful ⟨conn₁.inPacketOpcode, rets, conn₂⟩ := by
  have hplen : packetLen (stream evs) = (packet x.opcode x.queued).length := by
    rw [hstream, packetLen_packet x.opcode (by omega)]
  have harr : Arrives sclTimeout (packetLen (stream evs)) evs :=
    arrives_of_timely htimely (by rw [hplen, hstream, List.length_append]; omega)
  obtain ⟨ret, hread⟩ := sclReadPacket_of_arrives conn x.junk harr
  have hpayload : ((stream evs).take (packetLen (stream evs))).drop headerLen =
      payload x.queued := by
    rw [hplen, hstream, List.take_left, packet, List.drop_left' (by simp [headerLen])]
  have hopcode : headerWord ((stream evs).take headerLen) 0 = x.opcode := by
    rw [hstream, headerWord_zero]
  have hword : headerWord ((stream evs).take headerLen) 3 =
      BitVec.ofNat 32 (payload x.queued).length := by
    rw [hstream, headerWord_three]
  rw [hpayload] at hread
  have hpdata : (InConn.received ((stream evs).take headerLen) (payload x.queued) x.junk).pdata =
      some (payload x.queued).length := by
    simp only [InConn.received, InConn.newPacket_eq, if_true, hword, BitVec.toNat_ofNat]
    rw [Nat.mod_eq_of_lt (by omega)]
  have hsplit : payload x.queued = payload x.decoded ++ payload (x.queued.drop x.upTo) := by
    rw [← payload_append, Exchange.decoded, List.take_append_drop]
  have hholds : Holds (InConn.received ((stream evs).take headerLen) (payload x.queued) x.junk).mem
      (InConn.received ((stream evs).take headerLen) (payload x.queued) x.junk).cursor
      ((x.decoded.map Queued.value).flatMap Value.enc) := by
    rw [← payload_eq]
    have hall : Holds (InConn.received ((stream evs).take headerLen) (payload x.queued) x.junk).mem
        (InConn.received ((stream evs).take headerLen) (payload x.queued) x.junk).cursor
        (payload x.decoded ++ payload (x.queued.drop x.upTo)) := by
      rw [← hsplit]
      exact holds_store _ _ _
    exact (holds_append.mp hall).1
  have hshort : ∀ v ∈ x.decoded.map Queued.value, v.enc.length < 2 ^ 31 + 4 := by
    intro v hv
    obtain ⟨q, hq, rfl⟩ := List.mem_map.mp hv
    have hq : q ∈ x.queued := List.mem_of_mem_take hq
    have := enc_length_le_payload hq
    omega
  have hasks : List.Forall₂ Asks (x.decoded.map Queued.value) x.requests := by
    rw [Exchange.requests, List.forall₂_map_left_iff, List.forall₂_map_right_iff]
    exact List.forall₂_same.mpr fun q _ => ⟨rfl, fun hc => by simp [hc]⟩
  obtain ⟨rets, conn₂, hrun, hdec, hreads⟩ := getValues_enc hpdata hholds hshort hasks
  have hcur : conn₂.cursor = (payload x.decoded).length := by
    rw [hdec.cursor, ← payload_eq]
    simp [InConn.received, InConn.newPacket_eq]
  refine ⟨ret, _, _, rets, conn₂, hread, ?_, ?_, hrun, ?_⟩
  · rw [stream_after_packet harr, hplen, hstream, List.drop_left]
  · exact timely_dropBytes (timely_dropBytes htimely)
  · refine ⟨hopcode, hdec.pdata.trans hpdata, hcur, ?_⟩
    rw [List.forall₂_map_left_iff] at hreads
    exact hreads

/-- Any number of packets. -/
theorem receive_packets {xs : List Exchange} {evs : List ReadEvent} {rest : List Byte}
    (hlen : ∀ x ∈ xs, (payload x.queued).length < 2 ^ 31)
    (hstream : stream evs = (xs.flatMap fun x => packet x.opcode x.queued) ++ rest)
    (htimely : ∀ e ∈ evs, e.Timely sclTimeout) (conn : InConn) :
    ∃ rs evs', receive conn evs xs = some (rs, evs') ∧ stream evs' = rest ∧
      List.Forall₂ Exchange.Faithful xs rs := by
  induction xs generalizing evs conn with
  | nil => exact ⟨[], evs, rfl, by simpa using hstream, .nil⟩
  | cons x xs ih =>
    rw [List.flatMap_cons, List.append_assoc] at hstream
    obtain ⟨ret, conn₁, evs₁, rets, conn₂, hread, hrest, htimely₁, hvalues, hfaithful⟩ :=
      receive_packet (hlen x (by simp)) hstream htimely conn
    obtain ⟨rs, evs', hreceive, hrest', hall⟩ :=
      ih (fun y hy => hlen y (by simp [hy])) hrest htimely₁ conn₂
    refine ⟨⟨conn₁.inPacketOpcode, rets, conn₂⟩ :: rs, evs', ?_, hrest', .cons hfaithful hall⟩
    simp only [receive, hread, hvalues, hreceive, Option.bind_eq_bind, Option.bind_some]

/-! ## Sending -/

variable {ι : Type} [DecidableEq ι]

/-- Only `scl_write_out` writes to the connections. -/
theorem step_out {w w' : Writer ι} {op : WriterOp ι} (hop : ∀ c, op ≠ .writeOut c)
    (hstep : w.step op = some w') (c : ι) : (w'.conns c).out = (w.conns c).out := by
  have hupdate : ∀ (c' : ι) (conn : OutConn), conn.out = (w.conns c').out →
      (Function.update w.conns c' conn c).out = (w.conns c).out := by
    intro c' conn hconn
    by_cases hc : c = c'
    · subst hc
      simpa using hconn
    · simp [hc]
  cases op with
  | opcode c' op =>
    rw [← Option.some.inj hstep]
    exact hupdate c' _ rfl
  | queue c' q core =>
    simp only [Writer.step, sclQueueValue, sclAllocEle, Option.bind_eq_bind,
      Option.bind_eq_some_iff] at hstep
    obtain ⟨cur, -, cur', -, hw⟩ := hstep
    rw [← Option.some.inj hw]
    simp only [Function.update_idem, Function.update_self]
    exact hupdate c' _ rfl
  | writeOut c' => exact absurd rfl (hop c')

theorem run_out {w w' : Writer ι} {ops : List (WriterOp ι)} (hops : ∀ c, .writeOut c ∉ ops)
    (hrun : w.run ops = some w') (c : ι) : (w'.conns c).out = (w.conns c).out := by
  induction ops generalizing w with
  | nil =>
    rw [← Option.some.inj hrun]
  | cons op ops ih =>
    rw [Writer.run, List.foldlM_cons] at hrun
    obtain ⟨w₁, hstep, hrun⟩ := Option.bind_eq_some_iff.mp hrun
    rw [ih (fun c hc => hops c (by simp [hc])) hrun]
    exact step_out (fun c hc => hops c (by simp [hc])) hstep c

theorem run_append {w w₁ : Writer ι} {ops ops' : List (WriterOp ι)} (h : w.run ops = some w₁) :
    w.run (ops ++ ops') = w₁.run ops' := by
  rw [Writer.run, List.foldlM_append]
  rw [Writer.run] at h
  rw [h]
  rfl

theorem AllFresh.append {w : Writer ι} {ops ops' : List (WriterOp ι)} (h : AllFresh w ops)
    (h' : ∀ w', w.run ops = some w' → AllFresh w' ops') : AllFresh w (ops ++ ops') := by
  induction ops generalizing w with
  | nil => exact h' w rfl
  | cons op ops ih =>
    refine ⟨h.1, fun w₁ hstep => ih (h.2 w₁ hstep) fun w' hrun => h' w' ?_⟩
    rw [Writer.run, List.foldlM_cons, hstep]
    exact hrun

theorem AllFresh.left {w : Writer ι} {ops ops' : List (WriterOp ι)} (h : AllFresh w (ops ++ ops')) :
    AllFresh w ops := by
  induction ops generalizing w with
  | nil => trivial
  | cons op ops ih => exact ⟨h.1, fun w' hstep => ih (h.2 w' hstep)⟩

theorem AllFresh.right {w w₁ : Writer ι} {ops ops' : List (WriterOp ι)}
    (h : AllFresh w (ops ++ ops')) (hrun : w.run ops = some w₁) : AllFresh w₁ ops' := by
  induction ops generalizing w with
  | nil => exact Option.some.inj hrun ▸ h
  | cons op ops ih =>
    rw [Writer.run, List.foldlM_cons] at hrun
    obtain ⟨w₂, hstep, hrun⟩ := Option.bind_eq_some_iff.mp hrun
    exact ih (h.2 w₂ hstep) hrun

theorem foldl_queue (A : Outbox ι) (c : ι) (vs : List (Queued × Addr)) :
    (vs.map fun v => WriterOp.queue c v.1 v.2).foldl Outbox.step A =
      { A with pending := Function.update A.pending c (A.pending c ++ vs.map Prod.fst) } := by
  induction vs generalizing A with
  | nil => simp
  | cons v vs ih => simp [ih, Outbox.step]

/-- Sending a packet on a connection with nothing queued. -/
theorem run_send {w : Writer ι} {A : Outbox ι} (h : Refines w A) {c : ι}
    (hpending : A.pending c = []) {x : Exchange} (hfresh : AllFresh w (x.sendOps c))
    (hlen : (payload x.queued).length < 2 ^ 32) :
    ∃ w' A', w.run (x.sendOps c) = some w' ∧ Refines w' A' ∧ A'.pending c = [] ∧
      (w'.conns c).out = (w.conns c).out ++ packet x.opcode x.queued := by
  obtain ⟨w₁, hrun, h₁⟩ := run_refines h hfresh.left
  have hA₁ : ((.opcode c x.opcode :: x.values.map fun v => .queue c v.1 v.2).foldl Outbox.step A) =
      { pending := Function.update A.pending c x.queued
        opcode := Function.update A.opcode c x.opcode } := by
    rw [List.foldl_cons, foldl_queue, Exchange.queued]
    simp [Outbox.step, hpending]
  rw [hA₁] at h₁
  obtain ⟨w₂, hstep, h₂, -, -, -, -, -, hout⟩ := writeOut_packet h₁ c
  have hout₁ := run_out (by simp) hrun c
  refine ⟨w₂, _, ?_, h₂, by simp [Outbox.step], ?_⟩
  · rw [Exchange.sendOps, run_append hrun, Writer.run, List.foldlM_cons, hstep]
    rfl
  · rw [hout, hout₁]
    · simp
    · intro q hq
      simp only [Function.update_self] at hq
      exact lt_of_le_of_lt (enc_length_le_payload hq) hlen

/-- Sending any number of packets. -/
theorem run_sends {w : Writer ι} {A : Outbox ι} (h : Refines w A) {c : ι}
    (hpending : A.pending c = []) {xs : List Exchange}
    (hfresh : AllFresh w (xs.flatMap (Exchange.sendOps c)))
    (hlen : ∀ x ∈ xs, (payload x.queued).length < 2 ^ 32) :
    ∃ w', w.run (xs.flatMap (Exchange.sendOps c)) = some w' ∧
      (w'.conns c).out = (w.conns c).out ++ xs.flatMap fun x => packet x.opcode x.queued := by
  induction xs generalizing w A with
  | nil => exact ⟨w, rfl, by simp⟩
  | cons x xs ih =>
    rw [List.flatMap_cons] at hfresh
    obtain ⟨w₁, A₁, hrun, h₁, hpending₁, hout⟩ := run_send h hpending hfresh.left (hlen x (by simp))
    obtain ⟨w₂, hruns, houts⟩ :=
      ih h₁ hpending₁ (hfresh.right hrun) fun y hy => hlen y (by simp [hy])
    refine ⟨w₂, ?_, ?_⟩
    · rw [List.flatMap_cons, run_append hrun, hruns]
    · rw [houts, hout, List.flatMap_cons, List.append_assoc]

/-- Packets queued and written on a connection that has just been opened are read
    and decoded at the other end, for every fragmentation of the stream: every
    packet received is the packet sent. -/
theorem roundTrip {w₀ : Writer ι} {core : ι → Addr} {opcode : ι → BitVec 32}
    {sched : ι → List WriteEvent} (h₀ : w₀.Opened core opcode sched) (c : ι) {xs : List Exchange}
    (hfresh : AllFresh w₀ (xs.flatMap (Exchange.sendOps c)))
    (hlen : ∀ x ∈ xs, (payload x.queued).length < 2 ^ 31) :
    ∃ w, w₀.run (xs.flatMap (Exchange.sendOps c)) = some w ∧
      ∀ evs, stream evs = (w.conns c).out → (∀ e ∈ evs, e.Timely sclTimeout) → ∀ conn : InConn,
        ∃ rs evs', receive conn evs xs = some (rs, evs') ∧ stream evs' = [] ∧
          List.Forall₂ Exchange.Faithful xs rs := by
  obtain ⟨w, hrun, hout⟩ := run_sends h₀.refines (c := c) rfl hfresh fun x hx =>
    lt_trans (hlen x hx) (by norm_num)
  refine ⟨w, hrun, fun evs hstream htimely conn => receive_packets hlen ?_ htimely conn⟩
  rw [hstream, hout, h₀.conns c]
  simp [OutConn.opened]

/-- A string, queued. -/
def Queued.text (s : CStr) : Queued := ⟨.string (some s), .mem s.image, 0, ⟨[], by simp⟩⟩

/-- A packet with a string and an `SCL_INT`. -/
def Exchange.hiSeven : Exchange where
  opcode := 5
  values := [(.text ⟨[104, 105], by decide⟩, 48), (.int 7, 64)]
  upTo := 2
  supply := false
  junk _ := 0xff

/-- The packet is read back when it comes in byte by byte. -/
theorem roundTrip_hiSeven :
    ∃ w, twoOpened.run (Exchange.hiSeven.sendOps 0) = some w ∧ ∀ conn : InConn,
      ∃ rs evs', receive conn ((w.conns 0).out.map fun b => .data b []) [.hiSeven] =
        some (rs, evs') ∧ stream evs' = [] ∧ List.Forall₂ Exchange.Faithful [.hiSeven] rs := by
  have hfresh : AllFresh twoOpened ([Exchange.hiSeven].flatMap (Exchange.sendOps 0)) := by
    refine ⟨trivial, fun w₁ hstep => ?_⟩
    obtain ⟨w₁', hstep', h₁⟩ := step_refines twoOpened_opened.refines
      (show (WriterOp.opcode (0 : Fin 2) 5).Fresh twoOpened from trivial)
    obtain rfl : w₁' = w₁ := Option.some.inj (hstep'.symm.trans hstep)
    have hheap : w₁'.heap = twoOpened.heap := by
      rw [← Option.some.inj hstep]
    exact (allFresh_queue_queue h₁ 0 0 _ _ 48 64 ⟨by decide, hheap ▸ rfl⟩ ⟨by decide, hheap ▸ rfl⟩
      (by decide)).append fun _ _ => ⟨trivial, fun _ _ => trivial⟩
  obtain ⟨w, hrun, hall⟩ := roundTrip twoOpened_opened 0 hfresh
    (by simp only [List.mem_singleton]; rintro x rfl; decide)
  have hstream : ∀ bs : List Byte, stream (bs.map fun b => .data b []) = bs := by
    intro bs
    induction bs with
    | nil => rfl
    | cons b bs ih => simp [ReadEvent.bytes, ih]
  refine ⟨w, by simpa using hrun, fun conn => hall _ (hstream _) ?_ conn⟩
  intro e he
  obtain ⟨b, -, rfl⟩ := List.mem_map.mp he
  trivial

end CompatSuva.Scl
