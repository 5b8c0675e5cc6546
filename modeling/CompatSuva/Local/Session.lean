import CompatSuva.Suvlet.Lockstep

/-!
# A client and its suvlet

The client of a suvlet, on a connection without faults: packets may come in any
fragments, but no read fails and none waits too long. A call is one
`scl_write_out`, on which the suvlet acts, and one `scl_read_packet`. What is called,
what is replied and what the client decodes of it is recorded.

* `call_spec`: a call of an inline function delivers what its handler replies;
* `getValue_spec`: decoding the next value of a reply.
-/

namespace CompatSuva.Local

open CompatSuva.Common CompatSuva.Scl CompatSuva.Suvlet

/-! ## The parties -/

/-- A connection without faults: how the bytes of the `k`-th packet come in, and what
    stands in memory around the block they are read into. -/
structure Wire where
  events : ℕ → List Byte → List ReadEvent
  junk : ℕ → Memory
  stream_events : ∀ k bs, stream (events k bs) = bs
  timely : ∀ k bs, ∀ e ∈ events k bs, e.Timely sclTimeout

/-- A suvlet that serves the inline calls, the machines at both ends, and the
    connection. The texts of a machine have lengths that fit an `int`. -/
structure Parties (σ φ τ ψ : Type) where
  receiver : Receiver σ φ
  suvletVersion : BitVec 32
  remote : Libc σ φ
  here : Libc τ ψ
  wire : Wire
  inlines : receiver.inlines = true
  strerror_lt : ∀ os, (remote.strerror os).val.length < 2 ^ 31 - 1
  getcwd_lt : ∀ os, (remote.getcwd os).val.length < 2 ^ 31 - 1

/-- Every packet comes in whole. -/
def Wire.whole : Wire where
  events _ bs := pushBack bs []
  junk _ _ := 0xff
  stream_events _ bs := by simp
  timely _ bs e he := by
    cases bs with
    | nil => simp [pushBack] at he
    | cons b bs =>
      obtain rfl := List.mem_singleton.mp he
      trivial

theorem blank_inlines : (blank : Receiver FileSys Stream).inlines = true := rfl

/-- Two machines without faults. -/
def faultFree {R : Receiver FileSys Stream} (hR : R.inlines = true) (suvletVersion : BitVec 32)
    (wire : Wire) : Parties FileSys Stream FileSys Stream where
  receiver := R
  suvletVersion := suvletVersion
  remote := FileSys.libc
  here := FileSys.libc
  wire := wire
  inlines := hR
  strerror_lt _ := show (chars "No such file or directory").length < 2 ^ 31 - 1 by decide
  getcwd_lt os := lt_trans os.cwd.length_lt (by decide)

/-- A packet that is written: op-code and values. -/
abbrev Sent := BitVec 32 × List Queued

/-- The bytes of packets. -/
def wireBytes (ps : List Sent) : List Byte := ps.flatMap fun p => packet p.1 p.2

/-- The record of a call: the values of the call, the packets the suvlet replied with,
    the types the client has decoded and its connection after the last of them. -/
structure Rpc where
  request : List Queued
  replies : List Sent
  decoded : List SclType
  conn : InConn

/-- A client: its connection, the events that are still to be read from it, the machine
    it runs on, the suvlet if that is running, and the calls so far, the last one
    first. -/
structure Client (σ φ τ : Type) where
  conn : InConn
  out : Outgoing
  inbox : List ReadEvent
  os : τ
  srv : Option (Server σ φ)
  calls : List Rpc

variable {σ φ τ ψ : Type}

/-- The suvlet, if it goes on. -/
def running : Outcome σ φ → Option (Server σ φ)
  | .returned srv => some srv
  | .exited _ => none

/-- What the suvlet does with the `k`-th packets of the client: the suvlet then, and the
    packets it has written. -/
def Parties.act (P : Parties σ φ τ ψ) (k : ℕ) (srv : Option (Server σ φ)) (ps : List Sent) :
    Option (Server σ φ) × List Sent :=
  match srv with
  | none => (none, [])
  | some srv =>
    match suvaGetRequest P.receiver P.remote P.suvletVersion true (P.wire.junk (2 * k)) srv
      (P.wire.events (2 * k) (wireBytes ps)) with
    | none => (none, [])
    | some (outcome, _) => (running outcome, outcome.server.out.sent.drop srv.out.sent.length)

namespace Client

/-! ## What a client does -/

variable (P : Parties σ φ τ ψ)

/-- Note the connection, and the types decoded since the last note. -/
def note (cl : Client σ φ τ) (types : List SclType) (conn : InConn) : Client σ φ τ :=
  { cl with
    conn := conn
    calls := match cl.calls with
      | [] => []
      | x :: xs => { x with decoded := x.decoded ++ types, conn := conn } :: xs }

/-- Queue the values of an `SCL_FCALL` packet and write it; the suvlet acts on it. -/
def post (cl : Client σ φ τ) (qs : List Queued) : Client σ φ τ :=
  let k := cl.calls.length
  let out := cl.out.send sclFcall qs
  let (srv, replies) := P.act k cl.srv (out.sent.drop cl.out.sent.length)
  { cl with
    out := out
    inbox := cl.inbox ++ P.wire.events (2 * k + 1) (wireBytes replies)
    srv := srv
    calls := ⟨qs, replies, [], cl.conn⟩ :: cl.calls }

/-- `scl_read_packet`. -/
def readPacket (cl : Client σ φ τ) : Option (Client σ φ τ) := do
  let (_, conn, inbox) ←
    sclReadPacket cl.conn true (P.wire.junk (2 * cl.calls.length + 1)) cl.inbox
  some { cl.note [] conn with inbox := inbox }

/-- Write a packet, and read one. -/
def call (cl : Client σ φ τ) (qs : List Queued) : Option (Client σ φ τ) :=
  (cl.post P qs).readPacket P

/-- `scl_get_value`. -/
def getValue (cl : Client σ φ τ) (type : SclType) (withLen : Bool) :
    Option (Ret × Option ℤ × Client σ φ τ) := do
  let (p, len, conn) ← sclGetValue cl.conn type withLen true
  some (p, len, cl.note [type] conn)

/-- `scl_free_packet_mem`. -/
def freePacketMem (cl : Client σ φ τ) : Client σ φ τ := { cl with conn := cl.conn.freePacketMem }

@[simp] theorem note_conn (cl : Client σ φ τ) (types : List SclType) (conn : InConn) :
    (cl.note types conn).conn = conn := rfl

@[simp] theorem note_os (cl : Client σ φ τ) (types : List SclType) (conn : InConn) :
    (cl.note types conn).os = cl.os := rfl

theorem note_note (cl : Client σ φ τ) (types types' : List SclType) (conn conn' : InConn) :
    (cl.note types conn).note types' conn' = cl.note (types ++ types') conn' := by
  cases h : cl.calls <;> simp [note, h]

/-- A client of a suvlet, before its first call. -/
def opened (os : τ) (srv : Server σ φ) : Client σ φ τ := ⟨.opened, .opened, [], os, some srv, []⟩

/-! ## Keeping step -/

/-- Between calls: the suvlet is running, everything written has been read, and nothing
    is queued. -/
structure InStep (cl : Client σ φ τ) (srv : Server σ φ) : Prop where
  server : cl.srv = some srv
  pending : cl.out.pending = []
  served : srv.out.pending = []
  inbox : stream cl.inbox = []
  timely : ∀ e ∈ cl.inbox, e.Timely sclTimeout

variable {P} {cl cl' : Client σ φ τ} {srv srv' : Server σ φ}

theorem inStep_opened (os : τ) (hsrv : srv.out.pending = []) : (opened os srv).InStep srv :=
  ⟨rfl, rfl, hsrv, rfl, fun _ he => by simp [opened] at he⟩

theorem InStep.note (h : cl.InStep srv) (types : List SclType) (conn : InConn) :
    (cl.note types conn).InStep srv := ⟨h.server, h.pending, h.served, h.inbox, h.timely⟩

theorem InStep.freePacketMem (h : cl.InStep srv) : cl.freePacketMem.InStep srv :=
  ⟨h.server, h.pending, h.served, h.inbox, h.timely⟩

theorem InStep.withOs (h : cl.InStep srv) (os : τ) : InStep { cl with os := os } srv :=
  ⟨h.server, h.pending, h.served, h.inbox, h.timely⟩

variable (P)

/-- A call is over, with reply `rs`. -/
structure Received (cl cl' : Client σ φ τ) (srv' : Server σ φ) (qs rs : List Queued) : Prop where
  inStep : cl'.InStep srv'
  os : cl'.os = cl.os
  conn : ∃ junk, cl'.conn = .delivered sclFreturn rs junk
  calls : cl'.calls = ⟨qs, [(sclFreturn, rs)], [], cl'.conn⟩ :: cl.calls

/-- The suvlet acts on a call of an inline function. -/
theorem act_spec (k : ℕ) (hserved : srv.out.pending = []) {name : CStr} {args : List Queued}
    (hname : IsInline name)
    (hsize : ∀ v ∈ (Queued.text name :: args).map Queued.value, v.enc.length < 2 ^ 31 + 4)
    (hlen : (payload (.text name :: args)).length < 2 ^ 32) :
    ∃ conn', Args conn' (args.map Queued.value) ∧ ∀ srv' rs,
      sclCallInlines P.remote P.suvletVersion name { srv with conn := conn' } = some srv' →
      srv'.out = srv.out.send sclFreturn rs →
      P.act k (some srv) [(sclFcall, .text name :: args)] = (some srv', [(sclFreturn, rs)]) := by
  let c : Call := ⟨some name, args, P.wire.junk (2 * k)⟩
  have hne : name.val ≠ [] := by
    intro hnil
    rw [IsInline, hnil] at hname
    exact absurd hname (by decide)
  obtain ⟨p, len, conn', hget, hargs, hstr⟩ := @getName c hsize hlen
  refine ⟨conn', hargs, fun srv' rs hrun hout => ?_⟩
  have hstream : stream (P.wire.events (2 * k) (wireBytes [(sclFcall, .text name :: args)])) =
      packet sclFcall (.text name :: args) ++ [] := by
    rw [P.wire.stream_events]
    simp [wireBytes]
  obtain ⟨ret, evs', hread, -⟩ := sclReadPacket_packet srv.conn (P.wire.junk (2 * k)) hstream hlen
    (arrives_of_timely (P.wire.timely _ _) (by rw [hstream]; simp))
  have hact : actOnRequest P.receiver P.remote P.suvletVersion
      { srv with conn := .delivered sclFcall (.text name :: args) (P.wire.junk (2 * k)) } =
      some (.returned srv') := by
    have hget' : sclGetValue (.delivered sclFcall (.text name :: args) (P.wire.junk (2 * k)))
        .string true true = some (p, len, conn') := hget
    have hstr' : conn'.strArg p = some name := by
      rw [hstr]
      simp [c, normStr, hne]
    have hdispatch : dispatch P.receiver P.remote P.suvletVersion name { srv with conn := conn' } =
        some srv' := by
      rw [dispatch, if_pos ⟨P.inlines, hname⟩]
      exact hrun
    simp only [actOnRequest, delivered_opcode, if_true, hget', hstr', Option.bind_eq_bind,
      Option.bind_some, hdispatch]
  simp [Parties.act, suvaGetRequest, hread, hact, running, Outcome.server, hout, hserved]

/-- A call of an inline function delivers what its handler replies. -/
theorem call_spec (h : cl.InStep srv) {name : CStr} {args : List Queued} (hname : IsInline name)
    (hsize : ∀ v ∈ (Queued.text name :: args).map Queued.value, v.enc.length < 2 ^ 31 + 4)
    (hlen : (payload (.text name :: args)).length < 2 ^ 32) :
    ∃ conn', Args conn' (args.map Queued.value) ∧ ∀ srv' rs,
      sclCallInlines P.remote P.suvletVersion name { srv with conn := conn' } = some srv' →
      srv'.out = srv.out.send sclFreturn rs → (payload rs).length < 2 ^ 32 →
      ∃ cl', cl.call P (.text name :: args) = some cl' ∧
        Received cl cl' srv' (.text name :: args) rs := by
  obtain ⟨conn', hargs, hact⟩ := act_spec P cl.calls.length h.served hname hsize hlen
  refine ⟨conn', hargs, fun srv' rs hrun hout hrs => ?_⟩
  have hpost : cl.post P (.text name :: args) = { cl with
      out := cl.out.send sclFcall (.text name :: args)
      inbox := cl.inbox ++
        P.wire.events (2 * cl.calls.length + 1) (wireBytes [(sclFreturn, rs)])
      srv := some srv'
      calls := ⟨.text name :: args, [(sclFreturn, rs)], [], cl.conn⟩ :: cl.calls } := by
    simp [post, h.server, h.pending, hact srv' rs hrun hout]
  have hstream : stream (cl.post P (.text name :: args)).inbox = packet sclFreturn rs ++ [] := by
    rw [hpost]
    simp [h.inbox, P.wire.stream_events, wireBytes]
  have htimely : ∀ e ∈ (cl.post P (.text name :: args)).inbox, e.Timely sclTimeout := by
    rw [hpost]
    intro e he
    rcases List.mem_append.mp he with he | he
    · exact h.timely e he
    · exact P.wire.timely _ _ e he
  obtain ⟨ret, evs', hread, hrest, -, htimely'⟩ :=
    sclReadPacket_packet (cl.post P (.text name :: args)).conn
      (P.wire.junk (2 * (cl.post P (.text name :: args)).calls.length + 1)) hstream hrs
      (arrives_of_timely htimely (by rw [hstream]; simp))
  have hcall : cl.call P (.text name :: args) = some { (cl.post P (.text name :: args)).note []
      (.delivered sclFreturn rs (P.wire.junk
        (2 * (cl.post P (.text name :: args)).calls.length + 1)))
      with inbox := evs' } := by
    simp only [call, readPacket, hread, Option.bind_eq_bind, Option.bind_some]
  refine ⟨_, hcall, ?_⟩
  rw [hpost]
  refine ⟨⟨rfl, rfl, ?_, hrest, htimely' htimely⟩, rfl, ⟨_, rfl⟩, rfl⟩
  rw [hout]
  rfl

end Client

/-! ## Decoding a reply -/

/-- A reply of `n` bytes is being read: `bs` is left, and every access was inside. -/
structure Reading (n : ℕ) (conn : InConn) (bs : List Byte) : Prop where
  left : conn.Left n bs
  accesses : ∀ a ∈ conn.log, a.Inside n

theorem Reading.inBounds {n : ℕ} {conn : InConn} {bs : List Byte} (h : Reading n conn bs) :
    conn.InBounds n :=
  ⟨h.accesses, h.left.nonneg, h.left.cursor_le⟩

theorem reading_delivered (opcode : BitVec 32) {qs : List Queued} (junk : Memory)
    (hlen : (payload qs).length < 2 ^ 32) :
    Reading (payload qs).length (.delivered opcode qs junk) (payload qs) :=
  ⟨left_delivered opcode junk hlen, fun _ ha => by
    simp [InConn.delivered, InConn.received, InConn.newPacket_eq] at ha⟩

/-- The next value of the reply. -/
theorem getValue_spec {cl : Client σ φ τ} {n : ℕ} {v : Value} {rest : List Byte} (r : Request)
    (h : Reading n cl.conn (v.enc ++ rest)) (hlen : v.enc.length < 2 ^ 31 + 4) (hr : Asks v r) :
    ∃ p len conn', cl.getValue r.1 r.2 = some (p, len, cl.note [r.1] conn') ∧
      Reading n conn' rest ∧ v.norm.Reads conn'.mem conn'.tables 0 conn'.cursor p len := by
  obtain ⟨p, len, conn', hrun, hleft, hw, hreads⟩ := sclGetValue_left h.left hlen hr
  refine ⟨p, len, conn', by simp [Client.getValue, hrun], ⟨hleft, fun a ha => ?_⟩, hreads⟩
  rcases hw.accesses a ha with ha | ha
  · exact h.accesses a ha
  · exact ha

/-- The client has decoded the types of the reply in order, and nothing past its end. -/
def Rpc.Agrees (x : Rpc) : Prop :=
  ∃ opcode qs, x.replies = [(opcode, qs)] ∧
    x.decoded <+: qs.map (fun q => q.value.type) ∧ x.conn.InBounds (payload qs).length

/-- One call with its reply: `qs` was called, `rs` was replied and is released. -/
structure Exchanged (cl cl' : Client σ φ τ) (srv' : Server σ φ) (qs rs : List Queued) : Prop where
  inStep : cl'.InStep srv'
  os : cl'.os = cl.os
  calls : ∃ x, cl'.calls = x :: cl.calls ∧ x.request = qs ∧ x.replies = [(sclFreturn, rs)] ∧
    x.Agrees

/-- A reply that has been read with these types. -/
theorem Client.Received.exchanged {cl cl' : Client σ φ τ} {srv' : Server σ φ}
    {qs rs : List Queued} (h : Client.Received cl cl' srv' qs rs) {types : List SclType}
    {conn' : InConn} {bs : List Byte} (hread : Reading (payload rs).length conn' bs)
    (htypes : types <+: rs.map fun q => q.value.type) :
    Exchanged cl (cl'.note types conn').freePacketMem srv' qs rs := by
  refine ⟨(h.inStep.note types conn').freePacketMem, h.os, ⟨qs, [(sclFreturn, rs)], types, conn'⟩,
    ?_, rfl, rfl, sclFreturn, rs, rfl, htypes, hread.inBounds⟩
  simp [Client.freePacketMem, Client.note, h.calls]

/-- A reply that has not been read. -/
theorem Client.Received.exchanged_unread {cl cl' : Client σ φ τ} {srv' : Server σ φ}
    {qs rs : List Queued} (h : Client.Received cl cl' srv' qs rs)
    (hlen : (payload rs).length < 2 ^ 32) : Exchanged cl cl'.freePacketMem srv' qs rs := by
  obtain ⟨junk, hconn⟩ := h.conn
  refine ⟨h.inStep.freePacketMem, h.os, ⟨qs, [(sclFreturn, rs)], [], cl'.conn⟩, h.calls, rfl, rfl,
    sclFreturn, rs, rfl, List.nil_prefix, ?_⟩
  rw [hconn]
  exact (reading_delivered sclFreturn junk hlen).inBounds

end CompatSuva.Local
