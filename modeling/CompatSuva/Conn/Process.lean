import CompatSuva.Common.Outcome
import CompatSuva.Mem.Malloc
import CompatSuva.Scl.Arguments

/-!
# Connections in a process

Model of `suva_conn.c` on top of the memory tables, the queue of elements and the
packet reader: the calls a program makes on its connections, down to every block
they allocate and release. Everything is in one `Process`, since all connections
share the memory tables, the static `cur_ele` and the two static id counters of
`open_suva_conn`.

A call returns a new process or a `Fault`: it has dereferenced a queue element
that is not live (`Fault.element`), or something else that ends the program or keeps it from
returning. An element is live while `mem_find_ptr` finds it.

An inline call or a file transfer is a sequence of the calls below it, so the
runs of a program are the sequences of `Call`s.
-/

namespace CompatSuva.Conn

open CompatSuva.Common CompatSuva.Scl
open CompatSuva.Mem (MemState Malloc memInit allocWith addTypeWith memFree memFreeAll tracked)

/-! ## Constants -/

/-- The type of the `struct suva_conn` blocks (`suva_api.c` line 40). -/
def suvaConnType : BitVec 32 := 1024

/-- `sizeof(struct suva_conn)`, with 8-byte pointers. -/
def suvaConnSize : BitVec 32 := 88

/-- `sizeof(struct scl_ele)`. -/
def sclEleSize : BitVec 32 := 24

/-- The op-codes of the requests (`suva.h` lines 76–85). -/
def sclOconn : BitVec 32 := 1
/-- `SCL_CCONN`. -/
def sclCconn : BitVec 32 := 2
/-- `SCL_CSUVLET`. -/
def sclCsuvlet : BitVec 32 := 3
/-- `SCL_DSUVLET`. -/
def sclDsuvlet : BitVec 32 := 4

/-- The result codes (`suva.h` lines 100–118). -/
def srcOkay : BitVec 32 := 1
/-- `SRC_CONNECT`. -/
def srcConnect : BitVec 32 := 2
/-- `SRC_CONNECTED`. -/
def srcConnected : BitVec 32 := 7

/-! ## The process -/

/-- Why a call does not return. -/
inductive Fault where
  /-- A queue element is dereferenced that is not live. -/
  | element (a : Addr)
  /-- Another pointer is not live or null, or a loop does not end. -/
  | other
  deriving DecidableEq, Repr

/-- Who allocated a block, and for which connection: connections are numbered
    as their memory ids are set up. -/
inductive Maker where
  /-- `open_suva_conn`, for the `struct suva_conn`. -/
  | conn (n : ℕ)
  /-- `open_suva_conn` or `scl_alloc_ele`, for a queue element. -/
  | element (n : ℕ)
  /-- `scl_read_packet`, for the payload. -/
  | packet (n : ℕ)
  /-- `scl_get_value`, for the pointers of an `SCL_STRING_A`. -/
  | pointers (n : ℕ)
  /-- `get_additional_packet_mem`. -/
  | additional (n : ℕ)
  deriving DecidableEq, Repr

/-- The reading side of a `struct suva_conn`, with its descriptor and its memory
    ids, and what the coming `read()` calls on the descriptor will do. `number` is
    the number of the connection; the code has no such field. -/
structure SuvaConn where
  sock : ℕ
  inMemId : BitVec 32
  outMemId : BitVec 32
  reader : InConn
  evs : List ReadEvent
  number : ℕ

/-- The state of a program that uses the API. The writing side of the connection
    at `c` is `writer.conns c`. The code does not have the last two fields: the
    memory ids of the connections, in turn, and the maker of each block. -/
structure Process where
  mem : MemState
  conns : Heap SuvaConn
  writer : Writer Addr
  inMemId : BitVec 32
  outMemId : BitVec 32
  sockets : Finset ℕ
  ids : List (BitVec 32 × BitVec 32)
  maker : Addr → Option Maker

/-- A step that is undefined is the fault `f`. -/
def orFault {α : Type} (f : Fault) : Option α → Except Fault α
  | some a => .ok a
  | none => .error f

@[simp] theorem orFault_some {α : Type} (f : Fault) (a : α) : orFault f (some a) = .ok a := rfl

@[simp] theorem orFault_none {α : Type} (f : Fault) : orFault f (none : Option α) = .error f := rfl

variable (wide : Byte → ℕ → BitVec 32)

namespace Process

/-! ## Memory -/

/-- `mem_alloc(type, size)` by `mk`. -/
def memAlloc (p : Process) (type size : BitVec 32) (m : Option (Malloc × Malloc)) (mk : Maker) :
    Except Fault (Addr × Process) := do
  let (a, mem) ← orFault .other (allocWith wide p.mem type size m)
  .ok (a, { p with
    mem := mem
    maker := if a = 0 then p.maker else Function.update p.maker a (some mk) })

/-- `mem_free(a)`; whatever lived at `a` is gone. -/
def memFree (p : Process) (a : Addr) : Except Fault Process := do
  let mem ← orFault .other (Mem.memFree wide p.mem a)
  .ok { p with
    mem := mem
    conns := p.conns.free a
    writer := { p.writer with heap := p.writer.heap.free a } }

/-- The connection at `c`. -/
def conn (p : Process) (c : Addr) : Except Fault SuvaConn :=
  match p.conns.get c with
  | some conn => if tracked wide p.mem c then .ok conn else .error .other
  | none => .error .other

/-- The element at `a`, about to be dereferenced. -/
def element (p : Process) (a : Addr) : Except Fault (Node SclEle) :=
  match p.writer.heap.get a with
  | some ele => if tracked wide p.mem a then .ok ele else .error (.element a)
  | none => .error (.element a)

/-- The writing side of the connection at `c` becomes `out`. -/
def setOut (p : Process) (c : Addr) (out : OutConn) : Process :=
  { p with writer := { p.writer with conns := Function.update p.writer.conns c out } }

@[simp] theorem setOut_conns_self (p : Process) (c : Addr) (out : OutConn) :
    (p.setOut c out).writer.conns c = out := Function.update_self _ _ _

theorem setOut_conns_ne (p : Process) {c c' : Addr} (out : OutConn) (hne : c' ≠ c) :
    (p.setOut c out).writer.conns c' = p.writer.conns c' := Function.update_of_ne hne _ _

/-! ## Writing -/

/-- `conn->out_packet_opcode = opcode`. -/
def setOpcode (p : Process) (c : Addr) (opcode : BitVec 32) : Except Fault Process := do
  let _ ← p.conn wide c
  .ok (p.setOut c { p.writer.conns c with outPacketOpcode := opcode })

/-- `scl_queue_value` (`scl_writer.c` lines 110–196): every access is to the element
    `out_cur_ele` points to, and `scl_alloc_ele` allocates the next one. -/
def queueValue (p : Process) (c : Addr) (q : Queued) (m : Option (Malloc × Malloc)) :
    Except Fault Process := do
  let conn ← p.conn wide c
  let _ ← p.element wide (p.writer.conns c).outCurEle
  let (core, p) ← p.memAlloc wide conn.outMemId sclEleSize m (.element conn.number)
  let writer ← orFault .other (sclQueueValue p.writer c q.object q.value.type q.arrayLen core)
  .ok { p with writer := writer }

/-- The loop of `scl_write_out` (`scl_writer.c` lines 91–100), with `cur_ele`. -/
def writeOutLoop : ℕ → Process → Addr → Addr → Except Fault (Process × Addr)
  | 0, _, _, _ => .error .other
  | fuel + 1, p, c, cur => do
    let ele ← p.element wide cur
    if ele.next = 0 then .ok (p, cur)
    else
      let writes := sclWriteValue ele.data.object ele.data.type ele.data.arrayLen
      let p := p.setOut c (writes.foldl OutConn.fwrite (p.writer.conns c))
      let p ← p.memFree wide cur
      writeOutLoop fuel p c ele.next

/-- `scl_write_out` (`scl_writer.c` lines 70–106). -/
def writeOut (p : Process) (c : Addr) : Except Fault Process := do
  let _ ← p.conn wide c
  let p := p.setOut c ((p.writer.conns c).header.foldl OutConn.fwrite (p.writer.conns c))
  let (p, cur) ← writeOutLoop wide (p.writer.heap.size + 1) p c (p.writer.conns c).outEleQueue
  let p := p.setOut c { p.writer.conns c with outEleQueue := cur, outPacketLen := 0 }
  .ok { p with writer := { p.writer with curEle := cur } }

/-! ## Reading -/

/-- `scl_free_packet_mem` (`scl_reader.c` lines 19–22). -/
def freePacketMem (p : Process) (c : Addr) : Except Fault Process := do
  let conn ← p.conn wide c
  let mem ← orFault .other (memFreeAll wide p.mem conn.inMemId)
  .ok { p with mem := mem }

/-- The step of `scl_read_packet` between the header and the payload: release the
    last packet and allocate a block for the new one (`scl_reader.c` lines 89–93). -/
def newPacket (p : Process) (c : Addr) (header : List Byte) (m : Option (Malloc × Malloc)) :
    Except Fault (Addr × Process) := do
  let conn ← p.conn wide c
  let p ← p.freePacketMem wide c
  p.memAlloc wide conn.inMemId (headerWord header 3) m (.packet conn.number)

/-- `scl_read_packet` (`scl_reader.c` lines 74–106), with its result; `junk` is the
    memory around the new block. -/
def readPacket (p : Process) (c : Addr) (m : Option (Malloc × Malloc)) (junk : Memory) :
    Except Fault (ℤ × Process) := do
  let conn ← p.conn wide c
  let header ← orFault .other (sclRead headerLen conn.evs)
  let (pdata, p) ←
    if header.ret = headerLen then p.newPacket wide c header.got m else .ok (0, p)
  let (ret, reader, evs) ← orFault .other (sclReadPacket conn.reader (pdata ≠ 0) junk conn.evs)
  .ok (ret, { p with conns := p.conns.set c { conn with reader := reader, evs := evs } })

/-- The table of an `SCL_STRING_A` (`scl_reader.c` lines 223–224), whose count is at
    the cursor. -/
def newTable (p : Process) (c : Addr) (m : Option (Malloc × Malloc)) :
    Except Fault (Addr × Process) := do
  let conn ← p.conn wide c
  let count := intOf (load conn.reader.mem conn.reader.cursor 4)
  p.memAlloc wide conn.inMemId (BitVec.ofInt 32 (8 * count)) m (.pointers conn.number)

/-- `scl_get_value` (`scl_reader.c` lines 108–261). -/
def getValue (p : Process) (c : Addr) (type : SclType) (withLen : Bool)
    (m : Option (Malloc × Malloc)) : Except Fault (Ret × Process) := do
  let conn ← p.conn wide c
  let (table, p) ← if type = .stringA ∧ withLen then p.newTable wide c m else .ok (0, p)
  let (ret, _, reader) ← orFault .other (sclGetValue conn.reader type withLen (table ≠ 0))
  .ok (ret, { p with conns := p.conns.set c { conn with reader := reader } })

/-- `*(int *)scl_get_value(conn, SCL_INT, NULL)`. -/
def getInt (p : Process) (c : Addr) : Except Fault (BitVec 32 × Process) := do
  let (ret, p) ← p.getValue wide c .int false none
  let conn ← p.conn wide c
  let v ← orFault .other (conn.reader.word ret)
  .ok (v, p)

/-- `get_additional_packet_mem` (`suva_conn.c` lines 256–259). -/
def getAdditionalPacketMem (p : Process) (c : Addr) (size : BitVec 32)
    (m : Option (Malloc × Malloc)) : Except Fault (Addr × Process) := do
  let conn ← p.conn wide c
  p.memAlloc wide conn.outMemId size m (.additional conn.number)

end Process

/-! ## Requests to `suvad` -/

/-- `scl_queue_value(conn, &v, SCL_INT, 1)`. -/
def intArg (v : BitVec 32) : Queued :=
  ⟨.int v, .mem (bytesOf v), 1, by simp [Value.Rep, Value.type, SclType.isComplex, Value.elems]⟩

theorem rep_image (s : CStr) : (Value.string (some s)).Rep (.mem s.image) 1 := ⟨[], by simp⟩

/-- `scl_queue_value(conn, s, SCL_STRING, 1)`. -/
def stringArg : Option CStr → Queued
  | none => ⟨.string none, .null, 1, rfl⟩
  | some s => ⟨.string (some s), .mem s.image, 1, rep_image s⟩

/-- What a request meets: the outcomes of the `mem_alloc` calls of its elements and
    of the packets it reads, and the memory around these. -/
structure Mallocs where
  element : ℕ → Option (Malloc × Malloc)
  packet : ℕ → Option (Malloc × Malloc)
  junk : ℕ → Memory

/-- The arguments of `create_suvlet`. -/
structure Suvlet where
  suvletName : Option CStr
  exclusive : BitVec 32
  encrypted : BitVec 32
  ttl : BitVec 32

namespace Process

/-- Queue four values. -/
def queueFour (p : Process) (c : Addr) (q₀ q₁ q₂ q₃ : Queued) (ms : Mallocs) :
    Except Fault Process := do
  let p ← p.queueValue wide c q₀ (ms.element 0)
  let p ← p.queueValue wide c q₁ (ms.element 1)
  let p ← p.queueValue wide c q₂ (ms.element 2)
  p.queueValue wide c q₃ (ms.element 3)

/-- `create_suvlet` (`suva_conn.c` lines 183–222), with its result. The calls of
    the error handler, with what has been read, are left out. -/
def createSuvlet (p : Process) (c : Addr) (s : Suvlet) (ms : Mallocs) :
    Except Fault (Bool × Process) := do
  let p ← p.setOpcode wide c sclCsuvlet
  let p ← p.queueFour wide c (intArg s.ttl) (intArg s.exclusive) (intArg s.encrypted)
    (stringArg s.suvletName) ms
  let p ← p.writeOut wide c
  let (_, p) ← p.readPacket wide c (ms.packet 0) (ms.junk 0)
  let (resultCode, p) ← p.getInt wide c
  let (_, p) ← p.getValue wide c .string false none
  let p ← p.freePacketMem wide c
  .ok (resultCode = srcOkay, p)

/-- `destroy_suvlet` (`suva_conn.c` lines 225–234). -/
def destroySuvlet (p : Process) (c : Addr) (ms : Mallocs) : Except Fault Process := do
  let p ← p.setOpcode wide c sclDsuvlet
  let p ← p.writeOut wide c
  let (_, p) ← p.readPacket wide c (ms.packet 0) (ms.junk 0)
  p.freePacketMem wide c

/-- `close(fd)`. -/
def close (p : Process) (fd : ℕ) : Process := { p with sockets := p.sockets.erase fd }

/-- `close_suva_conn` (`suva_conn.c` lines 159–180). -/
def closeSuvaConn (p : Process) (c : Addr) (ms : Mallocs) : Except Fault Process := do
  let _ ← p.conn wide c
  let p ← p.memFree wide (p.writer.conns c).outEleQueue
  let p ← p.freePacketMem wide c
  let p ← p.setOpcode wide c sclCconn
  let p ← p.writeOut wide c
  let (_, p) ← p.readPacket wide c (ms.packet 0) (ms.junk 0)
  let p ← p.freePacketMem wide c
  let conn ← p.conn wide c
  (p.close conn.sock).memFree wide c

end Process

/-! ## `open_suva_conn` -/

/-- What one `open_suva_conn` meets: the outcome of each step, of the `malloc` of
    each round of the two id loops, and of the coming reads and writes on the
    socket, with the arguments that go into the request. -/
structure Opening where
  timeout : BitVec 32
  remotePort : BitVec 32
  remoteHost : Option CStr
  org : Option CStr
  conn : Option (Malloc × Malloc)
  hostFound : Bool
  socket : Option ℕ
  connected : Bool
  nonBlocking : Bool
  inTypes : List (Option Malloc)
  outTypes : List (Option Malloc)
  sentinel : Option (Malloc × Malloc)
  mallocs : Mallocs
  sched : List WriteEvent
  evs : List ReadEvent

/-- `while(mem_add_type(id, name) < 0) id = ++counter;` (`suva_conn.c` lines 92–93
    and 97–98), for as many rounds as there are outcomes: the id, the counter and
    the tables. -/
def addTypeLoop (name : List Byte) : List (Option Malloc) → MemState → BitVec 32 → BitVec 32 →
    Except Fault (BitVec 32 × BitVec 32 × MemState)
  | [], _, _, _ => .error .other
  | m :: ms, s, id, counter => do
    let (r, s) ← orFault .other (addTypeWith wide s id name m)
    if r < 0 then addTypeLoop name ms s (counter + 1) (counter + 1) else .ok (id, counter, s)

namespace Process

/-- The memory ids and the first element of the queue (`suva_conn.c` lines 87–106),
    for the zero-filled struct at `c`. -/
def setUp (p : Process) (c : Addr) (fd : ℕ) (o : Opening) : Except Fault Process := do
  let (inId, inMemId, mem) ←
    addTypeLoop wide (chars "SCL Inbound Packet Memory") o.inTypes p.mem 0 p.inMemId
  let (outId, outMemId, mem) ←
    addTypeLoop wide (chars "SCL Outbound Packet Memory") o.outTypes mem 0 inMemId
  let number := p.ids.length
  let p := { p with
    mem := mem
    inMemId := inMemId
    outMemId := outMemId
    ids := p.ids ++ [(inId, outId)]
    conns := p.conns.set c ⟨fd, inId, outId, InConn.opened, o.evs, number⟩ }
  let (core, p) ← p.memAlloc wide outId sclEleSize o.sentinel (.element number)
  let heap := if core = 0 then p.writer.heap else p.writer.heap.set core ⟨SclEle.zero, 0⟩
  .ok { p with writer := { p.writer with
    heap := heap
    conns := Function.update p.writer.conns c (OutConn.opened core 0 o.sched) } }

/-- Clean up and return NULL (`suva_conn.c` lines 125–131 and 143–149). -/
def refuse (p : Process) (c : Addr) (fd : ℕ) : Except Fault (Option Addr × Process) := do
  let p ← (p.close fd).freePacketMem wide c
  let p ← p.memFree wide c
  .ok (none, p)

/-- Read a message of two values and return the first (`suva_conn.c` lines 119–120
    and 137–138). -/
def message (p : Process) (c : Addr) : Except Fault (BitVec 32 × Process) := do
  let (returnNo, p) ← p.getInt wide c
  let (_, p) ← p.getValue wide c .string false none
  .ok (returnNo, p)

/-- The exchange with `suvad` (`suva_conn.c` lines 108–155). -/
def handshake (p : Process) (c : Addr) (fd : ℕ) (o : Opening) :
    Except Fault (Option Addr × Process) := do
  let p ← p.setOpcode wide c sclOconn
  let p ← p.queueFour wide c (intArg o.timeout) (intArg o.remotePort) (stringArg o.remoteHost)
    (stringArg o.org) o.mallocs
  let p ← p.writeOut wide c
  let (bytes, p) ← p.readPacket wide c (o.mallocs.packet 0) (o.mallocs.junk 0)
  if bytes ≤ 0 then .ok (none, p)
  else
    let (returnNo, p) ← p.message wide c
    if returnNo ≠ srcConnect then p.refuse wide c fd
    else
      let (_, p) ← p.readPacket wide c (o.mallocs.packet 1) (o.mallocs.junk 1)
      let (returnNo, p) ← p.message wide c
      if returnNo ≠ srcConnected then p.refuse wide c fd
      else
        let p ← p.freePacketMem wide c
        .ok (some c, p)

/-- `open_suva_conn` (`suva_conn.c` lines 33–156) after `suva_api_init`: the struct
    it returns, or NULL. -/
def openSuvaConn (p : Process) (o : Opening) : Except Fault (Option Addr × Process) := do
  let (c, p) ← p.memAlloc wide suvaConnType suvaConnSize o.conn (.conn p.ids.length)
  if !o.hostFound then .ok (none, ← p.memFree wide c)
  else
    match o.socket with
    | none => .ok (none, ← p.memFree wide c)
    | some fd =>
      let p := { p with sockets := insert fd p.sockets }
      -- `conn->err_handler = default_err_handler;`
      if c = 0 then .error .other
      else if !o.connected then .ok (none, ← (p.close fd).memFree wide c)
      else if !o.nonBlocking then .ok (none, ← (p.close fd).memFree wide c)
      else
        let p ← p.setUp wide c fd o
        p.handshake wide c fd o

end Process

/-! ## Runs -/

/-- `suva_api_init` (`suva_api.c` lines 23–41) in a new process; `m` is the outcome
    of the `malloc` of the type. -/
def suvaApiInit (m : Option Malloc) : Except Fault Process := do
  let (_, mem) ← orFault .other (addTypeWith wide memInit suvaConnType (chars "Suva Connection") m)
  .ok ⟨mem, Heap.empty, ⟨Heap.empty, 0, fun _ => OutConn.opened 0 0 []⟩, 0, 0, ∅, [], fun _ => none⟩

/-- A call of the API. -/
inductive Call where
  | openSuvaConn (o : Opening)
  | setOpcode (c : Addr) (opcode : BitVec 32)
  | queueValue (c : Addr) (q : Queued) (m : Option (Malloc × Malloc))
  | writeOut (c : Addr)
  | readPacket (c : Addr) (m : Option (Malloc × Malloc)) (junk : Memory)
  | getValue (c : Addr) (type : SclType) (withLen : Bool) (m : Option (Malloc × Malloc))
  | freePacketMem (c : Addr)
  | getAdditionalPacketMem (c : Addr) (size : BitVec 32) (m : Option (Malloc × Malloc))
  | createSuvlet (c : Addr) (s : Suvlet) (ms : Mallocs)
  | destroySuvlet (c : Addr) (ms : Mallocs)
  | closeSuvaConn (c : Addr) (ms : Mallocs)

namespace Process

/-- One call; what it returns is not kept. -/
def step (p : Process) : Call → Except Fault Process
  | .openSuvaConn o => Prod.snd <$> p.openSuvaConn wide o
  | .setOpcode c opcode => p.setOpcode wide c opcode
  | .queueValue c q m => p.queueValue wide c q m
  | .writeOut c => p.writeOut wide c
  | .readPacket c m junk => Prod.snd <$> p.readPacket wide c m junk
  | .getValue c type withLen m => Prod.snd <$> p.getValue wide c type withLen m
  | .freePacketMem c => p.freePacketMem wide c
  | .getAdditionalPacketMem c size m => Prod.snd <$> p.getAdditionalPacketMem wide c size m
  | .createSuvlet c s ms => Prod.snd <$> p.createSuvlet wide c s ms
  | .destroySuvlet c ms => p.destroySuvlet wide c ms
  | .closeSuvaConn c ms => p.closeSuvaConn wide c ms

/-- A sequence of calls. -/
def run (p : Process) (calls : List Call) : Except Fault Process := calls.foldlM (step wide) p

/-- Some sequence of calls leads from `suva_api_init` to `p`. -/
def Reachable (p : Process) : Prop :=
  ∃ m p₀ calls, suvaApiInit wide m = .ok p₀ ∧ p₀.run wide calls = .ok p

end Process

end CompatSuva.Conn
