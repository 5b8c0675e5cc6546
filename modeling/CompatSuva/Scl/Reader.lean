import CompatSuva.Common.Memory
import CompatSuva.Scl.ByteOrder
import CompatSuva.Scl.Io

/-!
# Reading packets and values

Model of `scl_reader.c`: `scl_read_packet`, which reads a header and a payload
into a new block, and `scl_get_value`, which decodes the next value in place.

`scl_get_value` hands out pointers into the packet and writes into the packet, so
the packet is a flat memory, addressed from `in_pdata`: what the code reads or
writes outside the block is whatever lies there. Every access is recorded
in `log`. `int` arithmetic wraps, and a pointer has 8 bytes.

The functions ending in `On` are the code of either build: with `SCO_BIG_ENDIAN` the
length and count fields in a packet are swapped in place before they are read, and
nothing else is. The words of the header and the numbers a caller finds behind the
pointers it gets are read as the host reads them. The functions without it are the
plain build, on a little-endian machine.
-/

namespace CompatSuva.Scl

open CompatSuva.Common

/-! ## The reading side of a connection -/

/-- An access of `scl_get_value`. -/
inductive Access where
  /-- `len` bytes from `in_pdata + at`, read or written. -/
  | payload (offset : ℤ) (len : ℕ)
  /-- Entry `index` of a pointer table allocated with `cap` entries. -/
  | table (index cap : ℕ)
  deriving DecidableEq, Repr

/-- The reading side of `struct suva_conn`. `pdata` is the size of the block at
    `in_pdata`, `none` for a null pointer; `mem` is the memory around that block
    and `cursor` is `in_pcursor - in_pdata`. `tables` are the `char *` arrays
    allocated for the packet, a pointer being an offset from `in_pdata`. -/
structure InConn where
  inPacketOpcode : BitVec 32
  pdata : Option ℕ
  mem : Memory
  cursor : ℤ
  tables : List (List (Option ℤ))
  log : List Access

/-- What `scl_get_value` returns: NULL, a pointer into the packet, or one of the
    `char *` arrays. -/
inductive Ret where
  | null
  | ptr (offset : ℤ)
  | table (t : ℕ)
  deriving DecidableEq, Repr

variable (b : Build)

namespace InConn

/-- The reading side of a connection before its first packet. -/
def opened : InConn := ⟨0, none, fun _ => 0, 0, [], []⟩

/-- `swap(conn->in_pcursor, sizeof(int))` where it is compiled in, and
    `*((int *)conn->in_pcursor)`. -/
def readIntOn (conn : InConn) : Option (ℤ × InConn) :=
  match conn.pdata with
  | none => none
  | some _ =>
    let mem := b.swap conn.mem conn.cursor 4
    some ((b.word 32 (load mem conn.cursor 4)).toInt,
      { conn with mem := mem, log := conn.log ++ [.payload conn.cursor 4] })

/-- `*((int *)conn->in_pcursor)`. -/
def readInt (conn : InConn) : Option (ℤ × InConn) := conn.readIntOn .plain

theorem readIntOn_plain (conn : InConn) : conn.readIntOn .plain = conn.readInt := rfl

theorem readInt_eq (conn : InConn) :
    conn.readInt = conn.pdata.map fun _ => (intOf (load conn.mem conn.cursor 4),
      { conn with log := conn.log ++ [.payload conn.cursor 4] }) := by
  unfold readInt readIntOn
  cases conn.pdata <;> rfl

/-- Write `bs` at `in_pdata + offset`. -/
def write (conn : InConn) (offset : ℤ) (bs : List Byte) : Option InConn :=
  match conn.pdata with
  | none => none
  | some _ => some { conn with
      mem := store conn.mem offset bs
      log := conn.log ++ [.payload offset bs.length] }

/-- `conn->in_pcursor += k`. -/
def advance (conn : InConn) (k : ℤ) : InConn := { conn with cursor := conn.cursor + k }

end InConn

/-! ## `scl_get_value` -/

/-- The loop of `scl_get_value` over the strings of an `SCL_STRING_A` (lines
    228–250), with `ptrs` the pointers stored so far in a table of `cap` entries. -/
def stringALoopOn (cap : ℕ) : ℕ → InConn → List (Option ℤ) → Option (InConn × List (Option ℤ))
  | 0, conn, ptrs => some (conn, ptrs)
  | k + 1, conn, ptrs => do
    let (stringLen, conn) ← conn.readIntOn b
    -- the length field becomes the terminator of the previous string
    let conn ← conn.write conn.cursor [0, 0, 0, 0]
    let conn := conn.advance sclLenLen
    let conn := { conn with log := conn.log ++ [.table ptrs.length cap] }
    if stringLen = 0 then stringALoopOn cap k conn (ptrs ++ [none])
    else stringALoopOn cap k (conn.advance stringLen) (ptrs ++ [some conn.cursor])

/-- The `SCL_STRING` case (lines 189–213). -/
def getStringOn (conn : InConn) : Option (Ret × InConn) := do
  let (stringLen, conn) ← conn.readIntOn b
  let conn := conn.advance sclLenLen
  if stringLen = 0 then some (.null, conn.advance 1)
  else
    let retval := conn.cursor
    let conn ← conn.write (conn.cursor + stringLen) [0]
    some (.ptr retval, conn.advance (wrap32 (stringLen + 1)))

/-- The `SCL_STRING_A` case with an element count (lines 222–257). `tableOk` says
    whether `mem_alloc` succeeds; its size argument is an `unsigned int`. -/
def getStringsOn (conn : InConn) (arrayLen : ℤ) (tableOk : Bool) : Option (Ret × InConn) :=
  if tableOk = false ∧ 0 < arrayLen then none
  else do
    let cap := (BitVec.ofInt 32 (8 * arrayLen)).toNat / 8
    let (conn, ptrs) ← stringALoopOn b cap arrayLen.toNat conn []
    let conn ← conn.write conn.cursor [0]
    let conn := conn.advance 1
    if tableOk then some (.table conn.tables.length, { conn with tables := conn.tables ++ [ptrs] })
    else some (.null, conn)

/-- `scl_get_value` (lines 108–261). `withLen` says whether the caller supplies
    `array_len`; the result holds what is stored there. The outer `none` is a
    null pointer dereference. -/
def sclGetValueOn (conn : InConn) (type : SclType) (withLen tableOk : Bool) :
    Option (Ret × Option ℤ × InConn) := do
  let (arrayLen, conn) ←
    if withLen ∧ type.isComplex then do
      let (n, conn) ← conn.readIntOn b
      some (some n, conn.advance sclLenLen)
    else some (none, conn)
  match type with
  | .int | .long | .float | .doub | .bool =>
    some (.ptr conn.cursor, arrayLen, conn.advance type.elemLen)
  | .intA | .longA | .floatA | .doubA | .boolA | .data =>
    match arrayLen with
    | none => some (.null, arrayLen, conn)
    | some n => some (.ptr conn.cursor, arrayLen, conn.advance (wrap32 (type.elemLen * n)))
  | .string =>
    let (ret, conn) ← getStringOn b conn
    some (ret, arrayLen, conn)
  | .stringA =>
    match arrayLen with
    | none => some (.null, arrayLen, conn.advance 1)
    | some n =>
      let (ret, conn) ← getStringsOn b conn n tableOk
      some (ret, arrayLen, conn)

/-- `scl_get_value` of the plain build. -/
def sclGetValue (conn : InConn) (type : SclType) (withLen tableOk : Bool) :
    Option (Ret × Option ℤ × InConn) := sclGetValueOn .plain conn type withLen tableOk

/-! ## `scl_read_packet` -/

/-- `scl_read(sd, NULL, len)`: a `read()` that finds data fails with `EFAULT`, an
    error like any other. -/
def sclReadNull (len : ℕ) : List ReadEvent → Option ReadOut
  | [] => some ⟨0, [], []⟩
  | .data b bs :: evs => if len = 0 then some ⟨0, [], .data b bs :: evs⟩ else none
  | .again elapsed :: evs =>
    if len = 0 then some ⟨0, [], .again elapsed :: evs⟩
    else if elapsed < sclTimeout then sclReadNull len evs else some ⟨-1, [], evs⟩
  | .error :: evs => if len = 0 then some ⟨0, [], .error :: evs⟩ else none

/-- Word `i` of the header `scl_in_pheader`, as the host reads it. -/
def headerWordOn (header : List Byte) (i : ℕ) : BitVec 32 :=
  b.word 32 ((header.drop (4 * i)).take 4)

/-- Word `i` of the header in the plain build. -/
def headerWord (header : List Byte) (i : ℕ) : BitVec 32 := headerWordOn .plain header i

theorem headerWord_eq (header : List Byte) (i : ℕ) :
    headerWord header i = wordOf 32 ((header.drop (4 * i)).take 4) := rfl

/-- The bytes of a header. -/
def headerLen : ℕ := 16

theorem stream_sclReadNull {len : ℕ} {evs : List ReadEvent} {r : ReadOut}
    (h : sclReadNull len evs = some r) : stream r.rest = stream evs := by
  induction evs with
  | nil => simp [← Option.some.inj h]
  | cons e evs ih =>
    cases e with
    | data b bs =>
      unfold sclReadNull at h
      split_ifs at h
      simp [← Option.some.inj h]
    | again elapsed =>
      unfold sclReadNull at h
      split_ifs at h
      · simp [← Option.some.inj h]
      · simpa [ReadEvent.bytes] using ih h
      · simp [← Option.some.inj h, ReadEvent.bytes]
    | error =>
      unfold sclReadNull at h
      split_ifs at h
      simp [← Option.some.inj h]

/-- The connection once the header has been read: `scl_free_packet_mem` has
    released the last packet with its tables, and `mem_alloc` (which succeeds if
    `alloc`, and clears the block) has been asked for the payload. `junk` is the
    memory around the new block. -/
def InConn.newPacketOn (header : List Byte) (alloc : Bool) (junk : Memory) : InConn where
  inPacketOpcode := headerWordOn b header 0
  pdata := if alloc then some (headerWordOn b header 3).toNat else none
  mem := if alloc then store junk 0 (List.replicate (headerWordOn b header 3).toNat 0) else junk
  cursor := 0
  tables := []
  log := []

/-- The connection once the header has been read in the plain build. -/
def InConn.newPacket (header : List Byte) (alloc : Bool) (junk : Memory) : InConn :=
  .newPacketOn .plain header alloc junk

theorem InConn.newPacket_eq (header : List Byte) (alloc : Bool) (junk : Memory) :
    InConn.newPacket header alloc junk =
      ⟨headerWord header 0, if alloc then some (headerWord header 3).toNat else none,
        if alloc then store junk 0 (List.replicate (headerWord header 3).toNat 0) else junk,
        0, [], []⟩ := rfl

/-- `scl_read_packet` (lines 74–106), with its result. `none`: the process dies in
    one of its two calls of `scl_read`. -/
def sclReadPacketOn (conn : InConn) (alloc : Bool) (junk : Memory) (evs : List ReadEvent) :
    Option (ℤ × InConn × List ReadEvent) := do
  let r ← sclRead headerLen evs
  if r.ret = 0 then some (0, conn, r.rest)
  else if r.ret ≠ headerLen then some (-1, conn, r.rest)
  else
    let conn := InConn.newPacketOn b r.got alloc junk
    let len := headerWordOn b r.got 3
    let r ← if alloc then sclRead len.toNat r.rest else sclReadNull len.toNat r.rest
    let conn := { conn with mem := store conn.mem 0 r.got }
    if r.ret = 0 then some (0, conn, r.rest)
    else if r.ret ≠ len.toInt then some (-1, conn, r.rest)
    else some (r.ret, conn, r.rest)

/-- `scl_read_packet` of the plain build. -/
def sclReadPacket (conn : InConn) (alloc : Bool) (junk : Memory) (evs : List ReadEvent) :
    Option (ℤ × InConn × List ReadEvent) := sclReadPacketOn .plain conn alloc junk evs

/-! ## The two halves of `scl_read_packet` -/

section Halves

variable {conn : InConn} {alloc : Bool} {junk : Memory} {evs : List ReadEvent} {r : ReadOut}

/-- Once the header is there, the result is that of reading the payload. -/
theorem sclReadPacketOn_of_header (h : sclRead headerLen evs = some r) (hret : r.ret = headerLen) :
    sclReadPacketOn b conn alloc junk evs =
      (if alloc then sclRead (headerWordOn b r.got 3).toNat r.rest
        else sclReadNull (headerWordOn b r.got 3).toNat r.rest).map fun d =>
          (if d.ret = 0 then 0 else if d.ret ≠ (headerWordOn b r.got 3).toInt then -1 else d.ret,
            { InConn.newPacketOn b r.got alloc junk with
              mem := store (InConn.newPacketOn b r.got alloc junk).mem 0 d.got }, d.rest) := by
  have hne : (headerLen : ℤ) ≠ 0 := by decide
  unfold sclReadPacketOn
  simp only [h, hret, hne, ne_eq, not_true_eq_false, if_false, Option.bind_eq_bind,
    Option.bind_some, Option.map_eq_bind]
  cases alloc <;>
  · simp only [if_true, Bool.false_eq_true, if_false]
    congr 1
    funext d
    simp only [Function.comp_apply]
    split_ifs <;> rfl

theorem sclReadPacket_of_header (h : sclRead headerLen evs = some r) (hret : r.ret = headerLen) :
    sclReadPacket conn alloc junk evs =
      (if alloc then sclRead (headerWord r.got 3).toNat r.rest
        else sclReadNull (headerWord r.got 3).toNat r.rest).map fun d =>
          (if d.ret = 0 then 0 else if d.ret ≠ (headerWord r.got 3).toInt then -1 else d.ret,
            { InConn.newPacket r.got alloc junk with
              mem := store (InConn.newPacket r.got alloc junk).mem 0 d.got }, d.rest) :=
  sclReadPacketOn_of_header .plain h hret

/-- Without a header the connection is as it was. -/
theorem sclReadPacket_of_short (h : sclRead headerLen evs = some r)
    (hret : r.ret = 0 ∨ r.ret = -1) :
    sclReadPacket conn alloc junk evs = some (r.ret, conn, r.rest) := by
  have hne : (headerLen : ℤ) = 16 := rfl
  unfold sclReadPacket sclReadPacketOn
  rcases hret with h0 | h1
  · simp [h, h0]
  · simp [h, h1, hne]

theorem sclReadPacket_of_none (h : sclRead headerLen evs = none) :
    sclReadPacket conn alloc junk evs = none := by
  unfold sclReadPacket sclReadPacketOn
  rw [h]
  rfl

end Halves

end CompatSuva.Scl
