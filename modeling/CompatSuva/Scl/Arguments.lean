import CompatSuva.Scl.Bounds
import CompatSuva.Scl.Outgoing

/-!
# Arguments in a packet

What the callers of `scl_get_value` do with the pointers it returns: read an
`int`, a `char`, a string or a block of bytes behind them. A read through a null
pointer, or after the packet has been released, is undefined (`none`), and so is a
string without an end; an `int` may reach past the packet, into whatever lies there.

* `sclReadPacket_packet`: a packet that arrives is the packet that was sent;
* `getValues_left`: reading the first of the values left in a packet;
* `str_of_reads`, `word_of_reads`, `char_of_reads`, `block_of_reads`: the arguments
  read are the values.
-/

namespace CompatSuva.Scl

open CompatSuva.Common

/-! ## Reading through a pointer -/

/-- The C string at the front of `bs`. -/
def cstrOf (bs : List Byte) : CStr :=
  ⟨bs.takeWhile (· ≠ 0), fun h => by simpa using List.mem_takeWhile_imp h⟩

theorem cstrOf_image (s : CStr) (junk : List Byte) : cstrOf (s.image ++ junk) = s := by
  apply Subtype.ext
  have h : ∀ b ∈ s.val, decide (b ≠ 0) = true := by
    intro b hb
    simpa using fun h0 : b = 0 => s.property (h0 ▸ hb)
  show (s.val ++ [0] ++ junk).takeWhile (· ≠ 0) = s.val
  rw [List.append_assoc, List.takeWhile_append_of_pos h]
  simp

namespace InConn

/-- A string argument: NULL, or the characters up to the terminator, which has
    to be in the packet. -/
def str (conn : InConn) : Ret → Option (Option CStr)
  | .null => some none
  | .ptr a =>
    match conn.pdata with
    | none => none
    | some n =>
      let bs := load conn.mem a (n - a).toNat
      if 0 ∈ bs then some (some (cstrOf bs)) else none
  | .table _ => none

/-- A string argument that is dereferenced, so not NULL. -/
def strArg (conn : InConn) (p : Ret) : Option CStr := (conn.str p).bind id

/-- `*(int *)p`. -/
def word (conn : InConn) : Ret → Option (BitVec 32)
  | .ptr a => conn.pdata.map fun _ => wordOf 32 (load conn.mem a 4)
  | _ => none

/-- `*(char *)p`. -/
def char (conn : InConn) : Ret → Option Byte
  | .ptr a => conn.pdata.map fun _ => conn.mem a
  | _ => none

/-- The `len` bytes at `p`. -/
def block (conn : InConn) (p : Ret) (len : ℤ) : Option (List Byte) :=
  match p with
  | .ptr a => if 0 ≤ len then conn.pdata.map fun _ => load conn.mem a len.toNat else none
  | _ => none

/-- `scl_free_packet_mem` (`scl_reader.c` lines 19–22): the packet and its tables
    are released, and no pointer into them may be used. -/
def freePacketMem (conn : InConn) : InConn := { conn with pdata := none, tables := [] }

end InConn

/-! ## Packets that arrive -/

/-- The header of a packet (`scl_write_out` lines 83–86). -/
def packetHeader (opcode : BitVec 32) (len : ℕ) : List Byte :=
  bytesOf opcode ++ lenBytes 0 ++ lenBytes 0 ++ lenBytes len

/-- The connection once a packet of the queued values has been read. -/
def InConn.delivered (opcode : BitVec 32) (qs : List Queued) (junk : Memory) : InConn :=
  InConn.received (packetHeader opcode (payload qs).length) (payload qs) junk

theorem packet_eq (opcode : BitVec 32) (qs : List Queued) :
    packet opcode qs = packetHeader opcode (payload qs).length ++ payload qs := rfl

/-- When a packet arrives in time, `scl_read_packet` delivers it. -/
theorem sclReadPacket_packet (conn : InConn) (junk : Memory) {evs : List ReadEvent}
    {opcode : BitVec 32} {qs : List Queued} {rest : List Byte}
    (hstream : stream evs = packet opcode qs ++ rest) (hlen : (payload qs).length < 2 ^ 32)
    (harr : Arrives sclTimeout (packet opcode qs).length evs) :
    ∃ ret evs', sclReadPacket conn true junk evs = some (ret, .delivered opcode qs junk, evs') ∧
      stream evs' = rest ∧
      (∀ k, Arrives sclTimeout ((packet opcode qs).length + k) evs → Arrives sclTimeout k evs') ∧
      ((∀ e ∈ evs, e.Timely sclTimeout) → ∀ e ∈ evs', e.Timely sclTimeout) := by
  have hplen : packetLen (stream evs) = (packet opcode qs).length := by
    rw [hstream, packetLen_packet opcode hlen]
  rw [← hplen] at harr
  obtain ⟨ret, hread⟩ := sclReadPacket_of_arrives conn junk harr
  have hheader : (stream evs).take headerLen = packetHeader opcode (payload qs).length := by
    rw [hstream, packet_eq, List.append_assoc, List.take_left' (by simp [packetHeader, headerLen])]
  have hpayload : ((stream evs).take (packetLen (stream evs))).drop headerLen = payload qs := by
    rw [hplen, hstream, List.take_left, packet_eq,
      List.drop_left' (by simp [packetHeader, headerLen])]
  have hrest := stream_after_packet harr
  rw [hheader, hpayload] at hread
  refine ⟨ret, _, hread, by rw [hrest, hplen, hstream, List.drop_left], fun k hk => ?_,
    fun htimely => timely_dropBytes (timely_dropBytes htimely)⟩
  have hsplit : (packet opcode qs).length + k =
      headerLen + (packetLen (stream evs) - headerLen + k) := by
    rw [← hplen, packetLen]
    omega
  rw [hsplit, arrives_add, arrives_add] at hk
  exact hk.2.2

theorem headerWord_packetHeader_zero (opcode : BitVec 32) (len : ℕ) :
    headerWord (packetHeader opcode len) 0 = opcode := by
  have h : ((packetHeader opcode len).drop (4 * 0)).take 4 = bytesOf opcode := by
    simp [packetHeader]
  rw [headerWord_eq, h, wordOf_bytesOf (by decide)]

theorem headerWord_packetHeader_three (opcode : BitVec 32) (len : ℕ) :
    headerWord (packetHeader opcode len) 3 = BitVec.ofNat 32 len := by
  have hpre : (bytesOf opcode ++ lenBytes 0 ++ lenBytes 0).length = 4 * 3 := by simp
  have h : ((packetHeader opcode len).drop (4 * 3)).take 4 = lenBytes len := by
    rw [packetHeader, List.drop_left' hpre, List.take_of_length_le (by simp)]
  rw [headerWord_eq, h, lenBytes, wordOf_bytesOf (by decide)]

@[simp] theorem delivered_opcode (opcode : BitVec 32) (qs : List Queued) (junk : Memory) :
    (InConn.delivered opcode qs junk).inPacketOpcode = opcode :=
  headerWord_packetHeader_zero _ _

/-- All of a packet is left to be read. -/
theorem left_delivered (opcode : BitVec 32) {qs : List Queued} (junk : Memory)
    (hlen : (payload qs).length < 2 ^ 32) :
    (InConn.delivered opcode qs junk).Left (payload qs).length (payload qs) := by
  refine left_received _ _ _ ?_
  rw [headerWord_packetHeader_three, BitVec.toNat_ofNat, Nat.mod_eq_of_lt hlen]

/-! ## Reading arguments -/

variable {n : ℕ} {conn : InConn}

/-- The calls of `scl_get_value` for the first of the values that are left. -/
theorem getValues_left {vs vs' : List Value} {rs : List Request}
    (h : conn.Left n ((vs ++ vs').flatMap Value.enc))
    (hlen : ∀ v ∈ vs, v.enc.length < 2 ^ 31 + 4) (hrs : List.Forall₂ Asks vs rs) :
    ∃ rets conn', getValues conn rs = some (rets, conn') ∧
      conn'.Left n (vs'.flatMap Value.enc) ∧
      conn'.inPacketOpcode = conn.inPacketOpcode ∧
      List.Forall₂ (fun v r => v.norm.Reads conn'.mem conn'.tables 0 conn'.cursor r.1 r.2)
        vs rets := by
  rw [List.flatMap_append] at h
  obtain ⟨rets, conn', hrun, hdec, hreads⟩ :=
    getValues_enc h.pdata (holds_append.mp h.holds).1 hlen hrs
  have hleft := h.drop hdec (by simp)
  rw [List.drop_left] at hleft
  refine ⟨rets, conn', hrun, hleft, hdec.opcode, hreads.imp fun v r hr => ?_⟩
  exact hr.congr (fun _ _ _ => rfl) (List.prefix_refl _) h.nonneg (le_refl _)

/-- The call of `scl_get_value` for the first value that is left stays inside the
    packet. -/
theorem sclGetValue_left {v : Value} {rest : List Byte} {r : Request}
    (h : conn.Left n (v.enc ++ rest)) (hlen : v.enc.length < 2 ^ 31 + 4) (hr : Asks v r) :
    ∃ ret arrayLen conn', sclGetValue conn r.1 r.2 true = some (ret, arrayLen, conn') ∧
      conn'.Left n rest ∧ Within n conn conn' v.enc.length ∧
      v.norm.Reads conn'.mem conn'.tables 0 conn'.cursor ret arrayLen := by
  obtain ⟨ret, arrayLen, conn', hrun, hw⟩ :=
    sclGetValue_whole h (valueSize_enc hr rest hlen) (by simp) hlen
  obtain ⟨type, withLen⟩ := r
  obtain ⟨rfl, hcomplex⟩ := hr
  obtain ⟨ret', arrayLen', conn'', hrun', -, hreads⟩ :=
    getValue_enc h.pdata (holds_append.mp h.holds).1 hlen hcomplex
  obtain ⟨rfl, rfl, rfl⟩ : ret = ret' ∧ arrayLen = arrayLen' ∧ conn' = conn'' := by
    simpa using hrun.symm.trans hrun'
  have hleft := h.drop hw.toDecoded (by simp)
  rw [List.drop_left] at hleft
  exact ⟨ret, arrayLen, conn', hrun, hleft, hw,
    hreads.congr (fun _ _ _ => rfl) (List.prefix_refl _) h.nonneg (le_refl _)⟩

/-- What is left of a packet ends where the packet ends. -/
theorem InConn.Left.cursor_le {bs : List Byte} (h : conn.Left n bs) : conn.cursor ≤ n := by
  have := h.length
  omega

variable {bs : List Byte} {ret : Ret} {arrayLen : Option ℤ}

theorem str_of_reads (h : conn.Left n bs) {s : Option CStr}
    (hreads : (Value.string s).Reads conn.mem conn.tables 0 conn.cursor ret arrayLen) :
    conn.str ret = some s := by
  cases s with
  | none =>
    have hret : ret = .null := hreads
    rw [hret, InConn.str]
  | some s =>
    obtain ⟨a, rfl, hlo, hhi, hholds⟩ := hreads
    have hle := h.cursor_le
    obtain ⟨k, hk⟩ : ∃ k, ((n : ℤ) - a).toNat = s.image.length + k :=
      ⟨((n : ℤ) - a).toNat - s.image.length, by omega⟩
    have hsplit : load conn.mem a ((n : ℤ) - a).toNat =
        s.image ++ load conn.mem (a + s.image.length) k := by
      rw [hk, load_add, hholds.load rfl]
    simp only [InConn.str, h.pdata, hsplit]
    rw [if_pos (by simp [CStr.image]), cstrOf_image]

theorem strArg_of_reads (h : conn.Left n bs) {s : CStr}
    (hreads : (Value.string (some s)).Reads conn.mem conn.tables 0 conn.cursor ret arrayLen) :
    conn.strArg ret = some s := by
  rw [InConn.strArg, str_of_reads h hreads]
  rfl

theorem word_of_reads (h : conn.Left n bs) {v : BitVec 32}
    (hreads : (Value.int v).Reads conn.mem conn.tables 0 conn.cursor ret arrayLen) :
    conn.word ret = some v := by
  obtain ⟨-, a, rfl, -, -, hholds⟩ := hreads
  have hload : load conn.mem a 4 = bytesOf v := hholds.load (by simp [Value.elems])
  simp [InConn.word, h.pdata, hload, wordOf_bytesOf]

theorem char_of_reads (h : conn.Left n bs) {v : Byte}
    (hreads : (Value.bool v).Reads conn.mem conn.tables 0 conn.cursor ret arrayLen) :
    conn.char ret = some v := by
  obtain ⟨-, a, rfl, -, -, hholds⟩ := hreads
  have hmem : conn.mem a = v := holds_singleton.mp hholds
  simp [InConn.char, h.pdata, hmem]

theorem block_of_reads (h : conn.Left n bs) {data : List Byte}
    (hreads : (Value.data data).Reads conn.mem conn.tables 0 conn.cursor ret arrayLen) :
    arrayLen = some (data.length : ℤ) ∧ conn.block ret data.length = some data := by
  obtain ⟨hn, a, rfl, -, -, hholds⟩ := hreads
  refine ⟨hn rfl, ?_⟩
  have hload : load conn.mem a data.length = data := hholds.load rfl
  simp [InConn.block, h.pdata, hload]

end CompatSuva.Scl
