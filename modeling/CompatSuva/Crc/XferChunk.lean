import CompatSuva.Crc.Checksum
import CompatSuva.Suvlet.Receiver

/-!
# The checksum of a request

Model of `bwm_xfer_chunk` of `BWMeter` up to the value it returns: `scl_get_value` gives a pointer
to the chunk and, unchecked, the count that stands in front of it; `xfer_chunk` takes the count as
a `long` and hands it to `scl_crc` as an `int`. What can be read at the pointer is what is left of
the packet there.

Results:
* `sclCrc_returns_iff`: `scl_crc` returns where the count is not negative and the memory is there,
  and then its loops run as often as they should;
* `xferChunk_returns_iff`: so for the requests `xfer_chunk`; nothing checks either condition
  (`xferChunk_walks_off`).
-/

namespace CompatSuva.Crc

open CompatSuva.Common CompatSuva.Scl CompatSuva.Suvlet

/-! ## The call chain -/

/-- `xfer_chunk` (`bwmeter.c` lines 28–31). -/
def xferChunk (mem : List Byte) (length : BitVec 64) : Except CrcFault CrcRun :=
  sclCrc mem (length.setWidth 32)

/-- The memory of the packet from a pointer on. -/
def packetFrom (conn : InConn) : Ret → List Byte
  | .ptr a =>
    match conn.pdata with
    | some n => if 0 ≤ a then load conn.mem a (n - a).toNat else []
    | none => []
  | _ => []

/-- `bwm_xfer_chunk` up to the call of `xfer_chunk` (lines 104–113), with what that does. -/
def bwmXferChunkCall (conn : InConn) : Option (Except CrcFault CrcRun) := do
  let (chunk, chunkLen, conn) ← sclGetValue conn .data true true
  let (_, _, conn) ← sclGetValue conn .int true true
  let chunkLen ← chunkLen
  some (xferChunk (packetFrom conn chunk) (BitVec.ofInt 64 chunkLen))

/-- The connection behind the name of the function, where the packet is a request `xfer_chunk`
    (lines 67–76 of `suva_get_request`). -/
def IsXferChunk (conn conn' : InConn) : Prop :=
  conn.inPacketOpcode = sclFcall ∧ ∃ p alen name,
    sclGetValue conn .string true true = some (p, alen, conn') ∧ conn'.strArg p = some name ∧
      name.val = chars "xfer_chunk"

/-- The run of `scl_crc` returns, after as many rounds of the first loop as the count `length`
    says and at most four of the second. -/
def Returns (length : ℤ) (r : Except CrcFault CrcRun) : Prop :=
  ∃ run, r = .ok run ∧ run.dataRounds = length.toNat ∧ run.lenRounds ≤ 4

/-- The count of the chunk. -/
def chunkLength (conn : InConn) : ℤ := intOf (load conn.mem conn.cursor 4)

/-! ## `scl_crc` -/

theorem toInt_pred {len : BitVec 32} (h : len ≠ BitVec.intMin 32) :
    (len - 1).toInt = len.toInt - 1 := by
  have hlo := BitVec.le_toInt len
  have hhi := BitVec.toInt_lt (x := len)
  have hne : len.toInt ≠ -2 ^ 31 := fun heq => h (BitVec.eq_of_toInt_eq heq)
  rw [BitVec.toInt_sub, show (1 : BitVec 32).toInt = 1 by rfl]
  rw [Int.bmod_eq_of_le] <;> push_cast <;> omega

/-- A first loop that ends has gone round `len` times, over memory that is there. -/
theorem dataLoop_ok {mem : List Byte} {len crc crc' : BitVec 32} {rounds rounds' : ℕ}
    (h : dataLoop mem len crc rounds = .ok (crc', rounds')) :
    len.toInt ≤ mem.length ∧ (rounds' : ℤ) = rounds + len.toInt := by
  induction mem generalizing len crc rounds with
  | nil =>
    unfold dataLoop at h
    split_ifs at h with hzero
    obtain ⟨rfl, rfl⟩ := Prod.mk.inj (Except.ok.inj h)
    subst hzero
    simp
  | cons b mem ih =>
    unfold dataLoop at h
    split_ifs at h with hzero hmin
    · obtain ⟨rfl, rfl⟩ := Prod.mk.inj (Except.ok.inj h)
      subst hzero
      simp
      omega
    · obtain ⟨hle, hrounds⟩ := ih h
      rw [toInt_pred hmin] at hle hrounds
      rw [List.length_cons]
      push_cast at hle hrounds ⊢
      omega

theorem sclCrc_returns_iff (mem : List Byte) (len : BitVec 32) :
    Returns len.toInt (sclCrc mem len) ↔ 0 ≤ len.toInt ∧ len.toInt ≤ mem.length := by
  constructor
  · rintro ⟨run, hrun, hrounds, -⟩
    cases hloop : dataLoop mem len (BitVec.allOnes 32) 0 with
    | error e =>
      rw [sclCrc, hloop] at hrun
      cases hrun
    | ok r =>
      obtain ⟨hle, hcount⟩ := dataLoop_ok hloop
      omega
  · rintro ⟨hpos, hle⟩
    have hlen : (mem.take len.toInt.toNat).length = len.toInt.toNat := by
      rw [List.length_take]
      omega
    have hlt := BitVec.toInt_lt (x := len)
    have hrun := sclCrc_eq (mem.take len.toInt.toNat) (mem.drop len.toInt.toNat) (by omega)
    have hword : BitVec.ofNat 32 len.toInt.toNat = len := by
      apply BitVec.eq_of_toInt_eq
      rw [toInt_ofNat_length (by omega)]
      omega
    rw [List.take_append_drop, hlen, hword] at hrun
    exact ⟨_, hrun, rfl, length_lengthBytes (by omega)⟩

/-! ## The request -/

theorem setWidth_ofInt_toInt (x : BitVec 32) : (BitVec.ofInt 64 x.toInt).setWidth 32 = x := by
  rw [← BitVec.ofInt_toInt (x := x)]
  apply BitVec.eq_of_toNat_eq
  rw [BitVec.ofInt_toInt, BitVec.toNat_setWidth, BitVec.toNat_ofInt]
  have h : x = BitVec.ofInt 32 x.toInt := BitVec.ofInt_toInt.symm
  have h' := congrArg BitVec.toNat h
  rw [BitVec.toNat_ofInt] at h'
  omega

theorem length_packetFrom {conn : InConn} {n : ℕ} (h : conn.pdata = some n) (a : ℤ) :
    ((packetFrom conn (.ptr a)).length : ℤ) = if 0 ≤ a then max 0 (n - a) else 0 := by
  simp only [packetFrom, h]
  split_ifs
  · rw [length_load]
    omega
  · rfl

/-- The chain, at the packet left. -/
theorem bwmXferChunkCall_eq {conn : InConn} {n : ℕ} (h : conn.pdata = some n) :
    bwmXferChunkCall conn = some (xferChunk (packetFrom conn (.ptr (conn.cursor + 4)))
      (BitVec.ofInt 64 (chunkLength conn))) := by
  simp only [bwmXferChunkCall, sclGetValue, sclGetValueOn, SclType.isComplex,
    InConn.readIntOn_plain, InConn.readInt_eq, h, and_self, if_true,
    Bool.false_eq_true, and_false, if_false, Option.bind_eq_bind, Option.bind_some, packetFrom,
    InConn.advance]
  rfl

theorem bwmXferChunkCall_returns_iff {conn : InConn} {n : ℕ} (h : conn.pdata = some n) :
    (∃ r, bwmXferChunkCall conn = some r ∧ Returns (chunkLength conn) r) ↔
      0 ≤ chunkLength conn ∧ (chunkLength conn = 0 ∨
        0 ≤ conn.cursor + 4 ∧ conn.cursor + 4 + chunkLength conn ≤ n) := by
  have hrun : Returns (chunkLength conn) (xferChunk (packetFrom conn (.ptr (conn.cursor + 4)))
      (BitVec.ofInt 64 (chunkLength conn))) ↔
      0 ≤ chunkLength conn ∧
        chunkLength conn ≤ (packetFrom conn (.ptr (conn.cursor + 4))).length := by
    rw [xferChunk, chunkLength, intOf, setWidth_ofInt_toInt]
    exact sclCrc_returns_iff _ _
  rw [bwmXferChunkCall_eq h]
  simp only [Option.some.injEq, exists_eq_left']
  rw [hrun, length_packetFrom h]
  split_ifs <;> omega

/-- Behind the name the packet is still there. -/
theorem IsXferChunk.pdata {conn conn' : InConn} (h : IsXferChunk conn conn') :
    conn'.pdata = conn.pdata := by
  obtain ⟨-, p, alen, name, hget, -, -⟩ := h
  cases hpdata : conn.pdata with
  | none =>
    simp [sclGetValue, sclGetValueOn, SclType.isComplex, getStringOn, InConn.readIntOn, hpdata]
      at hget
  | some n =>
    simp only [sclGetValue, sclGetValueOn, SclType.isComplex, getStringOn, InConn.readIntOn_plain,
      InConn.readInt_eq, InConn.write, hpdata, Bool.false_eq_true, and_false, if_false,
      Option.map_some, Option.bind_eq_bind, Option.bind_some, InConn.advance] at hget
    split_ifs at hget
    · obtain ⟨-, hget⟩ := Prod.mk.inj (Option.some.inj hget)
      obtain ⟨-, rfl⟩ := Prod.mk.inj hget
      rfl
    · obtain ⟨-, hget⟩ := Prod.mk.inj (Option.some.inj hget)
      obtain ⟨-, rfl⟩ := Prod.mk.inj hget
      rfl

/-- On a request `xfer_chunk`, `scl_crc` runs as long as the count says where that is not negative
    and the payload has as many bytes behind it. -/
theorem xferChunk_returns_iff (header payload : List Byte) (junk : Memory)
    (h : payload.length = (headerWord header 3).toNat) {conn : InConn}
    (hreq : IsXferChunk (InConn.received header payload junk) conn) :
    (∃ r, bwmXferChunkCall conn = some r ∧ Returns (chunkLength conn) r) ↔
      0 ≤ chunkLength conn ∧ (chunkLength conn = 0 ∨
        0 ≤ conn.cursor + 4 ∧ conn.cursor + 4 + chunkLength conn ≤ payload.length) := by
  apply bwmXferChunkCall_returns_iff
  rw [hreq.pdata]
  exact (left_received header payload junk h).pdata

/-- The payload of a request `xfer_chunk`: the name, and `rest` behind it. -/
def requestPayload (rest : List Byte) : List Byte :=
  lenBytes 10 ++ chars "xfer_chunk" ++ [0] ++ rest

/-- A chunk of two bytes, and the `SCL_INT` behind it. -/
theorem xferChunk_returns_iff_two : ∃ conn,
    IsXferChunk (.received (packetHeader sclFcall 25)
      (requestPayload (lenBytes 2 ++ [7, 8] ++ lenBytes 2)) fun _ => 0) conn ∧
    ((∃ r, bwmXferChunkCall conn = some r ∧ Returns (chunkLength conn) r) ↔
      0 ≤ chunkLength conn ∧ (chunkLength conn = 0 ∨
        0 ≤ conn.cursor + 4 ∧ conn.cursor + 4 + chunkLength conn ≤ 25)) := by
  obtain ⟨conn, hreq⟩ : ∃ conn, IsXferChunk (.received (packetHeader sclFcall 25)
      (requestPayload (lenBytes 2 ++ [7, 8] ++ lenBytes 2)) fun _ => 0) conn :=
    ⟨_, by decide, _, _, ⟨chars "xfer_chunk", by decide⟩, rfl, rfl, rfl⟩
  exact ⟨conn, hreq, xferChunk_returns_iff (packetHeader sclFcall 25)
    (requestPayload (lenBytes 2 ++ [7, 8] ++ lenBytes 2)) (fun _ => 0) (by decide) hreq⟩

/-- Nothing checks the count: at -1 the first loop does not run 0 times but off the packet. -/
theorem xferChunk_walks_off :
    ¬ ∀ (header payload : List Byte) (junk : Memory), payload.length = (headerWord header 3).toNat →
      ∀ conn, IsXferChunk (.received header payload junk) conn →
        ∃ r, bwmXferChunkCall conn = some r ∧ Returns (chunkLength conn) r := by
  intro hall
  obtain ⟨conn, hreq, hlength⟩ : ∃ conn, IsXferChunk (.received (packetHeader sclFcall 19)
      (requestPayload (bytesOf (-1 : BitVec 32))) fun _ => 0) conn ∧ chunkLength conn = -1 :=
    ⟨_, ⟨by decide, _, _, ⟨chars "xfer_chunk", by decide⟩, rfl, rfl, rfl⟩, rfl⟩
  have hpdata : conn.pdata = some 19 := by
    rw [hreq.pdata]
    rfl
  have hreturns := (bwmXferChunkCall_returns_iff hpdata).mp (hall _ _ _ (by decide) conn hreq)
  rw [hlength] at hreturns
  omega

end CompatSuva.Crc
