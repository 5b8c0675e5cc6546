import CompatSuva.Suvlet.Receiver

/-!
# `suva_unexpected_return`

A client that finds another op-code than `SCL_FRETURN` calls
`suva_unexpected_return`, which passes the error of an `SCL_FERROR` packet on to the
error handler. It reads another packet first.

* `sclReadPacket_of_ceased`: when nothing follows, that read leaves the packet and the
  stream as they are;
* `sclReadPacket_of_not_ceased`: when anything does, it takes bytes off the stream, or the process
  dies in it;
* `getError_spec`: the packet of `scl_throw_error` holds its number and its text,
  however long;
* `suvaUnexpectedReturn_iff`: so the handler gets the error, and the stream stays, just
  when nothing follows.
-/

namespace CompatSuva.Local

open CompatSuva.Common CompatSuva.Scl CompatSuva.Suvlet

/-- `suva_unexpected_return` (`suva_conn.c` lines 240–254): what the error handler is
    called with, if it is called, and what is left of the stream. `none`: the process dies
    before the handler is called. -/
def suvaUnexpectedReturn (conn : InConn) (alloc : Bool) (junk : Memory) (evs : List ReadEvent) :
    Option (Option (BitVec 32 × Option CStr) × InConn × List ReadEvent) :=
  if conn.inPacketOpcode = sclFerror then do
    let (_, conn, evs) ← sclReadPacket conn alloc junk evs
    let (p, _, conn) ← sclGetValue conn .int false true
    let returnNo ← conn.word p
    let (q, _, conn) ← sclGetValue conn .string false true
    let returnText ← conn.str q
    some (some (returnNo, returnText), conn, evs)
  else some (none, conn, evs)

/-! ## Reading another packet -/

variable {len length : ℕ} {got : List Byte} {evs : List ReadEvent} {r : ReadOut}

/-- The loop of `scl_read` only ever adds to the buffer. -/
theorem sclReadLoop_extends (h : sclReadLoop len length got evs = some r) : got <+: r.got := by
  induction evs generalizing length got with
  | nil =>
    unfold sclReadLoop at h
    split_ifs at h <;> rw [← Option.some.inj h]
  | cons e evs ih =>
    cases e with
    | data b bs =>
      unfold sclReadLoop at h
      split_ifs at h
      · rw [← Option.some.inj h]
      · rw [← Option.some.inj h]
        exact List.prefix_append _ _
      · exact (List.prefix_append _ _).trans (ih h)
    | again elapsed =>
      unfold sclReadLoop at h
      split_ifs at h
      · rw [← Option.some.inj h]
      · exact ih h
      · rw [← Option.some.inj h]
    | error =>
      unfold sclReadLoop at h
      split_ifs at h
      rw [← Option.some.inj h]

/-- Where something arrives and `scl_read` returns, it has taken a byte. -/
theorem sclReadLoop_of_not_ceased (hlen : length ≠ 0) (hevs : ¬ Ceased sclTimeout evs)
    (h : sclReadLoop len length got evs = some r) : got.length < r.got.length := by
  induction evs generalizing got with
  | nil => exact absurd trivial hevs
  | cons e evs ih =>
    cases e with
    | data b bs =>
      rw [sclReadLoop, if_neg hlen] at h
      split_ifs at h with hle
      · rw [← Option.some.inj h]
        simp
        omega
      · have := (sclReadLoop_extends h).length_le
        simp at this
        omega
    | again elapsed =>
      have hlt : elapsed < sclTimeout := not_le.mp fun hle => hevs (.inl hle)
      rw [sclReadLoop, if_neg hlen, if_pos hlt] at h
      exact ih (fun hrest => hevs (.inr hrest)) h
    | error =>
      rw [sclReadLoop, if_neg hlen] at h
      exact absurd h (by simp)

/-- Where nothing more arrives, `scl_read` takes nothing and fails. -/
theorem sclReadLoop_of_ceased (len : ℕ) (hlen : length ≠ 0) (got : List Byte)
    (hevs : Ceased sclTimeout evs) :
    ∃ r, sclReadLoop len length got evs = some r ∧ (r.ret = 0 ∨ r.ret = -1) ∧ r.got = got := by
  induction evs with
  | nil =>
    rw [sclReadLoop, if_neg hlen]
    exact ⟨_, rfl, .inl rfl, rfl⟩
  | cons e evs ih =>
    cases e with
    | data b bs => exact hevs.elim
    | again elapsed =>
      rw [sclReadLoop, if_neg hlen]
      split_ifs with hlt
      · exact ih (hevs.resolve_left (not_le.mpr hlt))
      · exact ⟨_, rfl, .inr rfl, rfl⟩
    | error => exact hevs.elim

variable (conn : InConn) (alloc : Bool) (junk : Memory)

/-- When nothing more arrives, `scl_read_packet` fails: the last packet and the stream stay
    as they are. -/
theorem sclReadPacket_of_ceased (h : Ceased sclTimeout evs) :
    ∃ ret evs', sclReadPacket conn alloc junk evs = some (ret, conn, evs') ∧
      stream evs' = stream evs := by
  obtain ⟨r, hread, hret, hgot⟩ := @sclReadLoop_of_ceased _ evs headerLen
    (show headerLen ≠ 0 by decide) [] h
  have hstream := sclRead_stream hread
  rw [hgot, List.nil_append] at hstream
  exact ⟨_, _, sclReadPacket_of_short hread hret, hstream⟩

/-- When something arrives and `scl_read_packet` returns, it has taken bytes off the stream. -/
theorem sclReadPacket_of_not_ceased {conn : InConn} {alloc : Bool} {junk : Memory}
    (h : ¬ Ceased sclTimeout evs) {p : ℤ × InConn × List ReadEvent}
    (hp : sclReadPacket conn alloc junk evs = some p) :
    (stream p.2.2).length < (stream evs).length := by
  cases hread : sclRead headerLen evs with
  | none => exact absurd hp (by simp [sclReadPacket_of_none hread])
  | some r =>
    have hbyte := sclReadLoop_of_not_ceased (by decide) h hread
    have hheader : (stream r.rest).length < (stream evs).length := by
      rw [← sclRead_stream hread, List.length_append]
      exact Nat.lt_add_of_pos_left hbyte
    by_cases harr : Arrives sclTimeout headerLen evs
    · have hret : r.ret = headerLen := by
        rw [sclRead_of_arrives harr] at hread
        rw [← Option.some.inj hread]
        show wrap32 (headerLen : ℕ) = (headerLen : ℤ)
        decide
      rw [sclReadPacket_of_header hread hret, Option.map_eq_some_iff] at hp
      obtain ⟨d, hd, rfl⟩ := hp
      cases alloc with
      | false => exact (stream_sclReadNull hd).symm ▸ hheader
      | true =>
        refine lt_of_le_of_lt ?_ hheader
        rw [← sclRead_stream hd, List.length_append]
        exact Nat.le_add_left _ _
    · have hret := (sclReadLoop_of_not_arrives harr hread).1
      rw [sclReadPacket_of_short hread hret] at hp
      rw [← Option.some.inj hp]
      exact hheader

/-! ## The error in the packet -/

/-- The length of a string, read as an `int`. -/
theorem intOf_lenBytes {len : ℕ} (h : len < 2 ^ 32) :
    (len < 2 ^ 31 ∧ intOf (lenBytes len) = len) ∨
      (2 ^ 31 ≤ len ∧ intOf (lenBytes len) = (len : ℤ) - 2 ^ 32) := by
  by_cases hlt : len < 2 ^ 31
  · exact Or.inl ⟨hlt, intOf_ofNat hlt⟩
  · refine Or.inr ⟨by omega, ?_⟩
    rw [lenBytes, intOf_bytesOf, BitVec.toInt_ofNat', Int.bmod_def]
    omega

variable {conn} {n : ℕ} {rest : List Byte}

/-- The `SCL_STRING` case, for a string of any length the packet can hold. From
    `2^31` characters on its length reads as negative and the terminator is written in
    front of the packet; the one that was sent is still there. -/
theorem getString_left {s : CStr} (h : conn.Left n ((Value.string (some s)).enc ++ rest))
    (hn : n < 2 ^ 32) :
    ∃ ret conn', getStringOn .plain conn = some (ret, conn') ∧
      conn'.str ret = some (normStr (some s)) := by
  have hlength := h.length
  have hnonneg := h.nonneg
  have hholds := h.holds
  simp only [Value.enc, strBytes_some, List.length_append, length_lenBytes,
    List.length_singleton] at hlength hholds
  have hfield : Holds conn.mem conn.cursor (lenBytes s.val.length) :=
    (holds_append.mp (holds_append.mp (holds_append.mp hholds).1).1).1
  have htext : Holds conn.mem (conn.cursor + 4) (s.image ++ rest) := by
    rw [List.append_assoc, List.append_assoc, holds_append] at hholds
    simpa [CStr.image] using hholds.2
  have hread : conn.readInt = some (intOf (lenBytes s.val.length),
      { conn with log := conn.log ++ [.payload conn.cursor 4] }) := by
    simp [InConn.readInt_eq, h.pdata, hfield.load (k := 4) (by simp)]
  have hint := @intOf_lenBytes s.val.length (by omega)
  generalize intOf (lenBytes s.val.length) = stringLen at hread hint
  unfold getStringOn
  simp only [InConn.readIntOn_plain, hread, Option.bind_eq_bind, Option.bind_some, InConn.advance,
    sclLenLen]
  by_cases h0 : stringLen = 0
  · have hnil : s.val = [] := List.eq_nil_of_length_eq_zero (by omega)
    rw [if_pos h0]
    exact ⟨_, _, rfl, by simp [InConn.str, normStr, hnil]⟩
  · have hne : s.val ≠ [] := by
      intro hnil
      simp [hnil] at hint
      omega
    rw [if_neg h0]
    simp only [InConn.write, h.pdata, Option.bind_some]
    refine ⟨_, _, rfl, ?_⟩
    -- the write hits the terminator, or misses the packet
    have hagree : Agree conn.mem (store conn.mem (conn.cursor + 4 + stringLen) [0])
        (conn.cursor + 4) n := by
      intro x hlo _
      rcases hint with ⟨-, hint⟩ | ⟨-, hint⟩
      · by_cases hx : x = conn.cursor + 4 + stringLen
        · have hzero : conn.mem (conn.cursor + 4 + s.val.length) = 0 :=
            holds_singleton.mp (holds_append.mp (holds_append.mp htext).1).2
          have hstore := holds_store conn.mem x [0] 0 (by simp)
          rw [← hx]
          simp only [Nat.cast_zero, add_zero, List.getElem_cons_zero] at hstore
          rw [hstore, hx, hint, hzero]
        · by_cases hlt : x < conn.cursor + 4 + stringLen
          · exact (store_eq_of_lt hlt).symm
          · exact (store_eq_of_ge (by simp; omega)).symm
      · exact (store_eq_of_ge (by simp; omega)).symm
    have hload := (htext.congr hagree (le_refl _) (by simp [CStr.image]; omega)).load
      (k := ((n : ℤ) - (conn.cursor + 4)).toNat) (by simp [CStr.image]; omega)
    simp only [InConn.str, Nat.cast_ofNat, hload]
    rw [if_pos (by simp [CStr.image]), cstrOf_image]
    simp [normStr, hne]

/-- What `scl_throw_error` sends: the number, and the text. -/
def errorArgs (errNo : BitVec 32) (errText : CStr) : List Queued := [.int errNo, .text errText]

/-- What the error handler is called with is what `scl_throw_error` was. -/
theorem getError_spec (errNo : BitVec 32) {errText : CStr}
    (hlen : (payload (errorArgs errNo errText)).length < 2 ^ 32) (junk : Memory) :
    ∃ p len conn₁ q len' conn₂,
      sclGetValue (.delivered sclFerror (errorArgs errNo errText) junk) .int false true =
        some (p, len, conn₁) ∧ conn₁.word p = some errNo ∧
      sclGetValue conn₁ .string false true = some (q, len', conn₂) ∧
      conn₂.str q = some (normStr (some errText)) := by
  have hleft := left_delivered sclFerror junk hlen
  have hpayload : payload (errorArgs errNo errText) =
      (Value.int errNo).enc ++ ((Value.string (some errText)).enc ++ []) := by
    simp [payload, errorArgs, Queued.int, Queued.text]
  rw [hpayload] at hleft
  obtain ⟨p, len, conn₁, hrun, hleft₁, -, hreads⟩ := sclGetValue_left (r := (.int, false)) hleft
    (by simp [Value.enc, Value.type, SclType.isComplex, Value.elems])
    ⟨rfl, by simp [Value.type, SclType.isComplex]⟩
  obtain ⟨q, conn₂, hstring, hstr⟩ := getString_left hleft₁ (by rw [← hpayload]; exact hlen)
  refine ⟨p, len, conn₁, q, none, conn₂, hrun, word_of_reads hleft₁ hreads, ?_, hstr⟩
  simp [sclGetValue, sclGetValueOn, SclType.isComplex, hstring]

variable {σ φ : Type}

theorem sclThrowError_sent (R : Receiver σ φ) {srv : Server σ φ} (hpending : srv.out.pending = [])
    (errNo : BitVec 32) (errText : CStr) :
    (sclThrowError R srv errNo errText).server.out.sent =
      srv.out.sent ++ [(sclFerror, errorArgs errNo errText)] := by
  unfold sclThrowError
  split_ifs <;> simp [Outcome.server, hpending, errorArgs]

/-! ## Whether the error is consumed once -/

/-- A client has read the packet that `scl_throw_error` sent in place of a return. Then
    `suva_unexpected_return` calls the error handler with that error and takes nothing
    more off the stream just when the text is not empty and nothing follows, the peer
    being gone or the wait for it running into the time-out. -/
theorem suvaUnexpectedReturn_iff (R : Receiver σ φ) {srv : Server σ φ}
    (hpending : srv.out.pending = []) (errNo : BitVec 32) (errText : CStr)
    {sent : BitVec 32 × List Queued}
    (hsent : (sclThrowError R srv errNo errText).server.out.sent = srv.out.sent ++ [sent])
    (hlen : (payload sent.2).length < 2 ^ 32) (conn : InConn) (alloc : Bool) (junk junk' : Memory)
    {evs : List ReadEvent} {rest : List Byte}
    (hstream : stream evs = packet sent.1 sent.2 ++ rest)
    (harr : Arrives sclTimeout (packet sent.1 sent.2).length evs) :
    ∃ ret conn₁ evs₁, sclReadPacket conn true junk evs = some (ret, conn₁, evs₁) ∧
      stream evs₁ = rest ∧
      ((∃ conn₂ evs₂, suvaUnexpectedReturn conn₁ alloc junk' evs₁ =
          some (some (errNo, some errText), conn₂, evs₂) ∧ stream evs₂ = stream evs₁) ↔
        errText.val ≠ [] ∧ Ceased sclTimeout evs₁) := by
  rw [sclThrowError_sent R hpending, List.append_cancel_left_eq, List.singleton_inj] at hsent
  subst hsent
  obtain ⟨ret, evs₁, hread, hrest, -⟩ := sclReadPacket_packet conn junk hstream hlen harr
  refine ⟨ret, _, evs₁, hread, hrest, ?_⟩
  by_cases hceased : Ceased sclTimeout evs₁
  · -- nothing comes, and what is decoded is the packet that has been read
    obtain ⟨ret', evs₂, hread', hkept⟩ := sclReadPacket_of_ceased
      (.delivered sclFerror (errorArgs errNo errText) junk) alloc junk' hceased
    obtain ⟨p, len, conn₁, q, len', conn₂, hint, hword, hstring, hstr⟩ :=
      getError_spec errNo hlen junk
    have hrun : suvaUnexpectedReturn (.delivered sclFerror (errorArgs errNo errText) junk) alloc
        junk' evs₁ = some (some (errNo, normStr (some errText)), conn₂, evs₂) := by
      rw [suvaUnexpectedReturn, if_pos (delivered_opcode _ _ _), hread']
      simp only [hint, hword, hstring, hstr, Option.bind_eq_bind, Option.bind_some]
    rw [hrun]
    by_cases hnil : errText.val = []
    · simp [normStr, hnil]
    · simp [normStr, hnil, hceased, hkept]
  · -- the next packet is on its way, and bytes of it are taken, or the read is the last thing done
    refine iff_of_false ?_ fun h => hceased h.2
    rintro ⟨conn₂, evs₂, hrun, hkept⟩
    rw [suvaUnexpectedReturn, if_pos (delivered_opcode _ _ _)] at hrun
    simp only [Option.bind_eq_bind, Option.bind_eq_some_iff, Option.some.injEq, Prod.mk.injEq]
      at hrun
    obtain ⟨p, hp, _, -, _, -, _, -, _, -, -, -, hevs⟩ := hrun
    have htaken := sclReadPacket_of_not_ceased hceased hp
    rw [hevs, hkept] at htaken
    exact lt_irrefl _ htaken

/-- An `SCL_FERROR` packet, as `Blank` sends it. -/
def refused : List Byte := packet sclFerror (errorArgs 5 ⟨chars "no", by decide⟩)

/-- The server hangs up behind the error. -/
theorem suvaUnexpectedReturn_last :
    ∃ ret conn₁ evs₁,
      sclReadPacket .opened true (fun _ => 0xff) (pushBack refused []) =
        some (ret, conn₁, evs₁) ∧
      ∃ conn₂ evs₂, suvaUnexpectedReturn conn₁ true (fun _ => 0) evs₁ =
        some (some (5, some ⟨chars "no", by decide⟩), conn₂, evs₂) ∧ stream evs₂ = stream evs₁ := by
  have hstream : stream (pushBack refused []) = refused ++ [] := by decide
  obtain ⟨ret, conn₁, evs₁, hread, -, hiff⟩ := suvaUnexpectedReturn_iff
    (blank : Receiver Unit Unit) (rfl : (Server.init ()).out.pending = []) 5
    ⟨chars "no", by decide⟩ rfl (by decide) .opened true (fun _ => 0xff) (fun _ => 0) hstream
    (by decide)
  have hnone : evs₁ = [] := congrArg (fun r => r.elim evs₁ fun p => p.2.2) hread.symm
  exact ⟨ret, conn₁, evs₁, hread, hiff.mpr ⟨by decide, by rw [hnone]; decide⟩⟩

/-- The reply to a later call stands behind the error: the handler is called with what
    that reply holds, and the reply is gone. -/
theorem suvaUnexpectedReturn_swallows :
    ∃ ret conn evs, sclReadPacket .opened true (fun _ => 0xff)
        (pushBack (refused ++ packet sclFreturn [.int 0, .noText]) []) = some (ret, conn, evs) ∧
      stream evs = packet sclFreturn [.int 0, .noText] ∧
      (suvaUnexpectedReturn conn true (fun _ => 0) evs).map (fun x => (x.1, stream x.2.2)) =
        some (some (0, none), []) :=
  ⟨_, _, _, rfl, by decide, by decide⟩

end CompatSuva.Local
