import CompatSuva.Scl.Arguments
import CompatSuva.Scl.WriterBuilds

/-!
# Packets between hosts of either byte order

A program on a host of either build queues values and sends them as a packet; a
program on a host of either build reads it. What it sees of the packet is a
`Delivery`: the result of `scl_read_packet`, the opcode, the length, and of each value
the count, the lengths of strings and the numbers.

* `receiveOn_packet`: what is seen of a packet whose length the host reads right:
  strings and counts are those sent, the opcode and the numbers are in the byte order
  of the host;
* `wireFormat_iff`: both builds agree on the packets without a word whose bytes read
  differently from the other end, and on no others.
-/

namespace CompatSuva.Scl

open CompatSuva.Common

variable (b : Build)

/-! ## What a program sees of a value -/

/-- What a program sees of a value it has decoded: the count of an array, the lengths
    of strings (`none` for NULL), and numbers. -/
structure Seen where
  count : Option ℤ
  strings : List (Option ℕ)
  numbers : List ℕ
  deriving DecidableEq

namespace InConn

/-- `strlen` of a pointer into the packet, if it is not NULL. -/
def stringLen (conn : InConn) (p : Option ℤ) : Option ℕ :=
  p.map fun a => strlen (load conn.mem a (((conn.pdata.getD 0 : ℕ) : ℤ) - a).toNat)

/-- The numbers at `a`, as the host reads them. -/
def numbers (conn : InConn) (a : ℤ) (len n : ℕ) : List ℕ :=
  (List.range n).map fun i => b.number (load conn.mem (a + (len * i : ℕ)) len)

/-- What a program sees behind the result `ret` of `scl_get_value`. -/
def seen (conn : InConn) (type : SclType) (ret : Ret) (arrayLen : Option ℤ) : Seen where
  count := if type.isComplex then arrayLen else none
  strings :=
    match ret with
    | .null => if type = .string then [none] else []
    | .ptr a => if type = .string then [conn.stringLen (some a)] else []
    | .table t => (conn.tables[t]?.getD []).map conn.stringLen
  numbers :=
    match ret with
    | .ptr a =>
      if type = .string then []
      else conn.numbers b a type.elemLen (type.elemCount (arrayLen.getD 0)).toNat
    | _ => []

end InConn

/-- The lengths of the strings of a value. -/
def Value.stringLens : Value → List (Option ℕ)
  | .string s => [s.map fun s => s.val.length]
  | .stringA ss => ss.map fun s => s.map fun s => s.val.length
  | _ => []

/-- What is to be seen of a value on the host of a build. -/
def Value.seen (v : Value) : Seen where
  count := if v.type.isComplex then some v.count else none
  strings := v.stringLens
  numbers := v.elements.map b.number

@[simp] theorem type_norm (v : Value) : v.norm.type = v.type := by
  cases v <;> rfl

@[simp] theorem elements_norm (v : Value) : v.norm.elements = v.elements := by
  cases v <;> rfl

/-- The elements of an array, one after the other. -/
theorem numbers_of_holds {conn : InConn} {len : ℕ} {es : List (List Byte)}
    (hes : ∀ e ∈ es, e.length = len) {a : ℤ} (h : Holds conn.mem a es.flatten) :
    conn.numbers b a len es.length = es.map b.number := by
  induction es generalizing a with
  | nil => rfl
  | cons e es ih =>
    have he : e.length = len := hes e (by simp)
    rw [List.flatten_cons, holds_append, he] at h
    have hrest := ih (fun e he => hes e (by simp [he])) h.2
    rw [InConn.numbers] at hrest ⊢
    rw [List.length_cons, List.range_succ_eq_map, List.map_cons, List.map_map, List.map_cons,
      ← hrest, Nat.mul_zero, Nat.cast_zero, add_zero, h.1.load he.symm]
    congr 1
    apply List.map_congr_left
    intro i _
    simp only [Function.comp_apply, Nat.succ_eq_add_one]
    congr 2
    push_cast
    ring

theorem stringLen_of_reads {conn : InConn} {n : ℕ} (hp : conn.pdata = some n) {p : Option ℤ}
    {s : Option CStr} {hi : ℤ} (hhi : hi ≤ n) (h : StrReads conn.mem 0 hi p s) :
    conn.stringLen p = s.map fun s => s.val.length := by
  cases s with
  | none =>
    have hp : p = none := h
    rw [hp]
    rfl
  | some s =>
    obtain ⟨a, rfl, hlo, hend, hholds⟩ := h
    obtain ⟨k, hk⟩ : ∃ k, ((n : ℤ) - a).toNat = s.image.length + k :=
      ⟨((n : ℤ) - a).toNat - s.image.length, by omega⟩
    simp only [InConn.stringLen, hp, Option.getD_some, Option.map_some, hk, load_add,
      hholds.load rfl, strlen_image]

/-- What is seen of a value that reads right. -/
theorem seen_of_reads {conn : InConn} {n : ℕ} (hp : conn.pdata = some n) {v : Value} {ret : Ret}
    {arrayLen : Option ℤ} {hi : ℤ} (hhi : hi ≤ n)
    (h : v.Reads conn.mem conn.tables 0 hi ret arrayLen) :
    conn.seen b v.type ret arrayLen = v.seen b := by
  rcases v.cases_type with ⟨s, rfl⟩ | ⟨ss, rfl⟩ | hv
  · cases s with
    | none =>
      have hret : ret = .null := h
      rw [hret]
      rfl
    | some s =>
      obtain ⟨a, rfl, hs⟩ := h
      have hreads : StrReads conn.mem 0 hi (some a) (some s) := ⟨a, rfl, hs⟩
      have hlen : conn.stringLen (some a) = some s.val.length := stringLen_of_reads hp hhi hreads
      simp only [InConn.seen, Value.seen, Value.type, if_true, hlen]
      rfl
  · obtain ⟨hn, t, ps, rfl, ht, hps⟩ := h
    have hlens : ps.map conn.stringLen = ss.map fun s => s.map fun s => s.val.length := by
      clear ht hn
      induction hps with
      | nil => rfl
      | cons hp' _ ih => rw [List.map_cons, List.map_cons, stringLen_of_reads hp hhi hp', ih]
    simp only [InConn.seen, Value.seen, Value.type, ht, Option.getD_some, hlens, hn]
    rfl
  · rw [Value.reads_flat hv] at h
    obtain ⟨hn, a, rfl, -, -, hholds⟩ := h
    have hcount : (v.type.elemCount (arrayLen.getD 0)).toNat = v.elements.length := by
      rw [Value.length_elements hv, SclType.elemCount]
      split_ifs with hc
      · rw [hn hc, Option.getD_some, Int.toNat_natCast]
      · rw [Value.count_scalar (by simpa using hc), Int.toNat_one]
    rw [← Value.flatten_elements] at hholds
    have hnumbers := numbers_of_holds b (fun e he => Value.length_of_mem_elements he) hholds
    rw [← hcount] at hnumbers
    have hstrings : v.stringLens = [] := by
      cases v with
      | string s => exact absurd rfl hv.1
      | stringA ss => exact absurd rfl hv.2
      | _ => rfl
    simp only [InConn.seen, Value.seen, if_neg hv.1, hnumbers, hstrings, Seen.mk.injEq, and_true]
    split_ifs with hc
    · exact hn hc
    · rfl

/-- Both builds see the same of a value if its numbers read the same in both orders. -/
theorem seen_eq_iff (v : Value) :
    v.seen .bigEndian = v.seen .plain ↔ ∀ e ∈ v.elements, Build.Palindrome e := by
  simp only [Value.seen, Seen.mk.injEq, true_and, List.map_inj_left]
  refine forall₂_congr fun e _ => ?_
  rw [Build.number, Build.number, Build.order_bigEndian, Build.order_plain,
    leNat_inj e.length_reverse, Build.Palindrome]

/-! ## Receiving -/

/-- What a program sees of a packet. -/
structure Delivery where
  ret : ℤ
  opcode : BitVec 32
  length : Option ℕ
  values : List Seen
  deriving DecidableEq

/-- `scl_read_packet` and the calls of `scl_get_value`. -/
def receiveOn (conn : InConn) (junk : Memory) (evs : List ReadEvent) (rs : List Request) :
    Option Delivery := do
  let (ret, conn, _) ← sclReadPacketOn b conn true junk evs
  let (rets, conn') ← getValuesOn b conn rs
  some
    { ret := ret
      opcode := conn.inPacketOpcode
      length := conn.pdata
      values := List.zipWith (fun r a => conn'.seen b r.1 a.1 a.2) rs rets }

theorem headerWordOn_packetHeader_zero (opcode : BitVec 32) (len : ℕ) :
    headerWordOn b (packetHeader opcode len) 0 = b.swapField opcode := by
  have h : ((packetHeader opcode len).drop (4 * 0)).take 4 = bytesOf opcode := by
    simp [packetHeader]
  rw [headerWordOn, h, Build.swapField, b.swapImage_image]

theorem headerWordOn_packetHeader_three (opcode : BitVec 32) (len : ℕ) :
    headerWordOn b (packetHeader opcode len) 3 = b.swapField (BitVec.ofNat 32 len) := by
  have hpre : (bytesOf opcode ++ lenBytes 0 ++ lenBytes 0).length = 4 * 3 := by simp
  have h : ((packetHeader opcode len).drop (4 * 3)).take 4 = lenBytes len := by
    rw [packetHeader, List.drop_left' hpre, List.take_of_length_le (by simp)]
  rw [headerWordOn, h, lenBytes, Build.swapField, b.swapImage_image]

variable {opcode : BitVec 32} {qs : List Queued} {evs : List ReadEvent} {rest : List Byte}

theorem sclRead_header (hstream : stream evs = packet opcode qs ++ rest)
    (harr : Arrives sclTimeout headerLen evs) :
    sclRead headerLen evs =
      some ⟨headerLen, packetHeader opcode (payload qs).length, dropBytes headerLen evs⟩ := by
  have hret : wrap32 (headerLen : ℕ) = (headerLen : ℤ) := by decide
  rw [sclRead_of_arrives harr, hret, hstream, packet_eq, List.append_assoc,
    List.take_left' (by simp [packetHeader, headerLen])]

/-- The opcode and the length that are read from a header. -/
theorem sclReadPacketOn_header (hstream : stream evs = packet opcode qs ++ rest)
    (harr : Arrives sclTimeout headerLen evs) {conn : InConn} {junk : Memory}
    {r : ℤ × InConn × List ReadEvent} (h : sclReadPacketOn b conn true junk evs = some r) :
    r.2.1.inPacketOpcode = b.swapField opcode ∧
      r.2.1.pdata = some (b.swapField (BitVec.ofNat 32 (payload qs).length)).toNat := by
  have hopcode := headerWordOn_packetHeader_zero b opcode (payload qs).length
  have hlen := headerWordOn_packetHeader_three b opcode (payload qs).length
  rw [sclReadPacketOn_of_header b (sclRead_header hstream harr) rfl, Option.map_eq_some_iff] at h
  obtain ⟨d, -, rfl⟩ := h
  exact ⟨hopcode, congrArg (fun v => some (BitVec.toNat v)) hlen⟩

/-- A host that reads the length right reads the packet as the other one does, but for
    the opcode. -/
theorem sclReadPacketOn_eq (hstream : stream evs = packet opcode qs ++ rest)
    (harr : Arrives sclTimeout headerLen evs) (conn : InConn) (junk : Memory)
    (hlen : b.swapField (BitVec.ofNat 32 (payload qs).length) =
      BitVec.ofNat 32 (payload qs).length) :
    sclReadPacketOn b conn true junk evs = (sclReadPacket conn true junk evs).map fun r =>
      (r.1, { r.2.1 with inPacketOpcode := b.swapField opcode }, r.2.2) := by
  have hopcode := headerWordOn_packetHeader_zero b opcode (payload qs).length
  have hword : headerWordOn b (packetHeader opcode (payload qs).length) 3 =
      headerWord (packetHeader opcode (payload qs).length) 3 := by
    rw [headerWordOn_packetHeader_three, headerWord_packetHeader_three, hlen]
  have hread := sclRead_header hstream harr
  rw [sclReadPacketOn_of_header b hread rfl, sclReadPacket_of_header hread rfl, Option.map_map]
  simp only [hword, hopcode, InConn.newPacketOn, InConn.newPacket_eq, Function.comp_def]

/-- What is seen of values that all read right. -/
theorem seen_values {conn : InConn} {n : ℕ} (hp : conn.pdata = some n) {lo hi : ℤ} (hlo : 0 ≤ lo)
    (hhi : hi ≤ n) {vs : List Value} {rs : List Request} {rets : List (Ret × Option ℤ)}
    (hrs : List.Forall₂ Asks vs rs)
    (h : List.Forall₂ (fun v a => v.norm.Reads conn.mem conn.tables lo hi a.1 a.2) vs rets) :
    List.zipWith (fun r a => conn.seen b r.1 a.1 a.2) rs rets = vs.map fun v => v.norm.seen b := by
  induction hrs generalizing rets with
  | nil =>
    cases h
    rfl
  | @cons v r vs rs hr _ ih =>
    cases h with
    | @cons _ a _ rets ha hrets =>
      have hreads : v.norm.Reads conn.mem conn.tables 0 hi a.1 a.2 :=
        ha.congr (fun _ _ _ => rfl) (List.prefix_refl _) hlo (le_refl _)
      have hseen := seen_of_reads b hp hhi hreads
      rw [type_norm, ← hr.1] at hseen
      rw [List.zipWith_cons_cons, List.map_cons, hseen, ih hrets]

/-- What is seen of a packet by the hosts that read its length right. -/
theorem receiveOn_packet (hstream : stream evs = packet opcode qs)
    (hlen : (payload qs).length < 2 ^ 31) (htimely : ∀ e ∈ evs, e.Timely sclTimeout)
    {rs : List Request} (hrs : List.Forall₂ Asks (qs.map Queued.value) rs) (conn : InConn)
    (junk : Memory) :
    ∃ ret, ∀ b : Build, b.swapField (BitVec.ofNat 32 (payload qs).length) =
        BitVec.ofNat 32 (payload qs).length →
      receiveOn b conn junk evs rs = some ⟨ret, b.swapField opcode, some (payload qs).length,
        qs.map fun q => q.value.norm.seen b⟩ := by
  have hstream' : stream evs = packet opcode qs ++ [] := by rw [hstream, List.append_nil]
  have harr : Arrives sclTimeout (packet opcode qs).length evs :=
    arrives_of_timely htimely (by rw [hstream])
  obtain ⟨ret, evs', hread, -⟩ := sclReadPacket_packet conn junk hstream' (by omega) harr
  have hheader : Arrives sclTimeout headerLen evs := by
    rw [length_packet] at harr
    exact (arrives_add.mp harr).1
  refine ⟨ret, fun b hword => ?_⟩
  have heq := sclReadPacketOn_eq b hstream' hheader conn junk hword
  rw [hread, Option.map_some] at heq
  have hleft : (InConn.delivered opcode qs junk).Left (payload qs).length (payload qs) :=
    left_delivered opcode junk (by omega)
  have hshort : ∀ v ∈ qs.map Queued.value, v.enc.length < 2 ^ 31 + 4 := by
    intro v hv
    obtain ⟨q, hq, rfl⟩ := List.mem_map.mp hv
    have := enc_length_le_payload hq
    omega
  let conn₁ : InConn := { InConn.delivered opcode qs junk with
      inPacketOpcode := b.swapField opcode }
  have hholds : Holds conn₁.mem conn₁.cursor ((qs.map Queued.value).flatMap Value.enc) := by
    rw [← payload_eq]
    exact hleft.holds
  obtain ⟨rets, conn₂, hrun, hdec, hreads⟩ :=
    @getValuesOn_enc b conn₁ _ _ _ hleft.pdata hholds hshort hrs
  have hcur : conn₂.cursor ≤ ((payload qs).length : ℕ) := by
    rw [hdec.cursor, ← payload_eq]
    simp [conn₁, InConn.delivered, InConn.received, InConn.newPacket_eq]
  have hp₂ : conn₂.pdata = some (payload qs).length := hdec.pdata.trans hleft.pdata
  rw [receiveOn, heq, Option.bind_eq_bind, Option.bind_some]
  show (getValuesOn b conn₁ rs).bind _ = _
  rw [hrun]
  show some (Delivery.mk ret (b.swapField opcode) (InConn.delivered opcode qs junk).pdata _) = _
  rw [hleft.pdata, seen_values b hp₂ hleft.nonneg hcur hrs hreads, List.map_map]
  rfl

/-! ## The two builds -/

variable {ι : Type} [DecidableEq ι]

/-- After some calls in a build, on connections that were just opened, these values are
    queued on `c`, to be sent with `opcode`. -/
def Ready (w : Writer ι) (c : ι) (opcode : BitVec 32) (qs : List Queued) : Prop :=
  ∃ w₀ core opcode₀ sched ops A, Writer.Opened w₀ core opcode₀ sched ∧ AllFreshOn b w₀ ops ∧
    w₀.runOn b ops = some w ∧ A = ops.foldl (Outbox.stepOn b) (Outbox.opened opcode₀) ∧
    A.opcode c = opcode ∧ A.pending c = qs

/-- What the two builds make of a packet is the same: `scl_write_out` puts the same
    bytes on the stream and leaves the values of the caller and `out_packet_opcode` as
    they were, and however the bytes come in, programs on both hosts see the same. -/
def SameFormat (w w' : Writer ι) (c c' : ι) (opcode : BitVec 32) (qs qs' : List Queued) : Prop :=
  ∃ w₁ w₁' bytes, sclWriteOutOn .plain w c = some (w₁, qs.map Queued.object) ∧
    sclWriteOutOn .bigEndian w' c' = some (w₁', qs'.map Queued.object) ∧
    (w₁.conns c).out = (w.conns c).out ++ bytes ∧
    (w₁'.conns c').out = (w'.conns c').out ++ bytes ∧
    (w₁.conns c).outPacketOpcode = opcode ∧ (w₁'.conns c').outPacketOpcode = opcode ∧
    ∀ evs conn junk rs, stream evs = bytes → (∀ e ∈ evs, e.Timely sclTimeout) →
      List.Forall₂ Asks (Build.values .plain qs) rs →
      ∃ d, receiveOn .plain conn junk evs rs = some d ∧
        receiveOn .bigEndian conn junk evs rs = some d

variable {w w' : Writer ι} {c c' : ι} {qs' : List Queued}

theorem packetOf_plain (opcode : BitVec 32) (qs : List Queued) :
    packetOf opcode (Build.values .plain qs) = packet opcode qs := by
  rw [packet, payload_eq]
  rfl

/-- What `scl_write_out` does in either build with the values that are queued. -/
theorem Ready.writeOut (h : Ready b w c opcode qs) (hlen : (payload qs).length < 2 ^ 31) :
    ∃ w₁, sclWriteOutOn b w c = some (w₁, qs.map Queued.object) ∧
      (w₁.conns c).outPacketOpcode = b.swapField opcode ∧
      (w₁.conns c).out = (w.conns c).out ++ packetOf opcode (b.values qs) := by
  obtain ⟨w₀, core, opcode₀, sched, ops, A, h₀, hops, hrun, rfl, rfl, rfl⟩ := h
  obtain ⟨w', hrun', hrefines⟩ := runOn_refines b h₀.refines hops
  obtain rfl : w = w' := Option.some.inj (hrun.symm.trans hrun')
  obtain ⟨w₁, hstep, -, hopcode, hout⟩ := writeOutOn_packet b hrefines c
  refine ⟨w₁, hstep, hopcode, hout fun q hq => ?_⟩
  have := enc_length_le_payload hq
  omega

/-- Bytes that come in one by one. -/
theorem stream_bytewise (bs : List Byte) : stream (bs.map fun v => .data v []) = bs := by
  induction bs with
  | nil => rfl
  | cons v bs ih => rw [List.map_cons, stream_cons, ih, ReadEvent.bytes, List.singleton_append]

/-- The calls that ask for the values. -/
theorem asks_of_types (vs : List Value) :
    List.Forall₂ Asks vs (vs.map fun v => (v.type, v.type.isComplex)) := by
  rw [List.forall₂_map_right_iff]
  exact List.forall₂_same.mpr fun v _ => ⟨rfl, fun hc => hc⟩

/-- The opcode of the connection after the packet. -/
theorem sameFormat_opcode (h : SameFormat w w' c c' opcode qs qs')
    (hbig : Ready .bigEndian w' c' opcode qs') (hlen : (payload qs').length < 2 ^ 31) :
    Build.Palindrome (bytesOf opcode) := by
  obtain ⟨w₁, w₁', bytes, -, hstep', -, -, -, hopcode', -⟩ := h
  obtain ⟨w₂, hstep₂, hopcode₂, -⟩ := hbig.writeOut .bigEndian hlen
  have hw : w₁' = w₂ := congrArg Prod.fst (Option.some.inj (hstep'.symm.trans hstep₂))
  rw [hw, hopcode₂, swapField_bigEndian] at hopcode'
  exact (swapWord_eq_iff (by decide) opcode).mp hopcode'

/-- Both builds read the length right when it reads the same in both orders. -/
theorem swapField_length {len : ℕ} (h : Build.Palindrome (lenBytes len)) :
    b.swapField (BitVec.ofNat 32 len) = BitVec.ofNat 32 len := by
  cases b with
  | plain => exact swapField_plain (by decide) _
  | bigEndian => rw [swapField_bigEndian, swapWord_eq_iff (by decide)]; exact h

theorem receiveOn_length {conn : InConn} {junk : Memory} {rs : List Request} {d : Delivery}
    (h : receiveOn b conn junk evs rs = some d) :
    ∃ r, sclReadPacketOn b conn true junk evs = some r ∧ d.length = r.2.1.pdata := by
  simp only [receiveOn, Option.bind_eq_bind, Option.bind_eq_some_iff] at h
  obtain ⟨r, hread, rets, -, hd⟩ := h
  exact ⟨r, hread, by rw [← Option.some.inj hd]⟩

/-- A packet of which both hosts see the same. -/
theorem palindromes_of_receiveOn (hstream : stream evs = packet opcode qs)
    (hlen : (payload qs).length < 2 ^ 31) (htimely : ∀ e ∈ evs, e.Timely sclTimeout)
    {rs : List Request} (hrs : List.Forall₂ Asks (qs.map Queued.value) rs) {conn : InConn}
    {junk : Memory} {d : Delivery} (hplain : receiveOn .plain conn junk evs rs = some d)
    (hbig : receiveOn .bigEndian conn junk evs rs = some d) :
    Build.Palindrome (lenBytes (payload qs).length) ∧
      ∀ q ∈ qs, ∀ e ∈ q.value.elements, Build.Palindrome e := by
  obtain ⟨ret, hseenOn⟩ := receiveOn_packet hstream hlen htimely hrs conn junk
  have hread := hseenOn .plain (swapField_plain (by decide) _)
  rw [hplain] at hread
  have hheader : Arrives sclTimeout headerLen evs := by
    apply arrives_of_timely htimely
    rw [hstream, length_packet]
    omega
  have hpal : Build.Palindrome (lenBytes (payload qs).length) := by
    obtain ⟨r, hr, hlength⟩ := receiveOn_length .bigEndian hbig
    have hstream' : stream evs = packet opcode qs ++ [] := by rw [hstream, List.append_nil]
    rw [(sclReadPacketOn_header .bigEndian hstream' hheader hr).2, Option.some.inj hread,
      Option.some.injEq, swapField_bigEndian] at hlength
    rw [lenBytes, ← swapWord_eq_iff (by decide)]
    apply BitVec.eq_of_toNat_eq
    rw [← hlength, BitVec.toNat_ofNat, Nat.mod_eq_of_lt (by omega)]
  refine ⟨hpal, fun q hq => ?_⟩
  have hread' := hseenOn .bigEndian (swapField_length _ hpal)
  rw [hbig, hread, Option.some.injEq, Delivery.mk.injEq, List.map_inj_left] at hread'
  have hseen := (seen_eq_iff q.value.norm).mp (hread'.2.2.2 q hq).symm
  rwa [elements_norm] at hseen

/-- For every packet: the wire format is that of the other build when the opcode, the
    length of the payload and every number in it read the same in both byte orders,
    and only then. -/
theorem wireFormat_iff (hplain : Ready .plain w c opcode qs)
    (hbig : Ready .bigEndian w' c' opcode qs')
    (hvs : Build.values .bigEndian qs' = Build.values .plain qs)
    (hlen : (payload qs).length < 2 ^ 31) :
    SameFormat w w' c c' opcode qs qs' ↔
      Build.Palindrome (bytesOf opcode) ∧ Build.Palindrome (lenBytes (payload qs).length) ∧
        ∀ q ∈ qs, ∀ e ∈ q.value.elements, Build.Palindrome e := by
  have hlen' : (payload qs').length < 2 ^ 31 := by
    rw [← length_payload_values .bigEndian, hvs, length_payload_values]
    exact hlen
  obtain ⟨w₁, hstep, hopcode, hout⟩ := hplain.writeOut .plain hlen
  obtain ⟨w₁', hstep', hopcode', hout'⟩ := hbig.writeOut .bigEndian hlen'
  rw [hvs, packetOf_plain] at hout'
  rw [packetOf_plain] at hout
  constructor
  · intro h
    have hop := sameFormat_opcode h hbig hlen'
    obtain ⟨w₂, w₂', bytes, hstep₂, -, hout₂, -, -, -, hseen⟩ := h
    have hw : w₁ = w₂ := congrArg Prod.fst (Option.some.inj (hstep.symm.trans hstep₂))
    rw [← hw, hout, List.append_cancel_left_eq] at hout₂
    subst hout₂
    -- the bytes come in one by one
    have hstream := stream_bytewise (packet opcode qs)
    have htimely : ∀ e ∈ (packet opcode qs).map fun v => ReadEvent.data v [],
        e.Timely sclTimeout := by
      intro e he
      obtain ⟨v, -, rfl⟩ := List.mem_map.mp he
      trivial
    have hrs := asks_of_types (qs.map Queued.value)
    obtain ⟨d, hd, hd'⟩ := hseen _ InConn.opened (fun _ => 0) _ hstream htimely hrs
    exact ⟨hop, palindromes_of_receiveOn hstream hlen htimely hrs hd hd'⟩
  · rintro ⟨hop, hpal, hnumbers⟩
    have hplain_op : Build.plain.swapField opcode = opcode := swapField_plain (by decide) _
    have hbig_op : Build.bigEndian.swapField opcode = opcode := by
      rw [swapField_bigEndian, swapWord_eq_iff (by decide)]
      exact hop
    refine ⟨w₁, w₁', packet opcode qs, hstep, hstep', hout, hout', hopcode.trans hplain_op,
      hopcode'.trans hbig_op, fun evs conn junk rs hstream htimely hrs => ?_⟩
    obtain ⟨ret, hseenOn⟩ := receiveOn_packet hstream hlen htimely hrs conn junk
    have hread := hseenOn .plain (swapField_length _ hpal)
    have hread' := hseenOn .bigEndian (swapField_length _ hpal)
    have hseen : (qs.map fun q => q.value.norm.seen .bigEndian) =
        qs.map fun q => q.value.norm.seen .plain := by
      apply List.map_congr_left
      intro q hq
      rw [seen_eq_iff, elements_norm]
      exact hnumbers q hq
    refine ⟨_, hread, ?_⟩
    rw [hread', hplain_op, hbig_op, hseen]

/-- Two values have been queued, to be sent with some opcode. -/
theorem ready_two (opcode : BitVec 32) (q q' : Queued) :
    ∃ w, Ready b w (0 : Fin 2) opcode [q, q'] := by
  have hfresh : AllFreshOn b twoOpened [.opcode 0 opcode, .queue 0 q 48, .queue 0 q' 64] := by
    refine ⟨trivial, fun w₁ hstep₁ => ⟨⟨by decide, ?_⟩, fun w₂ hstep₂ => ⟨⟨by decide, ?_⟩,
      fun _ _ => trivial⟩⟩⟩
    · rw [← Option.some.inj hstep₁]
      rfl
    · rw [← Option.some.inj hstep₁] at hstep₂
      rw [← Option.some.inj hstep₂]
      rfl
  obtain ⟨w, hrun, -⟩ := runOn_refines b twoOpened_opened.refines hfresh
  exact ⟨w, twoOpened, _, _, _, _, _, twoOpened_opened, hfresh, hrun, rfl, rfl, rfl⟩

/-- The payload of a number and `n` zeros. -/
theorem length_payload_int_zeros (v : BitVec 32) (n : ℕ) :
    (payload [.int v, .zeros n]).length = 8 + n := by
  simp only [payload, Queued.int, Queued.zeros, List.flatMap_cons, List.flatMap_nil, Value.enc,
    Value.type, SclType.isComplex, Value.elems, Value.count, if_true, Bool.false_eq_true, if_false,
    List.length_append, List.length_nil, List.length_replicate, length_lenBytes, length_bytesOf]
  omega

/-- The number 0x05070705 and a payload of 0x00010100 bytes, with the opcode 0x05000005: all
    read the same from either end, and the format is the same. -/
theorem wireFormat_iff_even : ∃ w w' : Writer (Fin 2),
    Ready .plain w 0 0x05000005 [.int 0x05070705, .zeros 65784] ∧
    Ready .bigEndian w' 0 0x05000005 [.int 0x05070705, .zeros 65784] ∧
    SameFormat w w' 0 0 0x05000005 [.int 0x05070705, .zeros 65784]
      [.int 0x05070705, .zeros 65784] := by
  obtain ⟨w, hplain⟩ := ready_two .plain 0x05000005 (.int 0x05070705) (.zeros 65784)
  obtain ⟨w', hbig⟩ := ready_two .bigEndian 0x05000005 (.int 0x05070705) (.zeros 65784)
  have hvalues : Build.values .bigEndian [.int 0x05070705, .zeros 65784] =
      Build.values .plain [.int 0x05070705, .zeros 65784] := by
    have hswap : swapWord (0x05070705 : BitVec 32) = 0x05070705 := by decide
    exact congrArg (fun v => [Value.int v, .data (List.replicate 65784 0)]) hswap
  have hlen := length_payload_int_zeros 0x05070705 65784
  refine ⟨w, w', hplain, hbig, (wireFormat_iff hplain hbig hvalues ?_).mpr ⟨?_, ?_, ?_⟩⟩
  · rw [hlen]
    decide
  · show List.reverse _ = _
    decide
  · rw [hlen]
    show List.reverse _ = _
    decide
  · intro q hq e he
    rcases List.mem_cons.mp hq with rfl | hq
    · rw [List.mem_singleton.mp he]
      show List.reverse _ = _
      decide
    · rw [List.mem_singleton.mp hq] at he
      obtain ⟨v, -, rfl⟩ := List.mem_map.mp he
      rfl

/-- An `SCL_INT` has been queued, to be sent with opcode 5. -/
theorem ready_int (v : BitVec 32) : ∃ w, Ready b w (0 : Fin 2) 5 [.int v] := by
  have hfresh : AllFreshOn b twoOpened [.opcode 0 5, .queue 0 (.int v) 48] := by
    refine ⟨trivial, fun w' hstep => ⟨⟨by decide, ?_⟩, fun _ _ => trivial⟩⟩
    rw [← Option.some.inj hstep]
    rfl
  obtain ⟨w, hrun, -⟩ := runOn_refines b twoOpened_opened.refines hfresh
  exact ⟨w, twoOpened, _, _, _, _, _, twoOpened_opened, hfresh, hrun, rfl, rfl, rfl⟩

/-- The packet with the number 7 and opcode 5. -/
theorem wireFormat_differs :
    ∃ w w' : Writer (Fin 2), Ready .plain w 0 5 [.int 7] ∧
      Ready .bigEndian w' 0 5 [.int (swapWord 7)] ∧
      Build.values .bigEndian [.int (swapWord 7)] = Build.values .plain [.int 7] ∧
      ¬ SameFormat w w' 0 0 5 [.int 7] [.int (swapWord 7)] := by
  obtain ⟨w, hplain⟩ := ready_int .plain 7
  obtain ⟨w', hbig⟩ := ready_int .bigEndian (swapWord 7)
  refine ⟨w, w', hplain, hbig, ?_, fun h => ?_⟩
  · exact congrArg (fun v => [Value.int v]) (swapWord_swapWord (by decide) 7)
  · have hpal : List.reverse (bytesOf (5 : BitVec 32)) = bytesOf (5 : BitVec 32) :=
      sameFormat_opcode h hbig (by decide)
    revert hpal
    decide

end CompatSuva.Scl
