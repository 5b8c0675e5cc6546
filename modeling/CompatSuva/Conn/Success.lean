import CompatSuva.Conn.Runs

/-!
# A connection that opens

The specifications of the steps say what holds if they return. Here they do: when
the allocations succeed and `suvad` sends the two messages that it should,
`open_suva_conn` returns the connection (`openSuvaConn_returns`), with an element
to fill.
-/

namespace CompatSuva.Conn

open CompatSuva.Common CompatSuva.Scl
open CompatSuva.Mem (Malloc MemState Registry Tracked)

/-! ## The answers of `suvad` -/

/-- The first of the two values of a message, an `SCL_INT` and an `SCL_STRING`, with
    the reader behind both. -/
def firstOfTwo (reader : InConn) : Option (BitVec 32 × InConn) := do
  let (ret, _, reader) ← sclGetValue reader .int false false
  let v ← reader.word ret
  let (_, _, reader) ← sclGetValue reader .string false false
  some (v, reader)

/-- The next packet is a message with the code `code`; the reader and what comes then. -/
def codeIs (code : BitVec 32) (junk : Memory) (reader : InConn) (evs : List ReadEvent) :
    Option (InConn × List ReadEvent) := do
  let header ← sclRead headerLen evs
  let (ret, reader, rest) ← sclReadPacket reader true junk evs
  let (v, reader) ← firstOfTwo reader
  if header.ret = headerLen ∧ 0 < ret ∧ v = code then some (reader, rest) else none

/-- `suvad` answers as it should. -/
def accepted (junk : ℕ → Memory) (reader : InConn) (evs : List ReadEvent) :
    Option (InConn × List ReadEvent) := do
  let (reader, evs) ← codeIs srcConnect (junk 0) reader evs
  codeIs srcConnected (junk 1) reader evs

variable {wide : Byte → ℕ → BitVec 32} {p : Process} {A : Registry} {c : Addr} {conn : SuvaConn}

/-! ## The steps -/

variable (wide) in
/-- The connection `conn` is at `c`, with an element to fill. -/
def Held (c : Addr) (conn : SuvaConn) (p : Process) : Prop :=
  ∃ A, Inv wide p A ∧ p.conns.get c = some conn ∧ (p.writer.conns c).outCurEle ≠ 0

namespace Held

theorem setOpcode (h : Held wide c conn p) (opcode : BitVec 32) :
    Post (fun _ => False) (Held wide c conn) (p.setOpcode wide c opcode) := by
  obtain ⟨A, hinv, hc, hcur⟩ := h
  obtain ⟨p', hrun, hinv', -, hconns, hcur'⟩ := setOpcode_spec hinv hc opcode
  rw [hrun]
  exact ⟨A, hinv', hconns ▸ hc, hcur' ▸ hcur⟩

theorem queueValue (h : Held wide c conn p) (q : Queued) {m : Option (Malloc × Malloc)}
    (hm : m ≠ none) : Post (fun _ => False) (Held wide c conn) (p.queueValue wide c q m) := by
  obtain ⟨A, hinv, hc, hcur⟩ := h
  obtain ⟨p', A', hrun, hinv', -, hconns, hcur'⟩ := queueValue_spec hinv hc hcur q m
  rw [hrun]
  exact ⟨A', hinv', hconns ▸ hc, fun h0 => hm (hcur'.mp h0)⟩

theorem queueFour (h : Held wide c conn p) (q₀ q₁ q₂ q₃ : Queued) {ms : Mallocs}
    (hm : ∀ i, ms.element i ≠ none) :
    Post (fun _ => False) (Held wide c conn) (p.queueFour wide c q₀ q₁ q₂ q₃ ms) := by
  unfold Process.queueFour
  apply Post.bind (h.queueValue q₀ (hm 0))
  intro p₁ h₁
  apply Post.bind (h₁.queueValue q₁ (hm 1))
  intro p₂ h₂
  apply Post.bind (h₂.queueValue q₂ (hm 2))
  intro p₃ h₃
  exact h₃.queueValue q₃ (hm 3)

theorem writeOut (h : Held wide c conn p) :
    Post (fun _ => False) (Held wide c conn) (p.writeOut wide c) := by
  obtain ⟨A, hinv, hc, hcur⟩ := h
  obtain ⟨p', A', hrun, hinv', -, hc', hcur', -⟩ := writeOut_spec hinv hc
  rw [hrun]
  exact ⟨A', hinv', hc', hcur' ▸ hcur⟩

theorem freePacketMem (h : Held wide c conn p) :
    Post (fun _ => False) (Held wide c conn) (p.freePacketMem wide c) := by
  obtain ⟨A, hinv, hc, hcur⟩ := h
  obtain ⟨p', A', hrun, hinv', -, hconns, hwriter, -⟩ := freePacketMem_spec hinv hc
  rw [hrun]
  exact ⟨A', hinv', hconns ▸ hc, hwriter ▸ hcur⟩

theorem readPacket (h : Held wide c conn p) {m : Option (Malloc × Malloc)} (hm : m ≠ none)
    {junk : Memory} {header : ReadOut} (hheader : sclRead headerLen conn.evs = some header)
    (hlen : header.ret = headerLen) {r : ℤ × InConn × List ReadEvent}
    (hread : sclReadPacket conn.reader true junk conn.evs = some r) :
    Post (fun _ => False) (fun r' => r'.1 = r.1 ∧
      Held wide c { conn with reader := r.2.1, evs := r.2.2 } r'.2)
        (p.readPacket wide c m junk) := by
  obtain ⟨A, hinv, hc, hcur⟩ := h
  obtain ⟨p₁, A₁, alloc, hinv₁, -, hwriter, hconns₁, halloc, hrun⟩ := readPacket_spec hinv hc m junk
  obtain ⟨hinv₂, -⟩ := setConn_spec hinv₁ (hconns₁ ▸ hc) r.2.1 r.2.2
  rw [hrun, halloc header hheader hlen hm, hread, orFault_some, ok_bind]
  exact ⟨rfl, A₁, hinv₂, Heap.get_set _ _ _, hwriter ▸ hcur⟩

/-- A value that needs no table. -/
theorem getValue (h : Held wide c conn p) {type : SclType} (htype : type ≠ .stringA)
    {r : Ret × Option ℤ × InConn} (hval : sclGetValue conn.reader type false false = some r) :
    Post (fun _ => False) (fun r' => r'.1 = r.1 ∧ Held wide c { conn with reader := r.2.2 } r'.2)
      (p.getValue wide c type false none) := by
  obtain ⟨A, hinv, hc, hcur⟩ := h
  have hno : ¬ (type = .stringA ∧ false = true) := fun hA => htype hA.1
  simp only [Process.getValue, hinv.conn_ok hc, ok_bind, if_neg hno, ne_eq, not_true, decide_false,
    hval, orFault_some]
  obtain ⟨hinv', -⟩ := setConn_spec hinv hc r.2.2 conn.evs
  exact ⟨rfl, A, hinv', Heap.get_set _ _ _, hcur⟩

theorem message (h : Held wide c conn p) {v : BitVec 32} {reader : InConn}
    (hfirst : firstOfTwo conn.reader = some (v, reader)) :
    Post (fun _ => False) (fun r => r.1 = v ∧ Held wide c { conn with reader := reader } r.2)
      (p.message wide c) := by
  unfold firstOfTwo at hfirst
  simp only [Option.bind_eq_bind, Option.bind_eq_some_iff, Prod.exists] at hfirst
  obtain ⟨ret, n, reader₁, hint, v', hword, ret', n', reader₂, hstring, heq⟩ := hfirst
  obtain ⟨rfl, rfl⟩ := Prod.mk.inj (Option.some.inj heq)
  unfold Process.message Process.getInt
  apply Post.bind (Q := fun r => r.1 = v' ∧ Held wide c { conn with reader := reader₁ } r.2)
  · apply Post.bind (h.getValue (by simp) hint)
    rintro ⟨ret₁, p₁⟩ ⟨hret, h₁⟩
    obtain ⟨A₁, hinv₁, hc₁, -⟩ := id h₁
    simp only at hret
    simp only [hinv₁.conn_ok hc₁, ok_bind, hret, hword, orFault_some]
    exact ⟨rfl, h₁⟩
  · rintro ⟨v₁, p₁⟩ ⟨hv, h₁⟩
    apply Post.bind (h₁.getValue (by simp) hstring)
    rintro ⟨ret₂, p₂⟩ ⟨-, h₂⟩
    exact ⟨hv, h₂⟩

/-- A packet with a message. -/
theorem answer {β : Type} {Q : β → Prop} {code : BitVec 32} (h : Held wide c conn p)
    {m : Option (Malloc × Malloc)} (hm : m ≠ none) {junk : Memory} {reader : InConn}
    {evs : List ReadEvent} (hcode : codeIs code junk conn.reader conn.evs = some (reader, evs))
    {f : ℤ × Process → Except Fault β}
    (hf : ∀ bytes p₁, 0 < bytes → Post (fun _ => False)
      (fun r => r.1 = code ∧ Held wide c { conn with reader := reader, evs := evs } r.2)
      (p₁.message wide c) → Post (fun _ => False) Q (f (bytes, p₁))) :
    Post (fun _ => False) Q (p.readPacket wide c m junk >>= f) := by
  unfold codeIs at hcode
  simp only [Option.bind_eq_bind, Option.bind_eq_some_iff, Prod.exists] at hcode
  obtain ⟨header, hheader, ret, reader₁, rest, hread, v, reader', hfirst, hif⟩ := hcode
  split_ifs at hif with hok
  obtain ⟨hlen, hpos, rfl⟩ := hok
  obtain ⟨rfl, rfl⟩ := Prod.mk.inj (Option.some.inj hif)
  apply Post.bind (h.readPacket hm hheader hlen hread)
  rintro ⟨bytes, p₁⟩ ⟨hbytes, h₁⟩
  simp only at hbytes
  exact hf bytes p₁ (by rwa [hbytes]) (h₁.message hfirst)

end Held

/-! ## The whole -/

/-- The exchange with `suvad` succeeds. -/
theorem handshake_returns (h : Held wide c conn p) (fd : ℕ) {o : Opening}
    (hel : ∀ i, o.mallocs.element i ≠ none) (hpk : ∀ i, o.mallocs.packet i ≠ none)
    (hacc : (accepted o.mallocs.junk conn.reader conn.evs).isSome) :
    Post (fun _ => False) (fun r => r.1 = some c ∧ ∃ conn', Held wide c conn' r.2)
      (p.handshake wide c fd o) := by
  obtain ⟨⟨reader₂, evs₂⟩, hacc⟩ := Option.isSome_iff_exists.mp hacc
  unfold accepted at hacc
  simp only [Option.bind_eq_bind, Option.bind_eq_some_iff, Prod.exists] at hacc
  obtain ⟨reader₁, evs₁, hconnect, hconnected⟩ := hacc
  unfold Process.handshake
  apply Post.bind (h.setOpcode sclOconn)
  intro p₁ h₁
  apply Post.bind (h₁.queueFour _ _ _ _ hel)
  intro p₂ h₂
  apply Post.bind h₂.writeOut
  intro p₃ h₃
  apply h₃.answer (hpk 0) hconnect
  intro bytes p₄ hpos h₄
  simp only [if_neg (not_le.mpr hpos)]
  apply Post.bind h₄
  rintro ⟨returnNo, p₅⟩ ⟨rfl, h₅⟩
  simp only [ne_eq, not_true, if_false]
  apply h₅.answer (hpk 1) hconnected
  intro bytes' p₆ _ h₆
  apply Post.bind h₆
  rintro ⟨returnNo, p₇⟩ ⟨rfl, h₇⟩
  simp only [not_true, if_false]
  apply Post.bind h₇.freePacketMem
  intro p₈ h₈
  exact ⟨rfl, _, h₈⟩

/-- `open_suva_conn` succeeds, where the struct can be allocated and the loops for
    the memory ids end. -/
theorem openSuvaConn_returns (h : Inv wide p A) {o : Opening} {fd : ℕ} (hlate : ¬ o.Early)
    (hsocket : o.socket = some fd) (hsentinel : o.sentinel ≠ none)
    (hel : ∀ i, o.mallocs.element i ≠ none) (hpk : ∀ i, o.mallocs.packet i ≠ none)
    (hset : ∀ c p₁, p.memAlloc wide suvaConnType suvaConnSize o.conn (.conn p.ids.length) =
      .ok (c, p₁) → c ≠ 0 ∧
        ∃ p₂, ({ p₁ with sockets := insert fd p₁.sockets } : Process).setUp wide c fd o = .ok p₂)
    (hacc : (accepted o.mallocs.junk InConn.opened o.evs).isSome) :
    ∃ c p', p.openSuvaConn wide o = .ok (some c, p') ∧ ∃ conn, Held wide c conn p' := by
  obtain ⟨hhost, -, hconnected, hnonBlocking⟩ := by simpa [Opening.Early] using hlate
  obtain ⟨c, p₁, A₁, hrun, hmem₁, hal, hc⟩ :=
    memAlloc_spec h.mem suvaConnType suvaConnSize o.conn (.conn p.ids.length)
  obtain ⟨hc0, p₂, hp₂⟩ := hset c p₁ hrun
  have hreg : (A.types suvaConnType).isSome := by
    apply Option.isSome_iff_ne_none.mpr
    exact fun hnone => hc0 (hc.mpr (Or.inr hnone))
  have hmem₁' : Mem.Refines wide ({ p₁ with sockets := insert fd p₁.sockets } : Process).mem A₁ :=
    hmem₁
  have hpost := setUp_spec (E := fun _ => True) h hmem₁' (hal.setSockets _) hc0 hreg fd o trivial
  rcases hpost.ok hp₂ with ⟨hs, -⟩ | ⟨-, core, inId, outId, A₂, hj, hmem₂⟩
  · exact absurd hs hsentinel
  have hheld : Held wide c ⟨fd, inId, outId, InConn.opened, o.evs, p.ids.length⟩ p₂ := by
    refine ⟨A₂, hj.inv h hmem₂, hj.get_conns, ?_⟩
    rw [hj.out, Function.update_self]
    exact hj.first.2.1
  obtain ⟨⟨r, p₃⟩, hrun₃, rfl, hheld₃⟩ := (handshake_returns hheld fd hel hpk hacc).returns
  refine ⟨c, p₃, ?_, hheld₃⟩
  simp only [Process.openSuvaConn, hrun, ok_bind, hhost, hsocket, hconnected, hnonBlocking,
    Bool.not_true, Bool.false_eq_true, if_false, if_neg hc0, hp₂]
  exact hrun₃

/-! ## An example -/

/-- A message without text from `suvad`. -/
def plainMessage (code : BitVec 32) : List Byte :=
  bytesOf (0 : BitVec 32) ++ bytesOf (0 : BitVec 32) ++ bytesOf (0 : BitVec 32) ++
    bytesOf (9 : BitVec 32) ++ bytesOf code ++ bytesOf (0 : BitVec 32) ++ [0]

/-- What `suvad` sends to a program that it accepts. -/
def greeting : List Byte := plainMessage srcConnect ++ plainMessage srcConnected

/-- An `open_suva_conn` none of whose steps fails, where `answer` is what `suvad` sends. -/
def Opening.unhindered (answer : List Byte) : Opening where
  timeout := 30
  remotePort := 1875
  remoteHost := none
  org := none
  conn := some (.above 0, .above 1)
  hostFound := true
  socket := some 3
  connected := true
  nonBlocking := true
  inTypes := [some (.above 0), some (.above 0), some (.above 0)]
  outTypes := [some (.above 0), some (.above 0)]
  sentinel := some (.above 0, .above 1)
  mallocs := ⟨fun _ => some (.above 0, .above 1), fun _ => some (.above 0, .above 1), fun _ _ => 0⟩
  sched := []
  evs := pushBack answer []

/-- A program can open a connection. -/
theorem unhindered_returns : ∃ p₀ c p, suvaApiInit Mem.wideX86 (some (.above 0)) = .ok p₀ ∧
    p₀.openSuvaConn Mem.wideX86 (.unhindered greeting) = .ok (some c, p) ∧
    ∃ conn, Held Mem.wideX86 c conn p := by
  -- the struct and the memory ids, in the tables as they are after `suva_api_init`
  have hset : (suvaApiInit Mem.wideX86 (some (.above 0)) >>= fun p₀ =>
      p₀.memAlloc Mem.wideX86 suvaConnType suvaConnSize (some (.above 0, .above 1))
        (.conn p₀.ids.length) >>= fun r => if r.1 = 0 then .error .other else
      ({ r.2 with sockets := insert 3 r.2.sockets } : Process).setUp Mem.wideX86 r.1 3
        (.unhindered greeting)).isOk = true := by
    decide +kernel
  cases hinit : suvaApiInit Mem.wideX86 (some (.above 0)) with
  | error f => simp [hinit, Except.isOk, Except.toBool] at hset
  | ok p₀ =>
    obtain ⟨A₀, h₀⟩ := suvaApiInit_inv hinit
    have hids : ∀ c p₁, p₀.memAlloc Mem.wideX86 suvaConnType suvaConnSize
        (some (.above 0, .above 1)) (.conn p₀.ids.length) = .ok (c, p₁) → c ≠ 0 ∧
        ∃ p₂, ({ p₁ with sockets := insert 3 p₁.sockets } : Process).setUp Mem.wideX86 c 3
          (.unhindered greeting) = .ok p₂ := by
      intro c p₁ hrun
      rw [hinit, ok_bind, hrun, ok_bind] at hset
      by_cases hc0 : c = 0
      · simp [hc0, Except.isOk, Except.toBool] at hset
      · simp only [if_neg hc0] at hset
        cases hp₂ : ({ p₁ with sockets := insert 3 p₁.sockets } : Process).setUp Mem.wideX86 c 3
          (.unhindered greeting) with
        | error f => simp [hp₂, Except.isOk, Except.toBool] at hset
        | ok p₂ => exact ⟨hc0, p₂, rfl⟩
    have hlate : ¬ (Opening.unhindered greeting).Early := by
      simp [Opening.Early, Opening.unhindered]
    obtain ⟨c, p, hrun, hheld⟩ := openSuvaConn_returns h₀ hlate rfl (by simp [Opening.unhindered])
      (by simp [Opening.unhindered]) (by simp [Opening.unhindered]) hids (by decide +kernel)
    exact ⟨p₀, c, p, rfl, hrun, hheld⟩

end CompatSuva.Conn
