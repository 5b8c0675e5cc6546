import CompatSuva.Conn.Success

/-!
# Isolation of connections

The memory ids of all connections that were ever set up are registered types, other
than 0 and the type of the structs, and distinct. So what `scl_free_packet_mem` and
`scl_read_packet` release on a connection, that connection has read.
-/

namespace CompatSuva.Conn

open CompatSuva.Common CompatSuva.Scl
open CompatSuva.Mem (Malloc MemState Registry Tracked wideX86)

variable {wide : Byte → ℕ → BitVec 32} {p p' : Process} {A A' : Registry} {c : Addr}
variable {conn : SuvaConn}

/-- Every block is as it was, or it was one that connection `n` had read. -/
def Process.ReleasesReads (p : Process) (n : ℕ) (p' : Process) : Prop :=
  ∀ a e, p.mem.Tracks a e →
    p'.mem.Tracks a e ∧ p'.maker a = p.maker a ∨ ∃ mk, p.maker a = some mk ∧ mk.Reads n

theorem Effect.releasesReads {n : ℕ} {made : Maker → Prop}
    (h : Effect made (Maker.Reads n) p A p' A')
    (hp : Inv wide p A) (hmem : Mem.Refines wide p'.mem A') : p.ReleasesReads n p' := by
  intro a e he
  rw [← hp.mem.ptrs] at he
  rw [← hmem.ptrs]
  obtain ⟨mk, hmk, -⟩ := hp.typed a e he
  by_cases hreads : mk.Reads n
  · exact Or.inr ⟨mk, hmk, hreads⟩
  · refine Or.inl (h.kept a e he fun mk' hmk' => ?_)
    rw [hmk] at hmk'
    rwa [← Option.some.inj hmk']

/-- The memory ids are good. -/
theorem Inv.memIds (h : Inv wide p A) :
    (∀ id ∈ p.allIds, (∃ k, p.mem.Knows id k) ∧ id ≠ 0 ∧ id ≠ suvaConnType) ∧ p.allIds.Nodup := by
  refine ⟨fun id hid => ?_, h.nodup⟩
  obtain ⟨hreg, hne⟩ := h.known id hid
  obtain ⟨k, hk⟩ := Option.isSome_iff_exists.mp hreg
  exact ⟨⟨k, (h.mem.types id k).mp hk⟩, hne⟩

/-- Releasing the packets, and reading one, releases what the connection has read. -/
theorem Inv.releases (h : Inv wide p A) (hc : p.conns.get c = some conn) :
    (∀ p', p.freePacketMem wide c = .ok p' → p.ReleasesReads conn.number p') ∧
      ∀ m junk bytes p', p.readPacket wide c m junk = .ok (bytes, p') →
        p.ReleasesReads conn.number p' := by
  constructor
  · intro p' hrun
    obtain ⟨p₁, A₁, hrun₁, hinv₁, heff, -⟩ := freePacketMem_spec h hc
    rw [hrun] at hrun₁
    obtain rfl := Except.ok.inj hrun₁
    exact heff.releasesReads h hinv₁.mem
  · intro m junk bytes p' hrun
    obtain ⟨p₁, A₁, alloc, hinv₁, heff₁, -, hconns₁, -, hrun₁⟩ := readPacket_spec h hc m junk
    rw [hrun] at hrun₁
    obtain ⟨r, -, hr⟩ := bind_eq_ok.mp hrun₁.symm
    obtain ⟨rfl, rfl⟩ := Prod.mk.inj (Except.ok.inj hr)
    obtain ⟨hinv₂, heff₂⟩ := setConn_spec hinv₁ (hconns₁ ▸ hc) r.2.1 r.2.2
    exact (heff₁.trans (heff₂ _ _)).releasesReads h hinv₂.mem

/-- Connections do not touch each other's memory, whatever calls have been made: the
    memory ids of all of them are registered, non-zero, not 1024 and distinct; each
    connection has its own pair of them; and a connection releases packets that it has read. -/
theorem connection_isolation (h : p.Reachable wide) :
    (∀ id ∈ p.allIds, (∃ k, p.mem.Knows id k) ∧ id ≠ 0 ∧ id ≠ suvaConnType) ∧ p.allIds.Nodup ∧
      (∀ c conn, p.conns.get c = some conn →
        p.ids[conn.number]? = some (conn.inMemId, conn.outMemId)) ∧
      (∀ c c' conn conn', p.conns.get c = some conn → p.conns.get c' = some conn' →
        conn.number = conn'.number → c = c') ∧
      ∀ c conn, p.conns.get c = some conn →
        (∀ p', p.freePacketMem wide c = .ok p' → p.ReleasesReads conn.number p') ∧
          ∀ m junk bytes p', p.readPacket wide c m junk = .ok (bytes, p') →
            p.ReleasesReads conn.number p' := by
  obtain ⟨A, hinv⟩ := h.inv
  obtain ⟨hids, hnodup⟩ := hinv.memIds
  refine ⟨hids, hnodup, ?_, hinv.unique, ?_⟩
  · intro c conn hc
    exact (hinv.conns c conn hc).2.2
  · intro c conn hc
    exact hinv.releases hc

/-- After two attempts to which `suvad` does not answer there are four memory ids. -/
theorem connection_isolation_four : ∃ p : Process, p.Reachable wideX86 ∧ p.allIds = [1, 2, 3, 4] ∧
    (∀ id ∈ p.allIds, (∃ k, p.mem.Knows id k) ∧ id ≠ 0 ∧ id ≠ suvaConnType) := by
  have heval : (suvaApiInit wideX86 (some (.above 0)) >>=
    fun p₀ => Process.allIds <$> p₀.run wideX86
      [.openSuvaConn (.unhindered []), .openSuvaConn (.unhindered [])]) = .ok [1, 2, 3, 4] := by
    decide +kernel
  cases hinit : suvaApiInit wideX86 (some (.above 0)) with
  | error f => simp [hinit] at heval
  | ok p₀ =>
    rw [hinit, ok_bind] at heval
    cases hrun : p₀.run wideX86 [.openSuvaConn (.unhindered []),
      .openSuvaConn (.unhindered [])] with
    | error f => simp [hrun] at heval
    | ok p =>
      rw [hrun, map_ok, Except.ok.injEq] at heval
      have hreach : p.Reachable wideX86 := ⟨_, p₀, _, hinit, hrun⟩
      exact ⟨p, hreach, heval, (connection_isolation hreach).1⟩

end CompatSuva.Conn
