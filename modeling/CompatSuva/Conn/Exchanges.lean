import CompatSuva.Conn.Lifetimes

/-!
# What an exchange leaves tracked

The packets and tables of a connection go with `scl_free_packet_mem`, and its queue
elements, all but one, with `scl_write_out`. Nothing releases the memory that
`get_additional_packet_mem` allocates: it has the type of the queue elements.
-/

namespace CompatSuva.Conn

open CompatSuva.Common CompatSuva.Scl
open CompatSuva.Mem (Malloc Registry Tracked wideX86)

variable {wide : Byte → ℕ → BitVec 32} {p p' : Process} {A A' : Registry} {c : Addr}
variable {conn : SuvaConn} {n : ℕ}

/-- A block for `get_additional_packet_mem` on connection `n` is tracked. -/
def Process.HasAdditional (p : Process) (n : ℕ) : Prop :=
  ∃ a e, p.mem.Tracks a e ∧ p.maker a = some (.additional n)

/-- The blocks with the memory ids of the connection at `c` are just the first element
    of its queue. -/
def Process.OnlySentinel (p : Process) (c : Addr) (conn : SuvaConn) : Prop :=
  ∀ a, (∃ e, p.mem.Tracks a e ∧ (e.type = conn.inMemId ∨ e.type = conn.outMemId)) ↔
    a = (p.writer.conns c).outEleQueue

/-! ## Additional packet memory -/

/-- `call` allocates additional packet memory on the connection at `c`. -/
def Call.IsAdditional (c : Addr) (call : Call) : Prop :=
  ∃ size m, call = .getAdditionalPacketMem c size (some m)

/-- Additional packet memory stays, and comes from `get_additional_packet_mem` on the
    connection only. -/
theorem step_additional (h : Inv wide p A) (hc : p.conns.get c = some conn) (call : Call) :
    Post (fun _ => True) (fun p' => ∃ A' conn', Inv wide p' A' ∧ p'.conns.get c = some conn' ∧
      conn'.number = conn.number ∧ (p'.HasAdditional conn.number ↔
        p.HasAdditional conn.number ∨ call.IsAdditional c)) (p.step wide call) := by
  have hstep := step_spec h call
  cases hrun : p.step wide call with
  | error f => trivial
  | ok p' =>
    obtain ⟨A', hinv, heff⟩ := hstep.ok hrun
    obtain ⟨conn', hc', hn⟩ := heff.conns c conn hc (by simp [Maker.Passes, Maker.Passing,
      Maker.Reads])
    refine ⟨A', conn', hinv, hc', hn, ?_, ?_⟩
    · rintro ⟨a, e, he, hmk⟩
      rw [← hinv.mem.ptrs] at he
      rcases heff.new a e he with ⟨hold, hmk'⟩ | ⟨mk, hmk', hmade⟩
      · exact Or.inl ⟨a, e, (h.mem.ptrs a e).mp hold, hmk' ▸ hmk⟩
      · rw [hmk] at hmk'
        obtain rfl := Option.some.inj hmk'
        rcases hmade with hother | ⟨c', size, m, conn₁, rfl, hc₁, hnum⟩
        · exact absurd rfl (hother _)
        · obtain rfl := h.unique c c' conn conn₁ hc hc₁ (Maker.additional.inj hnum)
          exact Or.inr ⟨size, m, rfl⟩
    · rintro (⟨a, e, he, hmk⟩ | ⟨size, m, rfl⟩)
      · rw [← h.mem.ptrs] at he
        obtain ⟨he', hmk'⟩ := heff.kept a e he fun mk hmk' => by
          rw [hmk] at hmk'
          obtain rfl := Option.some.inj hmk'
          simp [Maker.Passes, Maker.Passing, Maker.Reads]
        exact ⟨a, e, (hinv.mem.ptrs a e).mp he', hmk'.trans hmk⟩
      · obtain ⟨a, p₁, A₁, hrun₁, hinv₁, hal, ha⟩ := getAdditionalPacketMem_spec h hc size (some m)
        rw [Process.step, hrun₁, map_ok, Except.ok.injEq] at hrun
        subst hrun
        obtain ⟨-, hsome, hmk⟩ := hal.fresh (by simp [ha])
        obtain ⟨e, he⟩ := Option.isSome_iff_exists.mp hsome
        exact ⟨a, e, (hinv₁.mem.ptrs a e).mp he, hmk⟩

theorem run_additional (h : Inv wide p A) (hc : p.conns.get c = some conn) {calls : List Call}
    (hrun : p.run wide calls = .ok p') : ∃ A' conn', Inv wide p' A' ∧
      p'.conns.get c = some conn' ∧ conn'.number = conn.number ∧ (p'.HasAdditional conn.number ↔
        p.HasAdditional conn.number ∨ ∃ call ∈ calls, call.IsAdditional c) := by
  induction calls generalizing p A conn with
  | nil =>
    obtain rfl := Except.ok.inj hrun
    exact ⟨A, conn, h, hc, rfl, by simp⟩
  | cons call calls ih =>
    rw [Process.run, List.foldlM_cons] at hrun
    cases hstep : p.step wide call with
    | error f => simp [hstep] at hrun
    | ok p₁ =>
      rw [hstep, ok_bind] at hrun
      obtain ⟨A₁, conn₁, h₁, hc₁, hn₁, hadd₁⟩ := (step_additional h hc call).ok hstep
      obtain ⟨A', conn', h', hc', hn', hadd'⟩ := ih h₁ hc₁ hrun
      rw [hn₁] at hn' hadd'
      refine ⟨A', conn', h', hc', hn', ?_⟩
      rw [hadd', hadd₁, List.exists_mem_cons_iff, or_assoc]

/-- A connection that has just been opened has no additional packet memory. -/
theorem opened_additional (h : Inv wide p A) {o : Opening}
    (hopen : p.openSuvaConn wide o = .ok (some c, p')) : ∃ A' conn, Inv wide p' A' ∧
      p'.conns.get c = some conn ∧ ¬ p'.HasAdditional conn.number := by
  have hpost := openSuvaConn_spec (E := fun _ => True) h o trivial fun _ _ => trivial
  obtain ⟨A', hinv, heff, hconn, -⟩ := hpost.ok hopen
  obtain ⟨conn, hc, hn⟩ := hconn c rfl
  refine ⟨A', conn, hinv, hc, ?_⟩
  rintro ⟨a, e, he, hmk⟩
  rw [← hinv.mem.ptrs] at he
  rw [hn] at hmk
  rcases heff.new a e he with ⟨hold, hmk'⟩ | ⟨mk, hmk', hmade⟩
  · obtain ⟨mk, hmk'', ht⟩ := h.typed a e hold
    rw [← hmk', hmk] at hmk''
    obtain rfl := Option.some.inj hmk''
    simp [Maker.type] at ht
  · rw [hmk] at hmk'
    obtain rfl := Option.some.inj hmk'
    simp [Maker.Opens, Maker.Passing, Maker.Reads] at hmade

/-! ## The end of an exchange -/

/-- After `scl_write_out` and `scl_free_packet_mem` only the first element is left, and
    additional packet memory. -/
theorem exchange_end (h : Inv wide p A) (hc : p.conns.get c = some conn) :
    ∃ p₁ p₂ conn₂, p.writeOut wide c = .ok p₁ ∧ p₁.freePacketMem wide c = .ok p₂ ∧
      p₂.conns.get c = some conn₂ ∧
      (p₂.OnlySentinel c conn₂ ↔ ¬ p.HasAdditional conn.number) := by
  obtain ⟨p₁, A₁, hwrite, h₁, -, hc₁, -, hfirst⟩ := writeOut_spec h hc
  obtain ⟨p₂, A₂, hfree, h₂, -, hconns₂, hwriter₂, hmaker₂, hptrs₂⟩ := freePacketMem_spec h₁ hc₁
  have hc₂ : p₂.conns.get c = some conn := hconns₂ ▸ hc₁
  obtain ⟨-, -, hget⟩ := h₂.conns c conn hc₂
  refine ⟨p₁, p₂, conn, hwrite, hfree, hc₂, ?_⟩
  have hadd : p₂.HasAdditional conn.number ↔ p.HasAdditional conn.number := by
    obtain ⟨-, conn₁, -, hc₁', -, hadd₁⟩ := (step_additional h hc (.writeOut c)).ok hwrite
    obtain ⟨-, -, -, -, -, hadd₂⟩ := (step_additional h₁ hc₁ (.freePacketMem c)).ok hfree
    rw [hadd₂, hadd₁]
    simp [Call.IsAdditional]
  rw [← hadd]
  constructor
  · rintro honly ⟨a, e, he, hmk⟩
    have htyped := h₂.typed a e ((h₂.mem.ptrs a e).mpr he)
    obtain ⟨mk, hmk', ht⟩ := htyped
    rw [hmk] at hmk'
    obtain rfl := Option.some.inj hmk'
    -- a block for additional memory has the type of the elements
    have hout : e.type = conn.outMemId := by
      simpa [Maker.type, hget] using ht.symm
    have ha := (honly a).mp ⟨e, he, Or.inr hout⟩
    rw [hwriter₂] at ha
    have hel := ((hfirst a).mpr ha).2
    rw [← hmaker₂, hmk] at hel
    simp at hel
  · intro hno a
    rw [hwriter₂, ← hfirst a]
    constructor
    · rintro ⟨e, he, htype⟩
      rw [← h₂.mem.ptrs] at he
      obtain ⟨he₁, hne⟩ := (hptrs₂ a e).mp he
      obtain ⟨mk, hmk, ht⟩ := h₂.typed a e he
      rw [htype.resolve_left hne] at ht
      rcases h₂.made_of_type hc₂ ht with rfl | rfl
      · exact ⟨by simp [he₁], hmaker₂ ▸ hmk⟩
      · exact absurd ⟨a, e, (h₂.mem.ptrs a e).mp he, hmk⟩ hno
    · rintro ⟨hptr, hmk⟩
      obtain ⟨e, he⟩ := Option.isSome_iff_exists.mp hptr
      obtain ⟨mk, hmk', ht⟩ := h₁.typed a e he
      rw [hmk] at hmk'
      obtain rfl := Option.some.inj hmk'
      obtain ⟨-, -, hget₁⟩ := h₁.conns c conn hc₁
      have hout : e.type = conn.outMemId := by
        simpa [Maker.type, hget₁] using ht.symm
      refine ⟨e, (h₂.mem.ptrs a e).mp ((hptrs₂ a e).mpr ⟨he, ?_⟩), Or.inr hout⟩
      rw [hout]
      exact (ids_ne h₁.nodup hget₁).symm

/-- On an open connection, whatever calls have been made since, `scl_write_out` and
    `scl_free_packet_mem` leave a single block under its memory ids if and only if no call of
    `get_additional_packet_mem` on it has allocated anything. -/
theorem exchanges_leave_sentinel_iff {p₀ p₁ p₂ : Process} (h : p₀.Reachable wide) {o : Opening}
    (hopen : p₀.openSuvaConn wide o = .ok (some c, p₁)) {calls : List Call}
    (hrun : p₁.run wide calls = .ok p₂) :
    ∃ p₃ p₄ conn, p₂.writeOut wide c = .ok p₃ ∧ p₃.freePacketMem wide c = .ok p₄ ∧
      p₄.conns.get c = some conn ∧
      (p₄.OnlySentinel c conn ↔ ∀ size m, .getAdditionalPacketMem c size (some m) ∉ calls) := by
  obtain ⟨A₀, h₀⟩ := h.inv
  obtain ⟨A₁, conn₁, h₁, hc₁, hno⟩ := opened_additional h₀ hopen
  obtain ⟨A₂, conn₂, h₂, hc₂, hn₂, hadd⟩ := run_additional h₁ hc₁ hrun
  obtain ⟨p₃, p₄, conn₄, hwrite, hfree, hc₄, honly⟩ := exchange_end h₂ hc₂
  refine ⟨p₃, p₄, conn₄, hwrite, hfree, hc₄, ?_⟩
  rw [honly, hn₂, hadd]
  constructor
  · intro hnot size m hmem
    exact hnot (Or.inr ⟨_, hmem, size, m, rfl⟩)
  · rintro hcalls (hadd₁ | ⟨call, hmem, size, m, rfl⟩)
    · exact hno hadd₁
    · exact hcalls size m hmem

/-- A value is queued and sent, and the first element is left. -/
theorem exchanges_leave_sentinel_one : ∃ (p₀ p₁ p₂ p₃ p₄ : Process) (c : Addr) (conn : SuvaConn),
    p₀.openSuvaConn wideX86 (.unhindered greeting) = .ok (some c, p₁) ∧
    p₁.run wideX86 [.queueValue c (intArg 5) (some (.above 0, .above 1))] = .ok p₂ ∧
    p₂.writeOut wideX86 c = .ok p₃ ∧ p₃.freePacketMem wideX86 c = .ok p₄ ∧
    p₄.conns.get c = some conn ∧ p₄.OnlySentinel c conn := by
  obtain ⟨p₀, c, p₁, hinit, hopen, conn₁, hheld⟩ := unhindered_returns
  have hm : some (Malloc.above 0, Malloc.above 1) ≠ none := by simp
  obtain ⟨p₂, hqueue, -⟩ := (hheld.queueValue (intArg 5) hm).returns
  have hrun : p₁.run wideX86 [.queueValue c (intArg 5) (some (.above 0, .above 1))] = .ok p₂ := by
    simp only [Process.run, List.foldlM_cons, Process.step, hqueue, ok_bind]
    rfl
  obtain ⟨p₃, p₄, conn, hwrite, hfree, hc, honly⟩ :=
    exchanges_leave_sentinel_iff ⟨_, p₀, [], hinit, rfl⟩ hopen hrun
  exact ⟨p₀, p₁, p₂, p₃, p₄, c, conn, hopen, hrun, hwrite, hfree, hc, honly.mpr (by simp)⟩

/-- Additional packet memory is left behind. -/
theorem additional_packet_mem_stays : ∃ (p₀ p₁ p₂ p₃ p₄ : Process) (c : Addr) (conn : SuvaConn),
    suvaApiInit wideX86 (some (.above 0)) = .ok p₀ ∧
    p₀.openSuvaConn wideX86 (.unhindered greeting) = .ok (some c, p₁) ∧
    p₁.run wideX86 [.getAdditionalPacketMem c 8 (some (.above 0, .above 1))] = .ok p₂ ∧
    p₂.writeOut wideX86 c = .ok p₃ ∧ p₃.freePacketMem wideX86 c = .ok p₄ ∧
    p₄.conns.get c = some conn ∧ ¬ p₄.OnlySentinel c conn := by
  obtain ⟨p₀, c, p₁, hinit, hopen, conn₁, A₁, h₁, hc₁, -⟩ := unhindered_returns
  obtain ⟨a, p₂, -, hadd, -⟩ :=
    getAdditionalPacketMem_spec h₁ hc₁ 8 (some (.above 0, .above 1))
  have hrun : p₁.run wideX86 [.getAdditionalPacketMem c 8 (some (.above 0, .above 1))] =
      .ok p₂ := by
    simp only [Process.run, List.foldlM_cons, Process.step, hadd, map_ok, ok_bind]
    rfl
  obtain ⟨A₂, conn₂, h₂, hc₂, hn₂, hhas⟩ := run_additional h₁ hc₁ hrun
  obtain ⟨p₃, p₄, conn, hwrite, hfree, hc, honly⟩ := exchange_end h₂ hc₂
  refine ⟨p₀, p₁, p₂, p₃, p₄, c, conn, hinit, hopen, hrun, hwrite, hfree, hc, ?_⟩
  rw [honly, hn₂, not_not, hhas]
  exact Or.inr ⟨_, List.mem_singleton_self _, _, _, rfl⟩

end CompatSuva.Conn
