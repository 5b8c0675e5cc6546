import CompatSuva.Conn.Open

/-!
# Runs of a program

Every call keeps the invariant (`step_spec`), so it holds in every reachable state
(`Reachable.inv`). A call releases queue elements and packets only, and a block for
`get_additional_packet_mem` is made by no other call. It dereferences an element
that is not live only where it is not `Careful`.

With it, the isolation of connections (`connection_isolation`).
-/

namespace CompatSuva.Conn

open CompatSuva.Common CompatSuva.Scl
open CompatSuva.Mem (Malloc MemState Registry Tracked Kind memInit)

variable {wide : Byte → ℕ → BitVec 32} {p p' : Process} {A A' : Registry} {c : Addr}
variable {conn : SuvaConn} {E : Fault → Prop}

/-! ## One call -/

/-- A maker whose blocks come and go while its connection is open. -/
def Maker.Passes (mk : Maker) : Prop := ∃ n, mk.Passing n

/-- `call` can allocate a block by `mk`. -/
def Call.Makes (p : Process) (call : Call) (mk : Maker) : Prop :=
  (∀ n, mk ≠ .additional n) ∨ ∃ c size m conn, call = .getAdditionalPacketMem c size (some m) ∧
    p.conns.get c = some conn ∧ mk = .additional conn.number

/-- `call` neither closes a connection nor fills an element for which there was no
    memory. -/
def Process.Careful (p : Process) : Call → Prop
  | .openSuvaConn o => o.Early ∨ o.HasElements
  | .queueValue c _ _ => p.conns.get c ≠ none → (p.writer.conns c).outCurEle ≠ 0
  | .createSuvlet c _ ms => p.conns.get c ≠ none → p.CanQueueFour c ms
  | .closeSuvaConn c _ => p.conns.get c = none
  | _ => True

variable (wide) in
/-- What every call keeps. -/
def Stepped (p : Process) (A : Registry) (call : Call) (p' : Process) : Prop :=
  ∃ A', Inv wide p' A' ∧ Effect (call.Makes p) Maker.Passes p A p' A'

theorem After.stepped {n : ℕ} (h : After wide n c p A p') (call : Call) :
    Stepped wide p A call p' := by
  obtain ⟨A', conn, hinv, -, -, heff⟩ := h
  refine ⟨A', hinv, heff.mono (fun mk hmk => Or.inl fun k => ?_) fun mk hmk => ⟨n, hmk⟩⟩
  rcases hmk with rfl | rfl | rfl <;> simp

/-- The blocks that opening a connection can release are not there before. -/
theorem Effect.opens (h : Inv wide p A)
    (heff : Effect (Maker.Opens p.ids.length) (Maker.Opens p.ids.length) p A p' A') (o : Opening) :
    Effect (Call.Makes p (.openSuvaConn o)) Maker.Passes p A p' A' where
  ids := heff.ids
  kept a e he _ := heff.kept a e he fun _ hmk => h.not_opens he hmk
  new a e he := by
    rcases heff.new a e he with hold | ⟨mk, hmk, hmade⟩
    · exact Or.inl hold
    · refine Or.inr ⟨mk, hmk, Or.inl fun k => ?_⟩
      rcases hmade with rfl | rfl | rfl | rfl <;> simp
  conns c conn hc _ := by
    apply heff.conns c conn hc
    have hlt := Joined.number_lt h hc
    rintro (hn | hn)
    · rw [Maker.conn.injEq] at hn
      omega
    · simp [Maker.Passing, Maker.Reads] at hn

/-- The connection a call is on. -/
def Call.on : Call → Option Addr
  | .openSuvaConn _ => none
  | .setOpcode c _ | .queueValue c _ _ | .writeOut c | .readPacket c _ _ | .getValue c _ _ _
  | .freePacketMem c | .getAdditionalPacketMem c _ _ | .createSuvlet c _ _ | .destroySuvlet c _
  | .closeSuvaConn c _ => some c

/-- A call on a connection, where there is none. -/
theorem step_none {call : Call} (hon : call.on = some c) (hc : p.conns.get c = none) :
    p.step wide call = .error .other := by
  have hconn : p.conn wide c = .error .other := conn_none hc
  cases call
  case openSuvaConn => simp [Call.on] at hon
  all_goals
    obtain rfl := Option.some.inj hon
    simp only [Process.step, Process.setOpcode, Process.queueValue, Process.writeOut,
      Process.readPacket, Process.getValue, Process.freePacketMem, Process.getAdditionalPacketMem,
      Process.createSuvlet, Process.destroySuvlet, Process.closeSuvaConn, hconn, error_bind,
      error_map]

/-- A call on a connection. -/
theorem step_on (h : Inv wide p A) {call : Call} (hon : call.on = some c)
    (hc : p.conns.get c = some conn) :
    Post (fun f => f = .other ∨ ¬ p.Careful call) (Stepped wide p A call) (p.step wide call) := by
  have hother : Fault.other = .other ∨ ¬ p.Careful call := Or.inl rfl
  have hafter : After wide conn.number c p A p := h.after hc
  cases call
  case openSuvaConn => simp [Call.on] at hon
  all_goals obtain rfl := Option.some.inj hon
  case setOpcode opcode =>
    apply Post.mono (setOpcode_post hafter opcode) fun _ hf => hf
    exact fun p' h' => h'.1.stepped _
  case queueValue q m =>
    apply Post.mono (queueValue_post hafter q m fun hcur => ?_) fun _ hf => hf
    · exact fun p' h' => h'.1.stepped _
    · exact Or.inr fun hcareful => hcareful (by simp [hc]) hcur
  case writeOut =>
    apply Post.mono (writeOut_post hafter) fun _ hf => hf
    exact fun p' h' => h'.stepped _
  case readPacket m junk =>
    apply Post.map
    apply Post.mono (readPacket_post hafter m junk hother) fun _ hf => hf
    exact fun r h' => h'.stepped _
  case getValue type withLen m =>
    apply Post.map
    apply Post.mono (getValue_post hafter type withLen m hother) fun _ hf => hf
    exact fun r h' => h'.stepped _
  case freePacketMem =>
    apply Post.mono (freePacketMem_post hafter) fun _ hf => hf
    exact fun p' h' => h'.stepped _
  case getAdditionalPacketMem size m =>
    obtain ⟨a, p', A', hrun, hinv, hal, hm⟩ := getAdditionalPacketMem_spec h hc size m
    rw [Process.step, hrun]
    refine ⟨A', hinv, ⟨hal.effect.ids, ?_, ?_, ?_⟩⟩
    · exact fun b e he _ => hal.effect.kept b e he (by simp)
    · intro b e he
      rcases hal.now b e he with hold | ⟨rfl, hmk, -⟩
      · exact Or.inl hold
      · cases m with
        | none =>
          rw [hm.mpr rfl, Mem.ptrs_zero hinv.mem] at he
          simp at he
        | some m => exact Or.inr ⟨_, hmk, Or.inr ⟨_, size, m, conn, rfl, hc, rfl⟩⟩
    · exact fun c' conn' hc' _ => hal.effect.conns c' conn' hc' (by simp)
  case createSuvlet s ms =>
    apply Post.map
    apply Post.mono (createSuvlet_post hafter s ms hother fun hcan => ?_) fun _ hf => hf
    · exact fun r h' => h'.stepped _
    · exact Or.inr fun hcareful => hcan (hcareful (by simp [hc]))
  case destroySuvlet ms =>
    apply Post.mono (destroySuvlet_post hafter ms hother) fun _ hf => hf
    exact fun p' h' => h'.stepped _
  case closeSuvaConn ms =>
    rw [Process.step, closeSuvaConn_faults h hc ms]
    exact Or.inr fun hcareful => by simp [Process.Careful, hc] at hcareful

/-- One call keeps the invariant, releases queue elements and packets only, and
    faults on an element only if it is not careful. -/
theorem step_spec (h : Inv wide p A) (call : Call) :
    Post (fun f => f = .other ∨ ¬ p.Careful call) (Stepped wide p A call) (p.step wide call) := by
  cases hon : call.on with
  | some c =>
    cases hc : p.conns.get c with
    | some conn => exact step_on h hon hc
    | none =>
      rw [step_none hon hc]
      exact Or.inl rfl
  | none =>
    cases call
    case openSuvaConn o =>
      apply Post.map
      apply Post.mono (openSuvaConn_spec h o (Or.inl rfl) fun hlate hhas => ?_) fun _ hf => hf
      · rintro r ⟨A', hinv, heff, -⟩
        exact ⟨A', hinv, heff.opens h o⟩
      · exact Or.inr fun hcareful => hcareful.elim hlate hhas
    all_goals simp [Call.on] at hon

/-! ## Runs -/

/-- The invariant holds after `suva_api_init`. -/
theorem suvaApiInit_inv {m : Option Malloc} (h : suvaApiInit wide m = .ok p) :
    ∃ A, Inv wide p A := by
  have hinv : ∀ {mem : MemState} {A : Registry}, Mem.Refines wide mem A →
      A.ptrs = Registry.empty.ptrs → Inv wide ⟨mem, Heap.empty, ⟨Heap.empty, 0,
        fun _ => OutConn.opened 0 0 []⟩, 0, 0, ∅, [], fun _ => none⟩ A := by
    intro mem A href hptrs
    refine ⟨href, ?_, by simp, by simp [Process.allIds], by simp [Process.allIds], ?_, ?_, ?_, ?_⟩
    · intro a e he
      simp [hptrs, Registry.empty] at he
    all_goals simp
  unfold suvaApiInit at h
  rcases Mem.addTypeWith_refines Mem.refines_memInit suvaConnType (chars "Suva Connection") m with
    ⟨r, hrun, -⟩ | ⟨s', hrun, -, -, href⟩
  · rw [hrun, orFault_some, ok_bind] at h
    obtain rfl := Except.ok.inj h
    exact ⟨_, hinv Mem.refines_memInit rfl⟩
  · rw [hrun, orFault_some, ok_bind] at h
    obtain rfl := Except.ok.inj h
    exact ⟨_, hinv href rfl⟩

/-- Every run keeps the invariant. -/
theorem run_inv (h : Inv wide p A) (calls : List Call) :
    Post (fun _ => True) (fun p' => ∃ A', Inv wide p' A') (p.run wide calls) := by
  apply Post.foldlM _ calls ⟨A, h⟩
  rintro p call ⟨A, hA⟩
  apply Post.mono (step_spec hA call) fun _ _ => trivial
  rintro p' ⟨A', hA', -⟩
  exact ⟨A', hA'⟩

/-- The invariant holds in every reachable state. -/
theorem Process.Reachable.inv (h : p.Reachable wide) : ∃ A, Inv wide p A := by
  obtain ⟨m, p₀, calls, hinit, hrun⟩ := h
  obtain ⟨A₀, h₀⟩ := suvaApiInit_inv hinit
  exact (run_inv h₀ calls).ok hrun

end CompatSuva.Conn
