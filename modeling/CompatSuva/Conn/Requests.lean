import CompatSuva.Conn.Steps

/-!
# Requests on an open connection

What the calls on one connection leave, put together from the steps. `After` is
what each of them keeps: the invariant, the connection itself, and all blocks but
the queue elements and packet memory of the connection.

* `queueFour_post`, `message_post`, `createSuvlet_post`, `destroySuvlet_post`: the
  calls keep `After`, and dereference an element that is not live only if an
  allocation of an element has failed;
* `closeSuvaConn_faults`: `close_suva_conn` dereferences the element it has released.
-/

namespace CompatSuva.Conn

open CompatSuva.Common CompatSuva.Scl
open CompatSuva.Mem (Malloc Registry Tracked)

variable (wide : Byte → ℕ → BitVec 32)

/-- `p` is what steps on connection `n`, whose struct is at `c`, have made of
    `(p₀, A₀)`. -/
def After (n : ℕ) (c : Addr) (p₀ : Process) (A₀ : Registry) (p : Process) : Prop :=
  ∃ A conn, Inv wide p A ∧ p.conns.get c = some conn ∧ conn.number = n ∧
    Effect (Maker.Passing n) (Maker.Passing n) p₀ A₀ p A

variable {wide} {p₀ p : Process} {A₀ A : Registry} {c : Addr} {conn : SuvaConn} {n : ℕ}
variable {E : Fault → Prop}

/-- The state the steps start from. -/
theorem Inv.after (h : Inv wide p A) (hc : p.conns.get c = some conn) :
    After wide conn.number c p A p := ⟨A, conn, h, hc, rfl, Effect.refl⟩

/-- A connection is still there after a step on it. -/
theorem After.step {made freed : Maker → Prop} {p' : Process} {A' : Registry}
    (hA : Inv wide p' A') (hc : p.conns.get c = some conn) (hn : conn.number = n)
    (h₀ : Effect (Maker.Passing n) (Maker.Passing n) p₀ A₀ p A)
    (h : Effect made freed p A p' A') (hmade : ∀ mk, made mk → mk.Passing n)
    (hfreed : ∀ mk, freed mk → mk.Passing n) : After wide n c p₀ A₀ p' := by
  have h' := h.mono hmade hfreed
  obtain ⟨conn', hc', hn'⟩ := h'.conns c conn hc (by simp [Maker.Passing, Maker.Reads])
  exact ⟨A', conn', hA, hc', hn'.trans hn, h₀.trans h'⟩

/-! ## The steps -/

theorem setOpcode_post (h : After wide n c p₀ A₀ p) (opcode : BitVec 32) :
    Post E (fun p' => After wide n c p₀ A₀ p' ∧
      (p'.writer.conns c).outCurEle = (p.writer.conns c).outCurEle)
        (p.setOpcode wide c opcode) := by
  obtain ⟨A, conn, hinv, hc, hn, h₀⟩ := h
  obtain ⟨p', hrun, h', heff, -, hcur⟩ := setOpcode_spec hinv hc opcode
  rw [hrun]
  exact ⟨After.step h' hc hn h₀ (heff (Maker.Passing n) (Maker.Passing n)) (fun _ h => h)
    fun _ h => h, hcur⟩

theorem queueValue_post (h : After wide n c p₀ A₀ p) (q : Queued) (m : Option (Malloc × Malloc))
    (hE : (p.writer.conns c).outCurEle = 0 → E (.element 0)) :
    Post E (fun p' => After wide n c p₀ A₀ p' ∧ ((p'.writer.conns c).outCurEle = 0 ↔ m = none))
      (p.queueValue wide c q m) := by
  obtain ⟨A, conn, hinv, hc, hn, h₀⟩ := h
  by_cases hcur : (p.writer.conns c).outCurEle = 0
  · rw [queueValue_null hinv hc hcur]
    exact hE hcur
  · obtain ⟨p', A', hrun, h', heff, -, hm⟩ := queueValue_spec hinv hc hcur q m
    rw [hrun]
    refine ⟨After.step h' hc hn h₀ heff ?_ (fun _ h => h.elim), hm⟩
    rintro mk rfl
    exact Or.inl (by rw [hn])

theorem writeOut_post (h : After wide n c p₀ A₀ p) :
    Post E (After wide n c p₀ A₀) (p.writeOut wide c) := by
  obtain ⟨A, conn, hinv, hc, hn, h₀⟩ := h
  obtain ⟨p', A', hrun, h', heff, -⟩ := writeOut_spec hinv hc
  rw [hrun]
  refine After.step h' hc hn h₀ heff (fun _ h => h.elim) ?_
  rintro mk rfl
  exact Or.inl (by rw [hn])

theorem freePacketMem_post (h : After wide n c p₀ A₀ p) :
    Post E (After wide n c p₀ A₀) (p.freePacketMem wide c) := by
  obtain ⟨A, conn, hinv, hc, hn, h₀⟩ := h
  obtain ⟨p', A', hrun, h', heff, -⟩ := freePacketMem_spec hinv hc
  rw [hrun]
  refine After.step h' hc hn h₀ heff (fun _ h => h.elim) fun mk hmk => ?_
  exact Or.inr (hn ▸ hmk)

theorem readPacket_post (h : After wide n c p₀ A₀ p) (m : Option (Malloc × Malloc))
    (junk : Memory) (hE : E .other) :
    Post E (fun r => After wide n c p₀ A₀ r.2) (p.readPacket wide c m junk) := by
  obtain ⟨A, conn, hinv, hc, hn, h₀⟩ := h
  obtain ⟨p₁, A₁, alloc, h₁, heff₁, -, hconns₁, -, hrun⟩ := readPacket_spec hinv hc m junk
  rw [hrun]
  cases hread : sclReadPacket conn.reader alloc junk conn.evs with
  | none => exact hE
  | some r =>
    obtain ⟨h₂, heff₂⟩ := setConn_spec h₁ (hconns₁ ▸ hc) r.2.1 r.2.2
    have heff := heff₁.trans (heff₂ _ _)
    exact After.step h₂ hc hn h₀ heff (fun mk hmk => Or.inr (hn ▸ hmk))
      fun mk hmk => Or.inr (hn ▸ hmk)

theorem getValue_post (h : After wide n c p₀ A₀ p) (type : SclType) (withLen : Bool)
    (m : Option (Malloc × Malloc)) (hE : E .other) :
    Post E (fun r => After wide n c p₀ A₀ r.2) (p.getValue wide c type withLen m) := by
  obtain ⟨A, conn, hinv, hc, hn, h₀⟩ := h
  obtain ⟨p₁, A₁, table, h₁, heff₁, -, hconns₁, hrun⟩ := getValue_spec hinv hc type withLen m
  rw [hrun]
  cases hval : sclGetValue conn.reader type withLen table with
  | none => exact hE
  | some r =>
    obtain ⟨h₂, heff₂⟩ := setConn_spec h₁ (hconns₁ ▸ hc) r.2.2 conn.evs
    have heff := heff₁.trans (heff₂ _ _)
    exact After.step h₂ hc hn h₀ heff (fun mk hmk => Or.inr (hn ▸ hmk))
      fun mk hmk => Or.inr (hn ▸ hmk)

theorem getInt_post (h : After wide n c p₀ A₀ p) (hE : E .other) :
    Post E (fun r => After wide n c p₀ A₀ r.2) (p.getInt wide c) := by
  unfold Process.getInt
  apply Post.bind (getValue_post h .int false none hE)
  rintro ⟨ret, p₁⟩ h₁
  obtain ⟨A₁, conn₁, hinv₁, hc₁, -⟩ := id h₁
  simp only [hinv₁.conn_ok hc₁, ok_bind]
  cases conn₁.reader.word ret with
  | none => exact hE
  | some v => exact h₁

/-! ## Requests -/

/-- Four values can be queued: there is an element to fill, and the allocations of
    the next three succeed. -/
def Process.CanQueueFour (p : Process) (c : Addr) (ms : Mallocs) : Prop :=
  (p.writer.conns c).outCurEle ≠ 0 ∧ ms.element 0 ≠ none ∧ ms.element 1 ≠ none ∧
    ms.element 2 ≠ none

theorem queueFour_post (h : After wide n c p₀ A₀ p) (q₀ q₁ q₂ q₃ : Queued) (ms : Mallocs)
    (hE : ¬ p.CanQueueFour c ms → E (.element 0)) :
    Post E (After wide n c p₀ A₀) (p.queueFour wide c q₀ q₁ q₂ q₃ ms) := by
  unfold Process.queueFour
  apply Post.bind (queueValue_post h q₀ _ fun h0 => hE fun hcan => hcan.1 h0)
  rintro p₁ ⟨h₁, hcur₁⟩
  apply Post.bind (queueValue_post h₁ q₁ _ fun h0 => hE fun hcan => hcan.2.1 (hcur₁.mp h0))
  rintro p₂ ⟨h₂, hcur₂⟩
  apply Post.bind (queueValue_post h₂ q₂ _ fun h0 => hE fun hcan => hcan.2.2.1 (hcur₂.mp h0))
  rintro p₃ ⟨h₃, hcur₃⟩
  apply Post.mono (queueValue_post h₃ q₃ _ fun h0 => hE fun hcan => hcan.2.2.2 (hcur₃.mp h0))
  · exact fun _ h => h
  · exact fun _ h => h.1

theorem message_post (h : After wide n c p₀ A₀ p) (hE : E .other) :
    Post E (fun r => After wide n c p₀ A₀ r.2) (p.message wide c) := by
  unfold Process.message
  apply Post.bind (getInt_post h hE)
  rintro ⟨returnNo, p₁⟩ h₁
  apply Post.bind (getValue_post h₁ .string false none hE)
  rintro ⟨ret, p₂⟩ h₂
  exact h₂

theorem createSuvlet_post (h : After wide n c p₀ A₀ p) (s : Suvlet) (ms : Mallocs)
    (hother : E .other) (hE : ¬ p.CanQueueFour c ms → E (.element 0)) :
    Post E (fun r => After wide n c p₀ A₀ r.2) (p.createSuvlet wide c s ms) := by
  unfold Process.createSuvlet
  apply Post.bind (setOpcode_post h sclCsuvlet)
  rintro p₁ ⟨h₁, hcur⟩
  have hE₁ : ¬ p₁.CanQueueFour c ms → E (.element 0) := by
    unfold Process.CanQueueFour
    rw [hcur]
    exact hE
  apply Post.bind (queueFour_post h₁ _ _ _ _ ms hE₁)
  intro p₂ h₂
  apply Post.bind (writeOut_post h₂)
  intro p₃ h₃
  apply Post.bind (readPacket_post h₃ _ _ hother)
  rintro ⟨bytes, p₄⟩ h₄
  apply Post.bind (getInt_post h₄ hother)
  rintro ⟨resultCode, p₅⟩ h₅
  apply Post.bind (getValue_post h₅ .string false none hother)
  rintro ⟨resultText, p₆⟩ h₆
  apply Post.bind (freePacketMem_post h₆)
  intro p₇ h₇
  exact h₇

theorem destroySuvlet_post (h : After wide n c p₀ A₀ p) (ms : Mallocs) (hother : E .other) :
    Post E (After wide n c p₀ A₀) (p.destroySuvlet wide c ms) := by
  unfold Process.destroySuvlet
  apply Post.bind (setOpcode_post h sclDsuvlet)
  rintro p₁ ⟨h₁, -⟩
  apply Post.bind (writeOut_post h₁)
  intro p₂ h₂
  apply Post.bind (readPacket_post h₂ _ _ hother)
  rintro ⟨bytes, p₃⟩ h₃
  exact freePacketMem_post h₃

/-! ## Faults -/

/-- Unless four values can be queued, one of the calls finds no element. -/
theorem queueFour_faults (h : After wide n c p₀ A₀ p) (q₀ q₁ q₂ q₃ : Queued) {ms : Mallocs}
    (hcan : ¬ p.CanQueueFour c ms) :
    p.queueFour wide c q₀ q₁ q₂ q₃ ms = .error (.element 0) := by
  -- each call returns, with the connection, or is the one that faults
  have hqueue : ∀ (p : Process) (q : Queued) (m : Option (Malloc × Malloc)),
      After wide n c p₀ A₀ p → (p.writer.conns c).outCurEle = 0 ∧
        p.queueValue wide c q m = .error (.element 0) ∨
      (p.writer.conns c).outCurEle ≠ 0 ∧ ∃ p', p.queueValue wide c q m = .ok p' ∧
        After wide n c p₀ A₀ p' ∧ ((p'.writer.conns c).outCurEle = 0 ↔ m = none) := by
    intro p q m hp
    obtain ⟨A, conn, hinv, hc, -⟩ := id hp
    by_cases hcur : (p.writer.conns c).outCurEle = 0
    · exact Or.inl ⟨hcur, queueValue_null hinv hc hcur q m⟩
    · obtain ⟨p', A', hrun, -⟩ := queueValue_spec hinv hc hcur q m
      have hpost := queueValue_post (E := fun _ => True) hp q m fun _ => trivial
      exact Or.inr ⟨hcur, p', hrun, hpost.ok hrun⟩
  unfold Process.queueFour
  rcases hqueue p q₀ (ms.element 0) h with ⟨-, hrun⟩ | ⟨h0, p₁, hrun, h₁, hcur₁⟩
  · rw [hrun, error_bind]
  rw [hrun, ok_bind]
  rcases hqueue p₁ q₁ (ms.element 1) h₁ with ⟨-, hrun⟩ | ⟨hm₀, p₂, hrun, h₂, hcur₂⟩
  · rw [hrun, error_bind]
  rw [hrun, ok_bind]
  rcases hqueue p₂ q₂ (ms.element 2) h₂ with ⟨-, hrun⟩ | ⟨hm₁, p₃, hrun, h₃, hcur₃⟩
  · rw [hrun, error_bind]
  rw [hrun, ok_bind]
  rcases hqueue p₃ q₃ (ms.element 3) h₃ with ⟨-, hrun⟩ | ⟨hm₂, -⟩
  · exact hrun
  · refine absurd ⟨h0, fun hm => hm₀ (hcur₁.mpr hm), fun hm => hm₁ (hcur₂.mpr hm),
      fun hm => hm₂ (hcur₃.mpr hm)⟩ hcan

theorem createSuvlet_faults (h : Inv wide p A) (hc : p.conns.get c = some conn) (s : Suvlet)
    {ms : Mallocs} (hcan : ¬ p.CanQueueFour c ms) :
    p.createSuvlet wide c s ms = .error (.element 0) := by
  obtain ⟨p₁, hrun, h₁, heff, hconns, hcur⟩ := setOpcode_spec h hc sclCsuvlet
  have hcan₁ : ¬ p₁.CanQueueFour c ms := by
    unfold Process.CanQueueFour
    rw [hcur]
    exact hcan
  simp only [Process.createSuvlet, hrun, ok_bind,
    queueFour_faults (h₁.after (hconns ▸ hc)) _ _ _ _ hcan₁, error_bind]

/-- `scl_write_out` dereferences the head of the queue. -/
theorem writeOut_faults {t : Addr} (hconn : p.conn wide c = .ok conn)
    (ht : (p.writer.conns c).outEleQueue = t) (hgone : p.writer.heap.get t = none) :
    p.writeOut wide c = .error (.element t) := by
  have hstart := (foldl_fwrite_ends (p.writer.conns c).header (p.writer.conns c)).1
  simp only [Process.writeOut, hconn, ok_bind, Process.setOut_conns_self, hstart, ht]
  generalize (p.writer.conns c).header.foldl OutConn.fwrite (p.writer.conns c) = out
  have helem : (p.setOut c out).element wide t = .error (.element t) := by
    unfold Process.element
    rw [show (p.setOut c out).writer.heap = p.writer.heap from rfl, hgone]
  simp only [Process.writeOutLoop, helem, error_bind]

/-- `close_suva_conn` releases the first element of the queue and then writes the
    queue out. -/
theorem closeSuvaConn_faults (h : Inv wide p A) (hc : p.conns.get c = some conn) (ms : Mallocs) :
    p.closeSuvaConn wide c ms = .error (.element (p.writer.conns c).outEleQueue) := by
  obtain ⟨hptr, hmk, hget⟩ := h.conns c conn hc
  obtain ⟨l, hl⟩ := h.queue c conn hc
  generalize ht : (p.writer.conns c).outEleQueue = t
  -- the head of the queue is an element, not the struct
  have htc : c ≠ t := by
    obtain ⟨x, l', rfl⟩ := List.exists_cons_of_ne_nil hl.ne_nil
    obtain ⟨hx, -⟩ := (ht ▸ hl.chain : IsChain _ t _)
    intro hct
    have := ((hl.mem_iff c).mp (by simp [hct, hx])).2
    simp [hmk] at this
  obtain ⟨p₁, A₁, hfree, hmem₁, hrel, hout₁, -⟩ := memFree_spec h.mem t
  obtain ⟨hptr₁, -, hconn₁⟩ := hrel.same c (by simpa using htc)
  rw [hptr₁.symm] at hptr
  have hc₁ : p₁.conns.get c = some conn := hconn₁.trans hc
  obtain ⟨mem, hfreeAll, hmem₂⟩ := Mem.memFreeAll_refines hmem₁ conn.inMemId
  unfold Registry.step at hmem₂
  simp only [if_neg (h.known _ (h.ids_mem hc).1).2.1] at hmem₂
  -- the struct has another type than the packets
  obtain ⟨e, he⟩ := Option.isSome_iff_exists.mp hptr
  have hetype : e.type ≠ conn.inMemId := by
    obtain ⟨mk', hmk', htype⟩ := h.typed c e (hptr₁.symm.trans he)
    rw [hmk] at hmk'
    obtain rfl := Option.some.inj hmk'
    intro hid
    have hreads := h.reads_of_type hc (hid ▸ htype)
    simp [Maker.Reads] at hreads
  have hc₂ : ({ p₁ with mem := mem } : Process).conn wide c = .ok conn := by
    refine conn_ok hmem₂ ?_ hc₁
    simp [he, hetype]
  have hwrite : ∀ out : OutConn, out.outEleQueue = t →
      (({ p₁ with mem := mem } : Process).setOut c out).writeOut wide c = .error (.element t) := by
    intro out hout
    refine writeOut_faults hc₂ ?_ (hrel.gone t (by simp)).2.1
    rw [Process.setOut_conns_self, hout]
  have hstart : (p₁.writer.conns c).outEleQueue = t := by rw [hout₁, ht]
  simp only [Process.closeSuvaConn, h.conn_ok hc, ok_bind, ht, hfree, Process.freePacketMem,
    conn_ok hmem₁ hptr hc₁, hfreeAll, orFault_some, Process.setOpcode, hc₂]
  rw [hwrite { p₁.writer.conns c with outPacketOpcode := sclCconn } hstart, error_bind]

end CompatSuva.Conn
