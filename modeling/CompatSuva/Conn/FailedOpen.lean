import CompatSuva.Conn.Isolation

/-!
# What a failed open leaves behind

`open_suva_conn` cleans up by hand on each of its exits. Up to the memory ids the
clean-up is complete; after them it leaves the first element of the queue, and when
the first packet does not come, also the socket and the struct.
-/

namespace CompatSuva.Conn

open CompatSuva.Common CompatSuva.Scl
open CompatSuva.Mem (Registry wideX86)

variable {wide : Byte → ℕ → BitVec 32} {p p' : Process} {A : Registry}

/-- The socket that was opened is closed, and the tracked blocks are those there were. -/
def Opening.NoTrace (o : Opening) (p p' : Process) : Prop :=
  (∀ fd, o.hostFound = true → o.socket = some fd → fd ∉ p'.sockets) ∧
    ∀ a e, p'.mem.Tracks a e ↔ p.mem.Tracks a e

/-- The tracked blocks are those there were if the failure was early, and only then. -/
theorem Inv.tracks_iff (h : Inv wide p A) {o : Opening}
    (hrun : p.openSuvaConn wide o = .ok (none, p')) :
    (∀ a e, p'.mem.Tracks a e ↔ p.mem.Tracks a e) ↔ o.Early := by
  have hpost := openSuvaConn_spec (E := fun _ => True) h o trivial fun _ _ => trivial
  obtain ⟨A', hinv, -, -, hcase⟩ := hpost.ok hrun
  simp only at hinv hcase
  rcases hcase with ⟨hearly, -, hptrs, -⟩ | ⟨hlate, t, hnew, ht⟩
  · refine iff_of_true (fun a e => ?_) hearly
    rw [← hinv.mem.ptrs, ← h.mem.ptrs, hptrs]
  · refine iff_of_false (fun htracks => ?_) hlate
    obtain ⟨e, he⟩ := Option.isSome_iff_exists.mp ht
    rw [hinv.mem.ptrs, htracks, ← h.mem.ptrs, hnew] at he
    simp at he

/-- After an early failure the socket is closed. -/
theorem Inv.closed (h : Inv wide p A) {o : Opening}
    (hrun : p.openSuvaConn wide o = .ok (none, p')) (hearly : o.Early) (fd : ℕ)
    (hhost : o.hostFound = true) (hfd : o.socket = some fd) : fd ∉ p'.sockets := by
  have hpost := openSuvaConn_spec (E := fun _ => True) h o trivial fun _ _ => trivial
  obtain ⟨A', -, -, -, ⟨-, -, -, hsock⟩ | ⟨hlate, -⟩⟩ := hpost.ok hrun
  · exact hsock fd hhost hfd
  · exact absurd hearly hlate

/-- A failed `open_suva_conn` leaves no trace if and only if it fails in looking up the host,
    or in opening, connecting or setting up the socket. -/
theorem failed_open_no_trace_iff (h : p.Reachable wide) {o : Opening}
    (hrun : p.openSuvaConn wide o = .ok (none, p')) : o.NoTrace p p' ↔ o.Early := by
  obtain ⟨A, hinv⟩ := h.inv
  constructor
  · intro htrace
    exact (hinv.tracks_iff hrun).mp htrace.2
  · intro hearly
    exact ⟨hinv.closed hrun hearly, (hinv.tracks_iff hrun).mpr hearly⟩

/-- No server: the clean-up is complete. -/
theorem failed_open_no_trace_refused : ∃ p₀ p' : Process, p₀.Reachable wideX86 ∧
    p₀.openSuvaConn wideX86 { Opening.unhindered [] with connected := false } = .ok (none, p') ∧
    { Opening.unhindered [] with connected := false }.NoTrace p₀ p' := by
  have heval : (suvaApiInit wideX86 (some (.above 0)) >>= fun p₀ => Prod.fst <$>
      p₀.openSuvaConn wideX86 { Opening.unhindered [] with connected := false }) = .ok none := by
    decide +kernel
  cases hinit : suvaApiInit wideX86 (some (.above 0)) with
  | error f => simp [hinit] at heval
  | ok p₀ =>
    rw [hinit, ok_bind] at heval
    cases hrun : p₀.openSuvaConn wideX86 { Opening.unhindered [] with connected := false } with
    | error f => simp [hrun] at heval
    | ok r =>
      obtain ⟨c, p'⟩ := r
      rw [hrun, map_ok, Except.ok.injEq] at heval
      simp only at heval
      subst heval
      have hreach : p₀.Reachable wideX86 := ⟨_, p₀, [], hinit, rfl⟩
      exact ⟨p₀, p', hreach, hrun,
        (failed_open_no_trace_iff hreach hrun).mpr (Or.inr (Or.inr (Or.inl rfl)))⟩

/-- The server hangs up at once: the socket stays open and blocks stay tracked. -/
theorem failed_open_leaves_socket : ∃ p₀ p' : Process, p₀.Reachable wideX86 ∧
    p₀.openSuvaConn wideX86 (.unhindered []) = .ok (none, p') ∧
    3 ∈ p'.sockets ∧ ¬ ∀ a e, p'.mem.Tracks a e ↔ p₀.mem.Tracks a e := by
  have heval : (suvaApiInit wideX86 (some (.above 0)) >>= fun p₀ =>
      (fun r => (r.1, decide (3 ∈ r.2.sockets))) <$>
        p₀.openSuvaConn wideX86 (.unhindered [])) = .ok (none, true) := by
    decide +kernel
  cases hinit : suvaApiInit wideX86 (some (.above 0)) with
  | error f => simp [hinit] at heval
  | ok p₀ =>
    rw [hinit, ok_bind] at heval
    cases hrun : p₀.openSuvaConn wideX86 (.unhindered []) with
    | error f => simp [hrun] at heval
    | ok r =>
      obtain ⟨c, p'⟩ := r
      rw [hrun, map_ok, Except.ok.injEq, Prod.mk.injEq, decide_eq_true_iff] at heval
      obtain ⟨hc, hsock⟩ := heval
      simp only at hc hsock
      subst hc
      have hreach : p₀.Reachable wideX86 := ⟨_, p₀, [], hinit, rfl⟩
      obtain ⟨A, hinv⟩ := hreach.inv
      refine ⟨p₀, p', hreach, hrun, hsock, fun htracks => ?_⟩
      have hearly := (hinv.tracks_iff hrun).mp htracks
      simp [Opening.Early, Opening.unhindered] at hearly

end CompatSuva.Conn
