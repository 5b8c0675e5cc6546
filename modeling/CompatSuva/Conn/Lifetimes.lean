import CompatSuva.Conn.FailedOpen

/-!
# The life of a queue element

Queueing a value allocates the next element, sending releases all elements but the
last, and `close_suva_conn` releases that one before it sends the last packet. So
every element is live when it is used, until a connection is closed or there is no
memory for the next element.
-/

namespace CompatSuva.Conn

open CompatSuva.Common CompatSuva.Scl
open CompatSuva.Mem (Malloc Registry wideX86)

variable {wide : Byte → ℕ → BitVec 32} {p p' : Process} {A A' : Registry} {c : Addr}
variable {conn : SuvaConn}

variable (wide) in
/-- Every call of a run is careful in the state it is made in. -/
def Process.CarefulRun : Process → List Call → Prop
  | _, [] => True
  | p, call :: calls =>
    p.Careful call ∧ ∀ p', p.step wide call = .ok p' → p'.CarefulRun calls

/-- A careful run uses live elements only. -/
theorem Inv.carefulRun (h : Inv wide p A) {calls : List Call} (hcareful : p.CarefulRun wide calls)
    (a : Addr) : p.run wide calls ≠ .error (.element a) := by
  induction calls generalizing p A with
  | nil =>
    intro hrun
    simp [Process.run, pure, Except.pure] at hrun
  | cons call calls ih =>
    obtain ⟨hcall, hcalls⟩ := hcareful
    have hstep := step_spec h call
    rw [Process.run, List.foldlM_cons]
    cases hrun : p.step wide call with
    | error f =>
      intro hf
      obtain rfl := Except.error.inj hf
      exact (hstep.error hrun).elim (fun hne => by simp at hne) fun hn => hn hcall
    | ok p' =>
      obtain ⟨A', hinv, -⟩ := hstep.ok hrun
      exact ih hinv (hcalls p' hrun)

/-- A call that is not careful faults, on a connection with an element. -/
theorem Inv.careless (h : Inv wide p A) {call : Call} (hcall : ¬ p.Careful call) :
    ∃ f, p.step wide call = .error f ∧ (call.on ≠ none → ∃ a, f = .element a) := by
  cases call
  case openSuvaConn o =>
    obtain ⟨hlate, hhas⟩ := not_or.mp hcall
    have hpost := openSuvaConn_faults h hlate hhas
    cases hrun : p.openSuvaConn wide o with
    | error f => exact ⟨f, by rw [Process.step, hrun, error_map], fun hon => absurd rfl hon⟩
    | ok r => exact (hpost.ok hrun).elim
  case queueValue c q m =>
    obtain ⟨hc, hcur⟩ := by simpa [Process.Careful] using hcall
    obtain ⟨conn, hc⟩ := Option.ne_none_iff_exists'.mp hc
    exact ⟨_, queueValue_null h hc hcur q m, fun _ => ⟨0, rfl⟩⟩
  case createSuvlet c s ms =>
    obtain ⟨hc, hcan⟩ := by simpa [Process.Careful] using hcall
    obtain ⟨conn, hc⟩ := Option.ne_none_iff_exists'.mp hc
    refine ⟨_, ?_, fun _ => ⟨0, rfl⟩⟩
    rw [Process.step, createSuvlet_faults h hc s hcan, error_map]
  case closeSuvaConn c ms =>
    obtain ⟨conn, hc⟩ := Option.ne_none_iff_exists'.mp hcall
    exact ⟨_, closeSuvaConn_faults h hc ms, fun _ => ⟨_, rfl⟩⟩
  all_goals simp [Process.Careful] at hcall

/-- In a run of the API the queue elements that are used are live as long as no connection is
    closed and there was memory for every element to be filled. A call that is not so careful
    does not return: on a connection, it uses an element that is not live. -/
theorem elements_live_of_careful {m : Option Mem.Malloc} {p₀ : Process}
    (hinit : suvaApiInit wide m = .ok p₀) (calls : List Call) :
    (p₀.CarefulRun wide calls → ∀ a, p₀.run wide calls ≠ .error (.element a)) ∧
      ∀ p call, p₀.run wide calls = .ok p → ¬ p.Careful call →
        ∃ f, p.step wide call = .error f ∧ (call.on ≠ none → ∃ a, f = .element a) := by
  obtain ⟨A₀, h₀⟩ := suvaApiInit_inv hinit
  constructor
  · intro hcareful a
    exact h₀.carefulRun hcareful a
  · intro p call hrun hcall
    obtain ⟨A, hinv⟩ := (run_inv h₀ calls).ok hrun
    exact hinv.careless hcall

/-- Opening, sending a value and a request, all live. -/
theorem elements_live_of_careful_exchange : ∃ (p₀ p : Process) (c : Addr),
    suvaApiInit wideX86 (some (.above 0)) = .ok p₀ ∧
    p₀.openSuvaConn wideX86 (.unhindered greeting) = .ok (some c, p) ∧
    ∀ a, p₀.run wideX86 [.openSuvaConn (.unhindered greeting),
      .queueValue c (intArg 5) (some (.above 0, .above 1)), .writeOut c,
      .destroySuvlet c (Opening.unhindered []).mallocs] ≠ .error (.element a) := by
  obtain ⟨p₀, c, p, hinit, hrun, conn, A, hinv, hc, hcur⟩ := unhindered_returns
  refine ⟨p₀, p, c, hinit, hrun, (elements_live_of_careful hinit _).1 ?_⟩
  refine ⟨Or.inr (by simp [Opening.HasElements, Opening.unhindered]), fun p' hstep => ?_⟩
  rw [Process.step, hrun, map_ok, Except.ok.injEq] at hstep
  subst hstep
  exact ⟨fun _ => hcur, fun _ _ => ⟨trivial, fun _ _ => ⟨trivial, fun _ _ => trivial⟩⟩⟩

/-- Opening a connection and closing it uses the element that has been released. -/
theorem element_used_after_free : ∃ (p₀ p : Process) (c a : Addr),
    suvaApiInit wideX86 (some (.above 0)) = .ok p₀ ∧
    p₀.openSuvaConn wideX86 (.unhindered greeting) = .ok (some c, p) ∧
    (p.writer.conns c).outEleQueue = a ∧
    p₀.run wideX86 [.openSuvaConn (.unhindered greeting),
      .closeSuvaConn c (Opening.unhindered []).mallocs] = .error (.element a) := by
  obtain ⟨p₀, c, p, hinit, hrun, conn, A, hinv, hc, hcur⟩ := unhindered_returns
  refine ⟨p₀, p, c, _, hinit, hrun, rfl, ?_⟩
  have hclose := closeSuvaConn_faults hinv hc (Opening.unhindered []).mallocs
  simp only [Process.run, List.foldlM_cons, Process.step, hrun, map_ok, ok_bind, hclose, error_bind]

end CompatSuva.Conn
