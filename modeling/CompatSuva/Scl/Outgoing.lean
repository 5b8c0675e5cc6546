import CompatSuva.Scl.RoundTrip

/-!
# The writing side, as its users see it

The code above the writer sets an opcode, queues values and writes packets; it
never looks at the queue. `Outgoing` is what is left of a connection then: the
opcode, the values pending and the packets written.

* `step_tracks`, `run_tracks`: the calls put exactly these packets on the wire.
-/

namespace CompatSuva.Scl

open CompatSuva.Common

/-- The writing side of a connection: `out_packet_opcode`, the values queued, and
    the packets written so far. -/
structure Outgoing where
  opcode : BitVec 32
  pending : List Queued
  sent : List (BitVec 32 × List Queued)

namespace Outgoing

/-- `conn->out_packet_opcode = opcode`. -/
def setOpcode (o : Outgoing) (opcode : BitVec 32) : Outgoing := { o with opcode := opcode }

/-- `scl_queue_value`. -/
def queueValue (o : Outgoing) (q : Queued) : Outgoing := { o with pending := o.pending ++ [q] }

/-- `scl_write_out`. -/
def writeOut (o : Outgoing) : Outgoing :=
  { o with pending := [], sent := o.sent ++ [(o.opcode, o.pending)] }

/-- Set the opcode, queue the values, write the packet. -/
def send (o : Outgoing) (opcode : BitVec 32) (qs : List Queued) : Outgoing :=
  (qs.foldl queueValue (o.setOpcode opcode)).writeOut

/-- A connection on which nothing has been queued or written. -/
def opened : Outgoing := ⟨0, [], []⟩

theorem foldl_queueValue (o : Outgoing) (qs : List Queued) :
    qs.foldl queueValue o = { o with pending := o.pending ++ qs } := by
  induction qs generalizing o with
  | nil => simp
  | cons q qs ih => simp [ih, queueValue]

@[simp] theorem send_opcode (o : Outgoing) (opcode : BitVec 32) (qs : List Queued) :
    (o.send opcode qs).opcode = opcode := by
  simp [send, foldl_queueValue, writeOut, setOpcode]

@[simp] theorem send_pending (o : Outgoing) (opcode : BitVec 32) (qs : List Queued) :
    (o.send opcode qs).pending = [] := rfl

@[simp] theorem send_sent (o : Outgoing) (opcode : BitVec 32) (qs : List Queued) :
    (o.send opcode qs).sent = o.sent ++ [(opcode, o.pending ++ qs)] := by
  simp [send, foldl_queueValue, writeOut, setOpcode]

@[simp] theorem setOpcode_sent (o : Outgoing) (opcode : BitVec 32) :
    (o.setOpcode opcode).sent = o.sent := rfl

@[simp] theorem setOpcode_pending (o : Outgoing) (opcode : BitVec 32) :
    (o.setOpcode opcode).pending = o.pending := rfl

variable {ι : Type} [DecidableEq ι]

/-- What a call of the writer does to the writing side of connection `c`. -/
def step (c : ι) (o : Outgoing) : WriterOp ι → Outgoing
  | .opcode c' opcode => if c' = c then o.setOpcode opcode else o
  | .queue c' q _ => if c' = c then o.queueValue q else o
  | .writeOut c' => if c' = c then o.writeOut else o

/-- On connection `c` of `w`, `o` has been queued and written behind `base`. -/
structure Tracks (w : Writer ι) (A : Outbox ι) (c : ι) (base : List Byte) (o : Outgoing) :
    Prop where
  refines : Refines w A
  opcode : o.opcode = A.opcode c
  pending : o.pending = A.pending c
  out : (w.conns c).out = base ++ o.sent.flatMap fun p => packet p.1 p.2

variable {w : Writer ι} {A : Outbox ι} {c : ι} {base : List Byte} {o : Outgoing}

/-- One call of the writer. -/
theorem step_tracks (h : Tracks w A c base o) {op : WriterOp ι} (hop : op.Fresh w)
    (hlen : (payload o.pending).length < 2 ^ 32) :
    ∃ w', w.step op = some w' ∧ Tracks w' (A.step op) c base (o.step c op) := by
  obtain ⟨w', hstep, hrefines⟩ := step_refines h.refines hop
  refine ⟨w', hstep, ?_⟩
  have hpending := h.pending
  have hopcode := h.opcode
  cases op with
  | opcode c' op =>
    have hout := step_out (by simp) hstep c
    by_cases hc : c' = c
    · subst hc
      refine ⟨hrefines, ?_, ?_, ?_⟩
      · simp [step, setOpcode, Outbox.step]
      · simpa [step, Outbox.step] using hpending
      · simpa [step, hout] using h.out
    · have hc' : c ≠ c' := fun heq => hc heq.symm
      refine ⟨hrefines, ?_, ?_, ?_⟩
      · simpa [step, hc, hc', Outbox.step] using hopcode
      · simpa [step, hc, Outbox.step] using hpending
      · simpa [step, hc, hout] using h.out
  | queue c' q core =>
    have hout := step_out (by simp) hstep c
    by_cases hc : c' = c
    · subst hc
      refine ⟨hrefines, ?_, ?_, ?_⟩
      · simpa [step, queueValue, Outbox.step] using hopcode
      · simp [step, queueValue, Outbox.step, hpending]
      · simpa [step, queueValue, hout] using h.out
    · have hc' : c ≠ c' := fun heq => hc heq.symm
      refine ⟨hrefines, ?_, ?_, ?_⟩
      · simpa [step, hc, Outbox.step] using hopcode
      · simpa [step, hc, hc', Outbox.step] using hpending
      · simpa [step, hc, hout] using h.out
  | writeOut c' =>
    obtain ⟨w'', hstep', -, hothers, -, -, -, -, hout⟩ := writeOut_packet h.refines c'
    obtain rfl : w'' = w' := Option.some.inj (hstep'.symm.trans hstep)
    by_cases hc : c' = c
    · subst hc
      rw [← hpending, ← hopcode] at hout
      refine ⟨hrefines, ?_, ?_, ?_⟩
      · simpa [step, writeOut, Outbox.step] using hopcode
      · simp [step, writeOut, Outbox.step]
      · rw [hout fun q hq => lt_of_le_of_lt (enc_length_le_payload hq) hlen, h.out]
        simp [step, writeOut]
    · have hc' : c ≠ c' := fun heq => hc heq.symm
      refine ⟨hrefines, ?_, ?_, ?_⟩
      · simpa [step, hc, Outbox.step] using hopcode
      · simpa [step, hc, hc', Outbox.step] using hpending
      · simpa [step, hc, hothers c hc'] using h.out

/-- The payloads pending before each call have fewer than `2^32` bytes. -/
def Bounded (c : ι) : Outgoing → List (WriterOp ι) → Prop
  | _, [] => True
  | o, op :: ops => (payload o.pending).length < 2 ^ 32 ∧ Bounded c (o.step c op) ops

/-- Any sequence of calls, on any connections: what connection `c` has put on the
    wire is what its user has sent. -/
theorem run_tracks (h : Tracks w A c base o) {ops : List (WriterOp ι)} (hops : AllFresh w ops)
    (hlen : Bounded c o ops) :
    ∃ w', w.run ops = some w' ∧
      Tracks w' (ops.foldl Outbox.step A) c base (ops.foldl (step c) o) := by
  induction ops generalizing w A o with
  | nil => exact ⟨w, rfl, h⟩
  | cons op ops ih =>
    obtain ⟨w₁, hstep, h₁⟩ := step_tracks h hops.1 hlen.1
    obtain ⟨w', hrun, h'⟩ := ih h₁ (hops.2 w₁ hstep) hlen.2
    refine ⟨w', ?_, h'⟩
    rw [Writer.run, List.foldlM_cons, hstep]
    exact hrun

end Outgoing

/-! ## Values the suvlets and their clients queue -/

namespace Queued

/-- A NULL string. -/
def noText : Queued := ⟨.string none, .null, 0, rfl⟩

/-- A string pointer, NULL or not. -/
def textOrNull (s : Option CStr) : Queued :=
  match s with
  | none => noText
  | some s => text s

/-- A `double`. -/
def doub (v : BitVec 64) : Queued :=
  ⟨.doub v, .mem (bytesOf v), 0, by simp [Value.Rep, Value.type, SclType.isComplex, Value.elems]⟩

/-- A `char` queued as an `SCL_BOOL`. -/
def bool (v : Byte) : Queued :=
  ⟨.bool v, .mem [v], 0, by simp [Value.Rep, Value.type, SclType.isComplex, Value.elems]⟩

/-- An `int` queued as an `SCL_BOOL`: its lowest byte. -/
def intAsBool (v : BitVec 32) : Queued where
  value := .bool (UInt8.ofNat v.toNat)
  object := .mem (bytesOf v)
  arrayLen := 0
  rep := ⟨by simp [Value.type, SclType.isComplex], Or.inr ⟨leBytes 3 (v.toNat / 256), rfl⟩⟩

/-- A block of bytes. -/
def data (bs : List Byte) : Queued where
  value := .data bs
  object := .mem bs
  arrayLen := bs.length
  rep := ⟨fun _ => rfl, Or.inr ⟨[], by simp [Value.elems]⟩⟩

/-- No bytes, from a null pointer. -/
def noData : Queued where
  value := .data []
  object := .null
  arrayLen := 0
  rep := ⟨fun _ => rfl, Or.inl ⟨rfl, rfl⟩⟩

end Queued

end CompatSuva.Scl
