import CompatSuva.Local.Steps

/-!
# The two models of `scl_il_xfer_ex`

`Xfer.lean` has the transfer between two parties, with the bytes that go between them, and
without a callback. `Steps.lean` has it by the outcomes of its steps, whatever these are. Here the
calls of the parties are taken for the steps: then the two are the same transfer.

* `ofParties` is the adapter;
* `sclIlXferEx_ofParties`: the transfer between the parties is the one by these steps.
-/

namespace CompatSuva.Local

open CompatSuva.Common CompatSuva.Scl CompatSuva.Suvlet

variable {σ φ τ ψ : Type} (P : Parties σ φ τ ψ)

/-! ## The adapter -/

/-- The client, the local file if it is open, and the bytes at `data`. -/
structure Sides (σ φ τ ψ : Type) where
  client : Client σ φ τ
  file : Option ψ
  block : List Byte

/-- The reply by the way the transfer ends. -/
def openReply : Option Exit → OpenReply
  | none => .freturn 0
  | some e => if e.code = 3 then .unexpected else .freturn 1

@[inherit_doc openReply]
def putReply : Option Exit → PutReply
  | none => .freturn 0
  | some e => if e.code = 4 then .unexpected else .freturn 1

@[inherit_doc openReply]
def getReply : Except Exit (ℤ × List Byte) → GetReply
  | .ok (dataLen, _) => .freturn (some dataLen)
  | .error e => if e.code = 4 then .unexpected else .freturn none

theorem noNul_modeR : (0 : Byte) ∉ chars "r" := by decide

theorem noNul_modeW : (0 : Byte) ∉ chars "w" := by decide

/-- The mode the local file is opened with. -/
def localModeOf : Direction → CStr
  | .get => ⟨chars "w", noNul_modeW⟩
  | .put => ⟨chars "r", noNul_modeR⟩

/-- The mode the remote file is opened with. -/
def remoteModeOf : Direction → CStr
  | .get => ⟨chars "r", noNul_modeR⟩
  | .put => ⟨chars "w", noNul_modeW⟩

namespace Sides

/-- The client has gone on. -/
def withClient (w : Sides σ φ τ ψ) (cl : Client σ φ τ) : Sides σ φ τ ψ := { w with client := cl }

/-- The machine here has gone on. -/
def withOs (w : Sides σ φ τ ψ) (os : τ) : Sides σ φ τ ψ :=
  w.withClient { w.client with os := os }

end Sides

/-- The calls of the parties as the steps of a transfer. -/
def ofParties (localName remoteName : Option CStr) (direction : Direction)
    (blockSize : BitVec 32) : Steps (Sides σ φ τ ψ) where
  malloc w := some (true, w)
  getApiVersion w :=
    (sclIlGetApiVersion P w.client).map fun r => (r.1.toInt, w.withClient r.2)
  fopen w :=
    let r := P.here.fopen localName (localModeOf direction) w.client.os
    some (r.1.isSome, { w.withOs r.2 with file := r.1 })
  getFsizeMode w :=
    (getFsizeMode P remoteName w.client).map fun r =>
      ((r.1.toInt, r.2.1), w.withClient r.2.2)
  stat w := some (P.here.stat localName w.client.os, w)
  openFile w :=
    (openRemote P remoteName (remoteModeOf direction) w.client).map fun r =>
      (openReply r.1, w.withClient r.2)
  gettimeofday w := some (some (0, 0), w)
  fread w :=
    if blockSize.toInt < 0 then none
    else w.file.map fun f =>
      let r := P.here.fread f blockSize.toNat w.client.os
      (r.1.length, { w.withOs r.2.2 with file := some r.2.1, block := r.1 })
  putData _ w :=
    (putBlock P w.block w.client).map fun r => (putReply r.1, w.withClient r.2)
  getData w :=
    (fetchBlock P blockSize w.client).map fun r =>
      (getReply r.1, { w.withClient r.2 with block := (r.1.map Prod.snd).toOption.getD [] })
  fwrite _ w :=
    w.file.map fun f =>
      let r := P.here.fwrite f w.block w.client.os
      (r.1, { w.withOs r.2.2 with file := some r.2.1 })
  freePacketMem w := some ((), w.withClient w.client.freePacketMem)
  bps := floatBps
  callback := none
  chmod mode w := some ((), w.withOs (P.here.chmod localName mode w.client.os).2)
  setFmode mode w :=
    (setRemoteMode P remoteName mode w.client).map fun r => ((), w.withClient r.2)
  closeFile w := (closeRemote P w.client).map fun cl => ((), w.withClient cl)
  fclose w := some ((), w.file.elim w fun f => w.withOs (P.here.fclose f w.client.os).2)

/-! ## The exits -/

section

variable {cl cl' : Client σ φ τ} {e : Exit}

/-- A call ends a transfer in ways by which its reply is known. -/
theorem openRemote_exit {remoteName : Option CStr} {mode : CStr}
    (h : openRemote P remoteName mode cl = some (some e, cl')) :
    e = ⟨3, true, true, false⟩ ∨ e = ⟨4, false, true, false⟩ := by
  unfold openRemote at h
  obtain ⟨_, -, h⟩ := Option.bind_eq_some_iff.mp h
  split_ifs at h
  · obtain ⟨_, -, h⟩ := Option.bind_eq_some_iff.mp h
    cases h
    exact Or.inl rfl
  · obtain ⟨_, -, h⟩ := Option.bind_eq_some_iff.mp h
    obtain ⟨_, -, h⟩ := Option.bind_eq_some_iff.mp h
    simp only at h
    split_ifs at h
    · cases h
    · obtain ⟨_, -, h⟩ := Option.bind_eq_some_iff.mp h
      obtain ⟨_, -, h⟩ := Option.bind_eq_some_iff.mp h
      cases h
      exact Or.inr rfl

@[inherit_doc openRemote_exit]
theorem putBlock_exit {data : List Byte} (h : putBlock P data cl = some (some e, cl')) :
    e = ⟨4, false, true, true⟩ ∨ e = ⟨6, false, true, true⟩ := by
  unfold putBlock at h
  obtain ⟨_, -, h⟩ := Option.bind_eq_some_iff.mp h
  split_ifs at h
  · obtain ⟨_, -, h⟩ := Option.bind_eq_some_iff.mp h
    cases h
    exact Or.inl rfl
  · obtain ⟨_, -, h⟩ := Option.bind_eq_some_iff.mp h
    obtain ⟨_, -, h⟩ := Option.bind_eq_some_iff.mp h
    obtain ⟨hexit, -⟩ := Prod.mk.inj (Option.some.inj h)
    split_ifs at hexit
    exact Or.inr (Option.some.inj hexit).symm

@[inherit_doc openRemote_exit]
theorem fetchBlock_exit {blockSize : BitVec 32}
    (h : fetchBlock P blockSize cl = some (.error e, cl')) :
    e = ⟨4, false, true, true⟩ ∨ e = ⟨5, false, true, true⟩ := by
  unfold fetchBlock at h
  obtain ⟨_, -, h⟩ := Option.bind_eq_some_iff.mp h
  split_ifs at h
  · obtain ⟨_, -, h⟩ := Option.bind_eq_some_iff.mp h
    cases h
    exact Or.inl rfl
  · obtain ⟨_, -, h⟩ := Option.bind_eq_some_iff.mp h
    simp only at h
    split_ifs at h
    · cases h
      exact Or.inr rfl
    · obtain ⟨_, -, h⟩ := Option.bind_eq_some_iff.mp h
      obtain ⟨_, -, h⟩ := Option.bind_eq_some_iff.mp h
      cases h

end

/-! ## What a transfer comes to -/

variable {localName remoteName : Option CStr} {direction : Direction} {blockSize : BitVec 32}
  {s : Xfer (Sides σ φ τ ψ)} {f : ψ}

/-- The exit code, and the client. -/
def outcomeOf : Except Halt ℕ × Xfer (Sides σ φ τ ψ) → Option (ℕ × Client σ φ τ)
  | (.ok code, s) => some (code, s.world.client)
  | (.error _, _) => none

/-- The exit code and the client, from the way the body ends. -/
def endOf : Except Halt Unit × Xfer (Sides σ φ τ ψ) → Option (ℕ × Client σ φ τ)
  | (.ok (), s) =>
    sclIlXferExit P ⟨0, false, true, true⟩ (if s.fileHandle then s.world.file else none)
      s.world.client
  | (.error (.exit e), s) =>
    sclIlXferExit P e (if s.fileHandle then s.world.file else none) s.world.client
  | (.error (.fault _), _) => none

theorem onlyIf_note_run (s : Xfer (Sides σ φ τ ψ)) (c : Prop) [Decidable c] (e : Event) :
    ∃ log, (onlyIf c (note e : Halting Halt (Xfer (Sides σ φ τ ψ)) Unit)).runOn s =
      (.ok (), { s with log := log }) := by
  unfold onlyIf
  split_ifs
  · exact ⟨_, rfl⟩
  · exact ⟨s.log, rfl⟩

/-- The local file is closed if it is to be, and is open. -/
def closeLocal (kill : Bool) (fileHandle : Option ψ) (cl : Client σ φ τ) : Client σ φ τ :=
  { cl with os :=
      if kill then fileHandle.elim cl.os fun f => (P.here.fclose f cl.os).2 else cl.os }

theorem sclIlXferExit_eq (e : Exit) (fileHandle : Option ψ) (cl : Client σ φ τ) :
    sclIlXferExit P e fileHandle cl =
      (if e.killRemoteFile then closeRemote P cl.freePacketMem
        else some cl.freePacketMem).map fun cl =>
          (e.code, closeLocal P e.killLocalFile fileHandle cl) := by
  unfold sclIlXferExit closeLocal
  cases e.killRemoteFile with
  | false =>
    cases e.killLocalFile with
    | false => rfl
    | true => cases fileHandle <;> rfl
  | true =>
    simp only [if_true]
    cases closeRemote P cl.freePacketMem with
    | none => rfl
    | some cl =>
      cases e.killLocalFile with
      | false => rfl
      | true => cases fileHandle <;> rfl

theorem closeLocal_run (e : Exit) (s : Xfer (Sides σ φ τ ψ)) :
    outcomeOf ((onlyIf (e.killLocalFile ∧ s.fileHandle) (note .fclose >>= fun _ =>
        ask (ofParties P localName remoteName direction blockSize).fclose) >>= fun _ =>
          pure e.code).runOn s) =
      some (e.code, closeLocal P e.killLocalFile (if s.fileHandle then s.world.file else none)
        s.world.client) := by
  unfold onlyIf closeLocal
  cases e.killLocalFile with
  | false => rfl
  | true =>
    cases s.fileHandle with
    | false => rfl
    | true =>
      simp only [and_self, if_true, Halting.runOn_bind, runOn_note]
      rw [runOn_ask _ (show (ofParties P localName remoteName direction blockSize).fclose _ =
        some _ from rfl)]
      cases s.world.file with
      | none => rfl
      | some f => rfl

/-- The exits agree. -/
theorem sclIlXferExit_ofParties (e : Exit) :
    outcomeOf (((ofParties P localName remoteName direction blockSize).sclIlXferExit direction
        e).runOn s) =
      sclIlXferExit P e (if s.fileHandle then s.world.file else none) s.world.client := by
  obtain ⟨log, hfree⟩ := onlyIf_note_run s (s.data ≠ .null ∧ direction = .put) (.free s.data)
  rw [sclIlXferExit_eq]
  unfold Steps.sclIlXferExit
  rw [Halting.runOn_bind, runOn_get]
  simp only
  rw [Halting.runOn_bind, hfree]
  simp only
  rw [Halting.runOn_bind, runOn_ask _ (show
    (ofParties P localName remoteName direction blockSize).freePacketMem _ = some _ from rfl)]
  simp only
  rw [Halting.runOn_bind]
  cases e.killRemoteFile with
  | false =>
    exact closeLocal_run P e
      ⟨s.world.withClient s.world.client.freePacketMem, log, s.data, s.fileHandle⟩
  | true =>
    rw [onlyIf, if_pos rfl, Halting.runOn_bind, runOn_note]
    simp only
    have hclose : ∀ w, (ofParties P localName remoteName direction blockSize).closeFile w =
        (closeRemote P w.client).map fun cl => ((), w.withClient cl) := fun _ => rfl
    cases hremote : closeRemote P s.world.client.freePacketMem with
    | none =>
      rw [runOn_ask_none _ (by rw [hclose]; exact congrArg (Option.map _) hremote)]
      rfl
    | some cl =>
      rw [runOn_ask _ (by rw [hclose]; exact congrArg (Option.map _) hremote)]
      exact closeLocal_run P e ⟨s.world.withClient cl, log ++ [.inline .closeFile], s.data,
        s.fileHandle⟩

/-- A transfer comes to what its body ends in. -/
theorem outcomeOf_sclIlXferEx (fuel : ℕ) (bs ci : ℤ) :
    outcomeOf (((ofParties P localName remoteName direction blockSize).sclIlXferEx fuel direction
        bs ci).runOn s) =
      endOf P (((ofParties P localName remoteName direction blockSize).body fuel direction
        bs ci).runOn s) := by
  unfold Halting.runOn Steps.sclIlXferEx
  cases hrun : ((ofParties P localName remoteName direction blockSize).body fuel direction
    bs ci).runOn s with
  | mk r s' =>
    unfold Halting.runOn at hrun
    rw [hrun]
    match r with
    | .ok () => exact sclIlXferExit_ofParties P _
    | .error (.exit e) => exact sclIlXferExit_ofParties P e
    | .error (.fault f) => rfl

/-! ## Steps and calls, side by side -/

/-- Where both transfers have come to: the local file is `f`, and the client `cl`. -/
structure At (direction : Direction) (f : ψ) (cl : Client σ φ τ) (s : Xfer (Sides σ φ τ ψ)) :
    Prop where
  handle : s.fileHandle = true
  file : s.world.file = some f
  client : s.world.client = cl
  buffer : direction = .put → s.data ≠ .null

/-- A run of steps follows a part of the transfer between the parties: both end it, or both go
    on, with results that `rel` relates. -/
inductive Follows {α β : Type} (direction : Direction) (rel : α → β → Prop) :
    Except Halt α × Xfer (Sides σ φ τ ψ) → Option (Except Exit β × ψ × Client σ φ τ) → Prop
  | fault (e : Fault) (s : Xfer (Sides σ φ τ ψ)) : Follows direction rel (.error (.fault e), s) none
  | exit (e : Exit) {f : ψ} {cl : Client σ φ τ} {s : Xfer (Sides σ φ τ ψ)}
      (h : At direction f cl s) :
      Follows direction rel (.error (.exit e), s) (some (.error e, f, cl))
  | ok {a : α} {b : β} {f : ψ} {cl : Client σ φ τ} {s : Xfer (Sides σ φ τ ψ)} (hrel : rel a b)
      (h : At direction f cl s) : Follows direction rel (.ok a, s) (some (.ok b, f, cl))

/-- A call ends the transfer, or not. -/
def ended : Option Exit → Except Exit Unit
  | none => .ok ()
  | some e => .error e

/-- A part of the transfer behind another, if it has not ended. -/
def thenDo {β β' : Type}
    (rest : β → ψ → Client σ φ τ → Option (Except Exit β' × ψ × Client σ φ τ)) :
    Except Exit β × ψ × Client σ φ τ → Option (Except Exit β' × ψ × Client σ φ τ)
  | (.ok b, f, cl) => rest b f cl
  | (.error e, f, cl) => some (.error e, f, cl)

/-- The transfer goes on, if it has not ended. -/
def carryOn {β : Type} (rest : β → ψ → Client σ φ τ → Option (ℕ × Client σ φ τ)) :
    Except Exit β × ψ × Client σ φ τ → Option (ℕ × Client σ φ τ)
  | (.ok b, f, cl) => rest b f cl
  | (.error e, f, cl) => sclIlXferExit P e (some f) cl

section

variable {α α' β β' : Type} {rel : α → β → Prop} {rel' : α' → β' → Prop}
  {m : Halting Halt (Xfer (Sides σ φ τ ψ)) α} {k : α → Halting Halt (Xfer (Sides σ φ τ ψ)) α'}
  {o : Option (Except Exit β × ψ × Client σ φ τ)}

/-- One part of a transfer behind another. -/
theorem Follows.bind {rest : β → ψ → Client σ φ τ → Option (Except Exit β' × ψ × Client σ φ τ)}
    (h : Follows direction rel (m.runOn s) o)
    (hk : ∀ a b f cl s, rel a b → At direction f cl s →
      Follows direction rel' ((k a).runOn s) (rest b f cl)) :
    Follows direction rel' ((m >>= k).runOn s) (o.bind (thenDo rest)) := by
  rw [Halting.runOn_bind]
  cases hm : m.runOn s with
  | mk r s' =>
    rw [hm] at h
    cases h with
    | fault e => exact .fault e s'
    | exit e hat => exact .exit e hat
    | ok hrel hat => exact hk _ _ _ _ s' hrel hat

/-- The rest of the transfer, behind a part of it. -/
theorem Follows.endOf_bind {k : α → Halting Halt (Xfer (Sides σ φ τ ψ)) Unit}
    {rest : β → ψ → Client σ φ τ → Option (ℕ × Client σ φ τ)}
    (h : Follows direction rel (m.runOn s) o)
    (hk : ∀ a b f cl s, rel a b → At direction f cl s →
      endOf P ((k a).runOn s) = rest b f cl) :
    endOf P ((m >>= k).runOn s) = o.bind (carryOn P rest) := by
  rw [Halting.runOn_bind]
  cases hm : m.runOn s with
  | mk r s' =>
    rw [hm] at h
    cases h with
    | fault e => rfl
    | exit e hat =>
      simp only [endOf, hat.handle, hat.file, hat.client, if_true]
      rfl
    | ok hrel hat => exact hk _ _ _ _ s' hrel hat

end

section

variable {ω α β : Type} {step : Step ω α} {k : α → Halting Halt (Xfer ω) β} {w w' : ω} {a : α}
  {log : List Event} {data : Data} {fileHandle : Bool}

theorem runOn_ask_bind (h : step w = some (a, w')) :
    (ask step >>= k).runOn ⟨w, log, data, fileHandle⟩ =
      (k a).runOn ⟨w', log, data, fileHandle⟩ := by
  rw [Halting.runOn_bind, runOn_ask _ h]

theorem runOn_ask_bind_none (h : step w = none) :
    (ask step >>= k).runOn ⟨w, log, data, fileHandle⟩ =
      (.error (.fault .undefined), ⟨w, log, data, fileHandle⟩) := by
  rw [Halting.runOn_bind, runOn_ask_none _ h]

end

theorem runOn_note_bind {ω β : Type} {e : Event} {k : Unit → Halting Halt (Xfer ω) β}
    {s : Xfer ω} : (note e >>= k).runOn s = (k ()).runOn { s with log := s.log ++ [e] } := by
  rw [Halting.runOn_bind, runOn_note]

/-! ## The loops -/

section

variable {cl : Client σ φ τ} {bytesTotal callbackInterval : ℤ} {start : ℤ × ℤ} {v : Steps.Loop}

/-- Without a callback, only the count changes. -/
theorem countInterval_ofParties (callbackInterval : ℤ) (start : ℤ × ℤ) (bytesTotal : ℤ)
    (v : Steps.Loop) (s : Xfer (Sides σ φ τ ψ)) :
    ∃ v', ((ofParties P localName remoteName direction blockSize).countInterval callbackInterval
      start bytesTotal v).runOn s = (.ok v', s) := by
  unfold Steps.countInterval
  simp only
  split_ifs
  · exact ⟨_, rfl⟩
  · exact ⟨_, rfl⟩

/-- Sending a block. -/
theorem sendBlock_follows {data : List Byte} (hat : At .put f cl s) (hblock : s.world.block = data)
    (bytes : ℤ) (n : ℕ) :
    Follows .put (fun a (_ : Unit) => ∃ bytes, a = some (bytes, (n : ℤ)))
      (((ofParties P localName remoteName direction blockSize).sendBlock bytes n).runOn s)
      ((putBlock P data cl).map fun r => (ended r.1, f, r.2)) := by
  subst hblock
  have hput : ∀ w, (ofParties P localName remoteName direction blockSize).putData n w =
      (putBlock P w.block w.client).map fun r => (putReply r.1, w.withClient r.2) := fun _ => rfl
  unfold Steps.sendBlock
  rw [runOn_note_bind]
  cases h : putBlock P s.world.block cl with
  | none =>
    rw [runOn_ask_bind_none (by rw [hput, hat.client, h]; rfl)]
    exact .fault _ _
  | some r =>
    obtain ⟨exit, cl'⟩ := r
    rw [runOn_ask_bind (by rw [hput, hat.client, h]; rfl)]
    have hat' : At .put f cl'
        { s with log := s.log ++ [.inline .putData], world := s.world.withClient cl' } :=
      ⟨hat.handle, hat.file, rfl, hat.buffer⟩
    cases exit with
    | none => exact .ok ⟨_, rfl⟩ hat'
    | some e =>
      obtain rfl | rfl := putBlock_exit P h
      · exact .exit _ hat'
      · exact .exit _ hat'

/-- A round of the loop of a PUT. -/
theorem putLoop_succ {fuel : ℕ} {r : List Byte × ψ × τ} (hsize : ¬blockSize.toInt < 0)
    (hread : P.here.fread f blockSize.toNat cl.os = r) :
    (putLoop P blockSize (fuel + 1) f cl).map (fun r => (ended r.1, r.2)) =
      if r.1.length = 0 then some (.ok (), r.2.1, { cl with os := r.2.2 })
      else
        ((putBlock P r.1 { cl with os := r.2.2 }).map fun x => (ended x.1, r.2.1, x.2)).bind
          (thenDo fun _ f cl => (putLoop P blockSize fuel f cl).map fun r => (ended r.1, r.2)) := by
  obtain ⟨data, f', os⟩ := r
  rw [putLoop, if_neg hsize, hread]
  simp only
  split_ifs
  · rfl
  · cases putBlock P data { cl with os := os } with
    | none => rfl
    | some r =>
      obtain ⟨exit, cl'⟩ := r
      cases exit <;> rfl

/-- The loop of a PUT. -/
theorem loop_put_follows {fuel : ℕ} (hat : At .put f cl s) :
    Follows .put (fun _ _ => True)
      (((ofParties P localName remoteName direction blockSize).loop .put blockSize.toInt
        callbackInterval start bytesTotal fuel v).runOn s)
      ((putLoop P blockSize fuel f cl).map fun r => (ended r.1, r.2)) := by
  induction fuel generalizing v f cl s with
  | zero => exact .fault _ _
  | succ fuel ih =>
    have hstep : ∀ w, (ofParties P localName remoteName direction blockSize).fread w =
        if blockSize.toInt < 0 then none
        else w.file.map fun f =>
          let r := P.here.fread f blockSize.toNat w.client.os
          (r.1.length, { w.withOs r.2.2 with file := some r.2.1, block := r.1 }) := fun _ => rfl
    obtain ⟨hhandle, hfile, rfl, hbuffer⟩ := hat
    rw [Steps.loop, Steps.block, Steps.putBlock]
    simp only [bind_assoc]
    rw [Halting.runOn_bind, runOn_get]
    simp only [onlyIf, hbuffer rfl, false_and, if_false, pure_bind]
    by_cases hneg : blockSize.toInt < 0
    · rw [runOn_ask_bind_none (by rw [hstep, if_pos hneg]), putLoop, if_pos hneg]
      exact .fault _ _
    · rw [runOn_ask_bind (by rw [hstep, if_neg hneg, hfile]; rfl), putLoop_succ P hneg rfl]
      generalize P.here.fread f blockSize.toNat s.world.client.os = r
      have hat : At .put r.2.1 { s.world.client with os := r.2.2 }
          { s with world := { s.world.withOs r.2.2 with file := some r.2.1, block := r.1 } } :=
        ⟨hhandle, rfl, rfl, hbuffer⟩
      split_ifs
      · exact .ok trivial hat
      · refine (sendBlock_follows P hat rfl v.bytesTransfered _).bind ?_
        rintro _ _ f cl s ⟨bytes, rfl⟩ hat
        obtain ⟨v', hcount⟩ := countInterval_ofParties P callbackInterval start bytesTotal
          { v with bytesTransfered := bytes } s
        simp only
        rw [Halting.runOn_bind, hcount]
        exact ih hat

/-- Getting a block. -/
theorem getBlock_follows (hat : At .get f cl s) (bytes : ℤ) :
    Follows .get (fun a n => ∃ bytes, a = some (bytes, n))
      (((ofParties P localName remoteName direction blockSize).getBlock bytes).runOn s)
      (getBlock P blockSize f cl) := by
  obtain ⟨⟨cl, _, block⟩, log, held, _⟩ := s
  obtain ⟨rfl, rfl, rfl, -⟩ := hat
  have hget : (ofParties P localName remoteName direction blockSize).getData ⟨cl, some f, block⟩ =
      (fetchBlock P blockSize cl).map fun r =>
        (getReply r.1, ⟨r.2, some f, (r.1.map Prod.snd).toOption.getD []⟩) := rfl
  rw [Steps.getBlock, getBlock, runOn_note_bind]
  simp only
  cases h : fetchBlock P blockSize cl with
  | none =>
    rw [h] at hget
    rw [runOn_ask_bind_none hget]
    exact .fault _ _
  | some r =>
    obtain ⟨result, cl'⟩ := r
    rw [h] at hget
    cases result with
    | error e =>
      rw [runOn_ask_bind hget]
      obtain rfl | rfl := fetchBlock_exit P h
      · exact .exit _ ⟨rfl, rfl, rfl, by simp⟩
      · exact .exit _ ⟨rfl, rfl, rfl, by simp⟩
    | ok got =>
      obtain ⟨dataLen, data⟩ := got
      have hgot : (ofParties P localName remoteName direction blockSize).getData
          ⟨cl, some f, block⟩ = some (.freturn (some dataLen), ⟨cl', some f, data⟩) := hget
      have hwrite : (ofParties P localName remoteName direction blockSize).fwrite dataLen
          ⟨cl', some f, data⟩ =
            some ((P.here.fwrite f data cl'.os).1,
              ⟨{ cl' with os := (P.here.fwrite f data cl'.os).2.2 },
                some (P.here.fwrite f data cl'.os).2.1, data⟩) := rfl
      rw [Option.bind_eq_bind, Option.bind_some, runOn_ask_bind hgot]
      generalize hr : P.here.fwrite f data cl'.os = r at hwrite
      simp only [hr]
      rw [Halting.runOn_bind, runOn_setData]
      simp only
      rw [runOn_ask_bind hwrite]
      obtain ⟨ok, f', os⟩ := r
      cases ok with
      | false => exact .exit _ ⟨rfl, rfl, rfl, by simp⟩
      | true => exact .ok ⟨_, rfl⟩ ⟨rfl, rfl, rfl, by simp⟩

/-- A round of the loop of a GET. -/
theorem getLoop_succ {fuel : ℕ} :
    (getLoop P blockSize (fuel + 1) f cl).map (fun r => (ended r.1, r.2)) =
      (getBlock P blockSize f cl).bind (thenDo fun dataLen f cl =>
        if dataLen ≠ blockSize.toInt then some (.ok (), f, cl)
        else (getLoop P blockSize fuel f cl).map fun r => (ended r.1, r.2)) := by
  rw [getLoop]
  cases getBlock P blockSize f cl with
  | none => rfl
  | some r =>
    obtain ⟨result, f', cl'⟩ := r
    cases result with
    | error e => rfl
    | ok dataLen =>
      simp only [Option.bind_eq_bind, Option.bind_some, thenDo]
      split_ifs
      · rfl
      · rfl

/-- The loop of a GET. -/
theorem loop_get_follows {fuel : ℕ} (hat : At .get f cl s) :
    Follows .get (fun _ _ => True)
      (((ofParties P localName remoteName direction blockSize).loop .get blockSize.toInt
        callbackInterval start bytesTotal fuel v).runOn s)
      ((getLoop P blockSize fuel f cl).map fun r => (ended r.1, r.2)) := by
  induction fuel generalizing v f cl s with
  | zero => exact .fault _ _
  | succ fuel ih =>
    rw [Steps.loop, Steps.block, getLoop_succ]
    refine (getBlock_follows P hat v.bytesTransfered).bind ?_
    rintro _ dataLen f cl s ⟨bytes, rfl⟩ hat
    obtain ⟨v', hcount⟩ := countInterval_ofParties P callbackInterval start bytesTotal
      { v with bytesTransfered := bytes } s
    simp only
    rw [Halting.runOn_bind, hcount]
    simp only [true_and]
    split_ifs
    · exact .ok trivial hat
    · exact ih hat

end

/-! ## Before and behind the loops -/

section

variable {cl : Client σ φ τ} {fuel : ℕ} {start : ℤ × ℤ} {bytesTotal callbackInterval : ℤ}
  {v : Steps.Loop} {mode apiVers : BitVec 32}

/-- Opening the remote file. -/
theorem openRemote_follows (hat : At direction f cl s) :
    Follows direction (fun _ _ => True)
      ((ofParties P localName remoteName direction blockSize).openRemote.runOn s)
      ((openRemote P remoteName (remoteModeOf direction) cl).map fun r =>
        (ended r.1, f, r.2)) := by
  obtain ⟨⟨cl, _, block⟩, log, held, _⟩ := s
  obtain ⟨rfl, rfl, rfl, hbuffer⟩ := hat
  have hopen : (ofParties P localName remoteName direction blockSize).openFile
      ⟨cl, some f, block⟩ = (openRemote P remoteName (remoteModeOf direction) cl).map fun r =>
        (openReply r.1, ⟨r.2, some f, block⟩) := rfl
  rw [Steps.openRemote, runOn_note_bind]
  cases h : openRemote P remoteName (remoteModeOf direction) cl with
  | none =>
    rw [h] at hopen
    rw [runOn_ask_bind_none hopen]
    exact .fault _ _
  | some r =>
    obtain ⟨exit, cl'⟩ := r
    rw [h] at hopen
    rw [runOn_ask_bind hopen]
    cases exit with
    | none => exact .ok trivial ⟨rfl, rfl, rfl, hbuffer⟩
    | some e =>
      obtain rfl | rfl := openRemote_exit P h
      · exact .exit _ ⟨rfl, rfl, rfl, hbuffer⟩
      · exact .exit _ ⟨rfl, rfl, rfl, hbuffer⟩

/-- Behind the loop of a GET. -/
theorem setMode_get_endOf (hat : At .get f cl s) :
    endOf P (((ofParties P localName remoteName direction blockSize).setMode .get apiVers.toInt
      mode).runOn s) = getEnd P localName mode none f cl := by
  obtain ⟨⟨cl, _, block⟩, log, held, _⟩ := s
  obtain ⟨rfl, rfl, rfl, hbuffer⟩ := hat
  rw [Steps.setMode, getEnd]
  simp only
  split_ifs
  · rw [runOn_ask _ rfl]
    rfl
  · rfl

/-- Behind the loop of a PUT. -/
theorem setMode_put_endOf (hat : At .put f cl s) :
    endOf P (((ofParties P localName remoteName direction blockSize).setMode .put apiVers.toInt
      mode).runOn s) = putEnd P remoteName mode apiVers none f cl := by
  obtain ⟨⟨cl, _, block⟩, log, held, _⟩ := s
  obtain ⟨rfl, rfl, rfl, hbuffer⟩ := hat
  have hset : (ofParties P localName remoteName direction blockSize).setFmode mode
      ⟨cl, some f, block⟩ = (setRemoteMode P remoteName mode cl).map fun r =>
        ((), ⟨r.2, some f, block⟩) := rfl
  rw [Steps.setMode, putEnd]
  simp only
  split_ifs
  · rw [runOn_note_bind]
    cases h : setRemoteMode P remoteName mode cl with
    | none =>
      rw [h] at hset
      rw [runOn_ask_none _ hset]
      rfl
    | some r =>
      rw [h] at hset
      rw [runOn_ask _ hset]
      rfl
  · rfl

/-- The transfer from the remote file on, by its steps. -/
def fromOpen (S : Steps (Sides σ φ τ ψ)) (fuel : ℕ) (direction : Direction)
    (blockSize callbackInterval : ℤ) (apiVers bytesTotal : ℤ) (mode : BitVec 32) :
    Halting Halt (Xfer (Sides σ φ τ ψ)) Unit := do
  S.openRemote
  let start ← S.startClock
  S.loop direction blockSize callbackInterval start bytesTotal fuel ⟨0, callbackInterval, .start⟩
  S.setMode direction apiVers mode

/-- The transfer from the remote file on, for the loop and the end of a direction. -/
theorem fromOpen_endOf
    {loop : ψ → Client σ φ τ → Option (Option Exit × ψ × Client σ φ τ)}
    {finish : Option Exit → ψ → Client σ φ τ → Option (ℕ × Client σ φ τ)}
    (hat : At direction f cl s)
    (hloop : ∀ f cl s start, At direction f cl s → Follows direction (fun _ _ => True)
      (((ofParties P localName remoteName direction blockSize).loop direction blockSize.toInt
        callbackInterval start bytesTotal fuel ⟨0, callbackInterval, .start⟩).runOn s)
      ((loop f cl).map fun r => (ended r.1, r.2)))
    (hfinish : ∀ f cl s, At direction f cl s →
      endOf P (((ofParties P localName remoteName direction blockSize).setMode direction
        apiVers.toInt mode).runOn s) = finish none f cl)
    (hexit : ∀ e f cl, finish (some e) f cl = sclIlXferExit P e (some f) cl) :
    endOf P ((fromOpen (ofParties P localName remoteName direction blockSize) fuel direction
        blockSize.toInt callbackInterval apiVers.toInt bytesTotal mode).runOn s) =
      (openRemote P remoteName (remoteModeOf direction) cl).bind fun r =>
        r.1.elim ((loop f r.2).bind fun x => finish x.1 x.2.1 x.2.2)
          fun e => sclIlXferExit P e (some f) r.2 := by
  have hrest : ∀ (_ _ : Unit) f cl s, True → At direction f cl s →
      endOf P (((ofParties P localName remoteName direction blockSize).startClock >>= fun start =>
        (ofParties P localName remoteName direction blockSize).loop direction blockSize.toInt
          callbackInterval start bytesTotal fuel ⟨0, callbackInterval, .start⟩ >>= fun _ =>
            (ofParties P localName remoteName direction blockSize).setMode direction apiVers.toInt
              mode).runOn s) =
        ((loop f cl).map fun r => (ended r.1, r.2)).bind
          (carryOn P fun _ f cl => finish none f cl) := by
    intro _ _ f cl s _ hat
    rw [Steps.startClock, bind_assoc, runOn_ask_bind rfl]
    exact (hloop f cl s _ hat).endOf_bind P fun _ _ f cl s _ hat => hfinish f cl s hat
  unfold fromOpen
  rw [(openRemote_follows P hat).endOf_bind P hrest]
  cases openRemote P remoteName (remoteModeOf direction) cl with
  | none => rfl
  | some r =>
    obtain ⟨exit, cl'⟩ := r
    cases exit with
    | some e => rfl
    | none =>
      simp only [Option.map_some, Option.bind_some, ended, carryOn, Option.elim]
      cases loop f cl' with
      | none => rfl
      | some x =>
        obtain ⟨exit, f', cl''⟩ := x
        cases exit with
        | none => rfl
        | some e => exact (hexit e f' cl'').symm

/-- A transfer from the remote file on, for the loop and the end of its direction. -/
def afterOpen (remoteName : Option CStr) (mode : CStr)
    (loop : ψ → Client σ φ τ → Option (Option Exit × ψ × Client σ φ τ))
    (finish : Option Exit → ψ → Client σ φ τ → Option (ℕ × Client σ φ τ)) (f : ψ)
    (cl : Client σ φ τ) : Option (ℕ × Client σ φ τ) :=
  (openRemote P remoteName mode cl).bind fun r =>
    r.1.elim ((loop f r.2).bind fun x => finish x.1 x.2.1 x.2.2)
      fun e => sclIlXferExit P e (some f) r.2

theorem xferGet_eq : xferGet P fuel localName remoteName blockSize apiVers f cl =
    (if 3 ≤ apiVers.toInt then getFsizeMode P remoteName cl else some (0, -1, cl)).bind fun x =>
      afterOpen P remoteName (remoteModeOf .get) (getLoop P blockSize fuel)
        (getEnd P localName x.2.1) f x.2.2 := by
  unfold xferGet
  split_ifs
  · refine congrArg (Option.bind _) (funext fun x => congrArg (Option.bind _) (funext fun r => ?_))
    obtain ⟨exit, cl'⟩ := r
    cases exit with
    | none => rfl
    | some e => rfl
  · refine congrArg (Option.bind _) (funext fun x => congrArg (Option.bind _) (funext fun r => ?_))
    obtain ⟨exit, cl'⟩ := r
    cases exit with
    | none => rfl
    | some e => rfl

theorem xferPut_eq : xferPut P fuel localName remoteName blockSize apiVers f cl =
    (P.here.stat localName cl.os).elim (sclIlXferExit P ⟨2, false, true, false⟩ (some f) cl)
      fun x => afterOpen P remoteName (remoteModeOf .put) (putLoop P blockSize fuel)
        (putEnd P remoteName x.2 apiVers) f cl := by
  unfold xferPut
  cases P.here.stat localName cl.os with
  | none => rfl
  | some x =>
    refine congrArg (Option.bind _) (funext fun r => ?_)
    obtain ⟨exit, cl'⟩ := r
    cases exit with
    | none => rfl
    | some e => rfl

/-- The GET of an open file. -/
theorem getSizes_get_endOf (hat : At .get f cl s) :
    endOf P (((ofParties P localName remoteName .get blockSize).getSizes .get apiVers.toInt >>=
        fun x => fromOpen (ofParties P localName remoteName .get blockSize) fuel .get
          blockSize.toInt callbackInterval apiVers.toInt x.1 x.2).runOn s) =
      xferGet P fuel localName remoteName blockSize apiVers f cl := by
  have hopened : ∀ {cl : Client σ φ τ} {s : Xfer (Sides σ φ τ ψ)} {total : ℤ} {mode : BitVec 32},
      At .get f cl s →
      endOf P ((fromOpen (ofParties P localName remoteName .get blockSize) fuel .get
          blockSize.toInt callbackInterval apiVers.toInt total mode).runOn s) =
        afterOpen P remoteName (remoteModeOf .get) (getLoop P blockSize fuel)
          (getEnd P localName mode) f cl :=
    fun hat => fromOpen_endOf P hat (fun _ _ _ _ hat => loop_get_follows P hat)
      (fun _ _ _ hat => setMode_get_endOf P hat) fun _ _ _ => rfl
  obtain ⟨⟨cl, _, block⟩, log, held, _⟩ := s
  obtain ⟨rfl, rfl, rfl, hbuffer⟩ := hat
  have hsize : (ofParties P localName remoteName .get blockSize).getFsizeMode
      ⟨cl, some f, block⟩ = (getFsizeMode P remoteName cl).map fun r =>
        ((r.1.toInt, r.2.1), ⟨r.2.2, some f, block⟩) := rfl
  rw [Steps.getSizes, xferGet_eq]
  simp only
  split_ifs
  · rw [bind_assoc, runOn_note_bind, bind_assoc]
    simp only
    cases h : getFsizeMode P remoteName cl with
    | none =>
      rw [h] at hsize
      rw [runOn_ask_bind_none hsize]
      rfl
    | some r =>
      rw [h] at hsize
      rw [runOn_ask_bind hsize]
      exact hopened ⟨rfl, rfl, rfl, hbuffer⟩
  · exact hopened ⟨rfl, rfl, rfl, hbuffer⟩

/-- The PUT of an open file. -/
theorem getSizes_put_endOf (hat : At .put f cl s) :
    endOf P (((ofParties P localName remoteName .put blockSize).getSizes .put apiVers.toInt >>=
        fun x => fromOpen (ofParties P localName remoteName .put blockSize) fuel .put
          blockSize.toInt callbackInterval apiVers.toInt x.1 x.2).runOn s) =
      xferPut P fuel localName remoteName blockSize apiVers f cl := by
  obtain ⟨⟨cl, _, block⟩, log, held, _⟩ := s
  obtain ⟨rfl, rfl, rfl, hbuffer⟩ := hat
  have hstat : (ofParties P localName remoteName .put blockSize).stat ⟨cl, some f, block⟩ =
      some (P.here.stat localName cl.os, ⟨cl, some f, block⟩) := rfl
  rw [Steps.getSizes, xferPut_eq]
  simp only
  rw [bind_assoc, runOn_ask_bind hstat]
  cases P.here.stat localName cl.os with
  | none => rfl
  | some x =>
    exact fromOpen_endOf P ⟨rfl, rfl, rfl, hbuffer⟩ (fun _ _ _ _ hat => loop_put_follows P hat)
      (fun _ _ _ hat => setMode_put_endOf P hat) fun _ _ _ => rfl

end

/-! ## The whole -/

/-- A PUT has its buffer. -/
theorem malloc_run (localName remoteName : Option CStr) (direction : Direction)
    (blockSize : BitVec 32) (cl : Client σ φ τ) :
    ∃ log held, (direction = .put → held ≠ Data.null) ∧
      (onlyIf (direction = .put) (ask (ofParties P localName remoteName direction blockSize).malloc
        >>= fun ok => note (.malloc ok) >>= fun _ =>
          setData (if ok then .buffer else .null))).runOn (.start ⟨cl, none, []⟩) =
        (.ok (), ⟨⟨cl, none, []⟩, log, held, false⟩) := by
  cases direction with
  | get => exact ⟨_, _, by simp, rfl⟩
  | put => exact ⟨_, _, by simp, rfl⟩

/-- The local file, or what becomes of a transfer that cannot open it. -/
theorem openLocal_endOf (cl : Client σ φ τ)
    (rest : ℤ → Halting Halt (Xfer (Sides σ φ τ ψ)) Unit)
    {xfer : BitVec 32 → ψ → Client σ φ τ → Option (ℕ × Client σ φ τ)}
    (hrest : ∀ apiVers f cl s, At direction f cl s →
      endOf P ((rest apiVers.toInt).runOn s) = xfer apiVers f cl) :
    endOf P (((ofParties P localName remoteName direction blockSize).openLocal direction >>=
        rest).runOn (.start ⟨cl, none, []⟩)) =
      (sclIlGetApiVersion P cl).bind fun r =>
        let opened := P.here.fopen localName (localModeOf direction) r.2.os
        opened.1.elim
          (sclIlXferExit P ⟨1, false, false, false⟩ none { r.2 with os := opened.2 })
          fun f => xfer r.1 f { r.2 with os := opened.2 } := by
  have hvers : (ofParties P localName remoteName direction blockSize).getApiVersion
      ⟨cl, none, []⟩ = (sclIlGetApiVersion P cl).map fun r =>
        (r.1.toInt, ⟨r.2, none, []⟩) := rfl
  obtain ⟨log, held, hheld, hmalloc⟩ := malloc_run P localName remoteName direction blockSize cl
  rw [Steps.openLocal]
  simp only [bind_assoc]
  rw [Halting.runOn_bind, hmalloc]
  simp only
  rw [runOn_note_bind]
  cases h : sclIlGetApiVersion P cl with
  | none =>
    rw [h] at hvers
    rw [runOn_ask_bind_none hvers]
    rfl
  | some r =>
    obtain ⟨apiVers, cl'⟩ := r
    have hopen : (ofParties P localName remoteName direction blockSize).fopen ⟨cl', none, []⟩ =
        some ((P.here.fopen localName (localModeOf direction) cl'.os).1.isSome,
          ⟨{ cl' with os := (P.here.fopen localName (localModeOf direction) cl'.os).2 },
            (P.here.fopen localName (localModeOf direction) cl'.os).1, []⟩) := rfl
    rw [h] at hvers
    rw [runOn_ask_bind hvers, Option.bind_some]
    generalize P.here.fopen localName (localModeOf direction) cl'.os = opened at hopen ⊢
    rw [runOn_ask_bind hopen, runOn_note_bind]
    obtain ⟨fileHandle, os⟩ := opened
    cases fileHandle with
    | none => rfl
    | some f => exact hrest apiVers f _ _ ⟨rfl, rfl, rfl, hheld⟩

/-- A transfer, from the open local file on. -/
def xferOpen (fuel : ℕ) (localName remoteName : Option CStr) (direction : Direction)
    (blockSize apiVers : BitVec 32) (f : ψ) (cl : Client σ φ τ) : Option (ℕ × Client σ φ τ) :=
  match direction with
  | .get => xferGet P fuel localName remoteName blockSize apiVers f cl
  | .put => xferPut P fuel localName remoteName blockSize apiVers f cl

theorem sclIlXferEx_eq {fuel : ℕ} {cl : Client σ φ τ} :
    sclIlXferEx P fuel localName remoteName direction blockSize cl =
      (sclIlGetApiVersion P cl).bind fun r =>
        let opened := P.here.fopen localName (localModeOf direction) r.2.os
        opened.1.elim
          (sclIlXferExit P ⟨1, false, false, false⟩ none { r.2 with os := opened.2 })
          fun f => xferOpen P fuel localName remoteName direction blockSize r.1 f
            { r.2 with os := opened.2 } := by
  unfold sclIlXferEx
  refine congrArg (Option.bind _) (funext fun r => ?_)
  obtain ⟨apiVers, cl'⟩ := r
  cases direction with
  | get =>
    have hmode : localModeOf .get = ⟨chars "w", by decide⟩ := rfl
    rw [hmode]
    generalize hopened : P.here.fopen localName ⟨chars "w", by decide⟩ cl'.os = opened
    simp only [hopened]
    cases opened.1 <;> rfl
  | put =>
    have hmode : localModeOf .put = ⟨chars "r", by decide⟩ := rfl
    rw [hmode]
    generalize hopened : P.here.fopen localName ⟨chars "r", by decide⟩ cl'.os = opened
    simp only [hopened]
    cases opened.1 <;> rfl

/-- The transfer between the parties is the one by their calls, whatever the interval of the
    callback that is not there. -/
theorem sclIlXferEx_ofParties (fuel : ℕ) (callbackInterval : ℤ) (cl : Client σ φ τ) :
    outcomeOf (((ofParties P localName remoteName direction blockSize).sclIlXferEx fuel direction
        blockSize.toInt callbackInterval).runOn (.start ⟨cl, none, []⟩)) =
      sclIlXferEx P fuel localName remoteName direction blockSize cl := by
  have hopened : ∀ apiVers f cl s, At direction f cl s →
      endOf P (((ofParties P localName remoteName direction blockSize).getSizes direction
          (apiVers : BitVec 32).toInt >>= fun x =>
            fromOpen (ofParties P localName remoteName direction blockSize) fuel direction
              blockSize.toInt callbackInterval apiVers.toInt x.1 x.2).runOn s) =
        xferOpen P fuel localName remoteName direction blockSize apiVers f cl := by
    intro apiVers f cl s hat
    cases direction with
    | get => exact getSizes_get_endOf P hat
    | put => exact getSizes_put_endOf P hat
  rw [outcomeOf_sclIlXferEx, sclIlXferEx_eq]
  exact openLocal_endOf P cl (fun apiVers =>
    (ofParties P localName remoteName direction blockSize).getSizes direction apiVers >>= fun x =>
      fromOpen (ofParties P localName remoteName direction blockSize) fuel direction
        blockSize.toInt callbackInterval apiVers x.1 x.2) hopened

end CompatSuva.Local
