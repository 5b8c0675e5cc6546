import CompatSuva.Suvlet.Inlines

/-!
# `scl_inline_file`

The four handlers of `scl_inlines.c` that share the static stream pointer
`scl_inline_file` (lines 63–142), with the pointer itself: it can be NULL, an open
stream, or a stream that has been closed. No handler looks at it before it is used.

* `handler_sound`, `fileRun_sound`: where the handlers of `Inlines` are defined, they
  pass stdio nothing but open streams;
* `trace_sound_iff`: a sequence of requests keeps the pointer in order just when it is
  made of sessions, each one an open, reads and writes, and a close.
-/

namespace CompatSuva.Suvlet

open CompatSuva.Common CompatSuva.Scl

/-! ## What the handlers do -/

/-- The calls of stdio on `scl_inline_file`. -/
inductive StdioCall where
  | fread | fwrite | fflush | fclose
  deriving DecidableEq, Repr

/-- A request that reaches one of the four handlers. `file` is what `fopen` returns. -/
inductive FileRequest where
  | openFile (file : Addr)
  | getData
  | putData
  | closeFile
  deriving DecidableEq, Repr

/-- What a handler does with the pointer: pass it to stdio, or set it. -/
inductive HandleOp where
  | call (c : StdioCall)
  | assign (file : Addr)
  deriving DecidableEq, Repr

/-- What the handler of a request does: lines 72, 134, 107, and 92–93. -/
def FileRequest.ops : FileRequest → List HandleOp
  | .openFile file => [.assign file]
  | .getData => [.call .fread]
  | .putData => [.call .fwrite]
  | .closeFile => [.call .fflush, .call .fclose]

/-- What the handlers do for a sequence of requests. -/
def allOps (rs : List FileRequest) : List HandleOp := rs.flatMap FileRequest.ops

/-- `scl_inline_file`, and the streams that are open. -/
structure FileHandle where
  inlineFile : Addr
  opened : List Addr
  deriving DecidableEq, Repr

namespace FileHandle

/-- The pointer is a static variable, so NULL at first. -/
def init : FileHandle := ⟨0, []⟩

/-- After `fopen` a stream is open that was not; after `fclose` one is open no more. -/
def act (h : FileHandle) : HandleOp → FileHandle
  | .assign file => ⟨file, if file = 0 then h.opened else file :: h.opened⟩
  | .call .fclose => { h with opened := h.opened.filter (· ≠ h.inlineFile) }
  | .call _ => h

/-- The pointer is passed to stdio while it is an open stream, and set while it is
    not. -/
def Sound (h : FileHandle) : HandleOp → Prop
  | .call _ => h.inlineFile ≠ 0 ∧ h.inlineFile ∈ h.opened
  | .assign _ => h.inlineFile ∉ h.opened

instance (h : FileHandle) (op : HandleOp) : Decidable (h.Sound op) := by
  cases op <;> unfold Sound <;> infer_instance

/-- Each thing done, with the pointer before it. -/
def trace (h : FileHandle) : List HandleOp → List (FileHandle × HandleOp)
  | [] => []
  | op :: ops => (h, op) :: (h.act op).trace ops

/-- Everything done is in order. -/
def AllSound (h : FileHandle) (ops : List HandleOp) : Prop := ∀ x ∈ h.trace ops, x.1.Sound x.2

instance (h : FileHandle) (ops : List HandleOp) : Decidable (h.AllSound ops) := by
  unfold AllSound
  infer_instance

theorem allSound_nil (h : FileHandle) : h.AllSound [] := by simp [AllSound, trace]

theorem allSound_cons {h : FileHandle} {op : HandleOp} {ops : List HandleOp} :
    h.AllSound (op :: ops) ↔ h.Sound op ∧ (h.act op).AllSound ops := by
  simp [AllSound, trace]

theorem trace_append (h : FileHandle) (ops ops' : List HandleOp) :
    h.trace (ops ++ ops') = h.trace ops ++ (ops.foldl act h).trace ops' := by
  induction ops generalizing h with
  | nil => rfl
  | cons op ops ih => simp [trace, ih]

/-- The pointer is the only open stream. -/
def streaming (file : Addr) : FileHandle := ⟨file, [file]⟩

/-- No stream is open. -/
def idle (file : Addr) : FileHandle := ⟨file, []⟩

end FileHandle

/-! ## The handlers of `Inlines` -/

variable {σ φ : Type} (libc : Libc σ φ)

/-- The handler of a request. -/
def FileRequest.handler : FileRequest → Server σ φ → Option (Server σ φ)
  | .openFile _ => sclIlROpenFile libc
  | .getData => sclIlRGetData libc
  | .putData => sclIlRPutData libc
  | .closeFile => sclIlRCloseFile libc

/-- The suvlet has an open stream just when the pointer is one. -/
def FileHandle.Tracks (h : FileHandle) (srv : Server σ φ) : Prop :=
  srv.inlineFile.isSome ↔ h.inlineFile ≠ 0 ∧ h.inlineFile ∈ h.opened

variable {libc} {h : FileHandle} {srv srv' : Server σ φ}

theorem tracks_init (os : σ) : FileHandle.init.Tracks (Server.init os : Server σ φ) := by
  simp [FileHandle.Tracks, FileHandle.init, Server.init]

theorem FileHandle.Tracks.congr (ht : h.Tracks srv)
    (hfile : srv'.inlineFile.isSome = srv.inlineFile.isSome) : h.Tracks srv' := by
  rw [Tracks, hfile]
  exact ht

/-- Where a handler is defined, it passes the pointer to stdio only while it is an open
    stream. -/
theorem handler_sound (ht : h.Tracks srv) {r : FileRequest} (hrun : r.handler libc srv = some srv')
    (hfile : ∀ file, r = .openFile file → (srv'.inlineFile.isSome ↔ file ≠ 0)) :
    (∀ x ∈ h.trace r.ops, ∀ c, x.2 = .call c → x.1.Sound x.2) ∧
      (r.ops.foldl FileHandle.act h).Tracks srv' := by
  have hsound : srv.inlineFile.isSome → ∀ c, h.Sound (.call c) := fun hs _ => ht.mp hs
  cases r with
  | openFile file =>
    refine ⟨by simp [FileRequest.ops, FileHandle.trace], ?_⟩
    rw [FileHandle.Tracks, hfile file rfl]
    by_cases h0 : file = 0 <;> simp [FileRequest.ops, FileHandle.act, h0]
  | getData =>
    simp only [FileRequest.handler, sclIlRGetData, Option.bind_eq_bind,
      Option.bind_eq_some_iff] at hrun
    obtain ⟨⟨rets, conn⟩, -, hrun⟩ := hrun
    split at hrun
    · simp only [Option.bind_eq_some_iff] at hrun
      obtain ⟨len, -, hrun⟩ := hrun
      split at hrun
      · simp at hrun
      · simp only [Option.bind_eq_some_iff] at hrun
        obtain ⟨file, hopen, hrun⟩ := hrun
        obtain rfl := Option.some.inj hrun
        refine ⟨?_, show h.Tracks _ from ht.congr (by simp [hopen, Server.freturn])⟩
        simpa [FileRequest.ops, FileHandle.trace] using hsound (by simp [hopen]) .fread
    · simp at hrun
  | putData =>
    simp only [FileRequest.handler, sclIlRPutData, Option.bind_eq_bind,
      Option.bind_eq_some_iff] at hrun
    obtain ⟨⟨rets, conn⟩, -, hrun⟩ := hrun
    split at hrun
    · simp only [Option.bind_eq_some_iff] at hrun
      obtain ⟨data, -, file, hopen, hrun⟩ := hrun
      obtain rfl := Option.some.inj hrun
      refine ⟨?_, show h.Tracks _ from ht.congr (by simp [hopen, Server.freturn])⟩
      simpa [FileRequest.ops, FileHandle.trace] using hsound (by simp [hopen]) .fwrite
    · simp at hrun
  | closeFile =>
    simp only [FileRequest.handler, sclIlRCloseFile, Option.bind_eq_bind,
      Option.bind_eq_some_iff] at hrun
    obtain ⟨file, hopen, hrun⟩ := hrun
    obtain rfl := Option.some.inj hrun
    have hlive := hsound (by simp [hopen])
    refine ⟨?_, by simp [FileRequest.ops, FileHandle.act, FileHandle.Tracks, Server.freturn]⟩
    intro x hx c _
    simp only [FileRequest.ops, FileHandle.trace, List.mem_cons, List.not_mem_nil, or_false] at hx
    rcases hx with rfl | rfl
    · exact hlive .fflush
    · exact hlive .fclose

variable (libc) in
/-- The suvlet acts on requests in turn, each in a packet of its own; no handler is
    undefined. -/
inductive FileRun : Server σ φ → List FileRequest → Server σ φ → Prop
  | nil {srv : Server σ φ} : FileRun srv [] srv
  | cons {srv srv' srv'' : Server σ φ} {r : FileRequest} {rs : List FileRequest} (conn : InConn) :
      r.handler libc { srv with conn := conn } = some srv' →
      (∀ file, r = .openFile file → (srv'.inlineFile.isSome ↔ file ≠ 0)) →
      FileRun srv' rs srv'' → FileRun srv (r :: rs) srv''

/-- As long as the handlers are defined, stdio only ever gets an open stream. -/
theorem fileRun_sound {rs : List FileRequest} (hrun : FileRun libc srv rs srv')
    (ht : h.Tracks srv) : ∀ x ∈ h.trace (allOps rs), ∀ c, x.2 = .call c → x.1.Sound x.2 := by
  induction hrun generalizing h with
  | nil => simp [allOps, FileHandle.trace]
  | @cons srv srv₁ srv₂ r rs conn hstep hfile _ ih =>
    have ht' : h.Tracks { srv with conn := conn } := ht
    obtain ⟨hsound, ht₁⟩ := handler_sound ht' hstep hfile
    intro x hx c hc
    rw [allOps, List.flatMap_cons, ← allOps, FileHandle.trace_append] at hx
    rcases List.mem_append.mp hx with hx | hx
    · exact hsound x hx c hc
    · exact ih ht₁ x hx c hc

/-- From its start, a suvlet whose handlers are defined passes stdio nothing but open
    streams. -/
theorem fileRun_init_sound {rs : List FileRequest} {os : σ}
    (hrun : FileRun libc (.init os) rs srv') :
    ∀ x ∈ FileHandle.init.trace (allOps rs), ∀ c, x.2 = .call c → x.1.Sound x.2 :=
  fileRun_sound hrun (tracks_init os)

/-! ## Sessions -/

/-- A request for a block of an open file. -/
def FileRequest.IsData (r : FileRequest) : Prop := r = .getData ∨ r = .putData

/-- Sequences of requests made of sessions: an `open_file` that fails, or one that
    succeeds with the requests for blocks up to the `close_file`. The last session may
    be unfinished. -/
inductive Sessions : List FileRequest → Prop
  | nil : Sessions []
  | failed {rs : List FileRequest} : Sessions rs → Sessions (.openFile 0 :: rs)
  | closed {file : Addr} {data rs : List FileRequest} : file ≠ 0 → (∀ r ∈ data, r.IsData) →
      Sessions rs → Sessions (.openFile file :: (data ++ .closeFile :: rs))
  | unfinished {file : Addr} {data : List FileRequest} : file ≠ 0 → (∀ r ∈ data, r.IsData) →
      Sessions (.openFile file :: data)

/-- What is left of a session. -/
def InSession (rs : List FileRequest) : Prop :=
  ∃ data : List FileRequest, (∀ r ∈ data, r.IsData) ∧
    (rs = data ∨ ∃ rest, rs = data ++ .closeFile :: rest ∧ Sessions rest)

theorem sessions_opened {file : Addr} (hfile : file ≠ 0) {rs : List FileRequest}
    (h : InSession rs) : Sessions (.openFile file :: rs) := by
  obtain ⟨data, hdata, rfl | ⟨rest, rfl, hrest⟩⟩ := h
  · exact .unfinished hfile hdata
  · exact .closed hfile hdata hrest

theorem sessions_openFile {file : Addr} {rs : List FileRequest} :
    Sessions (.openFile file :: rs) ↔ if file = 0 then Sessions rs else InSession rs := by
  split_ifs with h0
  · subst h0
    refine ⟨fun h => ?_, .failed⟩
    cases h with
    | failed h => exact h
    | closed h0 => exact absurd rfl h0
    | unfinished h0 => exact absurd rfl h0
  · refine ⟨fun h => ?_, sessions_opened h0⟩
    cases h with
    | failed => exact absurd rfl h0
    | closed _ hdata hrest => exact ⟨_, hdata, Or.inr ⟨_, rfl, hrest⟩⟩
    | unfinished _ hdata => exact ⟨_, hdata, Or.inl rfl⟩

theorem not_sessions_cons {r : FileRequest} (hr : ∀ file, r ≠ .openFile file)
    (rs : List FileRequest) : ¬ Sessions (r :: rs) := by
  intro h
  cases h with
  | failed => exact hr 0 rfl
  | closed => exact hr _ rfl
  | unfinished => exact hr _ rfl

theorem inSession_nil : InSession [] := ⟨[], by simp, Or.inl rfl⟩

theorem inSession_data {r : FileRequest} (hr : r.IsData) {rs : List FileRequest} :
    InSession (r :: rs) ↔ InSession rs := by
  have hne : r ≠ .closeFile := by rcases hr with rfl | rfl <;> simp
  constructor
  · rintro ⟨data, hdata, hrs⟩
    cases data with
    | nil =>
      rcases hrs with hrs | ⟨rest, hrs, -⟩
      · simp at hrs
      · exact absurd (List.cons.inj hrs).1 hne
    | cons r' data =>
      refine ⟨data, fun x hx => hdata x (List.mem_cons_of_mem _ hx), ?_⟩
      rcases hrs with hrs | ⟨rest, hrs, hrest⟩
      · exact Or.inl (List.cons.inj hrs).2
      · exact Or.inr ⟨rest, (List.cons.inj hrs).2, hrest⟩
  · rintro ⟨data, hdata, hrs⟩
    refine ⟨r :: data, by simpa [hr] using hdata, ?_⟩
    rcases hrs with rfl | ⟨rest, rfl, hrest⟩
    · exact Or.inl rfl
    · exact Or.inr ⟨rest, rfl, hrest⟩

theorem inSession_closeFile {rs : List FileRequest} :
    InSession (.closeFile :: rs) ↔ Sessions rs := by
  constructor
  · rintro ⟨data, hdata, hrs⟩
    cases data with
    | nil =>
      rcases hrs with hrs | ⟨rest, hrs, hrest⟩
      · simp at hrs
      · exact (List.cons.inj hrs).2 ▸ hrest
    | cons r data =>
      have hr : FileRequest.closeFile = r := by
        rcases hrs with hrs | ⟨rest, hrs, -⟩ <;> exact (List.cons.inj hrs).1
      have := hdata r (by simp)
      simp [← hr, FileRequest.IsData] at this
  · exact fun h => ⟨[], by simp, Or.inr ⟨rs, rfl, h⟩⟩

theorem not_inSession_openFile (file : Addr) (rs : List FileRequest) :
    ¬ InSession (.openFile file :: rs) := by
  rintro ⟨data, hdata, hrs⟩
  cases data with
  | nil => rcases hrs with hrs | ⟨rest, hrs, -⟩ <;> simp at hrs
  | cons r data =>
    have hr : FileRequest.openFile file = r := by
      rcases hrs with hrs | ⟨rest, hrs, -⟩ <;> exact (List.cons.inj hrs).1
    have := hdata r (by simp)
    simp [← hr, FileRequest.IsData] at this

/-! ## When the pointer is kept in order -/

open FileHandle

/-- One request at a time: without an open stream only an `open_file` is in order, with
    one anything else. -/
theorem allSound_allOps (rs : List FileRequest) :
    (∀ file, (idle file).AllSound (allOps rs) ↔ Sessions rs) ∧
      ∀ file, file ≠ 0 → ((streaming file).AllSound (allOps rs) ↔ InSession rs) := by
  induction rs with
  | nil => exact ⟨fun _ => iff_of_true (allSound_nil _) .nil,
      fun _ _ => iff_of_true (allSound_nil _) inSession_nil⟩
  | cons r rs ih =>
    obtain ⟨ihIdle, ihStreaming⟩ := ih
    rw [allOps, List.flatMap_cons, ← allOps]
    cases r with
    | openFile file' =>
      refine ⟨fun file => ?_, fun file _ => ?_⟩
      · rw [sessions_openFile]
        split_ifs with h0
        · simpa [FileRequest.ops, allSound_cons, Sound, act, idle, h0] using ihIdle 0
        · simpa [FileRequest.ops, allSound_cons, Sound, act, idle, h0, streaming] using
            ihStreaming file' h0
      · refine iff_of_false (fun h => ?_) (not_inSession_openFile file' rs)
        simp [FileRequest.ops, allSound_cons, Sound, streaming] at h
    | getData =>
      refine ⟨fun file => iff_of_false (fun h => ?_) (not_sessions_cons (by simp) rs),
        fun file h0 => ?_⟩
      · simp [FileRequest.ops, allSound_cons, Sound, idle] at h
      · rw [inSession_data (Or.inl rfl)]
        simpa [FileRequest.ops, allSound_cons, Sound, act, streaming, h0] using ihStreaming file h0
    | putData =>
      refine ⟨fun file => iff_of_false (fun h => ?_) (not_sessions_cons (by simp) rs),
        fun file h0 => ?_⟩
      · simp [FileRequest.ops, allSound_cons, Sound, idle] at h
      · rw [inSession_data (Or.inr rfl)]
        simpa [FileRequest.ops, allSound_cons, Sound, act, streaming, h0] using ihStreaming file h0
    | closeFile =>
      refine ⟨fun file => iff_of_false (fun h => ?_) (not_sessions_cons (by simp) rs),
        fun file h0 => ?_⟩
      · simp [FileRequest.ops, allSound_cons, Sound, idle] at h
      · rw [inSession_closeFile]
        simpa [FileRequest.ops, allSound_cons, Sound, act, streaming, idle, h0] using ihIdle file

/-- For every sequence of requests a suvlet is sent: `fread`, `fwrite`, `fflush` and
    `fclose` only ever get an open stream, and no open replaces one, just when the
    sequence is made of sessions. -/
theorem trace_sound_iff (rs : List FileRequest) :
    (∀ x ∈ FileHandle.init.trace (allOps rs), x.1.Sound x.2) ↔ Sessions rs :=
  (allSound_allOps rs).1 0

/-- An `open_file` that fails, and a `get_data`: `fread` gets NULL. -/
theorem trace_failed_open :
    ¬ ∀ x ∈ FileHandle.init.trace (allOps [.openFile 0, .getData]), x.1.Sound x.2 := by
  decide

end CompatSuva.Suvlet
