import CompatSuva.Audit.Requests

/-!
# The children of `SecurityAudit`

`wait` gives any child, so that a function gets the status of its own child only if no
other is left. A request leaves one behind when `fdopen` fails, and `get_md5` also when
the program prints nothing.

* `step_leaves`: what a request leaves behind;
* `children_reaped_iff`: in a run every status belongs to the right child, and no child
  is left when a request returns, just when every request reaps its children.
-/

namespace CompatSuva.Audit

/-! ## Requests that reap their children -/

/-- The stream is opened if there is a child. -/
def Reading.Reaps (r : Reading) : Prop := r.fork = .failed ∨ r.fdopen = true

/-- The request comes to its call of `wait` if it has started a child. -/
def Request.Reaps : Request → Prop
  | .getMd5 _ r line => r.fork = .failed ∨ r.fdopen = true ∧ line = true
  | .runAide _ chdir symlink _ r _ _ _ _ => chdir.isSome = true → symlink = true → r.Reaps
  | .getNewXuids _ r _ _ => r.Reaps
  | .getNewDotFiles _ r _ _ => r.Reaps
  | .getPasswordless _ r => r.Reaps
  | _ => True

namespace Process

/-- What each call of `wait` between the two states gives is the child it is for. -/
def OwnStatus (s s' : Process) : Prop :=
  ∃ es, s'.log = s.log ++ es ∧ ∀ own got, .waited own got ∈ es → got = some own

/-- No child is left, and every status was that of the right child. -/
structure Reaped (s s' : Process) : Prop where
  unreaped : s'.unreaped = []
  ownStatus : OwnStatus s s'

variable {s s' s'' : Process}

theorem OwnStatus.trans (h : OwnStatus s s') (h' : OwnStatus s' s'') : OwnStatus s s'' := by
  obtain ⟨es, hlog, hes⟩ := h
  obtain ⟨es', hlog', hes'⟩ := h'
  refine ⟨es ++ es', by rw [hlog', hlog, List.append_assoc], fun own got hmem => ?_⟩
  rcases List.mem_append.mp hmem with hmem | hmem
  · exact hes own got hmem
  · exact hes' own got hmem

theorem OwnStatus.of_log (hlog : s'.log = s.log) : OwnStatus s s' := ⟨[], by simp [hlog], by simp⟩

theorem OwnStatus.note {e : Event} (he : ∀ own got, e ≠ .waited own got) :
    OwnStatus s (s.note e) :=
  ⟨[e], rfl, fun own got hmem => absurd (List.mem_singleton.mp hmem).symm (he own got)⟩

theorem Reaped.trans (h : OwnStatus s s') (h' : Reaped s' s'') : Reaped s s'' :=
  ⟨h'.unreaped, h.trans h'.ownStatus⟩

/-! ## Programs -/

theorem ownStatus_execute (s : Process) (prog : Program) (stuck : List Path) :
    OwnStatus s (s.execute prog stuck) := by
  cases prog with
  | rm path => exact OwnStatus.trans (.of_log rfl) (.note (by simp))
  | other files => exact .of_log rfl

theorem ownStatus_readTmpDir (s : Process) : OwnStatus s s.readTmpDir := by
  unfold readTmpDir
  split
  · exact .note (by simp)
  · exact .of_log rfl

theorem ownStatus_leaveStreams (s : Process) (taken : ℕ → ℕ) :
    OwnStatus s (s.leaveStreams taken) := .of_log rfl

theorem ownStatus_childCleanUp (s : Process) (c : CleanUp) : OwnStatus s (s.childCleanUp c) := by
  unfold childCleanUp
  cases s.tmpDir.name with
  | none => exact .of_log rfl
  | some dir =>
    cases c with
    | forkFailed => exact ownStatus_readTmpDir s
    | execFailed taken => exact (ownStatus_readTmpDir s).trans (ownStatus_leaveStreams _ _)
    | ran stuck => exact (ownStatus_readTmpDir s).trans (ownStatus_execute _ _ _)

theorem ownStatus_runChild (s : Process) (prog : Program) (e : Exec) :
    OwnStatus s (s.runChild prog e) := by
  cases e with
  | ran stuck status => exact ownStatus_execute s prog stuck
  | failed c taken =>
    refine OwnStatus.trans ?_ (ownStatus_leaveStreams _ taken)
    unfold childHandlers
    split_ifs
    · exact ownStatus_childCleanUp s c
    · exact .of_log rfl

theorem ownStatus_start (s : Process) (prog : Program) (pid : ℕ) (e : Exec) :
    OwnStatus s (s.start prog pid e) := (ownStatus_runChild s prog e).trans (.of_log rfl)

/-- When the child is the only one, `wait` gives it. -/
theorem wait_own {own : Child} (h : s.unreaped = [own]) (k : ℕ) :
    (s.wait own k).1 = some own ∧ Reaped s (s.wait own k).2 := by
  have hgot : s.unreaped[k % s.unreaped.length]? = some own := by simp [h, Nat.mod_one]
  refine ⟨hgot, by simp [wait, note, h, Nat.mod_one], [.waited own (some own)], ?_, ?_⟩
  · rw [← hgot]
    rfl
  · intro own' got hmem
    obtain ⟨rfl, rfl⟩ : own' = own ∧ got = some own := by simpa using hmem
    rfl

/-- A child that is started and waited for. -/
theorem start_wait (h : s.unreaped = []) (prog : Program) (pid : ℕ) (e : Exec) (k : ℕ) :
    Reaped s ((s.start prog pid e).wait ⟨pid, childStatus e⟩ k).2 :=
  .trans (ownStatus_start s prog pid e) (wait_own (by simp [start, h]) k).2

theorem safeExec_reaped (h : s.unreaped = []) (prog : Program) (f : Fork) (k : ℕ) :
    Reaped s (s.safeExec prog f k).2 := by
  cases f with
  | failed => exact ⟨h, .of_log rfl⟩
  | child pid e =>
    have hwait := start_wait h prog pid e k
    unfold safeExec
    simp only
    split <;> exact hwait

/-! ## Requests -/

/-- `safe_exec_pipe` starts the only child, if it starts one. -/
theorem safeExecPipe_child (h : s.unreaped = []) (prog : Program) {f : Fork} {own : Child}
    {s₁ : Process} (hrun : s.safeExecPipe prog f = (some own, s₁)) :
    s₁.unreaped = [own] ∧ OwnStatus s s₁ ∧ f ≠ .failed := by
  cases f with
  | failed => simp [safeExecPipe] at hrun
  | child pid e =>
    obtain ⟨hown, rfl⟩ := Prod.mk.inj hrun
    obtain rfl := Option.some.inj hown
    exact ⟨by simp [start, h], ownStatus_start s prog pid e, by simp⟩

theorem safeExecPipe_none {prog : Program} {f : Fork} {s₁ : Process}
    (hrun : s.safeExecPipe prog f = (none, s₁)) : f = .failed ∧ s₁ = s := by
  cases f with
  | failed => exact ⟨rfl, (Prod.mk.inj hrun).2.symm⟩
  | child pid e => simp [safeExecPipe] at hrun

/-- What a request leaves behind: nothing if it reaps its children, else a child. -/
def Leaves (reaps : Prop) (s s' : Process) : Prop :=
  (reaps → Reaped s s') ∧ (¬ reaps → s'.unreaped ≠ [])

theorem Leaves.reaped {reaps : Prop} (hr : reaps) (h : Reaped s s') : Leaves reaps s s' :=
  ⟨fun _ => h, fun hn => absurd hr hn⟩

theorem Leaves.child {reaps : Prop} (hr : ¬ reaps) (h : s'.unreaped ≠ []) : Leaves reaps s s' :=
  ⟨fun hp => absurd hp hr, fun _ => h⟩

theorem getMd5_leaves (h : s.unreaped = []) (files : Files → Files) (r : Reading)
    (line : Bool) : Leaves (Request.getMd5 files r line).Reaps s (s.getMd5 files r line).2 := by
  unfold getMd5
  rcases hpipe : s.safeExecPipe (.other files) r.fork with ⟨own, s₁⟩
  cases own with
  | none =>
    obtain ⟨hfork, rfl⟩ := safeExecPipe_none hpipe
    exact .reaped (Or.inl hfork) ⟨h, .of_log rfl⟩
  | some own =>
    obtain ⟨hown, hstart, hfork⟩ := safeExecPipe_child h _ hpipe
    cases hfdopen : r.fdopen with
    | false => exact .child (by simp [Request.Reaps, hfork, hfdopen]) (by simp [hown])
    | true =>
      cases line with
      | false => exact .child (by simp [Request.Reaps, hfork]) (by simp [hown])
      | true => exact .reaped (Or.inr ⟨hfdopen, rfl⟩) (.trans hstart (wait_own hown r.k).2)

theorem readProgram_leaves (h : s.unreaped = []) (files : Files → Files) (r : Reading) :
    Leaves r.Reaps s (s.readProgram files r).2 := by
  unfold readProgram
  rcases hpipe : s.safeExecPipe (.other files) r.fork with ⟨own, s₁⟩
  cases own with
  | none =>
    obtain ⟨hfork, rfl⟩ := safeExecPipe_none hpipe
    exact .reaped (Or.inl hfork) ⟨h, .of_log rfl⟩
  | some own =>
    obtain ⟨hown, hstart, hfork⟩ := safeExecPipe_child h _ hpipe
    cases hfdopen : r.fdopen with
    | false => exact .child (by simp [Reading.Reaps, hfork, hfdopen]) (by simp [hown])
    | true =>
      refine .reaped (Or.inr hfdopen) ?_
      have hwait : Reaped s (s₁.wait own r.k).2 := .trans hstart (wait_own hown r.k).2
      simp only [Bool.not_true, Bool.false_eq_true, if_false]
      split
      · exact hwait
      · split_ifs <;> exact hwait

theorem dbDiff_state (s : Process) (files : Files → Files) (r : Reading)
    (read write : Bool) : (s.dbDiff files r read write).2 = (s.readProgram files r).2 := by
  unfold dbDiff
  simp only
  split
  · rfl
  · split_ifs <;> rfl

theorem runAide_leaves (h : s.unreaped = []) (workingDir : Path) (chdir : Option Path)
    (symlink : Bool) (files : Files → Files) (r : Reading) (initFiles : Files → Files)
    (init : Fork) (k : ℕ) (copy : Bool) :
    Leaves (chdir.isSome = true → symlink = true → r.Reaps) s
      (s.runAide workingDir chdir symlink files r initFiles init k copy).2 := by
  unfold runAide
  cases chdir with
  | none => exact .reaped (by simp) ⟨h, .of_log rfl⟩
  | some cwd =>
    cases symlink with
    | false => exact .reaped (by simp) ⟨h, .of_log rfl⟩
    | true =>
      simp only [Option.isSome_some, Bool.not_true, Bool.false_eq_true, if_false, true_imp_iff]
      set s₁ : Process := { s with cwd := cwd }
      set s₂ : Process := { s₁ with
        disk.names := s₁.resolve (Scl.chars "./aide.db") :: s₁.disk.names }
      have h₂ : s₂.unreaped = [] := h
      have hlog₂ : OwnStatus s s₂ := .of_log rfl
      rcases hpipe : s₂.safeExecPipe (.other files) r.fork with ⟨own, s₃⟩
      cases own with
      | none =>
        obtain ⟨hfork, rfl⟩ := safeExecPipe_none hpipe
        exact .reaped (Or.inl hfork) ⟨h₂, hlog₂⟩
      | some own =>
        obtain ⟨hown, hstart, hfork⟩ := safeExecPipe_child h₂ _ hpipe
        cases hfdopen : r.fdopen with
        | false => exact .child (by simp [Reading.Reaps, hfork, hfdopen]) (by simp [hown])
        | true =>
          obtain ⟨-, hwait⟩ := wait_own hown r.k
          have hexec : Reaped s ((s₃.wait own r.k).2.safeExec (.other initFiles) init k).2 :=
            .trans (hlog₂.trans (hstart.trans hwait.ownStatus))
              (safeExec_reaped hwait.unreaped (.other initFiles) init k)
          refine .reaped (Or.inr hfdopen) ?_
          simp only [Bool.not_true, Bool.false_eq_true, if_false]
          split_ifs <;> exact hexec

theorem rmdir_reaped (h : s.unreaped = []) (dirName : Option Path) (f : Fork) (k : ℕ) :
    Reaped s (s.rmdir dirName f k).2 := by
  unfold rmdir
  cases s.tmpDir.name with
  | none => exact ⟨h, .of_log rfl⟩
  | some dir =>
    have hread : s.readTmpDir.unreaped = [] := by
      unfold readTmpDir
      split <;> exact h
    have hexec : Reaped s (s.readTmpDir.safeExec (.rm dir) f k).2 :=
      .trans (ownStatus_readTmpDir s) (safeExec_reaped hread (.rm dir) f k)
    exact ⟨hexec.unreaped, hexec.ownStatus.trans (.of_log rfl)⟩

theorem mkWorkingDir_reaped (h : s.unreaped = []) (dirName : Option Path) (mkdir strdup : Bool) :
    Reaped s (s.mkWorkingDir dirName mkdir strdup).2 := by
  unfold mkWorkingDir
  split
  · exact ⟨h, OwnStatus.trans (.of_log rfl) (.note (by simp))⟩
  · exact ⟨h, .of_log rfl⟩

theorem step_leaves (h : s.unreaped = []) (r : Request) : Leaves r.Reaps s (s.step r) := by
  cases r with
  | mkWorkingDir dirName mkdir strdup => exact .reaped trivial (mkWorkingDir_reaped h _ _ _)
  | rmdir dirName f k => exact .reaped trivial (rmdir_reaped h dirName f k)
  | getMd5 files r line => exact getMd5_leaves h files r line
  | runAide workingDir chdir symlink files r initFiles init k copy =>
    exact runAide_leaves h workingDir chdir symlink files r initFiles init k copy
  | getNewXuids files r read write =>
    rw [step, dbDiff_state]
    exact readProgram_leaves h files r
  | getNewDotFiles files r read write =>
    rw [step, dbDiff_state]
    exact readProgram_leaves h files r
  | getPasswordless files r => exact readProgram_leaves h files r
  | other files => exact .reaped trivial ⟨h, .of_log rfl⟩

/-! ## Runs -/

/-- Each request, with the states before and after it. -/
def trace (s : Process) : List Request → List (Process × Request × Process)
  | [] => []
  | r :: rs => (s, r, s.step r) :: (s.step r).trace rs

/-- From a state without children, all requests are served right just when all reap
    their children. -/
theorem trace_reaped_iff (h : s.unreaped = []) (rs : List Request) :
    (∀ x ∈ s.trace rs, Reaped x.1 x.2.2) ↔ ∀ r ∈ rs, r.Reaps := by
  induction rs generalizing s with
  | nil => simp [trace]
  | cons r rs ih =>
    obtain ⟨hreaped, hleft⟩ := step_leaves h r
    simp only [trace, List.mem_cons, forall_eq_or_imp]
    by_cases hr : r.Reaps
    · rw [ih (hreaped hr).unreaped]
      exact and_congr_left fun _ => iff_of_true (hreaped hr) hr
    · exact iff_of_false (fun hx => hleft hr hx.1.unreaped) fun hx => hr hx.1

end Process

open Process

/-- For every sequence of requests and every outcome of their calls: each call of `wait`
    gives the child that the same function has started, and no child is left when a
    request returns, just when no `fdopen` fails behind a `fork` and the program of a
    `get_md5` prints a line. -/
theorem children_reaped_iff (cwd : Path) (disk : Files) (rs : List Request) :
    (∀ x ∈ (started cwd disk).trace rs, x.2.2.unreaped = [] ∧
      ∃ es, x.2.2.log = x.1.log ++ es ∧ ∀ own got, .waited own got ∈ es → got = some own) ↔
      ∀ r ∈ rs, r.Reaps := by
  rw [← @trace_reaped_iff (started cwd disk) rfl rs]
  exact forall₂_congr fun x _ => ⟨fun h => ⟨h.1, h.2⟩, fun h => ⟨h.unreaped, h.ownStatus⟩⟩

/-- The `md5sum` of a `get_md5` prints nothing and fails; the program of the
    `get_passwordless` behind it succeeds, and is reported as failed. -/
theorem children_mixed :
    let s := (started [] (.closed [])).step (.getMd5 id ⟨.child 7 (.ran [] 256), true, 0⟩ false)
    s.unreaped = [⟨7, 256⟩] ∧
      (s.getPasswordless id ⟨.child 8 (.ran [] 0), true, 0⟩).1 =
        .text "<error>1\nFailed to execute command" ∧
      (s.getPasswordless id ⟨.child 8 (.ran [] 0), true, 0⟩).2.log =
        [.waited ⟨8, 0⟩ (some ⟨7, 256⟩)] := by
  decide

end CompatSuva.Audit
