import CompatSuva.Common.RecordLock
import CompatSuva.Common.Scanf
import CompatSuva.Scl.Types

/-!
# Lock files of processes

Model of `pid_lock`, `pid_unlock` and `pid_status` (`sutil.c` lines 41–136), for any number of
processes that call them in any order. A step is one system call of one process, with its outcome;
between two of them any other process may make its own.

* `lock_exclusive`: nobody else gets the lock as long as the file is not unlinked;
* `holds_of_others`: only calls of its own take a lock away from a process;
* `retry_breaks`: an attempt that fails unlinks the file, so that the next one succeeds while the
  lock is held;
* `pidStatus_iff`: what `pid_status` says, and that it costs the holder its lock.
-/

namespace CompatSuva.Sutil

open CompatSuva.Common CompatSuva.Scl

/-! ## Model -/

/-- `pid_t`. -/
abbrev Pid := BitVec 32

/-- The name of the lock file. -/
def pidfile (pid : Pid) : List Byte :=
  chars "/var/lib/suvlets" ++ chars "/var/run/lock." ++ decimalInt pid.toInt

/-- What `pid_lock` writes. -/
def pidBytes (pid : Pid) : List Byte := leBytes 4 pid.toNat

/-- Where a process is: behind `open` and behind `fcntl` of `pid_lock`, at the `close` and at the
    `unlink` of a failure; behind `open` and behind `fcntl` of `pid_status`. -/
inductive Pc where
  | idle
  | opened (pid : Pid) (ino : ℕ)
  | locked (pid : Pid) (ino : ℕ)
  | failed (pid : Pid) (ino : ℕ)
  | closed (pid : Pid)
  | asking (pid : Pid) (ino : ℕ)
  | asked (pid : Pid) (ino : ℕ) (other : Bool)
  deriving DecidableEq, Repr

/-- What a call has returned: a descriptor of `pid_lock`, -1, `PID_RUN` or `PID_STALE`. -/
inductive Returned where
  | descriptor (ino : ℕ)
  | error
  | run
  | stale
  deriving DecidableEq, Repr

/-- A system call with its outcome; `write` with the number of bytes. The first one of a function
    begins it, and a process can exit at any time. -/
inductive Act where
  | lockOpen (pid : Pid) (ok : Bool)
  | setLock (ok : Bool)
  | write (n : ℕ)
  | lockClose
  | lockUnlink (pid : Pid) (ok : Bool)
  | unlock (pid : Pid) (ok : Bool)
  | statusOpen (pid : Pid) (ok : Bool)
  | getLock (ok : Bool)
  | statusClose (fstatOk : Bool)
  | close (pid : Pid) (ino : ℕ)
  | exit
  deriving DecidableEq, Repr

/-- The act unlinks the lock file of `pid`. -/
def Act.Unlinks (act : Act) (pid : Pid) : Prop :=
  act = .unlock pid true ∨ act = .lockUnlink pid true

variable {α : Type}

/-- The files; where the processes are, the descriptors of `pid_lock` they have, and what their
    last call has returned. -/
structure World (α : Type) where
  files : LockFiles (List Byte) α
  pc : α → Pc
  fds : α → List (Pid × ℕ)
  ret : α → Option Returned

namespace World

/-- No process has called anything. -/
def init : World α := ⟨.empty, fun _ => .idle, fun _ => [], fun _ => none⟩

variable [DecidableEq α]

/-- The process goes on at `pc`. -/
def goto (w : World α) (p : α) (pc : Pc) : World α := { w with pc := Function.update w.pc p pc }

/-- The call of the process returns. -/
def finish (w : World α) (p : α) (r : Returned) : World α :=
  { w with pc := Function.update w.pc p .idle, ret := Function.update w.ret p (some r) }

/-- A system call of process `p`, if it can have this outcome there. -/
def step (w : World α) (p : α) : Act → Option (World α)
  | .lockOpen pid ok =>
    if w.pc p = .idle then
      if ok then
        let r := w.files.create (pidfile pid)
        some ({ w with files := r.2 }.goto p (.opened pid r.1))
      else some (w.finish p .error)
    else none
  | .setLock ok =>
    match w.pc p with
    | .opened pid ino =>
      if ok then
        (w.files.lock p ino).map fun files => { w with files := files }.goto p (.locked pid ino)
      else some (w.goto p (.failed pid ino))
    | _ => none
  | .write n =>
    match w.pc p with
    | .locked pid ino =>
      let w := { w with files := w.files.write ino ((pidBytes pid).take n) }
      if n = 4 then
        some ({ w with fds := Function.update w.fds p ((pid, ino) :: w.fds p) }.finish p
          (.descriptor ino))
      else if n < 4 then some (w.goto p (.failed pid ino))
      else none
    | _ => none
  | .lockClose =>
    match w.pc p with
    | .failed pid ino => some ({ w with files := w.files.close p ino }.goto p (.closed pid))
    | _ => none
  | .lockUnlink pid ok =>
    if w.pc p = .closed pid then
      let w := if ok then { w with files := w.files.unlink (pidfile pid) } else w
      some (w.finish p .error)
    else none
  | .unlock pid ok =>
    if w.pc p = .idle then
      some (if ok then { w with files := w.files.unlink (pidfile pid) } else w)
    else none
  | .statusOpen pid ok =>
    if w.pc p = .idle then
      match w.files.link (pidfile pid) with
      | none => some (w.finish p (if ok then .stale else .error))
      | some ino => some (if ok then w.goto p (.asking pid ino) else w.finish p .error)
    else none
  | .getLock ok =>
    match w.pc p with
    | .asking pid ino => some (w.goto p (.asked pid ino (ok && (w.files.getLock p ino).isSome)))
    | _ => none
  | .statusClose fstatOk =>
    match w.pc p with
    | .asked _ ino other => some ({ w with files := w.files.close p ino }.finish p
        (if fstatOk then if other then .run else .stale else .error))
    | _ => none
  | .close pid ino =>
    if w.pc p = .idle ∧ (pid, ino) ∈ w.fds p then
      some { w with
        files := w.files.close p ino
        fds := Function.update w.fds p ((w.fds p).erase (pid, ino)) }
    else none
  | .exit =>
    some { w with
      files := w.files.release p
      pc := Function.update w.pc p .idle
      fds := Function.update w.fds p [] }

/-- System calls, one after another. -/
def run (w : World α) : List (α × Act) → Option (World α)
  | [] => some w
  | x :: xs => (w.step x.1 x.2).bind fun w => run w xs

/-- The process has the lock file: a descriptor that `pid_lock` has returned, and the lock. -/
def Holds (w : World α) (p : α) (pid : Pid) : Prop :=
  ∃ ino, (pid, ino) ∈ w.fds p ∧ w.files.owner ino = some p

/-! ## A step -/

section

omit [DecidableEq α]

/-- The process may come to have this file: it has a descriptor of it, or is about to get one. -/
def Uses (w : World α) (p : α) (pid : Pid) (ino : ℕ) : Prop :=
  (pid, ino) ∈ w.fds p ∨ w.pc p = .opened pid ino ∨ w.pc p = .locked pid ino

/-- The process stays where it is, with what it has. -/
structure SameFor (q : α) (w w' : World α) : Prop where
  pc : w'.pc q = w.pc q
  fds : w'.fds q = w.fds q
  ret : w'.ret q = w.ret q

variable {w w' : World α} {p q : α} {act : Act} {pid pid' : Pid} {ino : ℕ}

theorem SameFor.refl (q : α) (w : World α) : SameFor q w w := ⟨rfl, rfl, rfl⟩

theorem SameFor.trans {w'' : World α} (h : SameFor q w w') (h' : SameFor q w' w'') :
    SameFor q w w'' := ⟨h'.pc.trans h.pc, h'.fds.trans h.fds, h'.ret.trans h.ret⟩

theorem SameFor.uses (h : SameFor q w w') : w'.Uses q pid ino ↔ w.Uses q pid ino := by
  rw [Uses, Uses, h.fds, h.pc]

end

variable {w w' : World α} {p q : α} {act : Act} {pid pid' : Pid} {ino : ℕ}

theorem sameFor_goto (hne : q ≠ p) (w : World α) (files : LockFiles (List Byte) α) (pc : Pc) :
    SameFor q w ({ w with files := files }.goto p pc) :=
  ⟨Function.update_of_ne hne .., rfl, rfl⟩

theorem sameFor_finish (hne : q ≠ p) (w : World α) (files : LockFiles (List Byte) α)
    (r : Returned) : SameFor q w ({ w with files := files }.finish p r) :=
  ⟨Function.update_of_ne hne .., rfl, Function.update_of_ne hne ..⟩

/-- Where a process has gone on, it uses what it has descriptors of, and the file it has opened. -/
theorem uses_goto (w : World α) (p : α) (files : LockFiles (List Byte) α) (pc : Pc) :
    ({ w with files := files }.goto p pc).Uses p pid ino ↔
      (pid, ino) ∈ w.fds p ∨ pc = .opened pid ino ∨ pc = .locked pid ino := by
  simp [Uses, goto]

theorem uses_finish (w : World α) (p : α) (files : LockFiles (List Byte) α) (r : Returned) :
    ({ w with files := files }.finish p r).Uses p pid ino ↔ (pid, ino) ∈ w.fds p := by
  simp [Uses, finish]

/-- What a system call of `p` does to the files. -/
inductive Effect (w : World α) (p : α) : Act → LockFiles (List Byte) α → Prop
  | same {act : Act} : Effect w p act w.files
  | create {pid : Pid} : Effect w p (.lockOpen pid true) (w.files.create (pidfile pid)).2
  | lock {pid : Pid} {ino : ℕ} {fs : LockFiles (List Byte) α} : w.pc p = .opened pid ino →
      w.files.lock p ino = some fs → Effect w p (.setLock true) fs
  | write {n ino : ℕ} {bs : List Byte} : Effect w p (.write n) (w.files.write ino bs)
  | close {act : Act} {ino : ℕ} : Effect w p act (w.files.close p ino)
  | unlink {act : Act} {pid : Pid} : act.Unlinks pid → Effect w p act (w.files.unlink (pidfile pid))
  | release : Effect w p .exit (w.files.release p)

/-- What a step does: the files change by one call, the other processes stay where they are, and
    the process comes to use no file but one it opens. -/
structure StepSpec (w : World α) (p : α) (act : Act) (w' : World α) : Prop where
  effect : Effect w p act w'.files
  others : ∀ q, q ≠ p → SameFor q w w'
  uses : ∀ pid ino, w'.Uses p pid ino → w.Uses p pid ino ∨
    act = .lockOpen pid true ∧ ino = (w.files.create (pidfile pid)).1
  locked : ∀ pid ino, w'.pc p = .locked pid ino → w'.files.owner ino = some p

theorem stepSpec_goto {files : LockFiles (List Byte) α} {pc : Pc} (heff : Effect w p act files)
    (hpc : ∀ pid ino, pc = .opened pid ino ∨ pc = .locked pid ino → w.Uses p pid ino ∨
      act = .lockOpen pid true ∧ ino = (w.files.create (pidfile pid)).1)
    (hlocked : ∀ pid ino, pc = .locked pid ino → files.owner ino = some p) :
    StepSpec w p act ({ w with files := files }.goto p pc) where
  effect := heff
  locked pid ino h := hlocked pid ino (by simpa [goto] using h)
  others _ hne := sameFor_goto hne w files pc
  uses pid ino h := by
    rcases (uses_goto w p files pc).mp h with h | h
    · exact Or.inl (Or.inl h)
    · exact hpc pid ino h

/-- The process goes on without a new file. -/
theorem stepSpec_pass (files : LockFiles (List Byte) α) {pc : Pc} (heff : Effect w p act files)
    (hpc : ∀ pid ino, pc ≠ .opened pid ino ∧ pc ≠ .locked pid ino) :
    StepSpec w p act ({ w with files := files }.goto p pc) :=
  stepSpec_goto heff (fun pid ino h => (h.elim (hpc pid ino).1 (hpc pid ino).2).elim)
    fun pid ino h => absurd h (hpc pid ino).2

theorem stepSpec_finish {files : LockFiles (List Byte) α} {r : Returned}
    (heff : Effect w p act files) : StepSpec w p act ({ w with files := files }.finish p r) where
  effect := heff
  others _ hne := sameFor_finish hne w files r
  uses _ _ h := Or.inl (Or.inl ((uses_finish w p files r).mp h))
  locked pid ino h := by simp [finish] at h

/-- `StepSpec` says all of a step that the invariants need. -/
theorem step_spec (h : w.step p act = some w') : StepSpec w p act w' := by
  cases act with
  | lockOpen pid ok =>
    simp only [step] at h
    split_ifs at h with hidle hok
    · subst hok
      obtain rfl := Option.some.inj h
      refine stepSpec_goto .create (fun pid' ino hpc => Or.inr ?_) (by simp)
      rcases hpc with hpc | hpc
      · obtain ⟨rfl, rfl⟩ := Pc.opened.inj hpc
        exact ⟨rfl, rfl⟩
      · cases hpc
    · obtain rfl := Option.some.inj h
      exact stepSpec_finish .same
  | setLock ok =>
    cases hpc : w.pc p with
    | opened pid ino =>
      simp only [step, hpc] at h
      split_ifs at h with hok
      · subst hok
        obtain ⟨files, hlock, rfl⟩ := Option.map_eq_some_iff.mp h
        refine stepSpec_goto (.lock hpc hlock) (fun pid' ino' hnew => Or.inl (Or.inr (Or.inl ?_)))
          fun pid' ino' hnew => ?_
        · rcases hnew with hnew | hnew
          · cases hnew
          · obtain ⟨rfl, rfl⟩ := Pc.locked.inj hnew
            exact hpc
        · obtain ⟨rfl, rfl⟩ := Pc.locked.inj hnew
          obtain ⟨-, rfl⟩ := LockFiles.lock_some hlock
          exact Function.update_self ..
      · obtain rfl := Option.some.inj h
        exact stepSpec_pass w.files .same (by simp)
    | _ => simp [step, hpc] at h
  | write n =>
    cases hpc : w.pc p with
    | locked pid ino =>
      simp only [step, hpc] at h
      split_ifs at h with hfull hshort
      · obtain rfl := Option.some.inj h
        refine ⟨.write, fun q hne => ⟨Function.update_of_ne hne .., Function.update_of_ne hne ..,
          Function.update_of_ne hne ..⟩, fun pid' ino' huses => Or.inl ?_,
          fun pid' ino' hlocked => by simp [finish] at hlocked⟩
        simp only [Uses, finish, Function.update_self, List.mem_cons, reduceCtorEq,
          or_false] at huses
        rcases huses with hnew | hold
        · obtain ⟨rfl, rfl⟩ := Prod.mk.inj hnew
          exact Or.inr (Or.inr hpc)
        · exact Or.inl hold
      · obtain rfl := Option.some.inj h
        exact stepSpec_pass _ .write (by simp)
    | _ => simp [step, hpc] at h
  | lockClose =>
    cases hpc : w.pc p with
    | failed pid ino =>
      simp only [step, hpc] at h
      obtain rfl := Option.some.inj h
      exact stepSpec_pass _ .close (by simp)
    | _ => simp [step, hpc] at h
  | lockUnlink pid ok =>
    simp only [step] at h
    split_ifs at h with hpc hok
    · obtain rfl := Option.some.inj h
      subst hok
      exact stepSpec_finish (.unlink (Or.inr rfl))
    · obtain rfl := Option.some.inj h
      exact stepSpec_finish .same
  | unlock pid ok =>
    simp only [step] at h
    split_ifs at h with hidle hok
    · obtain rfl := Option.some.inj h
      subst hok
      exact ⟨.unlink (Or.inl rfl), fun q _ => ⟨rfl, rfl, rfl⟩, fun _ _ huses => Or.inl huses,
        fun pid' ino' hlocked => by simp [hidle] at hlocked⟩
    · obtain rfl := Option.some.inj h
      exact ⟨.same, fun q _ => .refl q w, fun _ _ huses => Or.inl huses,
        fun pid' ino' hlocked => by simp [hidle] at hlocked⟩
  | statusOpen pid ok =>
    by_cases hidle : w.pc p = .idle
    · rw [step, if_pos hidle] at h
      cases hlink : w.files.link (pidfile pid) with
      | none =>
        simp only [hlink] at h
        obtain rfl := Option.some.inj h
        exact stepSpec_finish .same
      | some ino =>
        simp only [hlink] at h
        obtain rfl := Option.some.inj h
        split_ifs
        · exact stepSpec_pass w.files .same (by simp)
        · exact stepSpec_finish .same
    · rw [step, if_neg hidle] at h
      cases h
  | getLock ok =>
    cases hpc : w.pc p with
    | asking pid ino =>
      simp only [step, hpc] at h
      obtain rfl := Option.some.inj h
      exact stepSpec_pass w.files .same (by simp)
    | _ => simp [step, hpc] at h
  | statusClose fstatOk =>
    cases hpc : w.pc p with
    | asked pid ino other =>
      simp only [step, hpc] at h
      obtain rfl := Option.some.inj h
      exact stepSpec_finish .close
    | _ => simp [step, hpc] at h
  | close pid ino =>
    simp only [step] at h
    split_ifs at h with hidle
    obtain rfl := Option.some.inj h
    refine ⟨.close, fun q hne => ⟨rfl, Function.update_of_ne hne .., rfl⟩,
      fun pid' ino' huses => Or.inl ?_, fun pid' ino' hlocked => by simp [hidle.1] at hlocked⟩
    simp only [Uses, Function.update_self] at huses ⊢
    rcases huses with hmem | hpc
    · exact Or.inl (List.mem_of_mem_erase hmem)
    · exact Or.inr hpc
  | exit =>
    obtain rfl := Option.some.inj h
    refine ⟨.release,
      fun q hne => ⟨Function.update_of_ne hne .., Function.update_of_ne hne .., rfl⟩,
      fun pid' ino' huses => ?_, fun pid' ino' hlocked => by simp at hlocked⟩
    simp [Uses] at huses

/-! ## What steps keep -/

theorem pidfile_injective : Function.Injective pidfile := by
  intro pid pid' h
  exact BitVec.eq_of_toInt_eq (decimalInt_injective (List.append_cancel_left h))

/-- The files in use have been made, and a process behind `fcntl` has the lock. -/
structure Good (w : World α) : Prop where
  wf : w.files.WF
  uses_lt : ∀ p pid ino, w.Uses p pid ino → ino < w.files.next
  locked : ∀ p pid ino, w.pc p = .locked pid ino → w.files.owner ino = some p

omit [DecidableEq α] in
theorem good_init : (init : World α).Good :=
  ⟨LockFiles.WF.empty, fun p pid ino h => by simp [Uses, init] at h,
    fun p pid ino h => by simp [init] at h⟩

theorem Effect.next_le {fs : LockFiles (List Byte) α} (h : Effect w p act fs) :
    w.files.next ≤ fs.next := by
  cases h with
  | create => exact LockFiles.next_le_create ..
  | lock _ hlock =>
    obtain ⟨-, rfl⟩ := LockFiles.lock_some hlock
    exact le_refl _
  | _ => exact le_refl _

theorem Effect.wf {fs : LockFiles (List Byte) α} (h : Effect w p act fs) (hw : w.Good) : fs.WF := by
  cases h with
  | same => exact hw.wf
  | create => exact hw.wf.create _
  | lock hpc hlock => exact hw.wf.lock (hw.uses_lt _ _ _ (Or.inr (Or.inl hpc))) hlock
  | write => exact ⟨hw.wf.link_lt, hw.wf.owner_lt⟩
  | close => exact hw.wf.close _ _
  | unlink => exact hw.wf.unlink _
  | release => exact hw.wf.release _

/-- A process loses its lock by a call of its own only. -/
theorem Effect.owner {fs : LockFiles (List Byte) α} (h : Effect w p act fs) (hw : w.Good)
    (hne : q ≠ p) (hq : w.files.owner ino = some q) : fs.owner ino = some q := by
  cases h with
  | same => exact hq
  | create => rw [LockFiles.create_owner hw.wf, hq]
  | @lock _ ino' _ _ hlock =>
    obtain ⟨hfree, rfl⟩ := LockFiles.lock_some hlock
    have hino : ino ≠ ino' := by
      rintro rfl
      rcases hfree with hfree | hfree
      · simp [hfree] at hq
      · exact hne (Option.some.inj (hq.symm.trans hfree))
    exact (Function.update_of_ne hino ..).trans hq
  | write => exact hq
  | close => exact LockFiles.close_owner_of_ne hne hq
  | unlink => exact hq
  | release =>
    simp only [LockFiles.release, hq, Option.some.injEq]
    rw [if_neg hne]

/-- And it gets one by a call of its own only. -/
theorem Effect.owner_back {fs : LockFiles (List Byte) α} (h : Effect w p act fs) (hw : w.Good)
    (hne : q ≠ p) (hq : fs.owner ino = some q) : w.files.owner ino = some q := by
  cases h with
  | same => exact hq
  | create => rwa [LockFiles.create_owner hw.wf] at hq
  | @lock _ ino' _ _ hlock =>
    obtain ⟨-, rfl⟩ := LockFiles.lock_some hlock
    by_cases hino : ino = ino'
    · subst hino
      simp only [Function.update_self, Option.some.injEq] at hq
      exact absurd hq.symm hne
    · simpa [Function.update_of_ne hino] using hq
  | write => exact hq
  | close =>
    rw [LockFiles.close_owner] at hq
    split_ifs at hq
    exact hq
  | unlink => exact hq
  | release =>
    simp only [LockFiles.release] at hq
    split_ifs at hq
    exact hq

/-- The lock file keeps its name as long as nobody unlinks it. -/
theorem Effect.link {fs : LockFiles (List Byte) α} (h : Effect w p act fs)
    (hact : ¬ act.Unlinks pid) (hlink : w.files.link (pidfile pid) = some ino) :
    fs.link (pidfile pid) = some ino := by
  cases h with
  | same => exact hlink
  | @create pid' =>
    by_cases hpid : pid = pid'
    · subst hpid
      rw [LockFiles.create_eq hlink]
      exact hlink
    · rw [LockFiles.create_link_of_ne _ fun heq => hpid (pidfile_injective heq)]
      exact hlink
  | lock _ hlock =>
    obtain ⟨-, rfl⟩ := LockFiles.lock_some hlock
    exact hlink
  | write => exact hlink
  | close => exact hlink
  | @unlink _ pid' hunlinks =>
    have hpid : pid ≠ pid' := by
      rintro rfl
      exact hact hunlinks
    exact (Function.update_of_ne (fun heq => hpid (pidfile_injective heq)) ..).trans hlink
  | release => exact hlink

theorem lockOpen_files (h : w.step p (.lockOpen pid true) = some w') :
    w'.files = (w.files.create (pidfile pid)).2 := by
  simp only [step] at h
  split_ifs at h
  obtain rfl := Option.some.inj h
  rfl

theorem step_good (hw : w.Good) (h : w.step p act = some w') : w'.Good := by
  have hspec := step_spec h
  have hle := hspec.effect.next_le
  refine ⟨hspec.effect.wf hw, fun q pid ino huses => ?_, fun q pid ino hlocked => ?_⟩
  · by_cases hne : q = p
    · subst hne
      rcases hspec.uses pid ino huses with hold | ⟨rfl, rfl⟩
      · exact lt_of_lt_of_le (hw.uses_lt q pid ino hold) hle
      · rw [lockOpen_files h]
        exact LockFiles.create_lt hw.wf (pidfile pid)
    · exact lt_of_lt_of_le (hw.uses_lt q pid ino ((hspec.others q hne).uses.mp huses)) hle
  · by_cases hne : q = p
    · subst hne
      exact hspec.locked pid ino hlocked
    · rw [(hspec.others q hne).pc] at hlocked
      exact hspec.effect.owner hw hne (hw.locked q pid ino hlocked)

/-- Every process that has the lock file, or is about to, has the one that bears the name. -/
def Anchored (w : World α) (pid : Pid) : Prop :=
  ∀ p ino, w.Uses p pid ino → w.files.link (pidfile pid) = some ino

omit [DecidableEq α] in
theorem anchored_init (pid : Pid) : (init : World α).Anchored pid :=
  fun p ino h => by simp [Uses, init] at h

theorem step_anchored (hw : w.Anchored pid) (h : w.step p act = some w')
    (hact : ¬ act.Unlinks pid) : w'.Anchored pid := by
  have hspec := step_spec h
  intro q ino huses
  by_cases hne : q = p
  · subst hne
    rcases hspec.uses pid ino huses with hold | ⟨rfl, rfl⟩
    · exact hspec.effect.link hact (hw q ino hold)
    · rw [lockOpen_files h]
      exact LockFiles.create_link ..
  · exact hspec.effect.link hact (hw q ino ((hspec.others q hne).uses.mp huses))

/-! ## Runs -/

variable {tr tr' : List (α × Act)}

theorem run_append (w : World α) (xs ys : List (α × Act)) :
    w.run (xs ++ ys) = (w.run xs).bind fun w => w.run ys := by
  induction xs generalizing w with
  | nil => rfl
  | cons x xs ih => simp [run, ih, Option.bind_assoc]

/-- What every step of a run keeps. -/
theorem run_keeps {P : World α → Prop} (hw : P w) (h : w.run tr = some w')
    (hstep : ∀ w w' x, x ∈ tr → P w → w.step x.1 x.2 = some w' → P w') : P w' := by
  induction tr generalizing w with
  | nil => exact Option.some.inj h ▸ hw
  | cons x xs ih =>
    obtain ⟨w₁, hx, hxs⟩ := Option.bind_eq_some_iff.mp h
    exact ih (hstep w w₁ x (List.mem_cons_self ..) hw hx) hxs fun w w' y hy =>
      hstep w w' y (List.mem_cons_of_mem _ hy)

theorem run_good (hw : w.Good) (h : w.run tr = some w') : w'.Good :=
  run_keeps hw h fun _ _ _ _ hw hx => step_good hw hx

theorem run_anchored (hw : w.Anchored pid) (h : w.run tr = some w')
    (htr : ∀ x ∈ tr, ¬ x.2.Unlinks pid) : w'.Anchored pid :=
  run_keeps hw h fun _ _ x hx hw hstep => step_anchored hw hstep (htr x hx)

theorem run_sameFor (h : w.run tr = some w') (htr : ∀ x ∈ tr, x.1 ≠ p) : SameFor p w w' :=
  run_keeps (.refl p w) h fun _ _ x hx hw hstep =>
    hw.trans ((step_spec hstep).others p fun heq => htr x hx heq.symm)

/-- The process holds the lock of the file that bears the name. -/
def Locked (w : World α) (p : α) (pid : Pid) (ino : ℕ) : Prop :=
  w.files.link (pidfile pid) = some ino ∧ w.files.owner ino = some p

theorem run_locked (hw : w.Good) (hlocked : w.Locked p pid ino) (h : w.run tr = some w')
    (htr : ∀ x ∈ tr, x.1 ≠ p ∧ ¬ x.2.Unlinks pid) : w'.Locked p pid ino := by
  have hboth : w'.Good ∧ w'.Locked p pid ino :=
    run_keeps (P := fun w => w.Good ∧ w.Locked p pid ino) ⟨hw, hlocked⟩ h
      fun w₁ w₂ x hx hw₁ hstep => by
        have heff := (step_spec hstep).effect
        obtain ⟨hgood, hlink, howner⟩ := hw₁
        exact ⟨step_good hgood hstep, heff.link (htr x hx).2 hlink,
          heff.owner hgood (fun heq => (htr x hx).1 heq.symm) howner⟩
  exact hboth.2

omit [DecidableEq α] in
/-- The processes that hold the lock file hold the one that bears the name. -/
theorem Anchored.locked (hw : w.Anchored pid) (hp : w.Holds p pid) :
    ∃ ino, w.Locked p pid ino := by
  obtain ⟨ino, hfd, howner⟩ := hp
  exact ⟨ino, hw p ino (Or.inl hfd), howner⟩

omit [DecidableEq α] in
/-- Two processes do not hold the lock file, unless it has been unlinked. -/
theorem exclusive (hw : w.Anchored pid) (hp : w.Holds p pid) (hq : w.Holds q pid) : p = q := by
  obtain ⟨ino, hlink, howner⟩ := hw.locked hp
  obtain ⟨ino', hlink', howner'⟩ := hw.locked hq
  obtain rfl : ino = ino' := Option.some.inj (hlink.symm.trans hlink')
  exact Option.some.inj (howner.symm.trans howner')

/-- Only calls of its own take the lock file away from a process. -/
theorem holds_of_others (hw : w.Good) (hp : w.Holds p pid) (h : w.run tr = some w')
    (htr : ∀ x ∈ tr, x.1 ≠ p) : w'.Holds p pid := by
  obtain ⟨ino, hfd, howner⟩ := hp
  have hboth : w'.Good ∧ w'.files.owner ino = some p :=
    run_keeps (P := fun w => w.Good ∧ w.files.owner ino = some p) ⟨hw, howner⟩ h
      fun w₁ w₂ x hx hw₁ hstep =>
      ⟨step_good hw₁.1 hstep,
        (step_spec hstep).effect.owner hw₁.1 (fun heq => htr x hx heq.symm) hw₁.2⟩
  exact ⟨ino, by rwa [(run_sameFor h htr).fds], hboth.2⟩

/-- A process that has a descriptor from `pid_lock` holds the lock file. -/
theorem holds_of_write (hw : w.Good) (hpc : w.pc p = .locked pid ino)
    (h : w.step p (.write 4) = some w') :
    w'.Holds p pid ∧ w'.ret p = some (.descriptor ino) := by
  simp only [step, hpc, if_true] at h
  obtain rfl := Option.some.inj h
  refine ⟨⟨ino, ?_, hw.locked p pid ino hpc⟩, ?_⟩ <;> simp [finish]

/-- In every run, whatever the processes call and however their calls interleave: when `pid_lock`
    has returned a descriptor to `p`, then as long as `p` makes no call and nobody unlinks the
    lock file, `p` holds it and no other process does. -/
theorem lock_exclusive (h₀ : (init : World α).run tr = some w) (hpc : w.pc p = .locked pid ino)
    {w₁ : World α} (hwrite : w.step p (.write 4) = some w₁) (h : w₁.run tr' = some w')
    (htr : ∀ x ∈ tr ++ tr', ¬ x.2.Unlinks pid) (hp : ∀ x ∈ tr', x.1 ≠ p) :
    w₁.ret p = some (.descriptor ino) ∧ w'.Holds p pid ∧ ∀ q, w'.Holds q pid → q = p := by
  have hgood : w.Good := run_good good_init h₀
  obtain ⟨hholds, hret⟩ := holds_of_write hgood hpc hwrite
  have hanchored : w.Anchored pid := run_anchored (anchored_init pid) h₀ fun x hx =>
    htr x (List.mem_append_left _ hx)
  have hanchored₁ : w₁.Anchored pid := step_anchored hanchored hwrite (by simp [Act.Unlinks])
  have hanchored' : w'.Anchored pid := run_anchored hanchored₁ h fun x hx =>
    htr x (List.mem_append_right _ hx)
  have hholds' : w'.Holds p pid := holds_of_others (step_good hgood hwrite) hholds h hp
  exact ⟨hret, hholds', fun q hq => exclusive hanchored' hq hholds'⟩

/-- One process on its way through `pid_lock`, of a process 7. -/
def lockedWorld : World Bool :=
  ((init : World Bool).run [(true, .lockOpen 7 true), (true, .setLock true)]).getD init

/-- It gets a descriptor, and another process that opens the file then does not. -/
theorem lock_exclusive_other : ∃ w₁ w', lockedWorld.step true (.write 4) = some w₁ ∧
    w₁.run [(false, .lockOpen 7 true), (false, .setLock false)] = some w' ∧
    w₁.ret true = some (.descriptor 0) ∧ w'.Holds true 7 ∧ ∀ q, w'.Holds q 7 → q = true := by
  obtain ⟨w₁, hwrite⟩ : ∃ w₁, lockedWorld.step true (.write 4) = some w₁ := ⟨_, rfl⟩
  obtain ⟨w', h⟩ : ∃ w', w₁.run [(false, .lockOpen 7 true), (false, .setLock false)] = some w' := by
    obtain rfl := Option.some.inj hwrite
    exact ⟨_, rfl⟩
  exact ⟨w₁, w', hwrite, h, lock_exclusive
    (show (init : World Bool).run [(true, .lockOpen 7 true), (true, .setLock true)] =
      some lockedWorld from rfl) rfl hwrite h (by simp [Act.Unlinks]) (by simp)⟩

/-! ## Attempts that fail -/

/-- `pid_lock` by `p`, failing at `fcntl`. -/
def failedCalls (p : α) (pid : Pid) : List (α × Act) :=
  [(p, .lockOpen pid true), (p, .setLock false), (p, .lockClose), (p, .lockUnlink pid true)]

/-- `pid_lock` by `p`, with success. -/
def lockCalls (p : α) (pid : Pid) : List (α × Act) :=
  [(p, .lockOpen pid true), (p, .setLock true), (p, .write 4)]

/-- The world after `pid_lock` has failed for `p`: the lock file is emptied and has no name any
    more; `p` has lost the lock of that file if it had it. -/
theorem run_failedCalls (hidle : w.pc p = .idle) (hlink : w.files.link (pidfile pid) = some ino) :
    ∃ w', w.run (failedCalls p pid) = some w' ∧ w'.ret p = some .error ∧ w'.pc p = .idle ∧
      w'.fds = w.fds ∧ w'.files = ({ w.files with
        content := Function.update w.files.content ino [] }.close p ino).unlink (pidfile pid) := by
  simp [failedCalls, run, step, hidle, LockFiles.create_eq hlink, goto, finish]

/-- The world after `pid_lock` of a file without a name: a new file has the name and the lock. -/
theorem run_lockCalls (hidle : w.pc p = .idle) (hlink : w.files.link (pidfile pid) = none) :
    ∃ w', w.run (lockCalls p pid) = some w' ∧ w'.ret p = some (.descriptor w.files.next) ∧
      w'.fds = Function.update w.fds p ((pid, w.files.next) :: w.fds p) ∧
      w'.files.link (pidfile pid) = some w.files.next ∧
      w'.files.owner = Function.update w.files.owner w.files.next (some p) ∧
      ∀ ino, ino ≠ w.files.next → w'.files.content ino = w.files.content ino := by
  have hcreate : w.files.create (pidfile pid) = (w.files.next, {
      link := Function.update w.files.link (pidfile pid) (some w.files.next)
      content := Function.update w.files.content w.files.next []
      owner := Function.update w.files.owner w.files.next none
      next := w.files.next + 1 }) := by rw [LockFiles.create, hlink]
  simp only [lockCalls, run, step, hidle, hcreate, goto, if_true, Option.bind_some,
    Function.update_self]
  rw [LockFiles.lock_eq (by simp)]
  simp only [Option.map_some, Option.bind_some, Function.update_self, finish]
  refine ⟨_, rfl, Function.update_self .., rfl, Function.update_self .., ?_, fun ino hne => ?_⟩
  · rw [LockFiles.write, Function.update_idem]
  · simp [LockFiles.write, Function.update_of_ne hne]

/-- A lock file does not survive a second attempt. While `p` holds it, the first attempt of
    another process cannot get the lock; it fails, and it empties and unlinks the file. The second
    attempt finds no file, and succeeds: then both hold the lock file of `pid`, `p` one that has
    no name and no process number in it any more. -/
theorem retry_breaks (h : (init : World α).run tr = some w) (hp : w.Holds p pid)
    (hlink : w.files.link (pidfile pid) = some ino) (howner : w.files.owner ino = some p)
    (hne : q ≠ p) (hidle : w.pc q = .idle) :
    w.run [(q, .lockOpen pid true), (q, .setLock true)] = none ∧
    ∃ w₁ w₂ ino', w.run (failedCalls q pid) = some w₁ ∧ w₁.ret q = some .error ∧
      w₁.run (lockCalls q pid) = some w₂ ∧ w₂.ret q = some (.descriptor ino') ∧
      w₂.Holds p pid ∧ w₂.Holds q pid ∧ w₂.files.content ino = [] := by
  have hgood : w.Good := run_good good_init h
  have hlt : ino < w.files.next := hgood.wf.link_lt _ _ hlink
  refine ⟨?_, ?_⟩
  · have hnone : ({ w.files with content := Function.update w.files.content ino [] }).lock q ino =
        none := LockFiles.lock_none howner hne.symm
    simp [run, step, hidle, LockFiles.create_eq hlink, goto, hnone]
  · obtain ⟨w₁, hrun₁, hret₁, hidle₁, hfds₁, hfiles₁⟩ := run_failedCalls hidle hlink
    have hlink₁ : w₁.files.link (pidfile pid) = none := by
      rw [hfiles₁]
      exact Function.update_self ..
    have hnext₁ : w₁.files.next = w.files.next := by
      rw [hfiles₁]
      rfl
    obtain ⟨w₂, hrun₂, hret₂, hfds₂, -, howner₂, hcontent₂⟩ := run_lockCalls hidle₁ hlink₁
    have hpart : ∀ x ∈ failedCalls q pid ++ lockCalls q pid, x.1 ≠ p := by
      simp [failedCalls, lockCalls, hne]
    have hall : w.run (failedCalls q pid ++ lockCalls q pid) = some w₂ := by
      rw [run_append, hrun₁]
      exact hrun₂
    refine ⟨w₁, w₂, _, hrun₁, hret₁, hrun₂, hret₂, holds_of_others hgood hp hall hpart,
      ⟨w₁.files.next, ?_, ?_⟩, ?_⟩
    · rw [hfds₂]
      simp
    · rw [howner₂]
      exact Function.update_self ..
    · rw [hcontent₂ ino (by omega), hfiles₁]
      exact Function.update_self ..

/-- The process behind `pid_lock`. -/
def heldWorld : World Bool := ((init : World Bool).run (lockCalls true 7)).getD init

theorem run_heldWorld : (init : World Bool).run (lockCalls true 7) = some heldWorld := rfl

theorem heldWorld_link : heldWorld.files.link (pidfile 7) = some 0 := by
  obtain ⟨w', hrun, -, -, hlink, -⟩ := run_lockCalls
    (show (init : World Bool).pc true = .idle from rfl)
    (show (init : World Bool).files.link (pidfile 7) = none from rfl)
  obtain rfl : heldWorld = w' := Option.some.inj (run_heldWorld.symm.trans hrun)
  exact hlink

theorem heldWorld_holds : heldWorld.Holds true 7 := ⟨0, List.mem_cons_self .., rfl⟩

/-- Two processes hold the lock file of 7 in the end. -/
theorem retry_breaks_two : ∃ w₁ w₂, heldWorld.run (failedCalls false 7) = some w₁ ∧
    w₁.run (lockCalls false 7) = some w₂ ∧ w₂.Holds true 7 ∧ w₂.Holds false 7 := by
  obtain ⟨-, w₁, w₂, ino', h₁, -, h₂, -, hp, hq, -⟩ := retry_breaks run_heldWorld heldWorld_holds
    heldWorld_link rfl (show false ≠ true by decide) rfl
  exact ⟨w₁, w₂, h₁, h₂, hp, hq⟩

/-! ## Asking -/

/-- `pid_status` by `p`, without errors. -/
def statusCalls (p : α) (pid : Pid) : List (α × Act) :=
  [(p, .statusOpen pid true), (p, .getLock true), (p, .statusClose true)]

theorem run_link (hlink : w.files.link (pidfile pid) = some ino) (h : w.run tr = some w')
    (htr : ∀ x ∈ tr, ¬ x.2.Unlinks pid) : w'.files.link (pidfile pid) = some ino :=
  run_keeps (P := fun w => w.files.link (pidfile pid) = some ino) hlink h
    fun _ _ x hx hw hstep => (step_spec hstep).effect.link (htr x hx) hw

/-- A process does not come to have a lock by the calls of others. -/
theorem run_not_owner (hw : w.Good) (howner : w.files.owner ino ≠ some p) (h : w.run tr = some w')
    (htr : ∀ x ∈ tr, x.1 ≠ p) : w'.files.owner ino ≠ some p := by
  have hboth : w'.Good ∧ w'.files.owner ino ≠ some p :=
    run_keeps (P := fun w => w.Good ∧ w.files.owner ino ≠ some p) ⟨hw, howner⟩ h
      fun w₁ w₂ x hx hw₁ hstep => ⟨step_good hw₁.1 hstep, fun hp => hw₁.2
        ((step_spec hstep).effect.owner_back hw₁.1 (fun heq => htr x hx heq.symm) hp)⟩
  exact hboth.2

/-- The calls of one process in a run, and what the others do before, between and after them. -/
theorem run_split {x : α × Act} {cs : List (α × Act)} (h : w.run tr = some w')
    (hcalls : tr.filter (fun y => y.1 = p) = x :: cs) :
    ∃ xs ys w₁ w₂, w.run xs = some w₁ ∧ w₁.step p x.2 = some w₂ ∧ w₂.run ys = some w' ∧
      (∀ y ∈ xs, y ∈ tr ∧ y.1 ≠ p) ∧ (∀ y ∈ ys, y ∈ tr) ∧ ys.filter (fun y => y.1 = p) = cs := by
  obtain ⟨xs, ys, rfl, hxs, hx, hys⟩ := List.filter_eq_cons_iff.mp hcalls
  rw [run_append] at h
  obtain ⟨w₁, h₁, h⟩ := Option.bind_eq_some_iff.mp h
  obtain ⟨w₂, h₂, h⟩ := Option.bind_eq_some_iff.mp h
  have hx : x.1 = p := by simpa using hx
  rw [hx] at h₂
  exact ⟨xs, ys, w₁, w₂, h₁, h₂, h, fun y hy => ⟨by simp [hy], by simpa using hxs y hy⟩,
    fun y hy => by simp [hy], hys⟩

/-- While `q` holds the lock file, and calls nothing unless it asks itself, `pid_status` says
    `PID_RUN` to every other process, whatever third processes do between its system calls. To `q`
    it says `PID_STALE`, and takes the lock away from it. -/
theorem pidStatus_iff {tr₀ : List (α × Act)} (h₀ : (init : World α).run tr₀ = some w)
    (hq : w.Holds q pid) (h : w.run tr = some w') (htr : ∀ x ∈ tr₀ ++ tr, ¬ x.2.Unlinks pid)
    (hquiet : ∀ x ∈ tr, x.1 = q → q = p)
    (hcalls : tr.filter (fun x => x.1 = p) = statusCalls p pid) :
    (w'.ret p = some .run ↔ p ≠ q) ∧ (w'.ret p = some .stale ↔ p = q) ∧
      (w'.Holds q pid ↔ p ≠ q) := by
  have hgood : w.Good := run_good good_init h₀
  have hanchored : w.Anchored pid := run_anchored (anchored_init pid) h₀ fun x hx =>
    htr x (List.mem_append_left _ hx)
  have hno : ∀ x ∈ tr, ¬ x.2.Unlinks pid := fun x hx => htr x (List.mem_append_right _ hx)
  have hanchored' : w'.Anchored pid := run_anchored hanchored h hno
  obtain ⟨ino, hlocked⟩ := hanchored.locked hq
  -- what the others do between the calls of `p` leaves the lock with `q`
  have hothers : ∀ {xs : List (α × Act)}, (∀ y ∈ xs, y ∈ tr ∧ y.1 ≠ p) →
      ∀ y ∈ xs, y.1 ≠ q ∧ ¬ y.2.Unlinks pid := by
    intro xs hxs y hy
    refine ⟨fun heq => ?_, hno y (hxs y hy).1⟩
    exact (hxs y hy).2 (heq.trans (hquiet y (hxs y hy).1 heq))
  obtain ⟨xs, ys, a, b, ha, hopen, hb, hxs, hys, hcalls₁⟩ := run_split h hcalls
  obtain ⟨ys, zs, c, d, hc, hget, hd, hys', hzs, hcalls₂⟩ := run_split hb hcalls₁
  obtain ⟨zs, us, e, f, he, hclose, hf, hzs', hus, hcalls₃⟩ := run_split hd hcalls₂
  have hys' : ∀ y ∈ ys, y ∈ tr ∧ y.1 ≠ p := fun y hy => ⟨hys y (hys' y hy).1, (hys' y hy).2⟩
  have hzs' : ∀ y ∈ zs, y ∈ tr ∧ y.1 ≠ p := fun y hy => ⟨hys y (hzs y (hzs' y hy).1), (hzs' y hy).2⟩
  have hus' : ∀ y ∈ us, y.1 ≠ p := fun y hy heq => by
    have hmem : y ∈ us.filter fun y => y.1 = p := List.mem_filter.mpr ⟨hy, by simpa using heq⟩
    rw [hcalls₃] at hmem
    simp at hmem
  -- `open`
  have hlocked_a := run_locked hgood hlocked ha (hothers hxs)
  have hgood_a := run_good hgood ha
  obtain rfl : a.goto p (.asking pid ino) = b := by
    simp only [step] at hopen
    split_ifs at hopen
    simpa [hlocked_a.1] using hopen
  -- `fcntl`
  have hgood_b := step_good hgood_a hopen
  have hlocked_c := run_locked hgood_b (show (a.goto p _).Locked q pid ino from hlocked_a) hc
    (hothers hys')
  have hgood_c := run_good hgood_b hc
  have hpc_c : c.pc p = .asking pid ino := by
    rw [(run_sameFor hc fun y hy => (hys' y hy).2).pc]
    simp [goto]
  have hother : (c.files.getLock p ino).isSome = decide (p ≠ q) := by
    rw [LockFiles.getLock, hlocked_c.2]
    by_cases hpq : p = q
    · simp [hpq]
    · simp [hpq, Ne.symm hpq]
  obtain rfl : c.goto p (.asked pid ino (decide (p ≠ q))) = d := by
    simp only [step, hpc_c, hother] at hget
    simpa using hget
  -- `close`
  have hgood_d := step_good hgood_c hget
  have hlocked_e := run_locked hgood_d (show (c.goto p _).Locked q pid ino from hlocked_c) he
    (hothers hzs')
  have hgood_e := run_good hgood_d he
  have hpc_e : e.pc p = .asked pid ino (decide (p ≠ q)) := by
    rw [(run_sameFor he fun y hy => (hzs' y hy).2).pc]
    simp [goto]
  have hf_eq : f = { e with files := e.files.close p ino }.finish p
      (if p = q then .stale else .run) := by
    simp only [step, hpc_e] at hclose
    rw [← Option.some.inj hclose]
    by_cases hpq : p = q <;> simp [hpq]
  have hret : w'.ret p = some (if p = q then .stale else .run) := by
    rw [(run_sameFor hf hus').ret, hf_eq]
    simp [finish]
  have hgood_f := step_good hgood_e hclose
  have hlink' : w'.files.link (pidfile pid) = some ino := run_link hlocked.1 h hno
  by_cases hpq : p = q
  · subst hpq
    have hlost : f.files.owner ino ≠ some p := by
      rw [hf_eq]
      simp [finish, LockFiles.close_owner, hlocked_e.2]
    refine ⟨by simp [hret], by simp [hret], iff_of_false ?_ (by simp)⟩
    rintro ⟨ino', hfd, howner⟩
    obtain rfl : ino' = ino := Option.some.inj ((hanchored' p ino' (Or.inl hfd)).symm.trans hlink')
    exact run_not_owner hgood_f hlost hf hus' howner
  · refine ⟨by simp [hret, hpq], by simp [hret, hpq], iff_of_true ?_ hpq⟩
    exact holds_of_others hgood hq h fun x hx heq => hpq (hquiet x hx heq).symm

/-- The holder asks for its own status. -/
theorem pidStatus_iff_self : ∃ w', heldWorld.run (statusCalls true 7) = some w' ∧
    w'.ret true = some .stale ∧ ¬ w'.Holds true 7 := by
  obtain ⟨w', h⟩ : ∃ w', heldWorld.run (statusCalls true 7) = some w' := by
    simp only [statusCalls, run, step, heldWorld_link]
    exact ⟨_, rfl⟩
  have hno : ∀ x ∈ lockCalls true 7 ++ statusCalls true 7, ¬ x.2.Unlinks 7 := by
    simp [lockCalls, statusCalls, Act.Unlinks]
  obtain ⟨-, hstale, hholds⟩ := pidStatus_iff run_heldWorld heldWorld_holds h hno
    (by simp) (show (statusCalls true 7).filter (fun x => x.1 = true) = statusCalls true 7 from rfl)
  exact ⟨w', h, hstale.mpr rfl, fun hlost => hholds.mp hlost rfl⟩

end World

end CompatSuva.Sutil
