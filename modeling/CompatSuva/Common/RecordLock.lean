import CompatSuva.Common.LittleEndian

/-!
# Files that are locked

Files have names and locks. A lock is on the whole of a file and belongs to a process, not to a
descriptor: it goes when the process closes any descriptor of the file. A name can be taken from
its file while the file is open, and be given to a new one.

* `create_link`, `close_owner`, `lock_eq`: what the calls do;
* `WF`: a name stands for a file that has been made, and so does a lock.
-/

namespace CompatSuva.Common

/-- The files of a machine: which file a name stands for, what is in the files, who holds their
    locks. Those from `next` on have not been made. -/
structure LockFiles (ν α : Type) where
  link : ν → Option ℕ
  content : ℕ → List Byte
  owner : ℕ → Option α
  next : ℕ

namespace LockFiles

variable {ν α : Type} {fs fs' : LockFiles ν α} {name name' : ν} {p q : α} {ino ino' : ℕ}

/-- No files. -/
def empty : LockFiles ν α := ⟨fun _ => none, fun _ => [], fun _ => none, 0⟩

/-- `write` at the start of the file. -/
def write (fs : LockFiles ν α) (ino : ℕ) (bs : List Byte) : LockFiles ν α :=
  { fs with content := Function.update fs.content ino (bs ++ (fs.content ino).drop bs.length) }

/-- A file that has a name has been made, and so has one that is locked. -/
structure WF (fs : LockFiles ν α) : Prop where
  link_lt : ∀ name ino, fs.link name = some ino → ino < fs.next
  owner_lt : ∀ ino p, fs.owner ino = some p → ino < fs.next

theorem WF.empty : (LockFiles.empty : LockFiles ν α).WF := by
  constructor <;> simp [LockFiles.empty]

/-! ## Names -/

section

variable [DecidableEq ν]

/-- `open` with `O_CREAT | O_TRUNC`: the file of that name, emptied, or a new one. -/
def create (fs : LockFiles ν α) (name : ν) : ℕ × LockFiles ν α :=
  match fs.link name with
  | some ino => (ino, { fs with content := Function.update fs.content ino [] })
  | none => (fs.next, {
      link := Function.update fs.link name (some fs.next)
      content := Function.update fs.content fs.next []
      owner := Function.update fs.owner fs.next none
      next := fs.next + 1 })

/-- `unlink`. -/
def unlink (fs : LockFiles ν α) (name : ν) : LockFiles ν α :=
  { fs with link := Function.update fs.link name none }

/-- The name stands for the file that has been opened. -/
theorem create_link (fs : LockFiles ν α) (name : ν) :
    (fs.create name).2.link name = some (fs.create name).1 := by
  unfold create
  cases h : fs.link name with
  | some ino => simp [h]
  | none => simp

theorem create_eq (h : fs.link name = some ino) :
    fs.create name = (ino, { fs with content := Function.update fs.content ino [] }) := by
  rw [create, h]

theorem next_le_create (fs : LockFiles ν α) (name : ν) : fs.next ≤ (fs.create name).2.next := by
  unfold create
  cases fs.link name with
  | some ino => exact le_refl _
  | none => exact Nat.le_succ _

theorem create_link_of_ne (fs : LockFiles ν α) (hne : name' ≠ name) :
    (fs.create name).2.link name' = fs.link name' := by
  unfold create
  cases fs.link name with
  | some ino => rfl
  | none => simp [Function.update_of_ne hne]

/-- Opening a file does not change who holds a lock. -/
theorem create_owner (h : fs.WF) (name : ν) : (fs.create name).2.owner = fs.owner := by
  unfold create
  cases hlink : fs.link name with
  | some ino => rfl
  | none =>
    funext ino
    by_cases hino : ino = fs.next
    · subst hino
      cases howner : fs.owner fs.next with
      | none => simp
      | some q => exact absurd (h.owner_lt _ q howner) (lt_irrefl _)
    · simp [Function.update_of_ne hino]

theorem WF.create (h : fs.WF) (name : ν) : (fs.create name).2.WF := by
  have howner := create_owner h name
  unfold LockFiles.create at howner ⊢
  cases hlink : fs.link name with
  | some ino => exact ⟨h.link_lt, h.owner_lt⟩
  | none =>
    simp only [hlink] at howner
    refine ⟨fun name' ino hino => ?_, fun ino q hino => ?_⟩
    · by_cases hname : name' = name
      · subst hname
        simp only [Function.update_self, Option.some.injEq] at hino
        simp only
        omega
      · simp only [Function.update_of_ne hname] at hino
        exact Nat.lt_succ_of_lt (h.link_lt name' ino hino)
    · rw [howner] at hino
      exact Nat.lt_succ_of_lt (h.owner_lt ino q hino)

theorem create_lt (h : fs.WF) (name : ν) : (fs.create name).1 < (fs.create name).2.next :=
  (h.create name).link_lt name _ (create_link fs name)

theorem WF.unlink (h : fs.WF) (name : ν) : (fs.unlink name).WF := by
  refine ⟨fun name' ino hino => ?_, h.owner_lt⟩
  by_cases hname : name' = name
  · subst hname
    simp [LockFiles.unlink] at hino
  · simp only [LockFiles.unlink, Function.update_of_ne hname] at hino
    exact h.link_lt name' ino hino

end

/-! ## Locks -/

section

variable [DecidableEq α]

/-- `fcntl(F_SETLK)`: it fails when another process holds the lock. -/
def lock (fs : LockFiles ν α) (p : α) (ino : ℕ) : Option (LockFiles ν α) :=
  if fs.owner ino = none ∨ fs.owner ino = some p then
    some { fs with owner := Function.update fs.owner ino (some p) }
  else none

/-- `fcntl(F_GETLK)`: another process that holds the lock. -/
def getLock (fs : LockFiles ν α) (p : α) (ino : ℕ) : Option α :=
  if fs.owner ino = some p then none else fs.owner ino

/-- `close` of a descriptor of the file. -/
def close (fs : LockFiles ν α) (p : α) (ino : ℕ) : LockFiles ν α :=
  { fs with owner := if fs.owner ino = some p then Function.update fs.owner ino none else fs.owner }

/-- The end of a process. -/
def release (fs : LockFiles ν α) (p : α) : LockFiles ν α :=
  { fs with owner := fun ino => if fs.owner ino = some p then none else fs.owner ino }

theorem lock_eq (h : fs.owner ino = none ∨ fs.owner ino = some p) :
    fs.lock p ino = some { fs with owner := Function.update fs.owner ino (some p) } := if_pos h

/-- A lock that is granted was free, or the process had it. -/
theorem lock_some (h : fs.lock p ino = some fs') :
    (fs.owner ino = none ∨ fs.owner ino = some p) ∧
      fs' = { fs with owner := Function.update fs.owner ino (some p) } := by
  unfold lock at h
  split_ifs at h with hfree
  exact ⟨hfree, (Option.some.inj h).symm⟩

theorem lock_none (h : fs.owner ino = some q) (hne : q ≠ p) : fs.lock p ino = none := by
  unfold lock
  rw [if_neg]
  simp [h, hne]

/-- Closing a file gives up the lock on it, and no other. -/
theorem close_owner (fs : LockFiles ν α) (p : α) (ino ino' : ℕ) :
    (fs.close p ino).owner ino' = if ino' = ino ∧ fs.owner ino = some p then none
      else fs.owner ino' := by
  unfold close
  by_cases hown : fs.owner ino = some p
  · by_cases hino : ino' = ino
    · simp [hown, hino]
    · simp [hown, hino]
  · simp [hown]

/-- A process loses its lock by a call of its own only. -/
theorem close_owner_of_ne (hne : q ≠ p) (h : fs.owner ino' = some q) :
    (fs.close p ino).owner ino' = some q := by
  rw [close_owner, if_neg, h]
  rintro ⟨rfl, hown⟩
  exact hne (Option.some.inj (h.symm.trans hown))

theorem WF.lock (h : fs.WF) (hino : ino < fs.next) (hlock : fs.lock p ino = some fs') : fs'.WF := by
  obtain ⟨-, rfl⟩ := lock_some hlock
  refine ⟨h.link_lt, fun ino' q hq => ?_⟩
  by_cases heq : ino' = ino
  · rw [heq]
    exact hino
  · simp only [Function.update_of_ne heq] at hq
    exact h.owner_lt ino' q hq

theorem WF.close (h : fs.WF) (p : α) (ino : ℕ) : (fs.close p ino).WF := by
  refine ⟨h.link_lt, fun ino' q hq => ?_⟩
  rw [close_owner] at hq
  split_ifs at hq
  exact h.owner_lt ino' q hq

theorem WF.release (h : fs.WF) (p : α) : (fs.release p).WF := by
  refine ⟨h.link_lt, fun ino q hq => ?_⟩
  simp only [LockFiles.release] at hq
  split_ifs at hq
  exact h.owner_lt ino q hq

end

end LockFiles

end CompatSuva.Common
