import CompatSuva.Common.LittleEndian

/-!
# Files behind names

A name stands for an inode, and the inode has the content. A stream keeps its inode and its
offset, also when the name is given to another file, and it can have bytes that it has not
written yet. When these are written later, they go over what the inode has then.

* `Inodes.read_create_ne`, `Inodes.read_rename`: the content behind a name, after a file is
  opened for writing and after it gets another name;
* `flush_data_iff`: when bytes that are written later do no harm, in whatever order.
-/

namespace CompatSuva.Common

/-! ## Bytes written at an offset -/

/-- `write`, at an offset; a gap is filled with zeros. -/
def writeAt (data : List Byte) (pos : ℕ) (bytes : List Byte) : List Byte :=
  if bytes = [] then data
  else (data ++ List.replicate (pos - data.length) 0).take pos ++ bytes ++
    data.drop (pos + bytes.length)

/-- The content has these bytes at the offset. -/
def HasAt (data : List Byte) (pos : ℕ) (bytes : List Byte) : Prop :=
  (data.drop pos).take bytes.length = bytes

instance (data : List Byte) (pos : ℕ) (bytes : List Byte) : Decidable (HasAt data pos bytes) :=
  inferInstanceAs (Decidable (_ = _))

theorem hasAt_writeAt (data : List Byte) (pos : ℕ) (bytes : List Byte) :
    HasAt (writeAt data pos bytes) pos bytes := by
  unfold HasAt writeAt
  split
  next h => simp [h]
  next h =>
    have hlength : ((data ++ List.replicate (pos - data.length) 0).take pos).length = pos := by
      simp only [List.length_take, List.length_append, List.length_replicate]
      omega
    rw [List.append_assoc, List.drop_left' hlength, List.take_left]

/-- Bytes that are there already change nothing. -/
theorem writeAt_hasAt {data : List Byte} {pos : ℕ} {bytes : List Byte}
    (h : HasAt data pos bytes) : writeAt data pos bytes = data := by
  unfold writeAt
  split
  next => rfl
  next hne =>
    have hpos : pos < data.length := by
      by_contra hge
      apply hne
      rw [HasAt, List.drop_of_length_le (by omega), List.take_nil] at h
      exact h.symm
    have hbehind : bytes ++ data.drop (pos + bytes.length) = data.drop pos := by
      calc bytes ++ data.drop (pos + bytes.length)
          = (data.drop pos).take bytes.length ++ (data.drop pos).drop bytes.length := by
            rw [List.drop_drop, h]
        _ = data.drop pos := List.take_append_drop _ _
    rw [show pos - data.length = 0 by omega, List.replicate_zero, List.append_nil,
      List.append_assoc, hbehind, List.take_append_drop]

/-! ## Inodes -/

/-- The content of the inodes, of which those below `next` are in use, and the names that stand for
    one. No inode has two names. -/
structure Inodes (ν : Type) where
  data : ℕ → List Byte
  names : ν → Option ℕ
  next : ℕ
  below : ∀ name i, names name = some i → i < next
  unique : ∀ name name' i, names name = some i → names name' = some i → name = name'

/-- A stream with bytes that it has not written. -/
structure Pending where
  inode : ℕ
  pos : ℕ
  bytes : List Byte
  deriving DecidableEq, Repr

namespace Inodes

variable {ν : Type} {f : Inodes ν} {name name' : ν} {i : ℕ}

/-- The content of an inode is replaced. -/
def put (f : Inodes ν) (i : ℕ) (bytes : List Byte) : Inodes ν :=
  { f with data := Function.update f.data i bytes }

/-- What is read from a name, if there is such a file. -/
def read (f : Inodes ν) (name : ν) : Option (List Byte) := (f.names name).map f.data

@[simp] theorem names_put (bytes : List Byte) : (f.put i bytes).names = f.names := rfl

@[simp] theorem data_put_self (bytes : List Byte) : (f.put i bytes).data i = bytes :=
  Function.update_self _ _ _

theorem data_put_ne (bytes : List Byte) {j : ℕ} (h : j ≠ i) :
    (f.put i bytes).data j = f.data j := Function.update_of_ne h _ _

/-! ## What is written later -/

/-- The streams write what they have not written, one after the other. -/
def flush (f : Inodes ν) (streams : List Pending) : Inodes ν :=
  streams.foldl (fun f s => f.put s.inode (writeAt (f.data s.inode) s.pos s.bytes)) f

@[simp] theorem names_flush (streams : List Pending) : (f.flush streams).names = f.names := by
  induction streams generalizing f with
  | nil => rfl
  | cons s streams ih => exact ih

theorem flush_append (streams streams' : List Pending) :
    f.flush (streams ++ streams') = (f.flush streams).flush streams' := List.foldl_append ..

/-- Streams whose bytes are there already, as far as they are on this inode. -/
theorem flush_hasAt {streams : List Pending}
    (h : ∀ s ∈ streams, s.inode = i → HasAt (f.data i) s.pos s.bytes) :
    (f.flush streams).data i = f.data i := by
  induction streams generalizing f with
  | nil => rfl
  | cons s streams ih =>
    have hsame : (f.put s.inode (writeAt (f.data s.inode) s.pos s.bytes)).data i = f.data i := by
      by_cases hi : s.inode = i
      · rw [hi, data_put_self]
        exact writeAt_hasAt (h s List.mem_cons_self hi)
      · exact data_put_ne _ (Ne.symm hi)
    show ((f.put s.inode _).flush streams).data i = f.data i
    rw [ih fun s' hs' hi => hsame ▸ h s' (List.mem_cons_of_mem _ hs') hi, hsame]

/-- The content of an inode survives the streams, in whatever order they write, exactly if it has
    all their bytes. -/
theorem flush_data_iff (f : Inodes ν) (streams : List Pending) (i : ℕ) :
    (∀ order : List Pending, order.Perm streams → (f.flush order).data i = f.data i) ↔
      ∀ s ∈ streams, s.inode = i → HasAt (f.data i) s.pos s.bytes := by
  constructor
  · intro h s hs hi
    -- the order in which `s` comes last
    obtain ⟨before, after, rfl⟩ := List.append_of_mem hs
    have hperm : ((before ++ after) ++ [s]).Perm (before ++ s :: after) := by
      rw [List.append_assoc]
      exact (List.perm_append_singleton s after).append_left before
    have hlast : (f.flush ((before ++ after) ++ [s])).data i =
        writeAt ((f.flush (before ++ after)).data i) s.pos s.bytes := by
      rw [flush_append, ← hi]
      exact data_put_self _
    rw [← h _ hperm, hlast]
    exact hasAt_writeAt _ _ _
  · intro h order hperm
    exact flush_hasAt fun s hs => h s (hperm.mem_iff.mp hs)

/-! ## Names -/

variable [DecidableEq ν]

theorem fresh_below (f : Inodes ν) (name : ν) : ∀ name' i,
    Function.update f.names name (some f.next) name' = some i → i < f.next + 1 := by
  intro name' i h
  by_cases heq : name' = name
  · rw [heq, Function.update_self] at h
    have := Option.some.inj h
    omega
  · rw [Function.update_of_ne heq] at h
    have := f.below _ _ h
    omega

theorem fresh_unique (f : Inodes ν) (name : ν) : ∀ name₁ name₂ i,
    Function.update f.names name (some f.next) name₁ = some i →
      Function.update f.names name (some f.next) name₂ = some i → name₁ = name₂ := by
  intro name₁ name₂ i h₁ h₂
  by_cases heq₁ : name₁ = name
  · by_cases heq₂ : name₂ = name
    · rw [heq₁, heq₂]
    · rw [heq₁, Function.update_self] at h₁
      rw [Function.update_of_ne heq₂] at h₂
      have := f.below _ _ h₂
      have := Option.some.inj h₁
      omega
  · rw [Function.update_of_ne heq₁] at h₁
    by_cases heq₂ : name₂ = name
    · rw [heq₂, Function.update_self] at h₂
      have := f.below _ _ h₁
      have := Option.some.inj h₂
      omega
    · rw [Function.update_of_ne heq₂] at h₂
      exact f.unique _ _ _ h₁ h₂

/-- `fopen(name, "w")`: an inode without content, the one that has the name or a new one. -/
def create (f : Inodes ν) (name : ν) : ℕ × Inodes ν :=
  match f.names name with
  | some i => (i, f.put i [])
  | none =>
    (f.next, { data := Function.update f.data f.next [],
               names := Function.update f.names name (some f.next), next := f.next + 1,
               below := f.fresh_below name, unique := f.fresh_unique name })

theorem moved_below (f : Inodes ν) (old new : ν) : ∀ name i,
    Function.update (Function.update f.names new (f.names old)) old none name = some i →
      i < f.next := by
  intro name i h
  by_cases hold : name = old
  · rw [hold, Function.update_self] at h
    cases h
  rw [Function.update_of_ne hold] at h
  by_cases hnew : name = new
  · rw [hnew, Function.update_self] at h
    exact f.below _ _ h
  · rw [Function.update_of_ne hnew] at h
    exact f.below _ _ h

theorem moved_unique (f : Inodes ν) (old new : ν) : ∀ name₁ name₂ i,
    Function.update (Function.update f.names new (f.names old)) old none name₁ = some i →
      Function.update (Function.update f.names new (f.names old)) old none name₂ = some i →
        name₁ = name₂ := by
  -- the inode was that of `old` if its name is now `new`, and that of the same name otherwise
  have hsource (name : ν) (i : ℕ)
      (h : Function.update (Function.update f.names new (f.names old)) old none name = some i) :
      name ≠ old ∧ f.names (if name = new then old else name) = some i := by
    by_cases hold : name = old
    · rw [hold, Function.update_self] at h
      cases h
    rw [Function.update_of_ne hold] at h
    by_cases hnew : name = new
    · rw [hnew, Function.update_self] at h
      exact ⟨hold, by rwa [if_pos hnew]⟩
    · rw [Function.update_of_ne hnew] at h
      exact ⟨hold, by rwa [if_neg hnew]⟩
  intro name₁ name₂ i h₁ h₂
  obtain ⟨hne₁, hi₁⟩ := hsource _ _ h₁
  obtain ⟨hne₂, hi₂⟩ := hsource _ _ h₂
  have heq := f.unique _ _ _ hi₁ hi₂
  by_cases hnew₁ : name₁ = new
  · by_cases hnew₂ : name₂ = new
    · rw [hnew₁, hnew₂]
    · rw [if_pos hnew₁, if_neg hnew₂] at heq
      exact absurd heq.symm hne₂
  · by_cases hnew₂ : name₂ = new
    · rw [if_neg hnew₁, if_pos hnew₂] at heq
      exact absurd heq hne₁
    · rwa [if_neg hnew₁, if_neg hnew₂] at heq

/-- `rename(old, new)`, where the file is there. -/
def rename (f : Inodes ν) (old new : ν) : Inodes ν :=
  if old = new ∨ f.names old = none then f
  else { f with
    names := Function.update (Function.update f.names new (f.names old)) old none,
    below := f.moved_below old new, unique := f.moved_unique old new }

theorem names_create (f : Inodes ν) (name : ν) :
    (f.create name).2.names name = some (f.create name).1 := by
  unfold create
  split
  next i h => exact h
  next => exact Function.update_self _ _ _

theorem names_create_ne (h : name' ≠ name) : (f.create name).2.names name' = f.names name' := by
  unfold create
  split
  · rfl
  · exact Function.update_of_ne h _ _

theorem create_next (f : Inodes ν) (name : ν) :
    f.next ≤ (f.create name).2.next ∧ (f.create name).1 < (f.create name).2.next := by
  unfold create
  split
  next i h => exact ⟨Nat.le_refl _, f.below _ _ h⟩
  next => exact ⟨Nat.le_succ _, Nat.lt_succ_self _⟩

/-- Whether the inode that has the name, or a new one. -/
theorem create_inode (f : Inodes ν) (name : ν) :
    (f.create name).1 = (f.names name).getD f.next := by
  unfold create
  split
  next i h => rw [h, Option.getD_some]
  next h => rw [h, Option.getD_none]

/-- Another file has another inode, and keeps its content. -/
theorem create_other (h : name' ≠ name) (hi : f.names name' = some i) :
    i ≠ (f.create name).1 ∧ (f.create name).2.data i = f.data i := by
  unfold create
  split
  next j hj =>
    have hne : i ≠ j := fun heq => h (f.unique _ _ _ hi (heq ▸ hj))
    exact ⟨hne, data_put_ne _ hne⟩
  next =>
    have hne : i ≠ f.next := (f.below _ _ hi).ne
    exact ⟨hne, Function.update_of_ne hne _ _⟩

theorem read_put_create_ne (h : name' ≠ name) (bytes : List Byte) :
    ((f.create name).2.put (f.create name).1 bytes).read name' = f.read name' := by
  unfold read
  rw [names_put, names_create_ne h]
  cases hi : f.names name' with
  | none => rfl
  | some i =>
    obtain ⟨hne, hdata⟩ := create_other h hi
    rw [Option.map_some, Option.map_some, data_put_ne _ hne, hdata]

theorem names_rename (h : name ≠ name') (hi : f.names name = some i) :
    (f.rename name name').names name' = some i ∧ (f.rename name name').names name = none := by
  have hnot : ¬ (name = name' ∨ f.names name = none) := by
    rintro (heq | hnone)
    · exact h heq
    · rw [hi] at hnone
      cases hnone
  rw [rename, if_neg hnot]
  refine ⟨?_, Function.update_self _ _ _⟩
  show Function.update (Function.update f.names name' (f.names name)) name none name' = some i
  rw [Function.update_of_ne h.symm, Function.update_self, hi]

@[simp] theorem next_rename : (f.rename name name').next = f.next := by
  unfold rename
  split
  · rfl
  · rfl

@[simp] theorem data_rename : (f.rename name name').data = f.data := by
  unfold rename
  split
  · rfl
  · rfl

end Inodes

end CompatSuva.Common
